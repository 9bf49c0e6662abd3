/-
Xv6Zig/FileRefs.lean

The reference counts of open files are exact.

`FilesOk` with nothing in flight says so of one state: a file has as many
references as descriptors, and none if and only if it is closed.  An end of a
pipe is open as long as a file is that end.  What is left is to follow a pipe's
page through a call: the page stays with the pipe, or it is on the free list,
once, and then no file is an end of the pipe any more.

No file is used without a reference, so `filedup` and `fileclose` find one.  A
call that fails before it looks for a file, such as an `open` of a name that
does not exist, changes nothing here and is no step.
-/
import Xv6Zig.Conserve

namespace Xv6Zig

open Lib

namespace System

variable {s s' : System} {f : FileIx} {p : ProcIx} {e : Call} {ret : Option ℕ} {pa : ℕ}

/-- The file is an end of the pipe on the page; `true` is the end for writing. -/
def IsEnd (s : System) (f : FileIx) (pa : ℕ) (w : Bool) : Prop :=
  0 < (s.ftable f).ref ∧ (s.ftable f).type = .pipe ∧ (s.ftable f).pipe = pa ∧
    (s.ftable f).writable = w

/-- The calls that work on descriptors. -/
def Call.OnFiles : Call → Prop
  | .open _ _ _ _ | .dup _ _ | .pipe _ _ | .close _ _ | .fork _ | .exit _ => True
  | .exec _ _ _ _ | .sbrk _ _ | .wait _ _ => False

/-! ### One state -/

theorem refs_eq_card (o : ProcIx × Fd → Option FileIx) (f : FileIx) :
    refs o f = (Finset.univ.filter fun x => o x = some f).card := by
  unfold refs
  rw [Finset.card_filter]

namespace FilesOk

theorem ref_eq_card (h : FilesOk s 0) (f : FileIx) :
    (s.ftable f).ref = (Finset.univ.filter fun x => s.ofile x = some f).card := by
  rw [h.ref f, Multiset.count_zero, add_zero, refs_eq_card]

theorem ref_eq_zero_iff (h : FilesOk s 0) (f : FileIx) :
    (s.ftable f).ref = 0 ↔ (s.ftable f).type = .none := by
  refine ⟨h.closed f, fun htype => ?_⟩
  rw [h.ref f, Multiset.count_zero, add_zero]
  -- a descriptor refers to no closed file
  by_contra hne
  obtain ⟨x, hx⟩ := refs_pos_iff.mp (Nat.pos_of_ne_zero hne)
  exact h.slot x f hx htype

theorem isEnd_iff (h : FilesOk s 0) {w : Bool} : s.IsEnd f pa w ↔
    (s.ftable f).type = .pipe ∧ (s.ftable f).pipe = pa ∧ (s.ftable f).writable = w := by
  constructor
  · exact fun hend => hend.2
  · intro hend
    refine ⟨Nat.pos_of_ne_zero fun hzero => ?_, hend⟩
    rw [h.closed f hzero] at hend
    cases hend.1

theorem isOpen_iff (h : FilesOk s 0) (hpa : pa ∈ s.kernel.pipes) (w : Bool) :
    (s.ends pa).isOpen w = true ↔ ∃ f, s.IsEnd f pa w := by
  simp only [h.isEnd_iff]
  constructor
  · exact h.opened pa hpa w
  · rintro ⟨f, htype, rfl, rfl⟩
    exact (h.piped f htype).2

/-- A pipe has its page as long as a file is an end of it. -/
theorem mem_pipes_iff_isEnd (h : FilesOk s 0) :
    pa ∈ s.kernel.pipes ↔ ∃ f w, s.IsEnd f pa w := by
  constructor
  · intro hpa
    obtain ⟨w, hw⟩ := h.live pa hpa
    obtain ⟨f, hf⟩ := (h.isOpen_iff hpa w).mp hw
    exact ⟨f, w, hf⟩
  · rintro ⟨f, w, -, htype, rfl, -⟩
    exact (h.piped f htype).1

end FilesOk

/-! ### One call -/

/-- The page of a pipe is on no free list. -/
theorem SysOk.count_pipe (h : SysOk s) (hpa : pa ∈ s.kernel.pipes) :
    s.kernel.mem.free.count pa = 0 := by
  rw [List.count_eq_zero]
  intro hfree
  have hheld : pa ∈ s.kernel.held .pipes := by rwa [Kernel.held_pipes]
  have hheld' : pa ∈ s.kernel.held .free := by rwa [Kernel.held_free]
  cases h.inv.holder_eq hheld hheld'

/-- **The page of a pipe is given back with the last of its files.** -/
theorem CallOk.pipe_page (h : CallOk s s') (hpa : pa ∈ s.kernel.pipes) :
    ((∃ f w, s'.IsEnd f pa w) ∧ pa ∈ s'.kernel.pipes ∧ s'.kernel.mem.free.count pa = 0) ∨
      ((¬ ∃ f w, s'.IsEnd f pa w) ∧ pa ∉ s'.kernel.pipes ∧ s'.kernel.mem.free.count pa = 1) := by
  rw [← h.ok.files.mem_pipes_iff_isEnd]
  by_cases hpipe : pa ∈ s'.kernel.pipes
  · exact .inl ⟨hpipe, hpipe, h.ok.count_pipe hpipe⟩
  · refine .inr ⟨hpipe, hpipe, ?_⟩
    apply List.count_eq_one_of_mem (Kernel.nodup_free h.ok.inv.nodup)
    exact (h.pipes pa hpa).resolve_left hpipe

/-- No call finds a file without a reference. -/
theorem syscall_error {err : Panic} (h : SysOk s) (hruns : s.Runs e) (he : e.OnFiles)
    (hr : s.syscall e = .error err) : ¬ err.OfFiles := by
  cases e with
  | «open» p device readable writable =>
    obtain ⟨s₁, ret, hok, -⟩ := sysOpen_spec h.inv h.files hruns.1 device readable writable
    cases hok.symm.trans hr
  | dup p fd =>
    obtain ⟨s₁, ret, hok, -⟩ := sysDup_spec h.inv h.files hruns.1 fd
    cases hok.symm.trans hr
  | pipe p fdarray =>
    obtain ⟨s₁, ret, hok, -⟩ := sysPipe_spec h.inv h.files hruns.1 fdarray
    cases hok.symm.trans hr
  | close p fd =>
    obtain ⟨s₁, ret, hok, -⟩ := sysClose_spec h.inv h.files p fd
    cases hok.symm.trans hr
  | fork p =>
    change s.fork p = .error err at hr
    unfold fork lift at hr
    have hends := Kernel.fork_ends h.inv hruns
    rcases hfork : s.kernel.fork p with err' | ⟨k₁, - | np⟩
    · rw [hfork] at hr
      obtain rfl : err' = err := Except.error.inj hr
      exact (hends.of_error hfork).2
    · rw [hfork] at hr
      cases hr
    · -- the child's descriptors are free, and the parent's refer to open files
      obtain ⟨hkept, hunused, hprocs, hlive, -⟩ := hends.of_ok hfork
      have hok := h.of_kept hkept fun j hj => by
        by_cases hjn : j = np
        · exact hjn ▸ hlive
        · rwa [hprocs j hjn]
      obtain ⟨s₂, hr₂, -, -⟩ := foldlM_dupFd (p := p) (s := { s with kernel := k₁ })
        (List.finRange 16) (List.nodup_finRange 16) hok.ok.files hlive
        fun fd _ => h.files.idle np fd (by rw [hunused]; decide)
      rw [hfork] at hr
      simp only [ok_bind, hr₂] at hr
      cases hr
  | exit p =>
    change s.exit p = .error err at hr
    unfold exit at hr
    split_ifs at hr with hinit
    · cases hr
      decide
    · obtain ⟨s₁, hr₁, -⟩ := foldlM_closeFd (p := p) (List.finRange 16) h.inv h.files
      rw [hr₁, ok_bind] at hr
      unfold Kernel.exit at hr
      rw [if_neg hinit] at hr
      cases hr
  | exec p path image args => exact he.elim
  | sbrk p n => exact he.elim
  | wait p addr => exact he.elim

theorem withOnly_error {n : ℕ} {err : Panic} (h : SysOk s) (hruns : s.Runs e) (he : e.OnFiles)
    (hr : s.withOnly n e = .error err) : ¬ err.OfFiles := by
  have hfree : s.kernel.mem.free = s.kernel.mem.free.take n ++ s.kernel.mem.free.drop n :=
    (List.take_append_drop n _).symm
  obtain ⟨hok, -⟩ := setFree_ok h hfree
  have hruns' : (s.setFree (s.kernel.mem.free.take n)).Runs e := by
    cases e <;> exact hruns
  unfold withOnly at hr
  rcases hcall : (s.setFree (s.kernel.mem.free.take n)).syscall e with err' | r
  · rw [hcall] at hr
    obtain rfl : err' = err := Except.error.inj hr
    exact syscall_error hok hruns' he hcall
  · rw [hcall] at hr
    cases hr

/-! ### Runs -/

section Runs

variable {kend trampoline : ℕ} {free : List ℕ} {k₀ : Kernel} {tr : List Call}

/-- What the counts of the open files are between two calls. -/
structure Exact (s : System) : Prop where
  ref : ∀ f, (s.ftable f).ref = (Finset.univ.filter fun x => s.ofile x = some f).card
  closed : ∀ f, (s.ftable f).ref = 0 ↔ (s.ftable f).type = .none
  page : ∀ f, (s.ftable f).type = .pipe → (s.ftable f).pipe ∈ s.kernel.pipes
  readopen : ∀ pa ∈ s.kernel.pipes, (s.ends pa).readopen = true ↔ ∃ f, s.IsEnd f pa false
  writeopen : ∀ pa ∈ s.kernel.pipes, (s.ends pa).writeopen = true ↔ ∃ f, s.IsEnd f pa true
  free : s.kernel.mem.free.Nodup

/-- What a call does with the pages of pipes: an old pipe keeps its page, which
is not free, or has lost its last file and the page was freed once; a `pipe`
that fails has given back what it took. -/
structure PipesFreed (s s' : System) (ret : Option ℕ) (e : Call) : Prop where
  old : ∀ pa ∈ s.kernel.pipes, s.kernel.mem.free.count pa = 0 ∧
    (((∃ f w, s'.IsEnd f pa w) ∧ pa ∈ s'.kernel.pipes ∧ s'.kernel.mem.free.count pa = 0) ∨
      ((¬ ∃ f w, s'.IsEnd f pa w) ∧ pa ∉ s'.kernel.pipes ∧ s'.kernel.mem.free.count pa = 1))
  failed : ∀ p fdarray, e = .pipe p fdarray → ret = none →
    s'.kernel.mem.free.Perm s.kernel.mem.free

/-- **The counts are exact in every run**, whichever calls fail, and no call on
descriptors panics in `filedup` or `fileclose`. -/
theorem file_refs_exact (htr : trampoline < kend) (hnodup : free.Nodup)
    (hvalid : ∀ pa ∈ free, ValidPage kend pa)
    (hu : (Kernel.boot kend trampoline free).userinit = .ok (some k₀))
    (hrun : Run Steps (start k₀) tr s) :
    Exact s ∧
      (∀ e n s' ret, s.Runs e → s.withOnly n e = .ok (s', ret) → PipesFreed s s' ret e) ∧
      ∀ e n err, s.Runs e → e.OnFiles → s.withOnly n e = .error err →
        err ≠ .filedup ∧ err ≠ .fileclose := by
  obtain ⟨hok, -, -⟩ := run_ok (start_ok htr hnodup hvalid hu) hrun
  refine ⟨⟨hok.files.ref_eq_card, hok.files.ref_eq_zero_iff, ?_, ?_, ?_,
    Kernel.nodup_free hok.inv.nodup⟩, ?_, ?_⟩
  · exact fun f htype => (hok.files.piped f htype).1
  · exact fun pa hpa => hok.files.isOpen_iff hpa false
  · exact fun pa hpa => hok.files.isOpen_iff hpa true
  · intro e n s' ret hruns hr
    obtain ⟨hcall, hret⟩ := withOnly_spec hok hruns hr
    refine ⟨fun pa hpa => ⟨hok.count_pipe hpa, hcall.pipe_page hpa⟩, ?_⟩
    rintro p fdarray rfl hfail
    exact Multiset.coe_eq_coe.mp (hret hfail)
  · intro e n err hruns he hr
    exact not_or.mp (withOnly_error hok hruns he hr)

/-- A pipe that parent and child share: the parent's descriptors are closed, and
the child's exit frees the page. -/
theorem file_refs_exact_shared :
    ∃ k₀ s s', Run Steps (start k₀) [.pipe 0 0, .fork 0, .close 0 0, .close 0 1] s ∧ Exact s ∧
      s.withOnly 0 (.exit 1) = .ok (s', none) ∧ PipesFreed s s' none (.exit 1) ∧
      ∃ pa ∈ s.kernel.pipes, pa ∉ s'.kernel.pipes := by
  have hdemo : (Kernel.demo.bind fun k => ([.pipe 0 0, .fork 0, .close 0 0, .close 0 1]
        : List Call).foldlM next (start k)).map
      (fun s => (decide (s.Runs (.exit 1)), s.kernel.pipes.length,
        (s.withOnly 0 (.exit 1)).toOption.map fun r => (r.2.isNone, r.1.kernel.pipes)))
      = some (true, 1, some (true, [])) := by decide +kernel
  obtain ⟨s, hs, hv⟩ := Option.map_eq_some_iff.mp hdemo
  obtain ⟨k₀, hk₀, hfold⟩ := Option.bind_eq_some_iff.mp hs
  obtain ⟨hruns, hv⟩ := Prod.mk.inj hv
  obtain ⟨hlen, hcall⟩ := Prod.mk.inj hv
  obtain ⟨⟨s', ret⟩, hr, hret⟩ := Option.map_eq_some_iff.mp hcall
  obtain ⟨hnone, hempty⟩ := Prod.mk.inj hret
  obtain rfl : ret = none := Option.isNone_iff_eq_none.mp hnone
  have hrun : Run Steps (start k₀) [.pipe 0 0, .fork 0, .close 0 0, .close 0 1] s :=
    Run.of_foldlM steps_of_next _ hfold
  obtain ⟨hexact, hpipes, -⟩ := file_refs_exact (by decide) (by decide) (by decide)
    (Kernel.demo_userinit hk₀) hrun
  obtain ⟨pa, hpa⟩ := List.exists_mem_of_length_pos (show 0 < s.kernel.pipes.length by omega)
  refine ⟨k₀, s, s', hrun, hexact, toOption_eq_some hr,
    hpipes _ _ _ _ (of_decide_eq_true hruns) (toOption_eq_some hr), pa, hpa, ?_⟩
  rw [show s'.kernel.pipes = [] from hempty]
  exact List.not_mem_nil

end Runs

end System

end Xv6Zig
