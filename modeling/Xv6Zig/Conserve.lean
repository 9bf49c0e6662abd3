/-
Xv6Zig/Conserve.lean

Process memory is conserved.

Between two calls every page that `kinit` handed over is in one place: on the
free list, a node of a page table, a user page, a trapframe or the page of a
pipe that a descriptor refers to.  No call leaves it anywhere else, whichever
of its `kalloc`s fail, and what a failed call took is given back.
-/
import Xv6Zig.FilesInv

namespace Xv6Zig

open Lib Function

namespace Kernel

variable {k k' : Kernel} {p : ProcIx} {r : RingIx}

/-- Nobody owns a ring buffer, so that none has pages. -/
theorem Inv.ring_pages (h : Inv k) (hno : ∀ p r, ¬ k.Owns p r) (r : RingIx) :
    (k.ringbufs r).pages = [] := by
  have hzero : (k.ringbufs r).refcount = 0 := by
    rw [(h.ring r).count, Ringbuf.ownerCount, Finset.card_eq_zero, Finset.filter_eq_empty_iff]
    intro i _
    rw [not_not]
    by_contra hne
    obtain ⟨q, hq⟩ := Option.ne_none_iff_exists'.mp hne
    exact hno q r ⟨i, hq⟩
  exact ((h.ring r).idle hzero).pages_eq

/-- A page stays in the ledger: it is still with its holder, or with one whose
pages have changed. -/
theorem Inv.mem_held_of_pages (h : Inv k) (hpages : k'.pages = k.pages) {x : Holder} {pa : ℕ}
    (hx : pa ∈ k.held x) : ∃ y, pa ∈ k'.held y ∧ (k'.held y = k.held y → y = x) := by
  have hmem : pa ∈ k'.pages := by
    rw [hpages]
    exact Inv.mem_pages hx
  unfold pages at hmem
  obtain ⟨y, -, hy⟩ := Multiset.mem_sum.mp hmem
  exact ⟨y, hy, fun heq => h.holder_eq (heq ▸ hy) hx⟩

theorem Inv.nodup_table (h : Inv k) (p : ProcIx) : (k.procs p).pagetable.pages.Nodup :=
  (List.nodup_append'.mp (List.nodup_append'.mp (h.nodup_proc p)).1).2.1

/-- If everyone else holds the same pages, so does the free list. -/
theorem free_eq_of_held (hpages : k'.pages = k.pages)
    (hrest : ∀ x, x ≠ Holder.free → k'.held x = k.held x) :
    (k'.mem.free : Multiset ℕ) = k.mem.free := by
  unfold pages at hpages
  rw [sum_eq_add_erase _ Holder.free, sum_eq_add_erase k.held Holder.free, held_free, held_free,
    Finset.sum_congr rfl fun x hx => hrest x (Finset.ne_of_mem_erase hx)] at hpages
  exact add_right_cancel hpages

/-- A pipe keeps its page or gives it back. -/
theorem PipeKept.mem_pipes (h : Inv k) (hkept : PipeKept k k') {pa : ℕ} (hpa : pa ∈ k.pipes) :
    pa ∈ k'.pipes ∨ pa ∈ k'.mem.free := by
  have hheld : pa ∈ k.held .pipes := by rwa [held_pipes]
  obtain ⟨x, hx, hsame⟩ := h.mem_held_of_pages hkept.pages hheld
  cases x with
  | free =>
    rw [held_free] at hx
    exact .inr hx
  | pipes =>
    rw [held_pipes] at hx
    exact .inl hx
  | ring r =>
    rw [held_ring, held_ring, hkept.rings] at hsame
    cases hsame rfl
  | proc p =>
    rw [held_proc, held_proc, hkept.procs] at hsame
    cases hsame rfl

theorem free_of_exit {p : ProcIx} (h : k.exit p = .ok k') : k'.mem.free = k.mem.free := by
  unfold exit at h
  split_ifs at h
  cases h
  rfl

end Kernel

namespace System

open Kernel (PipeKept Kept Inv)

variable {s s' : System} {held : Multiset FileIx} {f : FileIx} {p : ProcIx} {x : ProcIx × Fd}
  {e : Call} {ret : Option ℕ}

/-! ### The calls on descriptors -/

theorem pipeclose_setFd (s : System) (pa : ℕ) (w : Bool) (x : ProcIx × Fd) (o : Option FileIx) :
    (s.setFd x o).pipeclose pa w = (do let s ← s.pipeclose pa w; .ok (s.setFd x o)) := by
  unfold pipeclose
  simp only [setFd_ends, setFd_kernel]
  by_cases hends : ((s.ends pa).close w).readopen = false ∧ ((s.ends pa).close w).writeopen = false
  · rcases hk : s.kernel.pipeclose pa with e | k'
    · simp [hends]
    · simp only [hends, and_self, if_true]
      rfl
  · simp only [hends, if_false]
    rfl

theorem fileclose_setFd (s : System) (f : FileIx) (x : ProcIx × Fd) (o : Option FileIx) :
    (s.setFd x o).fileclose f = (do let s ← s.fileclose f; .ok (s.setFd x o)) := by
  unfold fileclose
  simp only [setFd_ftable]
  by_cases hnone : (s.ftable f).ref < 1
  · simp [hnone]
  by_cases hmany : 1 < (s.ftable f).ref
  · simp only [hnone, hmany, if_true, if_false]
    rfl
  simp only [hnone, hmany, if_false]
  cases (s.ftable f).type with
  | pipe => exact pipeclose_setFd (s.setFile f _) _ _ x o
  | _ => rfl

theorem closeBoth_spec (hinv : Inv s.kernel) {rf wf : FileIx}
    (h : FilesOk s (rf ::ₘ wf ::ₘ held)) :
    ∃ s', s.closeBoth rf wf = .ok (s', none) ∧ FilesOk s' held ∧ FileKept s s' := by
  obtain ⟨s₁, hr₁, hok₁, hkept₁⟩ := fileclose_spec hinv h
  obtain ⟨s₂, hr₂, hok₂, hkept₂⟩ := fileclose_spec hkept₁.kernel.inv hok₁
  refine ⟨s₂, ?_, hok₂, hkept₁.kernel.trans hkept₂.kernel, hkept₂.ofile.trans hkept₁.ofile⟩
  simp only [closeBoth, hr₁, hr₂, ok_bind]

/-- The page of a new pipe goes when its files are closed. -/
theorem closeBoth_fresh (hinv : Inv s.kernel) {rf wf : FileIx} {pi : ℕ}
    (hfresh : FreshPipe s rf wf pi) (hpi : pi ∈ s.kernel.pipes)
    (hr : s.closeBoth rf wf = .ok (s', ret)) : s'.kernel.pipes = s.kernel.pipes.erase pi := by
  obtain ⟨k', hk', -, hpipes⟩ := Kernel.pipeclose_spec hinv hpi
  have hlast : ∀ {s : System} {f : FileIx} {rd w : Bool}, s.ftable f = ⟨.pipe, 1, rd, w, pi⟩ →
      s.fileclose f = (s.setFile f ⟨.none, 0, rd, w, pi⟩).pipeclose pi w := by
    intro s f rd w hf
    simp [fileclose, hf]
  have hwf : ({ s.setFile rf ⟨.none, 0, true, false, pi⟩ with
      ends := update s.ends pi ⟨false, true⟩ } : System).ftable wf
      = ⟨.pipe, 1, false, true, pi⟩ := by
    simp [hfresh.ne.symm, hfresh.wf]
  have hfirst : s.fileclose rf = .ok { s.setFile rf ⟨.none, 0, true, false, pi⟩ with
      ends := update s.ends pi ⟨false, true⟩ } := by
    rw [hlast hfresh.rf]
    simp [pipeclose, hfresh.ends, PipeEnds.close]
  rw [closeBoth, hfirst, ok_bind, hlast hwf] at hr
  simp [pipeclose, PipeEnds.close, hk'] at hr
  obtain ⟨rfl, -⟩ := hr
  exact hpipes

/-- What the calls on descriptors keep; a call that fails leaves the pipes as
they were. -/
structure FdKept (s s' : System) (ret : Option ℕ) : Prop where
  files : FilesOk s' 0
  kernel : PipeKept s.kernel s'.kernel
  failed : ret = none → s'.kernel.pipes = s.kernel.pipes

theorem sysPipe_spec (hinv : Inv s.kernel) (h : FilesOk s 0)
    (hlive : (s.kernel.procs p).state = .live) (fdarray : ℕ) :
    ∃ s' ret, s.sysPipe p fdarray = .ok (s', ret) ∧ FdKept s s' ret := by
  unfold sysPipe
  rcases pipealloc_spec hinv h with ⟨s₁, hr₁, hok₁, ho₁, hk₁⟩ |
    ⟨s₁, rf, wf, pi, hr₁, hok₁, ho₁, hkept₁, hfresh, hpipes₁⟩
  · rw [hr₁, ok_bind]
    exact ⟨s₁, none, rfl, hok₁, hk₁ ▸ PipeKept.refl (hk₁ ▸ hinv), fun _ => by rw [hk₁]⟩
  -- a failure from here on closes both files
  have hbad : ∀ s₂ : System, FilesOk s₂ (rf ::ₘ wf ::ₘ 0) → s₂.kernel = s₁.kernel →
      s₂.ftable = s₁.ftable → s₂.ends = s₁.ends →
      ∃ s' ret, s₂.closeBoth rf wf = .ok (s', ret) ∧ FdKept s s' ret := by
    intro s₂ hok₂ hk hf he
    have hinv₂ : Inv s₂.kernel := hk ▸ hkept₁.inv
    have hpi : pi ∈ s₂.kernel.pipes := by
      rw [hk, hpipes₁]
      exact List.mem_cons_self
    have hfresh₂ : FreshPipe s₂ rf wf pi :=
      ⟨hfresh.ne, hf ▸ hfresh.rf, hf ▸ hfresh.wf, he ▸ hfresh.ends⟩
    obtain ⟨s₃, hr₃, hok₃, hkept₃⟩ := closeBoth_spec hinv₂ hok₂
    refine ⟨s₃, none, hr₃, hok₃, hkept₁.trans (hk ▸ hkept₃.kernel), fun _ => ?_⟩
    rw [closeBoth_fresh hinv₂ hfresh₂ hpi hr₃, hk, hpipes₁, List.erase_cons_head]
  have hlive₁ : (s₁.kernel.procs p).state = .live := by rwa [hkept₁.procs]
  have htype : ∀ f, f = rf ∨ f = wf → (s₁.ftable f).type ≠ .none := by
    rintro f (rfl | rfl)
    · simp [hfresh.rf]
    · simp [hfresh.wf]
  rw [hr₁, ok_bind]
  simp only
  rcases hr₂ : s₁.fdalloc p rf with - | ⟨fd0, s₂⟩
  · exact hbad s₁ hok₁ rfl rfl rfl
  obtain ⟨hfd0, rfl⟩ := FilesOk.of_fdalloc hr₂
  have hok₂ := hok₁.setFd_some hfd0 (htype rf (.inl rfl)) hlive₁
  simp only
  rcases hr₃ : (s₁.setFd (p, fd0) (some rf)).fdalloc p wf with - | ⟨fd1, s₃⟩
  · refine hbad _ (hok₂.setFd_none ?_) rfl rfl rfl
    simp
  obtain ⟨hfd1, rfl⟩ := FilesOk.of_fdalloc hr₃
  have hok₃ := hok₂.setFd_some hfd1 (htype wf (.inr rfl)) hlive₁
  have hfd : (p, fd1) ≠ (p, fd0) := by
    intro heq
    rw [heq] at hfd1
    simp at hfd1
  simp only
  split_ifs with hcopy
  · exact ⟨_, _, rfl, hok₃, hkept₁, fun hno => nomatch hno⟩
  · refine hbad _ ?_ rfl rfl rfl
    rw [Multiset.cons_swap]
    refine (hok₃.setFd_none ?_).setFd_none ?_
    · simp [Ne.symm hfd]
    · simp [hfd]

theorem argfd_some {fd : Int32} {i : Fd} (h : s.argfd p fd = some (i, f)) :
    s.ofile (p, i) = some f := by
  unfold argfd at h
  split_ifs at h
  obtain ⟨g, hg, heq⟩ := Option.map_eq_some_iff.mp h
  cases heq
  exact hg

theorem FilesOk.ref_ne_zero (h : FilesOk s held) (hx : s.ofile x = some f) :
    (s.ftable f).ref ≠ 0 := by
  have hpos := refs_pos_iff.mpr ⟨x, hx⟩
  have href := h.ref f
  omega

theorem sysDup_spec (hinv : Inv s.kernel) (h : FilesOk s 0)
    (hlive : (s.kernel.procs p).state = .live) (fd : Int32) :
    ∃ s' ret, s.sysDup p fd = .ok (s', ret) ∧ FdKept s s' ret := by
  unfold sysDup
  rcases harg : s.argfd p fd with - | ⟨i, f⟩
  · exact ⟨s, none, rfl, h, PipeKept.refl hinv, fun _ => rfl⟩
  simp only
  rcases halloc : s.fdalloc p f with - | ⟨j, s₁⟩
  · exact ⟨s, none, rfl, h, PipeKept.refl hinv, fun _ => rfl⟩
  obtain ⟨hj, rfl⟩ := FilesOk.of_fdalloc halloc
  have hx := argfd_some harg
  obtain ⟨hdup, hok⟩ := h.filedup_spec (h.ref_ne_zero hx)
  have hdup' : (s.setFd (p, j) (some f)).filedup f = .ok ((s.setFile f
      { s.ftable f with ref := (s.ftable f).ref + 1 }).setFd (p, j) (some f)) := by
    unfold filedup at hdup ⊢
    rw [setFd_ftable]
    split_ifs at hdup ⊢
    rfl
  simp only [hdup', ok_bind]
  refine ⟨_, _, rfl, hok.setFd_some hj ?_ hlive, PipeKept.refl hinv, fun _ => rfl⟩
  simpa using h.slot (p, i) f hx

theorem sysClose_spec (hinv : Inv s.kernel) (h : FilesOk s 0) (p : ProcIx) (fd : Int32) :
    ∃ s' ret, s.sysClose p fd = .ok (s', ret) ∧ FdKept s s' ret := by
  unfold sysClose
  rcases harg : s.argfd p fd with - | ⟨i, f⟩
  · exact ⟨s, none, rfl, h, PipeKept.refl hinv, fun _ => rfl⟩
  obtain ⟨s₁, hr₁, hok₁, hkept₁⟩ := fileclose_spec (s := s.setFd (p, i) none) hinv
    (h.setFd_none (argfd_some harg))
  simp only [hr₁, ok_bind]
  exact ⟨s₁, some 0, rfl, hok₁, hkept₁.kernel, fun hno => nomatch hno⟩

theorem sysOpen_spec (hinv : Inv s.kernel) (h : FilesOk s 0)
    (hlive : (s.kernel.procs p).state = .live) (device readable writable : Bool) :
    ∃ s' ret, s.sysOpen p device readable writable = .ok (s', ret) ∧ FdKept s s' ret := by
  unfold sysOpen
  rcases hr₁ : s.filealloc with - | ⟨f, s₁⟩
  · exact ⟨s, none, rfl, h, PipeKept.refl hinv, fun _ => rfl⟩
  obtain ⟨-, hs₁, hok₁⟩ := h.of_filealloc hr₁
  obtain ⟨htype, href⟩ := h.type_of_filealloc hr₁
  have hk₁ : s₁.kernel = s.kernel := by rw [hs₁]; rfl
  simp only
  rcases hr₂ : s₁.fdalloc p f with - | ⟨fd, s₂⟩
  · obtain ⟨s₃, hr₃, hok₃, -⟩ := fileclose_spec (hk₁ ▸ hinv) hok₁
    obtain ⟨hk₃, -⟩ := fileclose_kernel (by rw [htype]; decide) hr₃
    simp only [hr₃, ok_bind]
    have hk : s₃.kernel = s.kernel := hk₃.trans hk₁
    exact ⟨s₃, none, rfl, hok₃, hk ▸ PipeKept.refl (hk ▸ hinv), fun _ => by rw [hk]⟩
  · obtain ⟨hfd, rfl⟩ := FilesOk.of_fdalloc hr₂
    simp only
    refine ⟨_, _, rfl, ?_, by rw [setFile_kernel, setFd_kernel, hk₁]; exact PipeKept.refl hinv,
      fun hno => nomatch hno⟩
    -- the type could have been set before the descriptor
    have hok₂ : FilesOk (s₁.setFile f { s₁.ftable f with
        type := if device then .device else .inode
        readable := readable
        writable := writable }) (f ::ₘ 0) := by
      refine hok₁.of_type (by rw [htype]; decide) rfl (by rw [href]; decide) ?_ ?_
      · cases device <;> simp
      · cases device <;> simp
    refine hok₂.setFd_some hfd ?_ (by rw [setFile_kernel, hk₁]; exact hlive)
    cases device <;> simp

/-! ### `fork` and `exit` -/

/-- The memory system has made a step that leaves the pipes alone. -/
theorem FilesOk.of_kernel (h : FilesOk s held) {k' : Kernel} (hpipes : k'.pipes = s.kernel.pipes)
    (hidle : ∀ p, (k'.procs p).state ≠ .live → ∀ fd, s.ofile (p, fd) = none) :
    FilesOk { s with kernel := k' } held := by
  refine ⟨h.ref, h.closed, h.slot, ?_, h.one, ?_, ?_, fun p fd hp => hidle p hp fd⟩
  · simpa only [hpipes] using h.piped
  · simpa only [hpipes] using h.opened
  · simpa only [hpipes] using h.live

theorem foldlM_dupFd {np : ProcIx} (l : List Fd) (hl : l.Nodup) (h : FilesOk s 0)
    (hlive : (s.kernel.procs np).state = .live) (hnew : ∀ fd ∈ l, s.ofile (np, fd) = none) :
    ∃ s', l.foldlM (dupFd p np) s = .ok s' ∧ FilesOk s' 0 ∧ s'.kernel = s.kernel := by
  induction l generalizing s with
  | nil => exact ⟨s, rfl, h, rfl⟩
  | cons fd l ih =>
    obtain ⟨hfd, hl⟩ := List.nodup_cons.mp hl
    obtain ⟨s₁, hr₁, hok₁, hk₁, hnew₁⟩ : ∃ s₁, dupFd p np s fd = .ok s₁ ∧ FilesOk s₁ 0 ∧
        s₁.kernel = s.kernel ∧ ∀ fd ∈ l, s₁.ofile (np, fd) = none := by
      unfold dupFd
      rcases hx : s.ofile (p, fd) with - | f
      · exact ⟨s, rfl, h, rfl, fun i hi => hnew i (List.mem_cons_of_mem fd hi)⟩
      · obtain ⟨hdup, hok⟩ := h.filedup_spec (h.ref_ne_zero hx)
        refine ⟨(s.setFile f { s.ftable f with ref := (s.ftable f).ref + 1 }).setFd (np, fd) (some f),
          by simp only [hdup, ok_bind], ?_, rfl, fun i hi => ?_⟩
        · refine hok.setFd_some (hnew fd List.mem_cons_self) ?_ hlive
          simpa using h.slot (p, fd) f hx
        · have hne : (np, i) ≠ (np, fd) := fun heq => hfd ((Prod.mk.inj heq).2 ▸ hi)
          rw [setFd_ofile, update_of_ne hne]
          exact hnew i (List.mem_cons_of_mem fd hi)
    obtain ⟨s', hr', hok', hk'⟩ := ih hl hok₁ (hk₁ ▸ hlive) hnew₁
    refine ⟨s', ?_, hok', hk'.trans hk₁⟩
    rw [List.foldlM_cons, hr₁, ok_bind, hr']

theorem foldlM_closeFd (l : List Fd) (hinv : Inv s.kernel) (h : FilesOk s 0) :
    ∃ s', l.foldlM (closeFd p) s = .ok s' ∧ FilesOk s' 0 ∧ PipeKept s.kernel s'.kernel ∧
      ∀ fd, fd ∈ l ∨ s.ofile (p, fd) = none → s'.ofile (p, fd) = none := by
  induction l generalizing s with
  | nil => exact ⟨s, rfl, h, PipeKept.refl hinv, by simp⟩
  | cons fd l ih =>
    obtain ⟨s₁, hr₁, hok₁, hk₁, hnone₁⟩ : ∃ s₁, closeFd p s fd = .ok s₁ ∧ FilesOk s₁ 0 ∧
        PipeKept s.kernel s₁.kernel ∧
        ∀ i, i = fd ∨ s.ofile (p, i) = none → s₁.ofile (p, i) = none := by
      unfold closeFd
      rcases hx : s.ofile (p, fd) with - | f
      · refine ⟨s, rfl, h, PipeKept.refl hinv, ?_⟩
        rintro i (rfl | hi)
        · exact hx
        · exact hi
      · -- the descriptor could have been cleared first
        obtain ⟨s₁, hr, hok, hkept⟩ :=
          fileclose_spec (s := s.setFd (p, fd) none) hinv (h.setFd_none hx)
        rw [fileclose_setFd] at hr
        refine ⟨s₁, hr, hok, hkept.kernel, ?_⟩
        rw [hkept.ofile, setFd_ofile]
        rintro i (rfl | hi)
        · exact update_self _ _ _
        · by_cases hifd : i = fd
          · simp [hifd]
          · rw [update_of_ne (fun heq => hifd (Prod.mk.inj heq).2)]
            exact hi
    obtain ⟨s', hr', hok', hk', hnone'⟩ := ih hk₁.inv hok₁
    refine ⟨s', ?_, hok', hk₁.trans hk', fun i hi => ?_⟩
    · rw [List.foldlM_cons, hr₁, ok_bind, hr']
    · rw [List.mem_cons, or_assoc] at hi
      rcases hi with rfl | hi | hi
      · exact hnone' i (.inr (hnone₁ i (.inl rfl)))
      · exact hnone' i (.inl hi)
      · exact hnone' i (.inr (hnone₁ i (.inr hi)))

/-! ### Every call -/

/-- **What holds between two calls of processes without ring buffers.** -/
structure SysOk (s : System) : Prop where
  inv : Inv s.kernel
  files : FilesOk s 0
  rings : ∀ p r, ¬ s.kernel.Owns p r

/-- What a call keeps. -/
structure CallOk (s s' : System) : Prop where
  ok : SysOk s'
  pages : s'.kernel.pages = s.kernel.pages
  kend : s'.kernel.mem.kend = s.kernel.mem.kend
  pipes : ∀ pa ∈ s.kernel.pipes, pa ∈ s'.kernel.pipes ∨ pa ∈ s'.kernel.mem.free

/-- The free list is the same if the processes and the pipes are. -/
theorem CallOk.free_eq (h : CallOk s s') (hs : SysOk s)
    (hprocs : s'.kernel.procs = s.kernel.procs) (hpipes : s'.kernel.pipes = s.kernel.pipes) :
    (s'.kernel.mem.free : Multiset ℕ) = s.kernel.mem.free := by
  refine Kernel.free_eq_of_held h.pages fun x hx => ?_
  cases x with
  | free => exact absurd rfl hx
  | pipes => rw [Kernel.held_pipes, Kernel.held_pipes, hpipes]
  | proc j => rw [Kernel.held_proc, Kernel.held_proc, hprocs]
  | ring r =>
    rw [Kernel.held_ring, Kernel.held_ring, h.ok.inv.ring_pages h.ok.rings,
      hs.inv.ring_pages hs.rings]

theorem SysOk.of_fdKept (h : SysOk s) (hkept : FdKept s s' ret) : CallOk s s' := by
  refine ⟨⟨hkept.kernel.inv, hkept.files, ?_⟩, hkept.kernel.pages, hkept.kernel.kend,
    fun pa hpa => hkept.kernel.mem_pipes h.inv hpa⟩
  unfold Kernel.Owns
  rw [hkept.kernel.rings]
  exact h.rings

/-- A call of the memory system that leaves descriptors to live processes only. -/
theorem SysOk.of_kept (h : SysOk s) {k' : Kernel} (hkept : Kept s.kernel k')
    (hstate : ∀ j, (s.kernel.procs j).state = .live → (k'.procs j).state = .live) :
    CallOk s { s with kernel := k' } := by
  refine ⟨⟨hkept.inv, h.files.of_kernel hkept.pipes fun j hj fd => ?_, ?_⟩, hkept.pages, hkept.kend,
    fun pa hpa => .inl (hkept.pipes ▸ hpa)⟩
  · exact h.files.idle j fd fun hlive => hj (hstate j hlive)
  · exact fun p r hown => h.rings p r (hkept.owns hown)

theorem fork_spec (h : SysOk s) (hrun : s.kernel.Running p) (hr : s.fork p = .ok (s', ret)) :
    CallOk s s' ∧ (ret = none → (s'.kernel.mem.free : Multiset ℕ) = s.kernel.mem.free) := by
  obtain ⟨⟨s₁, np⟩, hlift, hr⟩ := bind_eq_ok.mp hr
  obtain ⟨⟨k₁, np'⟩, hfork, heq⟩ := bind_eq_ok.mp hlift
  obtain ⟨rfl, rfl⟩ := Prod.mk.inj (Except.ok.inj heq)
  obtain ⟨hkept, hforked⟩ := (Kernel.fork_ends h.inv hrun).of_ok hfork
  cases np' with
  | none =>
    cases hr
    have hprocs : k₁.procs = s.kernel.procs := hforked
    have hok := h.of_kept hkept fun j hj => by rwa [hprocs]
    exact ⟨hok, fun _ => hok.free_eq h hprocs hkept.pipes⟩
  | some np =>
    obtain ⟨hunused, hprocs, hlive, -⟩ := hforked
    have hok := h.of_kept hkept fun j hj => by
      by_cases hjn : j = np
      · exact hjn ▸ hlive
      · rwa [hprocs j hjn]
    obtain ⟨s₂, hr₂, hok₂, hk₂⟩ := foldlM_dupFd (p := p) (s := { s with kernel := k₁ })
      (List.finRange 16) (List.nodup_finRange 16) hok.ok.files hlive
      fun fd _ => h.files.idle np fd (by rw [hunused]; decide)
    simp only [hr₂, ok_bind] at hr
    cases hr
    refine ⟨⟨⟨hk₂ ▸ hok.ok.inv, hok₂, hk₂ ▸ hok.ok.rings⟩, ?_, ?_, ?_⟩, fun hno => nomatch hno⟩
    · rw [hk₂, ← hok.pages]
    · rw [hk₂, ← hok.kend]
    · rw [hk₂]
      exact hok.pipes

theorem exec_spec (h : SysOk s) (hlive : (s.kernel.procs p).state = .live) {path : Bool}
    {image : Option (List Kernel.Phdr)} {args : List Kernel.Arg}
    (hr : s.lift (s.kernel.sysExec p path image args) = .ok (s', ret)) :
    CallOk s s' ∧ (ret = none → (s'.kernel.mem.free : Multiset ℕ) = s.kernel.mem.free) := by
  obtain ⟨⟨k₁, argc⟩, hexec, heq⟩ := bind_eq_ok.mp hr
  obtain ⟨rfl, rfl⟩ := Prod.mk.inj (Except.ok.inj heq)
  obtain ⟨hkept, hrep, -⟩ := (Kernel.sysExec_ends h.inv hlive path args).of_ok hexec
  have hok := h.of_kept hkept fun j hj => by
    cases argc with
    | none => rwa [show k₁.procs = s.kernel.procs from hrep]
    | some argc =>
      by_cases hjp : j = p
      · rw [hjp, hrep.2.1]
        exact hlive
      · rwa [hrep.1 j hjp]
  refine ⟨hok, ?_⟩
  rintro rfl
  exact hok.free_eq h hrep hkept.pipes

theorem sbrk_spec (h : SysOk s) (hrun : s.kernel.Running p) {n : Int32} {ok : Bool}
    (hr : s.lift (s.kernel.growproc p n) = .ok (s', ok)) :
    CallOk s s' ∧ (ok = false → ∀ pa ∈ s.kernel.mem.free,
      pa ∈ s'.kernel.mem.free ∨ pa ∈ (s'.kernel.procs p).pagetable.pages) := by
  obtain ⟨⟨k₁, ok'⟩, hgrow, heq⟩ := bind_eq_ok.mp hr
  cases heq
  obtain ⟨hkept, hres⟩ := (Kernel.growproc_ends h.inv hrun n).of_ok hgrow
  have hok := h.of_kept hkept fun j hj => by
    by_cases hjp : j = p
    · rw [hjp, hres.self]
      exact hrun.1
    · rwa [hres.procs j hjp]
  refine ⟨hok, ?_⟩
  rintro rfl pa hpa
  -- only the free list and the nodes of the caller's table have changed
  obtain ⟨hsz, hleaf⟩ := hres.failed rfl
  have hheld : pa ∈ s.kernel.held .free := by rwa [Kernel.held_free]
  obtain ⟨x, hx, hsame⟩ := h.inv.mem_held_of_pages hkept.pages hheld
  cases x with
  | free =>
    rw [Kernel.held_free] at hx
    exact .inl hx
  | pipes =>
    rw [Kernel.held_pipes, Kernel.held_pipes, hkept.pipes] at hsame
    cases hsame rfl
  | ring r =>
    rw [Kernel.held_ring, hkept.inv.ring_pages hok.ok.rings] at hx
    exact absurd hx (Multiset.notMem_zero pa)
  | proc j =>
    by_cases hj : j = p
    · subst hj
      have hnot : pa ∉ (s.kernel.procs j).pages := by
        intro hin
        rw [← Multiset.mem_coe, ← Kernel.held_proc] at hin
        cases h.inv.holder_eq hin hheld
      have htf : (k₁.procs j).trapframe = (s.kernel.procs j).trapframe := by rw [hres.self]
      rw [Kernel.held_proc] at hx
      unfold Proc.pages at hx hnot
      rw [hsz, htf, leafPages_congr fun w _ _ => congrFun hleaf w] at hx
      simp only [Multiset.mem_coe, List.mem_append, not_or] at hx hnot
      rcases hx with (hx | hx) | hx
      · exact absurd hx hnot.1.1
      · exact .inr hx
      · exact absurd hx hnot.2
    · rw [Kernel.held_proc, Kernel.held_proc, hres.procs j hj] at hsame
      cases hsame rfl

theorem exit_spec (h : SysOk s) (hlive : (s.kernel.procs p).state = .live)
    (hr : s.exit p = .ok (s', ret)) : CallOk s s' := by
  unfold exit at hr
  split_ifs at hr
  obtain ⟨s₁, hr₁, hok₁, hkept₁, hnone₁⟩ :=
    foldlM_closeFd (p := p) (List.finRange 16) h.inv h.files
  rw [hr₁, ok_bind] at hr
  obtain ⟨k₂, hexit, heq⟩ := bind_eq_ok.mp hr
  cases heq
  obtain ⟨hkept₂, -, hmarks⟩ :=
    (Kernel.exit_ends hkept₁.inv (by rwa [hkept₁.procs])).of_ok hexit
  have hfree := Kernel.free_of_exit hexit
  refine ⟨⟨hkept₂.inv, hok₁.of_kernel hkept₂.pipes fun j hj fd => ?_, fun q r hown => ?_⟩,
    hkept₂.pages.trans hkept₁.pages, hkept₂.kend.trans hkept₁.kend, fun pa hpa => ?_⟩
  rotate_right
  · rcases hkept₁.mem_pipes h.inv hpa with hin | hin
    · exact .inl (hkept₂.pipes ▸ hin)
    · exact .inr (hfree ▸ hin)
  · by_cases hjp : j = p
    · rw [hjp]
      exact hnone₁ fd (.inl (List.mem_finRange fd))
    · rw [hmarks j, if_neg hjp] at hj
      exact hok₁.idle j fd hj
  · have hown₁ := hkept₂.owns hown
    unfold Kernel.Owns at hown₁
    rw [hkept₁.rings] at hown₁
    exact h.rings q r hown₁

theorem wait_spec (h : SysOk s) {addr : ℕ} {o : Option ProcIx}
    (hr : s.lift (s.kernel.wait p addr) = .ok (s', o)) :
    CallOk s s' ∧ ∀ j, o = some j → ∀ pa ∈ (s.kernel.procs j).pages, pa ∈ s'.kernel.mem.free := by
  obtain ⟨⟨k₁, o'⟩, hwait, heq⟩ := bind_eq_ok.mp hr
  obtain ⟨rfl, rfl⟩ := Prod.mk.inj (Except.ok.inj heq)
  obtain ⟨hkept, hreaped⟩ := (Kernel.wait_ends h.inv p addr).of_ok hwait
  cases o' with
  | none =>
    obtain rfl : k₁ = s.kernel := hreaped
    exact ⟨⟨h, rfl, rfl, fun pa hpa => .inl hpa⟩, fun j hj => nomatch hj⟩
  | some j =>
    obtain ⟨-, hzombie, hfreed⟩ := hreaped
    have hok := h.of_kept hkept fun i hi => by
      have hij : i ≠ j := by
        rintro rfl
        rw [hzombie] at hi
        cases hi
      rwa [hfreed.procs i hij]
    refine ⟨hok, ?_⟩
    intro j' hj' pa hpa
    obtain rfl : j = j' := Option.some.inj hj'
    -- the child has no pages any more, and nobody else but the free list got any
    have hheld : pa ∈ s.kernel.held (.proc j) := by rwa [Kernel.held_proc]
    obtain ⟨x, hx, hsame⟩ := h.inv.mem_held_of_pages hkept.pages hheld
    cases x with
    | free => rwa [Kernel.held_free] at hx
    | pipes =>
      rw [Kernel.held_pipes, Kernel.held_pipes, hkept.pipes] at hsame
      cases hsame rfl
    | ring r =>
      rw [Kernel.held_ring, hkept.inv.ring_pages hok.ok.rings] at hx
      exact absurd hx (Multiset.notMem_zero pa)
    | proc i =>
      by_cases hij : i = j
      · rw [Kernel.held_proc, hij, hfreed.self, Proc.pages_empty] at hx
        exact absurd hx (Multiset.notMem_zero pa)
      · rw [Kernel.held_proc, Kernel.held_proc, hfreed.procs i hij] at hsame
        cases hsame rfl
        exact absurd rfl hij

/-- The pages of a call that fails, and of a process that is reaped.  A failed
`sbrk` may leave nodes in the caller's page table. -/
def Returned (s s' : System) (ret : Option ℕ) : Call → Prop
  | .fork _ | .exec _ _ _ _ | .pipe _ _ =>
      ret = none → (s'.kernel.mem.free : Multiset ℕ) = s.kernel.mem.free
  | .sbrk p _ => ret = none → ∀ pa ∈ s.kernel.mem.free,
      pa ∈ s'.kernel.mem.free ∨ pa ∈ (s'.kernel.procs p).pagetable.pages
  | .wait _ _ => ∀ j : ProcIx, ret = some j.val →
      ∀ pa ∈ (s.kernel.procs j).pages, pa ∈ s'.kernel.mem.free
  | _ => True

/-- **One call.** -/
theorem syscall_spec (h : SysOk s) (hruns : s.Runs e) (hr : s.syscall e = .ok (s', ret)) :
    CallOk s s' ∧ s.Returned s' ret e := by
  cases e with
  | fork p => exact fork_spec h hruns hr
  | exec p path image args => exact exec_spec h hruns.1 hr
  | sbrk p n =>
    obtain ⟨⟨s₁, ok⟩, hlift, hr⟩ := bind_eq_ok.mp hr
    cases hr
    obtain ⟨hok, hfail⟩ := sbrk_spec h hruns hlift
    refine ⟨hok, fun hret => hfail ?_⟩
    cases ok with
    | true => cases hret
    | false => rfl
  | exit p => exact ⟨exit_spec h hruns hr, trivial⟩
  | wait p addr =>
    obtain ⟨⟨s₁, o⟩, hlift, hr⟩ := bind_eq_ok.mp hr
    cases hr
    obtain ⟨hok, hreaped⟩ := wait_spec h hlift
    refine ⟨hok, fun j hj => hreaped j ?_⟩
    obtain ⟨i, hi, hij⟩ := Option.map_eq_some_iff.mp hj
    rw [hi, Fin.ext hij]
  | pipe p fdarray =>
    obtain ⟨s₁, ret₁, hr₁, hkept⟩ := sysPipe_spec h.inv h.files hruns.1 fdarray
    cases hr₁.symm.trans hr
    have hok := h.of_fdKept hkept
    exact ⟨hok, fun hfail => hok.free_eq h hkept.kernel.procs (hkept.failed hfail)⟩
  | dup p fd =>
    obtain ⟨s₁, ret₁, hr₁, hkept⟩ := sysDup_spec h.inv h.files hruns.1 fd
    cases hr₁.symm.trans hr
    exact ⟨h.of_fdKept hkept, trivial⟩
  | «open» p device readable writable =>
    obtain ⟨s₁, ret₁, hr₁, hkept⟩ := sysOpen_spec h.inv h.files hruns.1 device readable writable
    cases hr₁.symm.trans hr
    exact ⟨h.of_fdKept hkept, trivial⟩
  | close p fd =>
    obtain ⟨s₁, ret₁, hr₁, hkept⟩ := sysClose_spec h.inv h.files p fd
    cases hr₁.symm.trans hr
    exact ⟨h.of_fdKept hkept, trivial⟩

/-! ### Calls short of memory -/

theorem setFree_ok (h : SysOk s) {free X : List ℕ} (hfree : s.kernel.mem.free = free ++ X) :
    SysOk (s.setFree free) ∧ (s.setFree free).kernel.pages + (X : Multiset ℕ) = s.kernel.pages := by
  have hpages : (s.setFree free).kernel.pages + (X : Multiset ℕ) = s.kernel.pages := by
    refine Kernel.pages_taken (k := s.kernel) (m := ⟨s.kernel.mem.kend, free⟩) ?_
    rw [hfree, ← Multiset.coe_add]
  have hnodup := h.inv.nodup
  have hvalid := h.inv.valid
  rw [← hpages] at hnodup hvalid
  refine ⟨⟨?_, h.files.of_kernel rfl fun p hp fd => h.files.idle p fd hp, h.rings⟩, hpages⟩
  exact h.inv.of_ledger rfl rfl rfl rfl rfl (Multiset.nodup_add.mp hnodup).1
    fun pa hpa => hvalid pa (Multiset.mem_add.mpr (.inl hpa))

/-- Pages that were kept back are there again. -/
theorem setFree_back (h : SysOk s) {X : List ℕ} {P : Multiset ℕ}
    (hpages : s.kernel.pages + (X : Multiset ℕ) = P) (hnodup : P.Nodup)
    (hvalid : ∀ pa ∈ P, ValidPage s.kernel.mem.kend pa) :
    SysOk (s.setFree (s.kernel.mem.free ++ X)) ∧
      (s.setFree (s.kernel.mem.free ++ X)).kernel.pages = P := by
  have hback : s.kernel.pages + (X : Multiset ℕ)
      = (s.setFree (s.kernel.mem.free ++ X)).kernel.pages := by
    refine Kernel.pages_taken (k := (s.setFree (s.kernel.mem.free ++ X)).kernel)
      (m := s.kernel.mem) ?_
    exact Multiset.coe_add _ _
  rw [hback] at hpages
  refine ⟨⟨?_, h.files.of_kernel rfl fun p hp fd => h.files.idle p fd hp, h.rings⟩, hpages⟩
  exact h.inv.of_ledger rfl rfl rfl rfl rfl (hpages ▸ hnodup) (hpages ▸ hvalid)

/-- What was kept back makes no difference to what a call returns. -/
theorem Returned.append {X : List ℕ} {free : List ℕ} (hfree : s.kernel.mem.free = free ++ X)
    (h : (s.setFree free).Returned s' ret e) :
    s.Returned (s'.setFree (s'.kernel.mem.free ++ X)) ret e := by
  have heq : ret = none → (s'.kernel.mem.free : Multiset ℕ) = (free : Multiset ℕ) →
      ((s'.kernel.mem.free ++ X : List ℕ) : Multiset ℕ) = s.kernel.mem.free := by
    intro _ hsame
    rw [← Multiset.coe_add, hsame, hfree, ← Multiset.coe_add]
  cases e with
  | fork p => exact fun hret => heq hret (h hret)
  | exec p path image args => exact fun hret => heq hret (h hret)
  | pipe p fdarray => exact fun hret => heq hret (h hret)
  | sbrk p n =>
    intro hret pa hpa
    rw [hfree, List.mem_append] at hpa
    rcases hpa with hpa | hpa
    · rcases h hret pa hpa with hin | hin
      · exact .inl (List.mem_append_left X hin)
      · exact .inr hin
    · exact .inl (List.mem_append_right _ hpa)
  | wait p addr => exact fun j hj pa hpa => List.mem_append_left X (h j hj pa hpa)
  | _ => trivial

/-- **One call, any `kalloc` of which may fail.** -/
theorem withOnly_spec (h : SysOk s) (hruns : s.Runs e) {n : ℕ}
    (hr : s.withOnly n e = .ok (s', ret)) : CallOk s s' ∧ s.Returned s' ret e := by
  have hfree : s.kernel.mem.free = s.kernel.mem.free.take n ++ s.kernel.mem.free.drop n :=
    (List.take_append_drop n _).symm
  obtain ⟨hok, hpages⟩ := setFree_ok h hfree
  obtain ⟨⟨s₁, ret₁⟩, hcall, heq⟩ := bind_eq_ok.mp hr
  cases heq
  have hruns' : (s.setFree (s.kernel.mem.free.take n)).Runs e := by
    cases e <;> exact hruns
  obtain ⟨hok₁, hret⟩ := syscall_spec hok hruns' hcall
  have hkend : s₁.kernel.mem.kend = s.kernel.mem.kend := hok₁.kend
  rw [← hok₁.pages] at hpages
  obtain ⟨hback, hpages'⟩ := setFree_back hok₁.ok hpages h.inv.nodup (hkend ▸ h.inv.valid)
  refine ⟨⟨hback, hpages', hkend, fun pa hpa => ?_⟩, hret.append hfree⟩
  exact (hok₁.pipes pa hpa).imp_right (List.mem_append_left _)

/-! ### Where pages are -/

/-- A place for a page. -/
inductive Place
  | free (i : ℕ)
  | table (p : ProcIx) (i : ℕ)
  | user (p : ProcIx) (v : ℕ)
  | trapframe (p : ProcIx)
  | pipe
  | boot

/-- The page is at the place: at position `i` of the free list, the `i`th node
of a page table, the page of user address `v * PGSIZE`, a trapframe, a pipe
that a descriptor refers to, or not one of those the kernel started with. -/
def At (s : System) (free₀ : List ℕ) (pa : ℕ) : Place → Prop
  | .free i => s.kernel.mem.free[i]? = some pa
  | .table p i => (s.kernel.procs p).pagetable.pages[i]? = some pa
  | .user p v => v < npages (s.kernel.procs p).sz ∧
      (leafAt (s.kernel.procs p).pagetable v).map Pte.pa = some pa
  | .trapframe p => (s.kernel.procs p).trapframe = some pa
  | .pipe => ∃ x f, s.ofile x = some f ∧ (s.ftable f).type = .pipe ∧ (s.ftable f).pipe = pa
  | .boot => pa ∉ free₀

/-- A pipe has its page while a descriptor refers to it. -/
theorem FilesOk.mem_pipes_iff (h : FilesOk s 0) {pa : ℕ} : pa ∈ s.kernel.pipes ↔
    ∃ x f, s.ofile x = some f ∧ (s.ftable f).type = .pipe ∧ (s.ftable f).pipe = pa := by
  constructor
  · intro hpa
    obtain ⟨w, hw⟩ := h.live pa hpa
    obtain ⟨f, htype, hpipe, -⟩ := h.opened pa hpa w hw
    have href := h.ref f
    rw [Multiset.count_zero, add_zero] at href
    have hpos : 0 < refs s.ofile f := by
      rw [← href, Nat.pos_iff_ne_zero]
      intro hzero
      rw [h.closed f hzero] at htype
      cases htype
    obtain ⟨x, hx⟩ := refs_pos_iff.mp hpos
    exact ⟨x, f, hx, htype, hpipe⟩
  · rintro ⟨x, f, -, htype, rfl⟩
    exact (h.piped f htype).1

/-- The purpose a place serves. -/
def Place.purpose : Place → Option Kernel.Purpose
  | .free _ => some .free
  | .table p _ => some (.table p)
  | .user p v => some (.user p v)
  | .trapframe p => some (.trapframe p)
  | .pipe => some .pipe
  | .boot => none

theorem SysOk.usedFor_of_at (h : SysOk s) {free₀ : List ℕ} {pa : ℕ} {x : Place}
    {u : Kernel.Purpose} (hx : s.At free₀ pa x) (hu : x.purpose = some u) :
    s.kernel.UsedFor pa u := by
  cases x with
  | free i =>
    cases hu
    exact List.mem_of_getElem? hx
  | table p i =>
    cases hu
    exact List.mem_of_getElem? hx
  | user p v =>
    cases hu
    exact hx
  | trapframe p =>
    cases hu
    exact hx
  | pipe =>
    cases hu
    exact h.files.mem_pipes_iff.mpr hx
  | boot => cases hu

theorem SysOk.exists_at (h : SysOk s) (free₀ : List ℕ) {pa : ℕ} (hpa : pa ∈ s.kernel.pages) :
    ∃ x, s.At free₀ pa x := by
  unfold Kernel.pages at hpa
  obtain ⟨x, -, hx⟩ := Multiset.mem_sum.mp hpa
  cases x with
  | free =>
    rw [Kernel.held_free] at hx
    obtain ⟨i, hi⟩ := List.mem_iff_getElem?.mp hx
    exact ⟨.free i, hi⟩
  | pipes =>
    rw [Kernel.held_pipes] at hx
    exact ⟨.pipe, h.files.mem_pipes_iff.mp hx⟩
  | ring r =>
    rw [Kernel.held_ring, h.inv.ring_pages h.rings] at hx
    exact absurd hx (Multiset.notMem_zero pa)
  | proc p =>
    rw [Kernel.held_proc] at hx
    unfold Proc.pages at hx
    simp only [Multiset.mem_coe, List.mem_append] at hx
    rcases hx with (hx | hx) | hx
    · exact ⟨.trapframe p, Option.mem_toList.mp hx⟩
    · obtain ⟨i, hi⟩ := List.mem_iff_getElem?.mp hx
      exact ⟨.table p i, hi⟩
    · obtain ⟨v, pte, -, hv, hleaf, rfl⟩ := mem_leafPages.mp hx
      exact ⟨.user p v, by omega, by rw [hleaf]; rfl⟩

/-- **No page is at two places.** -/
theorem SysOk.at_unique (h : SysOk s) {free₀ : List ℕ} (hpages : s.kernel.pages = free₀) {pa : ℕ}
    {x y : Place} (hx : s.At free₀ pa x) (hy : s.At free₀ pa y) : x = y := by
  -- what is in use is in the ledger
  have hnot : ∀ {z : Place} {u}, s.At free₀ pa z → z.purpose = some u → pa ∈ free₀ := by
    intro z u hz hu
    rw [← Multiset.mem_coe, ← hpages]
    exact Inv.mem_pages (Kernel.mem_held_of_usedFor (h.usedFor_of_at hz hu))
  have hpurpose : x.purpose = y.purpose := by
    rcases hu : x.purpose with - | u <;> rcases hv : y.purpose with - | v
    · rfl
    · cases x <;> cases hu
      exact absurd (hnot hy hv) hx
    · cases y <;> cases hv
      exact absurd (hnot hx hu) hy
    · rw [h.inv.purpose_unique (h.usedFor_of_at hx hu) (h.usedFor_of_at hy hv)]
  have hindex : ∀ {l : List ℕ} {i j : ℕ}, l.Nodup → l[i]? = some pa → l[j]? = some pa → i = j := by
    intro l i j hl hi hj
    obtain ⟨hlt, -⟩ := List.getElem?_eq_some_iff.mp hi
    exact (List.getElem?_inj hlt hl).mp (hi.trans hj.symm)
  cases x <;> cases y <;> simp only [Place.purpose, reduceCtorEq, Option.some.injEq,
    Kernel.Purpose.table.injEq, Kernel.Purpose.user.injEq, Kernel.Purpose.trapframe.injEq]
    at hpurpose
  · rw [hindex (Kernel.nodup_free h.inv.nodup) hx hy]
  · subst hpurpose
    rw [hindex (h.inv.nodup_table _) hx hy]
  · rw [hpurpose.1, hpurpose.2]
  · rw [hpurpose]
  · rfl
  · rfl

/-! ### Runs -/

section Runs

variable {kend trampoline : ℕ} {free : List ℕ} {k₀ : Kernel} {tr : List Call}

theorem start_ok (htr : trampoline < kend) (hnodup : free.Nodup)
    (hvalid : ∀ pa ∈ free, ValidPage kend pa)
    (hu : (Kernel.boot kend trampoline free).userinit = .ok (some k₀)) :
    SysOk (start k₀) ∧ (start k₀).kernel.pages = free ∧ (start k₀).kernel.mem.kend = kend := by
  have hinv := Kernel.inv_boot htr hnodup hvalid
  have hkept := Kernel.userinit_kept hinv hu
  refine ⟨⟨hkept.inv, ?_, fun p r hown => ?_⟩, hkept.pages.trans (Kernel.pages_boot _ _ _),
    hkept.kend⟩
  · have hpipes : k₀.pipes = [] := hkept.pipes
    refine ⟨fun f => ?_, fun f _ => rfl, ?_, ?_, ?_, ?_, ?_, fun p fd _ => rfl⟩
    · simp [start, File.empty, refs]
    · exact fun x f hx => nomatch hx
    · exact fun f hf => nomatch hf
    · exact fun f g hf => nomatch hf
    · exact fun pa hpa => absurd (hpipes ▸ hpa) List.not_mem_nil
    · exact fun pa hpa => absurd (hpipes ▸ hpa) List.not_mem_nil
  · obtain ⟨i, hi⟩ := hkept.owns hown
    cases hi

theorem run_ok (hstart : SysOk (start k₀) ∧ (start k₀).kernel.pages = free ∧
    (start k₀).kernel.mem.kend = kend) (hrun : Run Steps (start k₀) tr s) :
    SysOk s ∧ s.kernel.pages = free ∧ s.kernel.mem.kend = kend := by
  refine hrun.invariant (I := fun s => SysOk s ∧ s.kernel.pages = free ∧ s.kernel.mem.kend = kend)
    hstart ?_
  rintro s e s' ⟨hok, hpages, hkend⟩ ⟨hruns, n, ret, hr⟩
  obtain ⟨hcall, -⟩ := withOnly_spec hok hruns hr
  exact ⟨hcall.ok, hcall.pages.trans hpages, hcall.kend.trans hkend⟩

/-- **Process memory is conserved.**  In every run of calls of processes
without ring buffers, whichever of their `kalloc`s fail, every page is at one
place; a failed call gives back what it took, and the pages of a process that
is reaped are free. -/
theorem pages_conserved (htr : trampoline < kend) (hnodup : free.Nodup)
    (hvalid : ∀ pa ∈ free, ValidPage kend pa)
    (hu : (Kernel.boot kend trampoline free).userinit = .ok (some k₀))
    (hrun : Run Steps (start k₀) tr s) :
    (∀ pa, ValidPage kend pa → ∃! x, s.At free pa x) ∧
      ∀ e n s' ret, s.Runs e → s.withOnly n e = .ok (s', ret) → s.Returned s' ret e := by
  obtain ⟨hok, hpages, -⟩ := run_ok (start_ok htr hnodup hvalid hu) hrun
  constructor
  · intro pa _
    have hex : ∃ x, s.At free pa x := by
      by_cases hpa : pa ∈ free
      · apply hok.exists_at
        rw [hpages]
        exact hpa
      · exact ⟨.boot, hpa⟩
    obtain ⟨x, hx⟩ := hex
    exact ⟨x, hx, fun y hy => hok.at_unique hpages hy hx⟩
  · exact fun e n s' ret hruns hr => (withOnly_spec hok hruns hr).2

/-- The step as a function, with all the memory there is. -/
def next (s : System) (e : Call) : Option System :=
  if s.Runs e then (s.withOnly s.kernel.mem.free.length e).toOption.map Prod.fst else none

theorem steps_of_next (h : s.next e = some s') : Steps s e s' := by
  unfold next at h
  split_ifs at h with hruns
  obtain ⟨⟨s₁, ret⟩, hr, rfl⟩ := Option.map_eq_some_iff.mp h
  exact ⟨hruns, _, ret, toOption_eq_some hr⟩

/-- A child that shares a pipe with its parent; then the parent cannot fork for
want of a page. -/
theorem pages_conserved_sharing :
    ∃ k₀ s s', Run Steps (start k₀) [.pipe 0 0, .fork 0] s ∧
      (∀ pa, ValidPage 0x80100000 pa → ∃! x, s.At Kernel.demoFree pa x) ∧
      s.withOnly 3 (.fork 0) = .ok (s', none) ∧ s.Returned s' none (.fork 0) := by
  have hdemo : (Kernel.demo.bind fun k => ([.pipe 0 0, .fork 0] : List Call).foldlM next (start k)).map
      (fun s => (decide (s.Runs (.fork 0)),
        (s.withOnly 3 (.fork 0)).toOption.map fun r => r.2.isNone))
      = some (true, some true) := by decide +kernel
  obtain ⟨s, hs, hv⟩ := Option.map_eq_some_iff.mp hdemo
  obtain ⟨k₀, hk₀, hfold⟩ := Option.bind_eq_some_iff.mp hs
  obtain ⟨hruns, hcall⟩ := Prod.mk.inj hv
  obtain ⟨⟨s', ret⟩, hr, hret⟩ := Option.map_eq_some_iff.mp hcall
  obtain rfl : ret = none := Option.isNone_iff_eq_none.mp hret
  have hrun : Run Steps (start k₀) [.pipe 0 0, .fork 0] s := Run.of_foldlM steps_of_next _ hfold
  have hu : (Kernel.boot 0x80100000 0x80008000 Kernel.demoFree).userinit = .ok (some k₀) :=
    Kernel.demo_userinit hk₀
  obtain ⟨hplaces, hreturned⟩ :=
    pages_conserved (by decide) (by decide) (by decide) hu hrun
  exact ⟨k₀, s, s', hrun, hplaces, toOption_eq_some hr,
    hreturned _ _ _ _ (of_decide_eq_true hruns) (toOption_eq_some hr)⟩

end Runs

end System

end Xv6Zig
