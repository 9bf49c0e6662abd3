/-
Xv6Zig/ExecInv.lean

`exec` and pipes, and every system call at once.

`exec` replaces an address space by an image and tears the old one down.  It
takes no notice of ring buffers: their pages are still mapped in the old page
table, so that a process which owns one stops the kernel as soon as its
`exec` comes to the commit (`Loads`).
-/
import Xv6Zig.ProcInv

namespace Xv6Zig

open Lib

theorem Image.of_free {tr tf kend sz : ℕ} {F X : Multiset ℕ} {m m' : Kmem} {pt : PageTable}
    (h : Image tr tf kend F m pt sz) (hkend : m'.kend = m.kend)
    (hfree : (m'.free : Multiset ℕ) = m.free + X) : Image tr tf kend (F + X) m' pt sz := by
  refine ⟨h.space, h.exact, hkend.trans h.kend, ?_⟩
  rw [hfree, ← h.pages]
  ac_rfl

namespace Kernel

variable {k k' : Kernel} {p : ProcIx} {r : RingIx} {m : Kmem} {image : Option (List Phdr)}
  {argv : List ℕ}

/-! ### `exec` -/

/-- The program can be loaded with these arguments: `exec` comes to its commit. -/
def Loads (k : Kernel) (p : ProcIx) (image : Option (List Phdr)) (argv : List ℕ) : Prop :=
  ∃ phs m pt m' pt' sz argc, image = some phs ∧
    procPagetable k.mem k.trampoline (intFromPtr (k.procs p).trapframe) = .ok (m, pt) ∧
    isNull pt = false ∧ buildImage phs argv m pt = .ok (m', pt', sz, some argc)

/-- With nothing else mapped the process owns no ring buffer. -/
theorem Inv.not_owns_of_exact (h : Inv k) (hexact : Exact (k.procs p).pagetable (k.procs p).sz)
    (r : RingIx) : ¬ k.Owns p r := by
  rintro ⟨i, hi⟩
  obtain ⟨-, b, hatt⟩ := h.owner r i p hi
  have hb : b ≤ b ∧ b < b + 33 := ⟨le_rfl, by omega⟩
  obtain ⟨pte, hpte, -⟩ := h.attached_leaf hi hatt hb
  have hown := hexact b (by simp [hpte])
  have hapart := h.attached_apart hi hatt hb
  omega

/-- Anything else that is mapped is stray or part of a ring buffer. -/
theorem stray_or_owns (hnot : ¬ Exact (k.procs p).pagetable (k.procs p).sz) :
    (∃ v, k.Stray p v) ∨ ∃ r, k.Owns p r := by
  unfold Exact at hnot
  push Not at hnot
  obtain ⟨v, hleaf, h₁, h₂, h₃⟩ := hnot
  by_cases hown : ∃ r, k.Owns p r
  · exact .inr hown
  · exact .inl ⟨v, hleaf, h₁, h₂, h₃, fun s i b hi => absurd ⟨s, i, hi⟩ hown⟩

/-- What `exec` does to the processes: nothing, or the caller has another image. -/
def Replaced (k : Kernel) (p : ProcIx) (k' : Kernel) : Option ℕ → Prop
  | none => k'.procs = k.procs
  | some _ => (∀ j ≠ p, k'.procs j = k.procs j) ∧ k'.procs p = { k.procs p with
      pagetable := (k'.procs p).pagetable
      sz := (k'.procs p).sz } ∧ ∀ v, ¬ k'.Stray p v

/-- **`exec`.** -/
theorem exec_ends (h : Inv k) (hlive : (k.procs p).state = .live) :
    Ends (k.exec p image argv)
      (fun e => (e.Teardown ↔ k.Loads p image argv) ∧
        (e.Teardown → (∃ v, k.Stray p v) ∨ ∃ r, k.Owns p r))
      fun s => Kept k s.1 ∧ Replaced k p s.1 s.2 ∧
        (k.Loads p image argv → ∀ r, ¬ k.Owns p r) := by
  have hok := h.proc p
  obtain ⟨tf, htf, hspace⟩ := hok.space (hok.live (.inl hlive))
  have hptf : intFromPtr (k.procs p).trapframe = tf := by
    rw [htf]
    rfl
  rcases image with - | phs
  · -- there is no such file
    refine ⟨Kept.refl h, rfl, ?_⟩
    rintro ⟨phs, _, _, _, _, _, _, hno, -⟩
    cases hno
  have hfree : ∀ pa ∈ (k.mem.free : Multiset ℕ), ValidPage k.mem.kend pa := fun pa hpa =>
    h.valid_free hpa
  obtain ⟨m₁, pt₁, hr₁, hspec₁⟩ := procPagetable_spec hfree k.trampoline tf
  have hloads : k.Loads p (some phs) argv → isNull pt₁ = false ∧
      ∃ m' pt' sz argc, buildImage phs argv m₁ pt₁ = .ok (m', pt', sz, some argc) := by
    rintro ⟨_, m, pt, m', pt', sz, argc, hphs, hr, hnull, hb⟩
    cases hphs
    rw [hptf, hr₁] at hr
    cases hr
    exact ⟨hnull, m', pt', sz, argc, hb⟩
  unfold exec
  simp only [hptf, hr₁, ok_bind]
  rcases hspec₁ with ⟨rfl, hk₁, hfree₁⟩ | himage₁
  · -- no memory for the page table
    rw [if_pos (show isNull .absent = true from rfl)]
    refine ⟨.of_mem h hk₁ hfree₁ fun _ => h.teardown, rfl, fun hl => ?_⟩
    cases (hloads hl).1
  have hnull := isNull_of_leafAt himage₁.space.trampoline
  simp only [hnull, Bool.false_eq_true, if_false]
  have hbuild := buildImage_ends hfree phs argv himage₁
  rcases hb : buildImage phs argv m₁ pt₁ with e | ⟨m₂, pt₂, sz, argc⟩
  · have he := hbuild.of_error hb
    refine ⟨⟨fun hteardown => absurd hteardown he, fun hl => ?_⟩,
      fun hteardown => absurd hteardown he⟩
    obtain ⟨-, _, _, _, _, hb'⟩ := hloads hl
    cases hb.symm.trans hb'
  have himage₂ : Image k.trampoline tf k.mem.kend k.mem.free m₂ pt₂ sz := hbuild.of_ok hb
  obtain ⟨-, hpages₂, hleaves₂⟩ := himage₂.valid hfree
  simp only [ok_bind]
  rcases argc with - | argc
  · -- `bad`: the image is torn down
    have htear := procFreepagetable_ends (k := { k with mem := m₂ }) himage₂.space hpages₂ hleaves₂
    refine Ends.bind (htear.mono ?_ fun _ hQ => hQ) ?_
    · exact fun e he => absurd himage₂.exact he.2
    · rintro k₃ ⟨-, htorn⟩
      have htorn' := htorn
      obtain ⟨m₃, hk₃, hfree₃, rfl⟩ := htorn'
      refine ⟨.of_mem h (hk₃.trans himage₂.kend) (hfree₃.trans himage₂.pages) fun hnodup =>
        htorn.clean himage₂.space himage₂.exact hnodup h.teardown, rfl, fun hl => ?_⟩
      obtain ⟨-, _, _, _, _, hb'⟩ := hloads hl
      cases hb.symm.trans hb'
  · -- the commit: the old address space is torn down
    have hl : k.Loads p (some phs) argv :=
      ⟨phs, m₁, pt₁, m₂, pt₂, sz, argc, rfl, hptf ▸ hr₁, hnull, hb⟩
    have hvalid : ∀ pa ∈ (k.procs p).pages, ValidPage m₂.kend pa := by
      intro pa hpa
      rw [himage₂.kend]
      exact h.valid_proc hpa
    have htear := procFreepagetable_ends
      (k := { k with mem := m₂ }.setProc p { k.procs p with pagetable := pt₂, sz := sz }) hspace
      (fun pa hpa => hvalid pa (Proc.mem_pages_table hpa))
      (fun pa hpa => hvalid pa (List.mem_append_right _ hpa))
    refine Ends.bind (htear.mono ?_ fun _ hQ => hQ) ?_
    · rintro e ⟨he, hnot⟩
      exact ⟨⟨fun _ => hl, fun _ => he⟩, fun _ => stray_or_owns hnot⟩
    · rintro k₃ ⟨hexact, htorn⟩
      have hnot := h.not_owns_of_exact hexact
      have htorn' := htorn
      obtain ⟨m₃, hk₃, hfree₃, rfl⟩ := htorn'
      rw [add_assoc] at hfree₃
      have hF : ((k.mem.free : Multiset ℕ) + ((k.procs p).pagetable.pages
          + leafPages (k.procs p).pagetable 0 (npages (k.procs p).sz))) + {tf}
          = k.mem.free + (k.procs p).pages := by
        rw [Proc.coe_pages, htf]
        show _ = (k.mem.free : Multiset ℕ) + (({tf} : Multiset ℕ) + _ + _)
        ac_rfl
      have hkept := h.of_image (p := p) hnot (m := m₃)
        (T := k.teardowns ++ [⟨(k.procs p).pagetable, (k.procs p).sz, m₂.free, m₃.free⟩])
        (q := { k.procs p with pagetable := pt₂, sz := sz }) (himage₂.of_free hk₃ hfree₃) htf
        (by rw [hlive]; decide) rfl hF
        fun hnodup => htorn.clean hspace hexact hnodup h.teardown
      refine ⟨hkept, ⟨fun j hj => Function.update_of_ne hj _ _, ?_, fun v hstray => ?_⟩,
        fun _ => hnot⟩
      · simp only [setProc_procs, Function.update_self]
      · -- nothing was left mapped for the old address space to be torn down
        exact Exact.not_stray hexact v (hkept.tidy p v hstray)

/-! ### `sys_exec` -/

/-- Pages that were taken from the free list and not given to anyone. -/
theorem pages_taken {X : Multiset ℕ} (hfree : (m.free : Multiset ℕ) + X = k.mem.free) :
    ({ k with mem := m } : Kernel).pages + X = k.pages := by
  unfold pages
  rw [sum_eq_add_erase _ Holder.free, sum_eq_add_erase k.held Holder.free, held_free, held_free,
    ← hfree]
  have hrest : ∑ x ∈ Finset.univ.erase Holder.free, ({ k with mem := m } : Kernel).held x
      = ∑ x ∈ Finset.univ.erase Holder.free, k.held x := by
    apply Finset.sum_congr rfl
    intro x hx
    cases x with
    | free => exact absurd rfl (Finset.ne_of_mem_erase hx)
    | pipes => rw [held_pipes, held_pipes]
    | proc j => rw [held_proc, held_proc]
    | ring s => rw [held_ring, held_ring]
  rw [hrest]
  show (m.free : Multiset ℕ) + _ + X = _
  ac_rfl

theorem fetchArgs_pages (args : List Arg) (i : ℕ) (m : Kmem) :
    (fetchArgs args i m).1.kend = m.kend ∧
      ((fetchArgs args i m).1.free : Multiset ℕ) + (fetchArgs args i m).2.1 = m.free := by
  induction args generalizing i m with
  | nil =>
    unfold fetchArgs
    split_ifs
    · exact ⟨rfl, add_zero _⟩
    · exact ⟨rfl, add_zero _⟩
  | cons arg args ih =>
    unfold fetchArgs
    split_ifs
    · exact ⟨rfl, add_zero _⟩
    · cases arg with
      | badAddr => exact ⟨rfl, add_zero _⟩
      | str len =>
        rcases halloc : m.allocPage with - | ⟨pa, m₁⟩
        · exact ⟨rfl, add_zero _⟩
        · obtain ⟨hm, hk⟩ := Kmem.of_allocPage halloc
          rcases len with - | len
          · refine ⟨hk, ?_⟩
            rw [hm, Multiset.coe_singleton, ← Multiset.cons_coe, ← Multiset.singleton_add, add_comm]
          · obtain ⟨hk', hfree⟩ := ih (i + 1) m₁
            refine ⟨hk'.trans hk, ?_⟩
            rw [hm, ← Multiset.cons_coe, ← Multiset.cons_coe, ← hfree, Multiset.add_cons]

/-- The call comes to the commit of `exec`. -/
def Commits (k : Kernel) (p : ProcIx) (path : Bool) (image : Option (List Phdr))
    (args : List Arg) : Prop :=
  path = true ∧ ∃ argv, (fetchArgs args 0 k.mem).2.2 = some argv ∧
    ({ k with mem := (fetchArgs args 0 k.mem).1 } : Kernel).Loads p image argv

theorem sysExec_ends (h : Inv k) (hlive : (k.procs p).state = .live) (path : Bool)
    (args : List Arg) :
    Ends (k.sysExec p path image args)
      (fun e => (e.Teardown ↔ k.Commits p path image args) ∧
        (e.Teardown → (∃ v, k.Stray p v) ∨ ∃ r, k.Owns p r))
      fun s => Kept k s.1 ∧ Replaced k p s.1 s.2 ∧
        (k.Commits p path image args → ∀ r, ¬ k.Owns p r) := by
  unfold sysExec Commits
  cases path with
  | false => exact ⟨Kept.refl h, rfl, fun hc => nomatch hc.1⟩
  | true =>
    obtain ⟨hk₁, hfree₁⟩ := fetchArgs_pages args 0 k.mem
    rcases hargs : fetchArgs args 0 k.mem with ⟨m₁, pas, argv⟩
    rw [hargs] at hk₁ hfree₁
    have htaken := pages_taken hfree₁
    -- the pages of the arguments are nobody's while `exec` runs
    have hnodup := h.nodup
    have hvalid := h.valid
    simp only [← htaken] at hnodup hvalid
    have hinv₁ : Inv { k with mem := m₁ } :=
      h.of_ledger rfl rfl rfl rfl hk₁ (Multiset.nodup_add.mp hnodup).1
        fun pa hpa => hvalid pa (Multiset.mem_add.mpr (.inl hpa))
    -- and are given back after it
    have hback : ∀ {k₂ : Kernel}, Kept { k with mem := m₁ } k₂ →
        ∃ m, pas.foldlM Kmem.kfree k₂.mem = .ok m ∧ Kept k { k₂ with mem := m } := by
      intro k₂ hkept
      have hk₂ : k₂.mem.kend = k.mem.kend := hkept.kend.trans hk₁
      refine ⟨_, Kmem.foldlM_free (fun m _ => Kmem.kfree_ok m) ?_, ?_⟩
      · intro pa hpa
        rw [hk₂]
        exact hvalid pa (Multiset.mem_add.mpr (.inr hpa))
      · have hgiven : k₂.pages + (pas : Multiset ℕ) = ({ k₂ with
            mem := { k₂.mem with free := pas.reverse ++ k₂.mem.free } } : Kernel).pages := by
          refine pages_taken (k := { k₂ with
            mem := { k₂.mem with free := pas.reverse ++ k₂.mem.free } }) (m := k₂.mem) ?_
          rw [← Multiset.coe_add, Multiset.coe_reverse, add_comm]
        rw [hkept.pages] at hgiven
        refine ⟨?_, hgiven.symm.trans htaken, hk₂, hkept.pipes, ?_, hkept.owners, hkept.tops⟩
        · refine hkept.inv.of_ledger rfl rfl rfl rfl rfl (hgiven ▸ hnodup) ?_
          rw [← hgiven, hk₂]
          exact hvalid
        · exact hkept.tidy.trans (Tidy.of_eq rfl rfl)
    simp only [if_true]
    rcases argv with - | argv
    · obtain ⟨m, hr, hkept⟩ := hback (Kept.refl hinv₁)
      simp only [ok_bind, hr]
      refine ⟨hkept, rfl, ?_⟩
      rintro ⟨-, argv, hno, -⟩
      cases hno
    · simp only [true_and, Option.some.injEq, exists_eq_left']
      refine Ends.bind (exec_ends hinv₁ hlive) ?_
      rintro ⟨k₂, ret⟩ ⟨hkept₂, hrep, hno⟩
      obtain ⟨m, hr, hkept⟩ := hback hkept₂
      simp only [hr, ok_bind]
      refine ⟨hkept, ?_, hno⟩
      cases ret with
      | none => exact hrep
      | some argc => exact hrep

/-! ### Pipes -/

theorem pages_eq_of_pipes
    (h : (k'.mem.free : Multiset ℕ) + k'.pipes = k.mem.free + k.pipes)
    (hprocs : k'.procs = k.procs) (hrings : k'.ringbufs = k.ringbufs) : k'.pages = k.pages := by
  unfold pages
  apply sum_eq_of_transaction {.free, .pipes}
  · rw [Finset.sum_pair (by simp), Finset.sum_pair (by simp), held_free, held_pipes, held_free,
      held_pipes, h]
  · intro x hx
    simp only [Finset.mem_insert, Finset.mem_singleton, not_or] at hx
    cases x with
    | free => exact absurd rfl hx.1
    | pipes => exact absurd rfl hx.2
    | proc j => rw [held_proc, held_proc, hprocs]
    | ring s => rw [held_ring, held_ring, hrings]

/-- **Only the free list and the pipes have changed.** -/
structure PipeKept (k k' : Kernel) : Prop where
  inv : Inv k'
  pages : k'.pages = k.pages
  kend : k'.mem.kend = k.mem.kend
  procs : k'.procs = k.procs
  rings : k'.ringbufs = k.ringbufs

theorem PipeKept.refl (h : Inv k) : PipeKept k k := ⟨h, rfl, rfl, rfl, rfl⟩

theorem PipeKept.trans {k'' : Kernel} (h : PipeKept k k') (h' : PipeKept k' k'') :
    PipeKept k k'' :=
  ⟨h'.inv, h'.pages.trans h.pages, h'.kend.trans h.kend, h'.procs.trans h.procs,
    h'.rings.trans h.rings⟩

theorem PipeKept.tidy (h : PipeKept k k') : Tidy k k' := Tidy.of_eq h.procs h.rings

theorem Inv.valid_pipe (h : Inv k) {pa : ℕ} (hpa : pa ∈ k.pipes) : ValidPage k.mem.kend pa := by
  apply h.valid
  apply Inv.mem_pages (h := .pipes)
  rwa [held_pipes]

theorem Inv.nodup_pipes (h : Inv k) : k.pipes.Nodup := by
  have hnodup := h.nodup
  unfold pages at hnodup
  have hpipes := nodup_of_nodup_sum hnodup .pipes
  rwa [held_pipes] at hpipes

theorem Inv.of_pipealloc (h : Inv k) {pa : ℕ} (halloc : k.mem.allocPage = some (pa, m)) :
    PipeKept k { k with mem := m, pipes := pa :: k.pipes } := by
  obtain ⟨hm, hk⟩ := Kmem.of_allocPage halloc
  have hpages : ({ k with mem := m, pipes := pa :: k.pipes } : Kernel).pages = k.pages := by
    refine pages_eq_of_pipes ?_ rfl rfl
    show (m.free : Multiset ℕ) + (pa :: k.pipes : List ℕ) = _
    rw [hm, ← Multiset.cons_coe, ← Multiset.cons_coe, Multiset.add_cons, Multiset.cons_add]
  exact ⟨h.of_ledger rfl rfl rfl rfl hk (hpages ▸ h.nodup) (hpages ▸ h.valid), hpages, hk, rfl, rfl⟩

theorem pipealloc_kept (h : Inv k) : PipeKept k k.pipealloc.1 := by
  unfold pipealloc
  rcases halloc : k.mem.allocPage with - | ⟨pa, m⟩
  · exact PipeKept.refl h
  · exact h.of_pipealloc halloc

theorem pipeclose_spec (h : Inv k) {pa : ℕ} (hpa : pa ∈ k.pipes) :
    ∃ k', k.pipeclose pa = .ok k' ∧ PipeKept k k' ∧ k'.pipes = k.pipes.erase pa := by
  unfold pipeclose
  rw [Kmem.kfree_ok k.mem (h.valid_pipe hpa), ok_bind]
  have hpages : ({ k with
      mem := { k.mem with free := pa :: k.mem.free }
      pipes := k.pipes.erase pa } : Kernel).pages = k.pages := by
    refine pages_eq_of_pipes ?_ rfl rfl
    show ((pa :: k.mem.free : List ℕ) : Multiset ℕ) + (k.pipes.erase pa : List ℕ) = _
    rw [← Multiset.cons_coe, Multiset.cons_add, ← Multiset.add_cons, Multiset.cons_coe,
      Multiset.coe_eq_coe.mpr (List.perm_cons_erase hpa).symm]
  refine ⟨_, rfl, ⟨?_, hpages, rfl, rfl, rfl⟩, rfl⟩
  exact h.of_ledger rfl rfl rfl rfl rfl (hpages ▸ h.nodup) (hpages ▸ h.valid)

/-! ### Every system call -/

/-- The call leaves nothing half-done. -/
def OpenOk (k : Kernel) : Ev → Prop
  | .ringbuf p str op addr _ => k.CleanCall p str op addr
  | _ => True

/-- The call is no `exec` with which an owner of a ring buffer comes to the
commit. -/
def ExecOk (k : Kernel) : Ev → Prop
  | .exec p path image args => k.Commits p path image args → ∀ r, ¬ k.Owns p r
  | _ => True

/-- **How a system call ends.**  The invariant holds again; stray mappings come
from opens; a teardown stops the kernel on stray mappings or on those of a
ring buffer. -/
theorem syscall_ends (h : Inv k) {e : Ev} (hruns : k.Runs e) :
    Ends (k.syscall e)
      (fun err => (err.Teardown → (∃ j v, k.Stray j v) ∨ ¬ k.ExecOk e) ∧
        (¬ k.ExecOk e → err.Teardown))
      fun k' => Inv k' ∧ (k.OpenOk e → Tidy k k') ∧ k.ExecOk e := by
  -- all but `wait` and `exec` tear nothing down that they did not build
  have hplain : ∀ {α : Type} {x : Except Panic (Kernel × α)}, k.ExecOk e →
      Ends x (fun err => ¬ err.Teardown) (fun s => Kept k s.1) →
      Ends (x >>= fun s => .ok s.1)
        (fun err => (err.Teardown → (∃ j v, k.Stray j v) ∨ ¬ k.ExecOk e) ∧
          (¬ k.ExecOk e → err.Teardown))
        fun k' => Inv k' ∧ (k.OpenOk e → Tidy k k') ∧ k.ExecOk e := by
    intro α x hexec hx
    refine Ends.bind (hx.mono ?_ fun _ hQ => hQ) ?_
    · exact fun err herr => ⟨fun ht => absurd ht herr, fun hno => absurd hexec hno⟩
    · exact fun s hs => ⟨hs.inv, fun _ => hs.tidy, hexec⟩
  cases e with
  | ringbuf p str op addr vaddr =>
    rcases hr : k.sysRingbuf p str op addr vaddr with err | ⟨k', n⟩
    · have herr := sysRingbuf_error h hr
      refine Ends.bind (Q := fun _ => False) (Ends.intro ?_ ?_) fun _ hf => hf.elim
      · intro s hs
        rw [hr] at hs
        cases hs
      · intro err' hs
        rw [hr] at hs
        cases hs
        exact ⟨fun ht => absurd ht herr, fun hno => absurd trivial hno⟩
    · refine Ends.bind (Q := fun s => s.1 = k') (Ends.of_eq_ok hr rfl) ?_
      rintro ⟨_, n'⟩ rfl
      exact ⟨inv_sysRingbuf h hruns hr, fun hclean => tidy_sysRingbuf h hruns hclean hr, trivial⟩
  | sbrk p n =>
    exact hplain trivial ((growproc_ends h hruns n).mono (fun _ he => he) fun _ hs => hs.1)
  | fork p => exact hplain trivial ((fork_ends h hruns).mono (fun _ he => he.1) fun _ hs => hs.1)
  | exit p =>
    refine (exit_ends h hruns).mono ?_ ?_
    · exact fun err herr => ⟨fun ht => absurd ht herr, fun hno => absurd trivial hno⟩
    · exact fun k' hk' => ⟨hk'.1.inv, fun _ => hk'.1.tidy, trivial⟩
  | wait p addr =>
    refine Ends.bind ((wait_ends h p addr).mono ?_ fun _ hQ => hQ) ?_
    · exact fun err herr => ⟨fun _ => .inl herr.2, fun hno => absurd trivial hno⟩
    · exact fun s hs => ⟨hs.1.inv, fun _ => hs.1.tidy, trivial⟩
  | exec p path image args =>
    refine Ends.bind ((sysExec_ends h hruns.1 path args).mono ?_ fun _ hQ => hQ) ?_
    · rintro err ⟨hiff, hwhy⟩
      constructor
      · intro ht
        rcases hwhy ht with ⟨v, hv⟩ | ⟨r, hr⟩
        · exact .inl ⟨p, v, hv⟩
        · exact .inr fun hok => hok (hiff.mp ht) r hr
      · intro hno
        apply hiff.mpr
        by_contra hc
        exact hno fun hcommit => absurd hcommit hc
    · exact fun s hs => ⟨hs.1.inv, fun _ => hs.1.tidy, hs.2.2⟩
  | pipe p =>
    have hkept := pipealloc_kept h
    exact ⟨hkept.inv, fun _ => hkept.tidy, trivial⟩
  | pipeclose p pa =>
    obtain ⟨k', hr, hkept, -⟩ := pipeclose_spec h hruns.2
    exact Ends.of_eq_ok hr ⟨hkept.inv, fun _ => hkept.tidy, trivial⟩

end Kernel

end Xv6Zig
