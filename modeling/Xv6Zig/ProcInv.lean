/-
Xv6Zig/ProcInv.lean

The process system calls and the invariant.

Each call is described by how it ends (`Lib.Ends`).  If it returns, the
invariant holds again and no process has gained a stray mapping.  If it stops
the kernel while it tears an address space down, there was a stray mapping, or
`exec` was called by an owner of a ring buffer.
-/
import Xv6Zig.Images
import Xv6Zig.RingbufCalls

namespace Xv6Zig

open Lib Function

namespace Kernel

variable {k k' k₁ : Kernel} {p j : ProcIx} {r : RingIx} {m : Kmem} {pt : PageTable}
  {tf sz : ℕ} {F : Multiset ℕ} {q : Proc}

/-! ### Ways to change the kernel -/

theorem ringsOf_eq_empty (hnot : ∀ r, ¬ k.Owns p r) : k.ringsOf p = ∅ := by
  rw [Finset.eq_empty_iff_forall_notMem]
  exact fun r hr => hnot r (mem_ringsOf.mp hr)

theorem Inv.of_ledger (h : Inv k) (hprocs : k'.procs = k.procs) (hrings : k'.ringbufs = k.ringbufs)
    (htr : k'.trampoline = k.trampoline) (hlog : k'.teardowns = k.teardowns)
    (hkend : k'.mem.kend = k.mem.kend) (hnodup : k'.pages.Nodup)
    (hvalid : ∀ pa ∈ k'.pages, ValidPage k.mem.kend pa) : Inv k' := by
  refine ⟨hnodup, ?_, ?_, ?_, ?_, ?_, ?_, ?_, ?_⟩
  · rwa [hkend]
  · rw [htr, hkend]
    exact h.trampoline
  · rw [hprocs, htr]
    exact h.proc
  · rw [hrings]
    exact h.ring
  · rw [hrings]
    exact h.name
  · rw [hrings, hprocs]
    exact h.owner
  · unfold ringsOf
    rw [hrings, hprocs]
    exact h.owned
  · rw [hlog]
    exact h.teardown

theorem Tidy.of_eq (hprocs : k'.procs = k.procs) (hrings : k'.ringbufs = k.ringbufs) :
    Tidy k k' := by
  intro p v hstray
  unfold Stray at hstray ⊢
  rwa [hprocs, hrings] at hstray

/-- **What every call but those on ring buffers and pipes keeps.** -/
structure Kept (k k' : Kernel) : Prop where
  inv : Inv k'
  pages : k'.pages = k.pages
  kend : k'.mem.kend = k.mem.kend
  pipes : k'.pipes = k.pipes
  tidy : Tidy k k'
  owners : ∀ s c j, ((k'.ringbufs s).owners c).proc = some j →
    (k'.ringbufs s).owners c = (k.ringbufs s).owners c
  tops : ∀ j, (k'.procs j).topFreeUvmPg = (k.procs j).topFreeUvmPg ∨
    ((k'.procs j).topFreeUvmPg = Proc.empty.topFreeUvmPg ∧ ∀ r, ¬ k'.Owns j r)

namespace Kept

theorem refl (h : Inv k) : Kept k k :=
  ⟨h, rfl, rfl, rfl, Tidy.refl k, fun _ _ _ _ => rfl, fun _ => .inl rfl⟩

theorem owns (h : Kept k k') (hown : k'.Owns j r) : k.Owns j r := by
  obtain ⟨c, hc⟩ := hown
  exact ⟨c, h.owners r c j hc ▸ hc⟩

theorem trans {k'' : Kernel} (h : Kept k k') (h' : Kept k' k'') : Kept k k'' := by
  refine ⟨h'.inv, h'.pages.trans h.pages, h'.kend.trans h.kend, h'.pipes.trans h.pipes,
    h.tidy.trans h'.tidy, fun s c j hc => ?_, fun j => ?_⟩
  · have hsame := h'.owners s c j hc
    rw [hsame]
    exact h.owners s c j (hsame ▸ hc)
  · rcases h'.tops j with htop | hreset
    · rw [htop]
      exact (h.tops j).imp_right fun hreset => ⟨hreset.1, fun r hown => hreset.2 r (h'.owns hown)⟩
    · exact .inr hreset

theorem of_rings (hinv : Inv k') (hpages : k'.pages = k.pages) (hkend : k'.mem.kend = k.mem.kend)
    (hpipes : k'.pipes = k.pipes) (htidy : Tidy k k') (hrings : k'.ringbufs = k.ringbufs)
    (htops : ∀ j, (k'.procs j).topFreeUvmPg = (k.procs j).topFreeUvmPg ∨
      ((k'.procs j).topFreeUvmPg = Proc.empty.topFreeUvmPg ∧ ∀ r, ¬ k.Owns j r)) :
    Kept k k' := by
  refine ⟨hinv, hpages, hkend, hpipes, htidy, fun s c j _ => ?_, fun j => ?_⟩
  · rw [hrings]
  · refine (htops j).imp_right fun hreset => ⟨hreset.1, fun r => ?_⟩
    unfold Owns
    rw [hrings]
    exact hreset.2 r

theorem of_replaces (h : Inv k) {T : List Teardown} (hrep : Replaces k p m T q)
    (htop : q.topFreeUvmPg = (k.procs p).topFreeUvmPg ∨
      q.topFreeUvmPg = Proc.empty.topFreeUvmPg ∧ ∀ r, ¬ k.Owns p r) :
    Kept k ({ k with mem := m, teardowns := T }.setProc p q) := by
  refine .of_rings (hrep.inv h) hrep.pages_eq hrep.kend rfl hrep.tidy rfl fun j => ?_
  rw [setProc_procs]
  by_cases hj : j = p
  · subst hj
    rwa [update_self]
  · exact .inl (by rw [update_of_ne hj])

/-- Only the free list was rearranged. -/
theorem of_mem (h : Inv k) {T : List Teardown} (hkend : m.kend = k.mem.kend)
    (hfree : (m.free : Multiset ℕ) = k.mem.free)
    (hlog : (m.free : Multiset ℕ).Nodup → ∀ t ∈ T, Clean t) :
    Kept k { k with mem := m, teardowns := T } := by
  have hpages : ({ k with mem := m, teardowns := T } : Kernel).pages = k.pages :=
    pages_eq_of_moved_proc (p := 0) (congrArg (· + _) hfree) (fun _ _ => rfl) rfl rfl
  refine .of_rings ?_ hpages hkend rfl (Tidy.of_eq rfl rfl) rfl fun _ => .inl rfl
  exact h.of_proc (p := 0) hpages hkend rfl (fun _ _ => rfl) rfl (h.proc 0)
    (fun s i b hown hatt => ⟨(h.owner s i 0 hown).1, hatt⟩) (h.owned 0)
    (hlog (nodup_free (hpages ▸ h.nodup)))

end Kept

theorem Exact.not_stray (h : Exact (k.procs p).pagetable (k.procs p).sz) (v : ℕ) :
    ¬ k.Stray p v := by
  rintro ⟨hleaf, h₁, h₂, h₃, -⟩
  have := h v hleaf
  omega

theorem Replaces.of_not_owns {T : List Teardown} (hnot : ∀ r, ¬ k.Owns p r)
    (hkend : m.kend = k.mem.kend)
    (hpages : (m.free : Multiset ℕ) + q.pages = k.mem.free + (k.procs p).pages)
    (hproc : ProcOk k.trampoline q)
    (hstray : ∀ v, leafAt q.pagetable v ≠ none → v ≠ trampolineVpn → v ≠ trapframeVpn →
      v < npages q.sz)
    (hlog : (m.free : Multiset ℕ).Nodup → ∀ t ∈ T, Clean t) : Replaces k p m T q := by
  refine ⟨hkend, hpages, hproc, fun s i b hown => absurd ⟨i, hown⟩ (hnot s), ?_, ?_, hlog⟩
  · rw [ringsOf_eq_empty hnot]
    exact Nat.zero_le _
  · exact fun v hleaf h₁ h₂ h₃ => absurd h₃ (not_le.mpr (hstray v hleaf h₁ h₂))

/-- **A process without ring buffers gets an image.** -/
theorem Inv.of_image (h : Inv k) (hnot : ∀ r, ¬ k.Owns p r) {T : List Teardown}
    (himage : Image k.trampoline tf k.mem.kend F m q.pagetable q.sz)
    (htf : q.trapframe = some tf) (hstate : q.state ≠ .unused)
    (htop : q.topFreeUvmPg = (k.procs p).topFreeUvmPg)
    (hF : F + {tf} = (k.mem.free : Multiset ℕ) + (k.procs p).pages)
    (hlog : (m.free : Multiset ℕ).Nodup → ∀ t ∈ T, Clean t) :
    Kept k ({ k with mem := m, teardowns := T }.setProc p q) := by
  refine .of_replaces h (.of_not_owns hnot himage.kend ?_ ?_ ?_ hlog) (.inl htop)
  · rw [← hF, ← himage.pages, q.coe_pages, htf]
    show (m.free : Multiset ℕ) + (({tf} : Multiset ℕ) + _ + _) = _
    ac_rfl
  · exact .of_space (htop ▸ (h.proc p).aligned) (htop ▸ (h.proc p).word) hstate htf himage.space
  · intro v hleaf h₁ h₂
    exact ((himage.exact v hleaf).resolve_left h₁).resolve_left h₂

/-! ### `freeproc` -/

/-- Process `p` was freed. -/
structure Freed (k : Kernel) (p : ProcIx) (k' : Kernel) : Prop where
  kept : Kept k k'
  procs : ∀ j ≠ p, k'.procs j = k.procs j
  self : k'.procs p = Proc.empty

theorem Freed.procs_eq {q : Proc} (h : Freed ({ k with mem := m }.setProc p q) p k')
    (hp : k.procs p = Proc.empty) : k'.procs = k.procs := by
  funext j
  by_cases hj : j = p
  · rw [hj, h.self, hp]
  · rw [h.procs j hj]
    exact update_of_ne hj _ _

/-- What is left to do once the process's pages are back on the free list. -/
theorem Freed.of_disowned {T : List Teardown} (hdis : Disowned k p k₁)
    (hnot : ∀ r, ¬ k₁.Owns p r) (hkend : m.kend = k₁.mem.kend)
    (hfree : (m.free : Multiset ℕ) = k₁.mem.free + (k₁.procs p).pages)
    (hlog : (m.free : Multiset ℕ).Nodup → ∀ t ∈ T, Clean t) :
    Freed k p ({ k₁ with mem := m, teardowns := T }.setProc p Proc.empty) := by
  have hkept : Kept k k₁ := by
    refine ⟨hdis.inv, hdis.pages, hdis.kend, hdis.pipes, hdis.tidy, hdis.owners, fun j => .inl ?_⟩
    by_cases hj : j = p
    · rw [hj, hdis.self]
    · rw [hdis.procs j hj]
  refine ⟨hkept.trans (.of_replaces hdis.inv (.of_not_owns hnot hkend ?_ (.empty _) ?_ hlog)
    (.inr ⟨rfl, hnot⟩)), fun j hj => (update_of_ne hj _ _).trans (hdis.procs j hj),
    update_self _ _ _⟩
  · rw [Proc.pages_empty, Multiset.coe_nil, add_zero]
    exact hfree
  · exact fun v hleaf => absurd (leafAt_absent v) hleaf

/-- **`freeproc` returns unless the process has a stray mapping.** -/
theorem freeproc_ends (h : Inv k) (p : ProcIx) :
    Ends (k.freeproc p) (fun e => e.Teardown ∧ ∃ v, k.Stray p v) (Freed k p) := by
  obtain ⟨k₁, hr, hdis, hnot⟩ : ∃ k₁,
      (if 0 < (k.procs p).ownedRingbufs then k.ringbufDisownAll p else .ok k) = .ok k₁ ∧
      Disowned k p k₁ ∧ ∀ r, ¬ k₁.Owns p r := by
    split_ifs with hpos
    · exact ringbufDisownAll_spec h p
    · refine ⟨k, rfl, Disowned.refl h p, ?_⟩
      intro r hown
      have hcard := h.owned p
      rw [Nat.eq_zero_of_not_pos hpos] at hcard
      have hempty := Finset.card_eq_zero.mp (Nat.le_zero.mp hcard)
      exact absurd (mem_ringsOf.mpr hown) (hempty ▸ Finset.notMem_empty r)
  have hok := hdis.inv.proc p
  have hvalid : ∀ pa ∈ (k₁.procs p).pages, ValidPage k₁.mem.kend pa := fun pa hpa =>
    hdis.inv.valid_proc hpa
  unfold freeproc
  simp only [hr, ok_bind]
  refine Ends.bind (Q := fun m => m.kend = k₁.mem.kend ∧
    (m.free : Multiset ℕ) = k₁.mem.free + ((k₁.procs p).trapframe.toList : List ℕ)) ?_ ?_
  · rcases htf : (k₁.procs p).trapframe with - | tf
    · exact Ends.of_eq_ok rfl ⟨rfl, (add_zero _).symm⟩
    · refine Ends.of_eq_ok (Kmem.kfree_ok k₁.mem (hvalid tf (Proc.mem_pages_trapframe htf)))
        ⟨rfl, ?_⟩
      show ((tf :: k₁.mem.free : List ℕ) : Multiset ℕ) = _
      rw [← Multiset.cons_coe, ← Multiset.singleton_add, add_comm]
      rfl
  rintro m ⟨hkend, hfree⟩
  by_cases hnull : isNull (k₁.procs p).pagetable = true
  · -- there is no address space yet
    simp only [hnull, if_true, ok_bind]
    have habs := isNull_iff.mp hnull
    have hpages : (k₁.procs p).pages = (k₁.procs p).trapframe.toList := by
      unfold Proc.pages
      rw [habs, hok.null hnull, npages_zero, leafPages_zero, List.append_nil]
      exact List.append_nil _
    refine Freed.of_disowned hdis hnot hkend ?_ fun _ => hdis.inv.teardown
    rw [hpages, hfree]
  · rw [Bool.not_eq_true] at hnull
    obtain ⟨tf, htf, hspace⟩ := hok.space hnull
    simp only [hnull, Bool.false_eq_true, if_false]
    rw [← hkend] at hvalid
    refine Ends.bind ((procFreepagetable_ends (k := { k₁ with mem := m }) hspace
      (fun pa hpa => hvalid pa (Proc.mem_pages_table hpa))
      (fun pa hpa => hvalid pa (List.mem_append_right _ hpa))).mono ?_ fun _ hQ => hQ) ?_
    · rintro e ⟨he, hnotexact⟩
      refine ⟨he, ?_⟩
      unfold Exact at hnotexact
      push Not at hnotexact
      obtain ⟨v, hleaf, h₁, h₂, h₃⟩ := hnotexact
      refine ⟨v, hdis.tidy p v ⟨hleaf, h₁, h₂, h₃, ?_⟩⟩
      exact fun s i b hown => absurd ⟨i, hown⟩ (hnot s)
    · rintro k₃ ⟨hexact, htorn⟩
      have htorn' := htorn
      obtain ⟨m₃, hk₃, hfree₃, rfl⟩ := htorn'
      show Freed k p ({ k₁ with mem := m₃, teardowns := _ }.setProc p Proc.empty)
      refine Freed.of_disowned hdis hnot (hk₃.trans hkend) ?_ fun hnodup => ?_
      · rw [hfree₃, Proc.coe_pages]
        show (m.free : Multiset ℕ) + _ + _ = _
        rw [hfree]
        ac_rfl
      · exact htorn.clean hspace hexact hnodup hdis.inv.teardown

/-! ### `allocproc` and `fork` -/

theorem Inv.not_owns_of_unused (h : Inv k) (hp : (k.procs p).state = .unused) (r : RingIx) :
    ¬ k.Owns p r := by
  rintro ⟨i, hi⟩
  exact (h.owner r i p hi).1 hp

/-- A slot that is taken and has no page table yet. -/
theorem Inv.of_reserved (h : Inv k) (hp : (k.procs p).state = .unused) (tf : Option ℕ)
    (hkend : m.kend = k.mem.kend) (hfree : (m.free : Multiset ℕ) + tf.toList = k.mem.free) :
    Kept k ({ k with mem := m }.setProc p
      { Proc.empty with state := .used, trapframe := tf }) := by
  have hempty := (h.proc p).unused hp
  refine .of_replaces h (.of_not_owns (h.not_owns_of_unused hp) hkend ?_ ?_ ?_ fun _ => h.teardown)
    (.inl (by rw [hempty]))
  · rw [hempty, Proc.pages_empty, ← hfree]
    unfold Proc.pages Proc.empty
    rw [npages_zero, leafPages_zero, List.append_nil]
    show (m.free : Multiset ℕ) + ((tf.toList ++ [] : List ℕ) : Multiset ℕ) = _
    rw [List.append_nil, Multiset.coe_nil, add_zero]
  · have hok := ProcOk.empty k.trampoline
    refine ⟨hok.aligned, hok.word, (fun h => nomatch h), fun _ => rfl, (fun h => nomatch h), ?_⟩
    rintro (h | h)
    · cases h
    · cases h
  · exact fun v hleaf => absurd (leafAt_absent v) hleaf

theorem freeproc_reserved (h : Inv k) (hp : (k.procs p).state = .unused) (tf : Option ℕ)
    (hkend : m.kend = k.mem.kend) (hfree : (m.free : Multiset ℕ) + tf.toList = k.mem.free) :
    ∃ k', ({ k with mem := m }.setProc p
        { Proc.empty with state := .used, trapframe := tf }).freeproc p = .ok k' ∧
      Kept k k' ∧ k'.procs = k.procs := by
  have hkept := h.of_reserved hp tf hkend hfree
  refine Ends.returns ((freeproc_ends hkept.inv p).mono ?_ fun k' hfreed =>
    ⟨hkept.trans hfreed.kept, hfreed.procs_eq ((h.proc p).unused hp)⟩)
  rintro e ⟨-, v, hleaf, -⟩
  apply hleaf
  simp only [setProc_procs, update_self]
  exact leafAt_absent v

/-- The kernel with a new process, which has no memory yet. -/
def newproc (k : Kernel) (p : ProcIx) (tf : ℕ) (m : Kmem) (pt : PageTable) : Kernel :=
  { k with mem := m }.setProc p
    { Proc.empty with state := .used, trapframe := some tf, pagetable := pt }

/-- What the new process becomes, whatever it was before. -/
theorem newproc_setProc (k : Kernel) (p : ProcIx) (tf : ℕ) (m m' : Kmem) (pt : PageTable)
    (q : Proc) :
    { k.newproc p tf m pt with mem := m' }.setProc p q = { k with mem := m' }.setProc p q := by
  show Kernel.mk _ _ _ _ _ _ = Kernel.mk _ _ _ _ _ _
  congr 1
  exact update_idem _ _ _

/-- **`allocproc` returns.** -/
theorem allocproc_spec (h : Inv k) :
    (∃ k', k.allocproc = .ok (k', none) ∧ Kept k k' ∧ k'.procs = k.procs) ∨
      ∃ p tf F m pt, k.allocproc = .ok (k.newproc p tf m pt, some p) ∧
        (k.procs p).state = .unused ∧ (F : Multiset ℕ) + {tf} = k.mem.free ∧
        Image k.trampoline tf k.mem.kend F m pt 0 := by
  unfold allocproc
  rcases hfind : (List.finRange nProc).find? fun p => (k.procs p).state = .unused with - | p
  · exact .inl ⟨k, rfl, Kept.refl h, rfl⟩
  have hp : (k.procs p).state = .unused := by simpa using List.find?_some hfind
  have hempty := (h.proc p).unused hp
  simp only [hempty]
  rcases halloc : k.mem.allocPage with - | ⟨tf, m⟩
  · -- no page for the trapframe
    obtain ⟨k', hr, hkept⟩ := freeproc_reserved h hp none (m := k.mem) rfl (add_zero _)
    left
    refine ⟨k', ?_, hkept⟩
    exact bind_eq_ok.mpr ⟨k', hr, rfl⟩
  · obtain ⟨hm, hk⟩ := Kmem.of_allocPage halloc
    have hF : (m.free : Multiset ℕ) + {tf} = k.mem.free := by
      rw [hm, ← Multiset.cons_coe, ← Multiset.singleton_add, add_comm]
    have hvalid : ∀ pa ∈ m.free, ValidPage m.kend pa := by
      intro pa hpa
      rw [hk]
      apply h.valid_free
      rw [hm]
      exact List.mem_cons_of_mem tf hpa
    obtain ⟨m', pt, hr, ⟨rfl, hk', hfree⟩ | himage⟩ := procPagetable_spec hvalid k.trampoline tf
    · -- no pages for the page table
      simp only [hr, ok_bind]
      obtain ⟨k', hr', hkept⟩ := freeproc_reserved h hp (some tf) (m := m') (hk'.trans hk)
        (by rw [hfree]; exact hF)
      left
      refine ⟨k', ?_, hkept⟩
      exact bind_eq_ok.mpr ⟨k', hr', rfl⟩
    · right
      have hnull := isNull_of_leafAt himage.space.trampoline
      refine ⟨p, tf, m.free, m', pt, ?_, hp, hF, hk ▸ himage⟩
      simp only [hr, ok_bind, hnull, Bool.false_eq_true, if_false]
      rfl

/-- What `fork` does to the processes: nothing, or there is a new one. -/
def Forked (k : Kernel) (p : ProcIx) (k' : Kernel) : Option ProcIx → Prop
  | none => k'.procs = k.procs
  | some np => (k.procs np).state = .unused ∧ (∀ j ≠ np, k'.procs j = k.procs j) ∧
      (k'.procs np).state = .live ∧ (k'.procs np).parent = some p ∧
      (k'.procs np).sz = (k.procs p).sz

/-- **`fork`.** -/
theorem fork_ends (h : Inv k) (hrun : k.Running p) :
    Ends (k.fork p) Panic.Building fun s => Kept k s.1 ∧ Forked k p s.1 s.2 := by
  unfold fork
  rcases allocproc_spec h with ⟨k', hr, hkept⟩ | ⟨np, tf, F, m, pt, hr, hnp, hF, himage⟩
  · rw [hr]
    exact hkept
  have hpnp : p ≠ np := by
    rintro rfl
    rw [hrun.1] at hnp
    cases hnp
  have hself : (k.newproc np tf m pt).procs np
      = { Proc.empty with state := .used, trapframe := some tf, pagetable := pt } :=
    update_self _ _ _
  have hp : (k.newproc np tf m pt).procs p = k.procs p := update_of_ne hpnp _ _
  have hvalidF : ∀ pa ∈ F, ValidPage k.mem.kend pa := by
    intro pa hpa
    apply h.valid_free
    rw [← Multiset.mem_coe, ← hF]
    exact Multiset.mem_add.mpr (.inl hpa)
  obtain ⟨hfree, hpages, -⟩ := himage.valid hvalidF
  have hnot := h.not_owns_of_unused hnp
  have hempty : (k.mem.free : Multiset ℕ) + (k.procs np).pages = k.mem.free := by
    rw [(h.proc np).unused hnp, Proc.pages_empty, Multiset.coe_nil, add_zero]
  have htop : Proc.empty.topFreeUvmPg = (k.procs np).topFreeUvmPg := by
    rw [(h.proc np).unused hnp]
  rw [hr, ok_bind]
  simp only [hself, hp, newproc_setProc]
  rcases hcopy : uvmcopy (k.newproc np tf m pt).mem (k.procs p).pagetable pt (k.procs p).sz with
    e | ⟨m', pt', ok⟩
  · exact uvmcopy_error hfree hpages hcopy
  have hspec := of_uvmcopy hcopy
  simp only [ok_bind]
  cases ok with
  | false =>
    obtain ⟨hleaf, hmoved⟩ := hspec
    have himage' := himage.moved hleaf hmoved
    simp only [Bool.false_eq_true, if_false]
    have hkept := h.of_image (p := np) hnot (q := { Proc.empty with
      state := .used, trapframe := some tf, pagetable := pt' }) himage' rfl (fun h => nomatch h)
      htop (hF.trans hempty.symm) fun _ => h.teardown
    refine Ends.bind (Q := Freed _ np) ((freeproc_ends hkept.inv np).mono ?_ fun _ hQ => hQ) ?_
    · -- the child has nothing but its image
      rintro e ⟨-, v, hstray⟩
      refine absurd hstray (Exact.not_stray ?_ v)
      simp only [setProc_procs, update_self]
      exact himage'.exact
    · exact fun k' hfreed => ⟨hkept.trans hfreed.kept, hfreed.procs_eq ((h.proc np).unused hnp)⟩
  | true =>
    have himage' : Image k.trampoline tf k.mem.kend F m' pt' (k.procs p).sz := by
      apply himage.allocated (Nat.zero_le _) (P := fun v perm =>
        ∃ q, leafAt (k.procs p).pagetable v = some q ∧ perm = q.perm)
      rw [npages_zero, Nat.sub_zero]
      exact hspec
    refine ⟨h.of_image (p := np) hnot (q := { Proc.empty with
      state := .live, trapframe := some tf, pagetable := pt', sz := (k.procs p).sz,
      parent := some p }) himage' rfl (fun h => nomatch h) htop
      (hF.trans hempty.symm) fun _ => h.teardown, hnp, ?_, ?_, ?_, ?_⟩
    · exact fun j hj => update_of_ne hj _ _
    · simp only [setProc_procs, update_self]
    · simp only [setProc_procs, update_self]
    · simp only [setProc_procs, update_self]

/-! ### `growproc` -/

/-- The address space of a process changes its size; what is mapped above it
stays. -/
theorem Inv.of_resized (h : Inv k) (sz : ℕ) (hnull : isNull (k.procs p).pagetable = false)
    (hspace : ∀ tf, AddressSpace k.trampoline tf (k.procs p).pagetable (k.procs p).sz →
      AddressSpace k.trampoline tf pt sz)
    (hkend : m.kend = k.mem.kend)
    (hpages : (m.free : Multiset ℕ) + pt.pages + leafPages pt 0 (npages sz) = k.mem.free
      + (k.procs p).pagetable.pages + leafPages (k.procs p).pagetable 0 (npages (k.procs p).sz))
    (hkeep : ∀ v, npages (k.procs p).sz ≤ v → leafAt (k.procs p).pagetable v ≠ none →
      leafAt pt v = leafAt (k.procs p).pagetable v)
    (hnew : ∀ v, npages sz ≤ v → leafAt pt v ≠ none →
      npages (k.procs p).sz ≤ v ∧ leafAt (k.procs p).pagetable v ≠ none) :
    Kept k ({ k with mem := m }.setProc p { k.procs p with pagetable := pt, sz := sz }) := by
  have hok := h.proc p
  obtain ⟨tf, htf, hspace₀⟩ := hok.space hnull
  have hstate := hok.state_ne_unused hnull
  refine .of_replaces h ⟨hkend, ?_, ?_, ?_, h.owned p, ?_, fun _ => h.teardown⟩ (.inl rfl)
  · rw [Proc.coe_pages, Proc.coe_pages]
    calc _ = ((m.free : Multiset ℕ) + pt.pages + leafPages pt 0 (npages sz))
          + (k.procs p).trapframe.toList := by ac_rfl
      _ = _ := by
        rw [hpages]
        ac_rfl
  · exact .of_space hok.aligned hok.word hstate htf (hspace tf hspace₀)
  · intro s i b hown hatt
    refine ⟨hstate, hatt.of_leaf ?_⟩
    intro v h₁ h₂
    obtain ⟨pte, hpte, -⟩ := h.attached_leaf hown hatt ⟨h₁, h₂⟩
    exact hkeep v (h.attached_apart hown hatt ⟨h₁, h₂⟩).2.2 (by simp [hpte])
  · intro v hleaf _ _ h₃
    obtain ⟨h₃', hleaf'⟩ := hnew v h₃ hleaf
    exact ⟨hleaf', h₃'⟩

/-- What `growproc` does to the processes; if it fails nothing is mapped that
was not mapped before. -/
structure Resized (k : Kernel) (p : ProcIx) (k' : Kernel) (ok : Bool) : Prop where
  procs : ∀ j ≠ p, k'.procs j = k.procs j
  self : k'.procs p = { k.procs p with
    pagetable := (k'.procs p).pagetable
    sz := (k'.procs p).sz }
  failed : ok = false → (k'.procs p).sz = (k.procs p).sz ∧
    leafAt (k'.procs p).pagetable = leafAt (k.procs p).pagetable
  leaf : Extended (k.procs p).pagetable (k'.procs p).pagetable

theorem Resized.of_setProc {sz : ℕ} {ok : Bool} (hfailed : ok = false → sz = (k.procs p).sz ∧
    leafAt pt = leafAt (k.procs p).pagetable) (hleaf : Extended (k.procs p).pagetable pt) :
    Resized k p ({ k with mem := m }.setProc p { k.procs p with pagetable := pt, sz := sz }) ok := by
  refine ⟨fun j hj => update_of_ne hj _ _, ?_, ?_, ?_⟩
  · simp only [setProc_procs, update_self]
  · simp only [setProc_procs, update_self]
    exact hfailed
  · simp only [setProc_procs, update_self]
    exact hleaf

theorem growproc_ends (h : Inv k) (hrun : k.Running p) (n : Int32) :
    Ends (k.growproc p n) (fun e => ¬ e.Teardown) fun s =>
      Kept k s.1 ∧ Resized k p s.1 s.2 := by
  have hok := h.proc p
  have hnull := hok.live (.inl hrun.1)
  obtain ⟨tf₀, -, hspace₀⟩ := hok.space hnull
  have hmax : npages (k.procs p).sz ≤ vpnMax := le_trans hspace₀.le (by decide)
  have hpages₀ : ∀ pa ∈ (k.procs p).pagetable.pages, ValidPage k.mem.kend pa := fun pa hpa =>
    h.valid_proc (Proc.mem_pages_table hpa)
  unfold growproc
  simp only
  generalize (((k.procs p).sz + n.toInt) % 2 ^ 64).toNat = newsz
  split_ifs with hpos hneg
  · -- more memory
    rcases hr : uvmalloc k.mem (k.procs p).pagetable (k.procs p).sz newsz true false with
      e | ⟨m, pt, r⟩
    · exact uvmalloc_error (fun pa hpa => h.valid_free hpa) hpages₀ hmax hr
    simp only [ok_bind]
    rcases of_uvmalloc hr with ⟨rfl, hleaf, hmoved⟩ | ⟨rfl, halloc⟩
    · rw [if_pos rfl]
      refine ⟨h.of_resized (k.procs p).sz hnull ?_ hmoved.kend ?_ ?_ ?_,
        Resized.of_setProc (fun _ => ⟨rfl, hleaf⟩) (.of_eq hleaf)⟩
      · exact fun tf hspace => hspace.of_same fun v _ => congrFun hleaf v
      · rw [hmoved.pages, leafPages_congr fun w _ _ => congrFun hleaf w]
      · exact fun v _ _ => congrFun hleaf v
      · rw [hleaf]
        exact fun v hv hne => ⟨hv, hne⟩
    · have hle := le_max_left (k.procs p).sz newsz
      have hmono := npages_mono hle
      rw [if_neg (by have := hrun.2; omega)]
      refine ⟨h.of_resized _ hnull (fun tf hspace => hspace.allocated halloc) halloc.kend ?_ ?_ ?_,
        Resized.of_setProc (fun hno => nomatch hno) ?_⟩
      rotate_right
      · intro v pte hpte
        by_cases hin : npages (k.procs p).sz ≤ v ∧ v < npages (k.procs p).sz
            + (npages (max (k.procs p).sz newsz) - npages (k.procs p).sz)
        · obtain ⟨pte', hpte', hperm⟩ := halloc.mapped v hin.1 hin.2
          rw [hpte'] at hpte
          rw [← Option.some.inj hpte, hperm]
          exact .inr ⟨halloc.fresh v hin.1 hin.2, rfl⟩
        · rw [halloc.rest v hin] at hpte
          exact .inl hpte
      · rw [leafPages_allocated hle halloc, ← halloc.pages, ← Multiset.coe_add]
        ac_rfl
      · intro v hv hne
        obtain ⟨pte, hpte⟩ := Option.ne_none_iff_exists'.mp hne
        rw [hpte, halloc.grown v pte hpte]
      · intro v hv hne
        rw [halloc.rest v (by omega)] at hne
        exact ⟨by omega, hne⟩
  · -- less memory
    obtain ⟨⟨m, pt, r⟩, hr⟩ : ∃ s, uvmdealloc k.mem (k.procs p).pagetable (k.procs p).sz newsz
        = .ok s := by
      apply uvmdealloc_returns hmax
      intro w _ hw
      obtain ⟨pte, hpte⟩ := Option.ne_none_iff_exists'.mp (hspace₀.user w hw)
      exact ⟨pte, hpte, h.valid_proc (Proc.mem_pages_user hw hpte)⟩
    obtain ⟨rfl, hun⟩ := of_uvmdealloc hr
    simp only [hr, ok_bind]
    have hle := npages_mono (min_le_left (k.procs p).sz newsz)
    refine ⟨h.of_resized _ hnull ?_ hun.kend ?_ ?_ ?_,
      Resized.of_setProc (fun hno => nomatch hno) ?_⟩
    rotate_right
    · intro v pte hpte
      rw [hun.leaf] at hpte
      split_ifs at hpte
      exact .inl hpte
    · intro tf hspace
      have htf := hspace.le
      have hlt : trapframeVpn < trampolineVpn := by decide
      refine ⟨?_, ?_, ?_, by omega⟩
      · rw [hun.leaf, if_neg (by omega), hspace.trampoline]
      · rw [hun.leaf, if_neg (by omega), hspace.trapframe]
      · intro v hv
        rw [hun.leaf, if_neg (by omega)]
        exact hspace.user v (by omega)
    · have hlow : leafPages pt 0 (npages (min (k.procs p).sz newsz))
          = leafPages (k.procs p).pagetable 0 (npages (min (k.procs p).sz newsz)) :=
        leafPages_congr fun w _ hw => by rw [hun.leaf, if_neg (by omega)]
      rw [hun.free, if_pos rfl, hun.pages, hlow, leafPages_split _ hle, ← Multiset.coe_add,
        ← Multiset.coe_add, Multiset.coe_reverse]
      ac_rfl
    · intro v hv _
      rw [hun.leaf, if_neg (by omega)]
    · intro v hv hne
      rw [hun.leaf] at hne
      split_ifs at hne with hin
      · exact absurd rfl hne
      · exact ⟨by omega, hne⟩
  · exact ⟨Kept.refl h, fun _ _ => rfl, rfl, (fun hno => nomatch hno), .of_eq rfl⟩

/-! ### `exit` and `wait` -/

/-- Parents and states may change as long as no slot is given up. -/
theorem Inv.of_marks (h : Inv k) {f : ProcIx → Proc}
    (hf : ∀ j, f j = { k.procs j with parent := (f j).parent, state := (f j).state })
    (hunused : ∀ j, (f j).state = .unused → f j = k.procs j)
    (hlive : ∀ j, (f j).state = .live ∨ (f j).state = .zombie →
      (k.procs j).state = .live ∨ (k.procs j).state = .zombie) :
    Kept k { k with procs := f } := by
  have hpt : ∀ j, (f j).pagetable = (k.procs j).pagetable := fun j => by rw [hf j]
  have hsz : ∀ j, (f j).sz = (k.procs j).sz := fun j => by rw [hf j]
  have htf : ∀ j, (f j).trapframe = (k.procs j).trapframe := fun j => by rw [hf j]
  have hpages : ({ k with procs := f } : Kernel).pages = k.pages := by
    unfold pages
    apply Finset.sum_congr rfl
    intro x _
    cases x with
    | free => rw [held_free, held_free]
    | pipes => rw [held_pipes, held_pipes]
    | ring s => rw [held_ring, held_ring]
    | proc j =>
      rw [held_proc, held_proc]
      show ((f j).pages : Multiset ℕ) = _
      unfold Proc.pages
      rw [hpt, hsz, htf]
  refine Kept.of_rings ?_ hpages rfl rfl ?_ rfl fun j => .inl ?_
  · refine ⟨hpages ▸ h.nodup, hpages ▸ h.valid, h.trampoline, ?_, h.ring, h.name, ?_, ?_,
      h.teardown⟩
    · intro j
      have hok := h.proc j
      show ProcOk k.trampoline (f j)
      refine ⟨?_, ?_, ?_, ?_, ?_, ?_⟩
      · rw [hf j]
        exact hok.aligned
      · rw [hf j]
        exact hok.word
      · intro hu
        have hsame := hunused j hu
        rw [hsame] at hu ⊢
        exact hok.unused hu
      · rw [hpt, hsz]
        exact hok.null
      · rw [hpt, hsz, htf]
        exact hok.space
      · intro hl
        rw [hpt]
        exact hok.live (hlive j hl)
    · intro s i j hown
      obtain ⟨hstate, b, hatt⟩ := h.owner s i j hown
      refine ⟨?_, b, ?_⟩
      · intro hu
        exact hstate (hunused j hu ▸ hu)
      · show Attached _ _ (f j).pagetable b
        rw [hpt]
        exact hatt
    · intro j
      show (k.ringsOf j).card ≤ (f j).ownedRingbufs
      rw [hf j]
      exact h.owned j
  · intro j v hstray
    obtain ⟨hleaf, h₁, h₂, h₃, hrest⟩ := hstray
    change leafAt (f j).pagetable v ≠ none at hleaf
    change npages (f j).sz ≤ v at h₃
    rw [hpt] at hleaf
    rw [hsz] at h₃
    exact ⟨hleaf, h₁, h₂, h₃, hrest⟩
  · show (f j).topFreeUvmPg = _
    rw [hf j]

theorem exit_ends (h : Inv k) (hlive : (k.procs p).state = .live) :
    Ends (k.exit p) (fun e => ¬ e.Teardown) fun k' =>
      Kept k k' ∧ (k'.procs p).state = .zombie ∧
        ∀ j, k'.procs j = { k.procs j with
          parent := (k'.procs j).parent
          state := if j = p then .zombie else (k.procs j).state } := by
  unfold exit
  split_ifs
  · show ¬ Panic.Teardown .initExiting
    decide
  have hrep : ∀ j, (k.reparent p).procs j
      = { k.procs j with parent := ((k.reparent p).procs j).parent } := by
    intro j
    unfold reparent
    simp only
    split_ifs
    · rfl
    · rfl
  have hnone : ∀ j, (k.procs j).state = .unused → (k.reparent p).procs j = k.procs j := by
    intro j hu
    unfold reparent
    simp only
    rw [if_neg]
    rw [(h.proc j).unused hu]
    exact fun h => nomatch h
  have hself : ((k.reparent p).setProc p { (k.reparent p).procs p with state := .zombie }).procs p
      = { (k.reparent p).procs p with state := .zombie } := update_self _ _ _
  have hne : ∀ j ≠ p, ((k.reparent p).setProc p
      { (k.reparent p).procs p with state := .zombie }).procs j = (k.reparent p).procs j :=
    fun j hj => update_of_ne hj _ _
  refine ⟨?_, congrArg Proc.state hself, fun j => ?_⟩
  rotate_left
  · by_cases hj : j = p
    · rw [hj, hself, if_pos rfl, hrep p]
    · rw [hne j hj, if_neg hj]
      exact hrep j
  refine h.of_marks (f := ((k.reparent p).setProc p
    { (k.reparent p).procs p with state := .zombie }).procs) ?_ ?_ ?_
  · intro j
    by_cases hj : j = p
    · rw [hj, hself, hrep p]
    · rw [hne j hj, hrep j]
  · intro j hu
    by_cases hj : j = p
    · rw [hj, hself] at hu
      cases hu
    · rw [hne j hj] at hu ⊢
      rw [hrep j] at hu
      exact hnone j hu
  · intro j hl
    by_cases hj : j = p
    · rw [hj]
      exact .inl hlive
    · rw [hne j hj, hrep j] at hl
      exact hl

/-- What `wait` does: nothing, or a child is freed that had exited. -/
def Reaped (k : Kernel) (p : ProcIx) (k' : Kernel) : Option ProcIx → Prop
  | none => k' = k
  | some j => (k.procs j).parent = some p ∧ (k.procs j).state = .zombie ∧ Freed k j k'

theorem wait_ends (h : Inv k) (p : ProcIx) (addr : ℕ) :
    Ends (k.wait p addr) (fun e => e.Teardown ∧ ∃ j v, k.Stray j v) fun s =>
      Kept k s.1 ∧ Reaped k p s.1 s.2 := by
  unfold wait
  split
  · exact ⟨Kept.refl h, rfl⟩
  · rename_i j hfind
    split_ifs
    · exact ⟨Kept.refl h, rfl⟩
    · refine Ends.bind (Q := Freed k j) ((freeproc_ends h j).mono ?_ fun _ hQ => hQ) ?_
      · exact fun e he => ⟨he.1, j, he.2⟩
      · have hj : (k.procs j).parent = some p ∧ (k.procs j).state = .zombie := by
          simpa using List.find?_some hfind
        exact fun k' hfreed => ⟨hfreed.kept, hj.1, hj.2, hfreed⟩

end Kernel

end Xv6Zig
