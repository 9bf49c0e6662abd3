/-
Xv6Zig/RingbufInv.lean

Opening and closing ring buffers keeps the invariant.

An open either fails early, before anything but the name buffer of an idle
ring buffer has changed (`open_early`), or it comes to attach the caller to a
ring buffer that has its pages, an active one or one that was activated just
now (`open_late`, `Ready`).  From there it succeeds, is undone, or stops the
kernel.  All these are exchanges of one process and one ring buffer.
-/
import Xv6Zig.KernelInv

namespace Xv6Zig

open Lib Function

/-! ### The process of an open -/

variable {m m' : Kmem} {q q' : Proc} {tr : ℕ}

theorem ProcOk.grown (h : ProcOk tr q) (hnull : Kernel.isNull q.pagetable = false)
    (hg : Grown q.pagetable q'.pagetable) (hstate : q'.state = q.state) (hsz : q'.sz = q.sz)
    (htf : q'.trapframe = q.trapframe) (hva : q'.topFreeUvmPg % pgSize = 0)
    (hlt : q'.topFreeUvmPg < 2 ^ 64) : ProcOk tr q' := by
  obtain ⟨tf, hq, hspace⟩ := h.space hnull
  exact .of_space hva hlt (hstate ▸ h.state_ne_unused hnull) (htf.trans hq) (hsz ▸ hspace.grown hg)

/-- The pages of its page table come from the free list. -/
theorem Proc.pages_grown (q q' : Proc) (hmoved : Moved m q.pagetable m' q'.pagetable)
    (hg : Grown q.pagetable q'.pagetable) (huser : ∀ v < npages q.sz, leafAt q.pagetable v ≠ none)
    (hsz : q'.sz = q.sz) (htf : q'.trapframe = q.trapframe) :
    (m'.free : Multiset ℕ) + q'.pages = m.free + q.pages := by
  unfold Proc.pages
  rw [hsz, htf, hg.leafPages_eq huser]
  simp only [← Multiset.coe_add]
  calc _ = (m'.free + q'.pagetable.pages : Multiset ℕ) + q.trapframe.toList
        + leafPages q.pagetable 0 (npages q.sz) := by ac_rfl
    _ = (m.free + q.pagetable.pages : Multiset ℕ) + q.trapframe.toList
        + leafPages q.pagetable 0 (npages q.sz) := by rw [hmoved.pages]
    _ = _ := by ac_rfl

namespace Kernel

variable {k k₁ k' : Kernel} {p : ProcIx} {r : RingIx} {i : Fin 2} {pt : PageTable} {top b : ℕ}
  {f : Fin 16 → ℕ} {book addr : ℕ}

theorem MapEnded.grown {l : List ℕ} {pt' : PageTable} {top' : ℕ} {ok : Bool}
    (h : MapEnded l m pt top m' pt' top' ok) : Grown pt pt' ∧ Moved m pt m' pt' := by
  cases ok with
  | true => exact ⟨h.1.grown, h.1.moved⟩
  | false =>
    obtain ⟨n, m₁, pt₁, -, hmapped, -, hfail⟩ := h
    refine ⟨?_, hmapped.moved.trans hfail.moved⟩
    intro w pte hw
    rw [hfail.leaf]
    exact hmapped.grown w pte hw

/-! ### The ring buffer of an open -/

/-- Ring buffer `r` of `k` has its pages in `k₁` and nothing else has changed. -/
structure Ready (k k₁ : Kernel) (r : RingIx) (f : Fin 16 → ℕ) (book : ℕ) : Prop where
  procs : k₁.procs = k.procs
  rings : ∀ s ≠ r, k₁.ringbufs s = k.ringbufs s
  pages : k₁.pages = k.pages
  kend : k₁.mem.kend = k.mem.kend
  trampoline : k₁.trampoline = k.trampoline
  teardowns : k₁.teardowns = k.teardowns
  holds : (k₁.ringbufs r).Holds f book
  owners : (k₁.ringbufs r).owners = (k.ringbufs r).owners
  refcount : (k₁.ringbufs r).refcount = (k.ringbufs r).refcount
  keep : (k.ringbufs r).refcount ≠ 0 → k₁.ringbufs r = k.ringbufs r
  name : ∀ s ≠ r, (k.ringbufs s).refcount ≠ 0 → (k.ringbufs s).name ≠ (k₁.ringbufs r).name

theorem Ready.valid (h : Ready k k₁ r f book) (hinv : Inv k) :
    ∀ pa ∈ (k₁.ringbufs r).pages, ValidPage k₁.mem.kend pa := by
  intro pa hpa
  rw [h.kend]
  apply hinv.valid
  rw [← h.pages]
  apply Inv.mem_pages (h := .ring r)
  rwa [held_ring]

theorem Ready.of_active (hinv : Inv k) (hholds : (k.ringbufs r).Holds f book)
    (hactive : (k.ringbufs r).refcount ≠ 0) : Ready k k r f book := by
  refine ⟨rfl, fun _ _ => rfl, rfl, rfl, rfl, rfl, hholds, rfl, rfl, fun _ => rfl, ?_⟩
  intro s hs hact heq
  exact hs (hinv.name s r hact hactive heq)

/-- One ring buffer was exchanged and one process changed, and no region of
another ring buffer suffered. -/
theorem Ready.inv (hready : Ready k k₁ r f book) (hinv : Inv k)
    (hnull : isNull (k.procs p).pagetable = false) (hpages : k'.pages = k₁.pages)
    (hkend : k'.mem.kend = k₁.mem.kend) (htr : k'.trampoline = k₁.trampoline)
    (hlog : k'.teardowns = k₁.teardowns) (hprocs : ∀ j ≠ p, k'.procs j = k₁.procs j)
    (hrings : ∀ s ≠ r, k'.ringbufs s = k₁.ringbufs s) {n : ℕ}
    (hp : k'.procs p = { k₁.procs p with
      pagetable := pt, topFreeUvmPg := top, ownedRingbufs := n })
    (hg : Grown (k.procs p).pagetable pt) (hva : top % pgSize = 0) (hlt : top < 2 ^ 64)
    (hring : RingOk (k'.ringbufs r))
    (hname : (k'.ringbufs r).refcount ≠ 0 → (k'.ringbufs r).name = (k₁.ringbufs r).name)
    (hself : ∀ i j, ((k'.ringbufs r).owners i).proc = some j → (k'.procs j).state ≠ .unused ∧
      ∃ b, Attached (k'.ringbufs r) ((k'.ringbufs r).owners i) (k'.procs j).pagetable b)
    (howned : ∀ j, (k'.ringsOf j).card ≤ (k'.procs j).ownedRingbufs) : Inv k' := by
  rw [hready.procs] at hp
  refine hinv.of_changes (p := p) (r := r) (hpages.trans hready.pages) (hkend.trans hready.kend)
    (htr.trans hready.trampoline) ?_ ?_ ?_ hring ?_ hself ?_ howned ?_
  · intro j hj
    rw [hprocs j hj, hready.procs]
  · intro s hs
    rw [hrings s hs, hready.rings s hs]
  · rw [hp]
    exact (hinv.proc p).grown hnull hg rfl rfl rfl hva hlt
  · intro hact s hs hact' heq
    exact hready.name s hs hact' (heq.trans (hname hact))
  · intro s _ j b hown hatt
    rw [hp]
    exact ⟨(hinv.owner s j p hown).1, hinv.attached_grown hown hatt hg⟩
  · rw [hlog, hready.teardowns]
    exact hinv.teardown

/-! ### An open that succeeds -/

section Opened

variable {s : RingIx} {j : ProcIx}

theorem opened_procs_self (k : Kernel) (p : ProcIx) (r : RingIx) (i : Fin 2) (m : Kmem)
    (pt : PageTable) (top : ℕ) : (k.opened p r i m pt top).procs p =
      { k.procs p with
        pagetable := pt
        topFreeUvmPg := sub64 top pgSize
        ownedRingbufs := (k.procs p).ownedRingbufs + 1 } :=
  update_self _ _ _

theorem opened_procs_ne {j : ProcIx} (hj : j ≠ p) (m : Kmem) (pt : PageTable) (top : ℕ) :
    (k.opened p r i m pt top).procs j = k.procs j :=
  update_of_ne hj _ _

/-- The new owner. -/
def newOwner (p : ProcIx) (top : ℕ) : Owner :=
  ⟨some p, ptrFromInt (add64 top (2 * pgSize)), ptrFromInt (add64 top (1 * pgSize))⟩

theorem opened_ring_self (k : Kernel) (p : ProcIx) (r : RingIx) (i : Fin 2) (m : Kmem)
    (pt : PageTable) (top : ℕ) : (k.opened p r i m pt top).ringbufs r =
      ⟨(k.ringbufs r).refcount + 1, update (k.ringbufs r).owners i (newOwner p top),
        (k.ringbufs r).nameBuf, (k.ringbufs r).bufPages, (k.ringbufs r).bookPage⟩ :=
  update_self _ _ _

theorem opened_ring_ne (hs : s ≠ r) (m : Kmem) (pt : PageTable) (top : ℕ) :
    (k.opened p r i m pt top).ringbufs s = k.ringbufs s :=
  update_of_ne hs _ _

variable (hready : Ready k k₁ r f book) (hinv : Inv k)
  (hempty : ((k.ringbufs r).owners i).proc = none) (hnot : ¬ k.Owns p r)
  (hmap : MappedDown (Ringbuf.order f book) k₁.mem (k.procs p).pagetable
    ((k.procs p).topFreeUvmPg / pgSize) m pt)

include hready in
theorem owns_opened (htop : (k₁.opened p r i m pt top).Owns j s) :
    k.Owns j s ∨ (j = p ∧ s = r) := by
  obtain ⟨c, hc⟩ := htop
  by_cases hs : s = r
  · subst hs
    rw [opened_ring_self, hready.owners] at hc
    by_cases hci : c = i
    · simp only [hci, update_self] at hc
      exact .inr ⟨(Option.some.inj hc).symm, rfl⟩
    · simp only [update_of_ne hci] at hc
      exact .inl ⟨c, hc⟩
  · rw [opened_ring_ne hs, hready.rings s hs] at hc
    exact .inl ⟨c, hc⟩

include hready hinv hempty hnot hmap

/-- **An open that succeeds keeps the invariant.** -/
theorem inv_opened (hrun : k.Running p) :
    Inv (k₁.opened p r i m pt (sub64 (k.procs p).topFreeUvmPg (33 * pgSize))) := by
  have hok := hinv.proc p
  have hnull := hok.live (.inl hrun.1)
  obtain ⟨tf, -, hspace⟩ := hok.space hnull
  have hne : ∀ c, ((k.ringbufs r).owners c).proc ≠ some p := fun c hc => hnot ⟨c, hc⟩
  refine hready.inv hinv (p := p) hnull ?_ hmap.moved.kend rfl rfl
    (fun j hj => opened_procs_ne hj _ _ _) (fun s hs => opened_ring_ne hs _ _ _)
    (opened_procs_self ..) hmap.grown (sub64_mod (sub64_mul_mod hok.aligned 33)) (sub64_lt _ _)
    ?_ ?_ ?_ ?_
  · refine pages_eq_of_moved (p := p) (r := r) ?_ (fun j hj => opened_procs_ne hj _ _ _)
      (fun s hs => opened_ring_ne hs _ _ _) rfl
    rw [opened_procs_self, opened_ring_self]
    refine congrArg₂ (· + ·) ?_ rfl
    rw [hready.procs]
    exact Proc.pages_grown (k.procs p) { k.procs p with
      pagetable := pt
      topFreeUvmPg := _
      ownedRingbufs := _ } hmap.moved hmap.grown hspace.user rfl rfl
  · rw [opened_ring_self]
    rw [hready.owners, hready.refcount]
    exact RingOk.add_owner (o := newOwner p _) (hinv.ring r).count (hinv.ring r).distinct
      ⟨hready.holds.buf, hready.holds.book⟩ hempty hne rfl rfl rfl
  · intro _
    rw [opened_ring_self]
    rfl
  · intro c j hc
    rw [opened_ring_self] at hc ⊢
    by_cases hci : c = i
    · simp only [hci, update_self] at hc ⊢
      cases hc
      rw [opened_procs_self, hready.procs]
      refine ⟨?_, (k.procs p).topFreeUvmPg / pgSize - 32, ?_⟩
      · rw [hrun.1]
        exact fun h => nomatch h
      · have hatt := attached_of_mapped hready.holds hmap hok.aligned hok.word
          (hinv.leaf_zero hrun) (some p)
        exact hatt.of_pages rfl rfl
    · simp only [update_of_ne hci, hready.owners] at hc ⊢
      have hjp : j ≠ p := fun h => hne c (h ▸ hc)
      obtain ⟨hstate, b, hatt⟩ := hinv.owner r c j hc
      rw [opened_procs_ne hjp, hready.procs]
      have hkeep := hready.keep ((hinv.ring r).active_of_owner hc)
      exact ⟨hstate, b, hatt.of_pages (by rw [hkeep]) (by rw [hkeep])⟩
  · intro j
    by_cases hj : j = p
    · subst hj
      rw [opened_procs_self, hready.procs]
      have hsub : (k₁.opened j r i m pt (sub64 (k.procs j).topFreeUvmPg (33 * pgSize))).ringsOf j
          ⊆ insert r (k.ringsOf j) := by
        intro s hs
        rcases owns_opened hready (mem_ringsOf.mp hs) with h | ⟨-, h⟩
        · exact Finset.mem_insert_of_mem (mem_ringsOf.mpr h)
        · rw [h]
          exact Finset.mem_insert_self _ _
      calc _ ≤ (insert r (k.ringsOf j)).card := Finset.card_le_card hsub
        _ ≤ (k.ringsOf j).card + 1 := Finset.card_insert_le _ _
        _ ≤ (k.procs j).ownedRingbufs + 1 := Nat.succ_le_succ (hinv.owned j)
    · rw [opened_procs_ne hj, hready.procs]
      refine le_trans (card_ringsOf_mono fun s hs => ?_) (hinv.owned j)
      exact (owns_opened hready hs).resolve_right fun h => hj h.1

/-- **It adds no stray mapping.** -/
theorem tidy_opened (hrun : k.Running p) :
    Tidy k (k₁.opened p r i m pt (sub64 (k.procs p).topFreeUvmPg (33 * pgSize))) := by
  have hok := hinv.proc p
  have hatt := attached_of_mapped hready.holds hmap hok.aligned hok.word (hinv.leaf_zero hrun)
    (some p)
  intro j v hstray
  have hprocs : j ≠ p → (k₁.opened p r i m pt (sub64 (k.procs p).topFreeUvmPg
      (33 * pgSize))).procs j = k.procs j := fun hj => by
    rw [opened_procs_ne hj, hready.procs]
  refine hstray.of_kept ?_ ?_ fun s c b hc _ _ => ?_
  · by_cases hj : j = p
    · -- the new mappings are those of the new owner
      subst hj
      obtain ⟨hleaf, -, -, -, hnew⟩ := hstray
      rw [opened_procs_self] at hleaf
      change leafAt pt v ≠ none at hleaf
      have hself : ((k₁.opened j r i m pt (sub64 (k.procs j).topFreeUvmPg (33 * pgSize))).ringbufs
          r).owners i = newOwner j (sub64 (k.procs j).topFreeUvmPg (33 * pgSize)) := by
        rw [opened_ring_self]
        exact update_self _ _ _
      have hregion := hnew r i ((k.procs j).topFreeUvmPg / pgSize - 32) (by rw [hself]; rfl)
        (by rw [hself]; exact hatt.vbook)
      have hroom := hmap.room
      rw [Ringbuf.length_order] at hroom
      rwa [hmap.rest v (by rw [Ringbuf.length_order]; omega)] at hleaf
    · exact hprocs hj ▸ hstray.1
  · by_cases hj : j = p
    · subst hj
      rw [opened_procs_self, hready.procs]
    · rw [hprocs hj]
  · by_cases hs : s = r
    · subst hs
      have hci : c ≠ i := by
        rintro rfl
        cases hempty.symm.trans hc
      rw [opened_ring_self, hready.owners]
      exact update_of_ne hci _ _
    · rw [opened_ring_ne hs, hready.rings s hs]

end Opened

/-! ### An open that is undone -/

section Undone

variable {ok : Bool} {s : RingIx} {j : ProcIx}

theorem undone_procs_self (k : Kernel) (p : ProcIx) (r : RingIx) (m : Kmem) (pt : PageTable)
    (top : ℕ) : (k.undone p r m pt top).procs p =
      { k.procs p with
        pagetable := pt
        topFreeUvmPg := top
        ownedRingbufs := (k.procs p).ownedRingbufs + 1 } :=
  update_self _ _ _

theorem undone_procs_ne (hj : j ≠ p) (m : Kmem) (pt : PageTable) (top : ℕ) :
    (k.undone p r m pt top).procs j = k.procs j :=
  update_of_ne hj _ _

theorem undone_ring_self (k : Kernel) (p : ProcIx) (r : RingIx) (m : Kmem) (pt : PageTable)
    (top : ℕ) : (k.undone p r m pt top).ringbufs r = Ringbuf.empty :=
  update_self _ _ _

theorem undone_ring_ne (hs : s ≠ r) (m : Kmem) (pt : PageTable) (top : ℕ) :
    (k.undone p r m pt top).ringbufs s = k.ringbufs s :=
  update_of_ne hs _ _

theorem Inv.not_owned (h : Inv k) (hidle : (k.ringbufs r).refcount = 0) (c : Fin 2) :
    ((k.ringbufs r).owners c).proc = none := by
  by_contra hne
  obtain ⟨j, hj⟩ := Option.ne_none_iff_exists'.mp hne
  exact (h.ring r).active_of_owner hj hidle

variable (hready : Ready k k₁ r f book) (hinv : Inv k) (hidle : (k.ringbufs r).refcount = 0)

include hready

theorem owns_undone (h : (k₁.undone p r m pt top).Owns j s) : k.Owns j s := by
  obtain ⟨c, hc⟩ := h
  by_cases hs : s = r
  · subst hs
    rw [undone_ring_self] at hc
    cases hc
  · rw [undone_ring_ne hs, hready.rings s hs] at hc
    exact ⟨c, hc⟩

include hinv

/-- **An open that is undone keeps the invariant.** -/
theorem inv_undone (hrun : k.Running p) (hva : top % pgSize = 0) (hlt : top < 2 ^ 64)
    (hgrown : Grown (k.procs p).pagetable pt) (hmoved : Moved k₁.mem (k.procs p).pagetable m pt) :
    Inv (k₁.undone p r m pt top) := by
  have hok := hinv.proc p
  have hnull := hok.live (.inl hrun.1)
  obtain ⟨tf, -, hspace⟩ := hok.space hnull
  refine hready.inv hinv (p := p) hnull ?_ hmoved.kend rfl rfl
    (fun j hj => undone_procs_ne hj _ _ _) (fun s hs => undone_ring_ne hs _ _ _)
    (undone_procs_self ..) hgrown hva hlt ?_ ?_ ?_ ?_
  · refine pages_eq_of_moved (p := p) (r := r) ?_ (fun j hj => undone_procs_ne hj _ _ _)
      (fun s hs => undone_ring_ne hs _ _ _) rfl
    rw [undone_procs_self, undone_ring_self, Ringbuf.pages_empty, hready.procs]
    have hpages := Proc.pages_grown (k.procs p) { k.procs p with
      pagetable := pt
      topFreeUvmPg := top
      ownedRingbufs := (k.procs p).ownedRingbufs + 1 } hmoved hgrown hspace.user rfl rfl
    have hfree : ((k₁.undone p r m pt top).mem.free : Multiset ℕ)
        = (k₁.ringbufs r).pages + m.free := by
      show (((k₁.ringbufs r).pages.reverse ++ m.free : List ℕ) : Multiset ℕ) = _
      rw [← Multiset.coe_add, Multiset.coe_reverse]
    rw [hfree, ← hpages, Multiset.coe_nil, add_zero]
    ac_rfl
  · rw [undone_ring_self]
    exact RingOk.empty
  · rw [undone_ring_self]
    exact fun h => absurd rfl h
  · rw [undone_ring_self]
    exact fun c j hc => nomatch hc
  · intro j
    refine le_trans (card_ringsOf_mono fun s => owns_undone hready) (le_trans (hinv.owned j) ?_)
    by_cases hj : j = p
    · subst hj
      rw [undone_procs_self, hready.procs]
      exact Nat.le_succ _
    · rw [undone_procs_ne hj, hready.procs]

include hidle

/-- The owners of the other ring buffers stay. -/
theorem owners_undone {c : Fin 2} (hc : ((k.ringbufs s).owners c).proc = some j) :
    ((k₁.undone p r m pt top).ringbufs s).owners c = (k.ringbufs s).owners c := by
  have hs : s ≠ r := by
    rintro rfl
    cases (hinv.not_owned hidle c).symm.trans hc
  rw [undone_ring_ne hs, hready.rings s hs]

/-- It leaves no stray mapping if it had not mapped anything yet. -/
theorem tidy_undone (hleaf : leafAt pt = leafAt (k.procs p).pagetable) :
    Tidy k (k₁.undone p r m pt top) := by
  intro j v hstray
  have hprocs : leafAt ((k₁.undone p r m pt top).procs j).pagetable
        = leafAt (k.procs j).pagetable ∧
      ((k₁.undone p r m pt top).procs j).sz = (k.procs j).sz := by
    by_cases hj : j = p
    · subst hj
      rw [undone_procs_self, ← hleaf, hready.procs]
      exact ⟨rfl, rfl⟩
    · rw [undone_procs_ne hj, hready.procs]
      exact ⟨rfl, rfl⟩
  exact hstray.of_kept (hprocs.1 ▸ hstray.1) hprocs.2 fun s c b hc _ _ =>
    owners_undone hready hinv hidle hc

end Undone

/-! ### Detaching an owner -/

section Disowned

/-- Process `p` was detached from ring buffers, and only that. -/
structure Disowned (k : Kernel) (p : ProcIx) (k' : Kernel) : Prop where
  inv : Inv k'
  pages : k'.pages = k.pages
  kend : k'.mem.kend = k.mem.kend
  trampoline : k'.trampoline = k.trampoline
  pipes : k'.pipes = k.pipes
  procs : ∀ j ≠ p, k'.procs j = k.procs j
  self : k'.procs p = { k.procs p with
    pagetable := (k'.procs p).pagetable
    ownedRingbufs := (k'.procs p).ownedRingbufs }
  tidy : Tidy k k'
  owners : ∀ s c j, ((k'.ringbufs s).owners c).proc = some j →
    (k'.ringbufs s).owners c = (k.ringbufs s).owners c
  others : ∀ s c j, j ≠ p → ((k.ringbufs s).owners c).proc = some j →
    (k'.ringbufs s).owners c = (k.ringbufs s).owners c
  leaf : ∀ v pte, leafAt (k'.procs p).pagetable v = some pte →
    leafAt (k.procs p).pagetable v = some pte
  name : ∀ s c j, ((k'.ringbufs s).owners c).proc = some j →
    (k'.ringbufs s).nameBuf = (k.ringbufs s).nameBuf

theorem Disowned.refl (h : Inv k) (p : ProcIx) : Disowned k p k :=
  ⟨h, rfl, rfl, rfl, rfl, fun _ _ => rfl, rfl, Tidy.refl k, fun _ _ _ _ => rfl,
    fun _ _ _ _ _ => rfl, fun _ _ hleaf => hleaf, fun _ _ _ _ => rfl⟩

theorem Disowned.owns {j : ProcIx} {s : RingIx} (h : Disowned k p k') (hown : k'.Owns j s) :
    k.Owns j s := by
  obtain ⟨c, hc⟩ := hown
  exact ⟨c, h.owners s c j hc ▸ hc⟩

theorem Disowned.trans {k'' : Kernel} (h : Disowned k p k') (h' : Disowned k' p k'') :
    Disowned k p k'' := by
  refine ⟨h'.inv, h'.pages.trans h.pages, h'.kend.trans h.kend, h'.trampoline.trans h.trampoline,
    h'.pipes.trans h.pipes, ?_, ?_, h.tidy.trans h'.tidy, ?_, ?_,
    fun v pte hleaf => h.leaf v pte (h'.leaf v pte hleaf), fun s c j hc => ?_⟩
  · intro j hj
    rw [h'.procs j hj, h.procs j hj]
  · rw [h'.self, h.self]
  · intro s c j hc
    have hsame := h'.owners s c j hc
    rw [hsame]
    exact h.owners s c j (hsame ▸ hc)
  · intro s c j hj hc
    have hsame := h.others s c j hj hc
    rw [← hsame]
    exact h'.others s c j hj (hsame ▸ hc)
  · exact (h'.name s c j hc).trans (h.name s c j (h'.owners s c j hc ▸ hc))

variable {s : RingIx} {j : ProcIx}

theorem disowned_procs_self (k : Kernel) (r : RingIx) (p : ProcIx) (i : Fin 2) (b : ℕ)
    (pt : PageTable) : (k.disowned r p i b pt).procs p =
      { k.procs p with
        pagetable := pt
        ownedRingbufs := (k.procs p).ownedRingbufs - 1 } :=
  update_self _ _ _

theorem disowned_procs_ne (hj : j ≠ p) (b : ℕ) (pt : PageTable) :
    (k.disowned r p i b pt).procs j = k.procs j :=
  update_of_ne hj _ _

theorem disowned_ring_self (k : Kernel) (r : RingIx) (p : ProcIx) (i : Fin 2) (b : ℕ)
    (pt : PageTable) :
    (k.disowned r p i b pt).ringbufs r = (k.ringbufs r).withoutOwner i b :=
  update_self _ _ _

theorem disowned_ring_ne (hs : s ≠ r) (b : ℕ) (pt : PageTable) :
    (k.disowned r p i b pt).ringbufs s = k.ringbufs s :=
  update_of_ne hs _ _

/-- Who is still an owner was one before, in the same slot, under the same name. -/
theorem owner_disowned {c : Fin 2}
    (h : (((k.disowned r p i b pt).ringbufs s).owners c).proc = some j) :
    ((k.disowned r p i b pt).ringbufs s).owners c = (k.ringbufs s).owners c ∧
      ((k.disowned r p i b pt).ringbufs s).nameBuf = (k.ringbufs s).nameBuf ∧
      ¬ (s = r ∧ c = i) := by
  by_cases hs : s = r
  · subst hs
    rw [disowned_ring_self] at h ⊢
    unfold Ringbuf.withoutOwner at h ⊢
    split_ifs at h ⊢ with hone
    · cases h
    · by_cases hci : c = i
      · simp only [hci, update_self] at h
        cases h
      · simp only [update_of_ne hci]
        exact ⟨trivial, trivial, fun h => hci h.2⟩
  · rw [disowned_ring_ne hs]
    exact ⟨rfl, rfl, fun h => hs h.1⟩

variable (hinv : Inv k) (hown : ((k.ringbufs r).owners i).proc = some p)
  (hatt : Attached (k.ringbufs r) ((k.ringbufs r).owners i) (k.procs p).pagetable b)
  (hdet : Detached (k.procs p).pagetable b pt)

include hinv hown

theorem not_owns_disowned (b : ℕ) (pt : PageTable) : ¬ (k.disowned r p i b pt).Owns p r := by
  rintro ⟨c, hc⟩
  obtain ⟨hsame, -, hne⟩ := owner_disowned hc
  rw [hsame] at hc
  exact hne ⟨rfl, (hinv.ring r).distinct c i p hc hown⟩

include hatt hdet

/-- What every process has mapped is not in the region. -/
theorem detached_own {v : ℕ}
    (hv : v = trampolineVpn ∨ v = trapframeVpn ∨ v < npages (k.procs p).sz) :
    leafAt pt v = leafAt (k.procs p).pagetable v := by
  rw [hdet.leaf v, if_neg]
  intro hin
  obtain ⟨h₁, h₂, h₃⟩ := hinv.attached_apart hown hatt hin
  omega

theorem pages_disowned : (k.disowned r p i b pt).pages = k.pages := by
  refine pages_eq_of_moved (p := p) (r := r) ?_ (fun j hj => disowned_procs_ne hj b pt)
    (fun s hs => disowned_ring_ne hs b pt) rfl
  have hproc : ((k.disowned r p i b pt).procs p).pages = (k.procs p).pages := by
    rw [disowned_procs_self]
    unfold Proc.pages
    rw [hdet.pages, leafPages_congr fun w _ hw => detached_own hinv hown hatt hdet
      (.inr (.inr (hw.trans_eq (Nat.zero_add _))))]
  rw [hproc, disowned_ring_self]
  show ((if (k.ringbufs r).refcount = 1 then (k.ringbufs r).pages.reverse ++ k.mem.free
    else k.mem.free : List ℕ) : Multiset ℕ) + _ + _ = _
  unfold Ringbuf.withoutOwner
  split_ifs with hone
  · rw [Ringbuf.pages_empty, ← Multiset.coe_add, Multiset.coe_reverse, Multiset.coe_nil, add_zero]
    ac_rfl
  · rfl

omit hatt hdet in
/-- The owners that are left keep their places. -/
theorem owners_disowned {c : Fin 2} (hsc : ¬ (s = r ∧ c = i))
    (hc : ((k.ringbufs s).owners c).proc = some j) :
    ((k.disowned r p i b pt).ringbufs s).owners c = (k.ringbufs s).owners c := by
  by_cases hs : s = r
  · subst hs
    rw [disowned_ring_self]
    exact ((hinv.ring s).withoutOwner_owners hown hc (fun h => hsc ⟨rfl, h⟩) b).2
  · rw [disowned_ring_ne hs]

/-- **Detaching an owner keeps the invariant.** -/
theorem inv_disowned : Inv (k.disowned r p i b pt) := by
  have hok := hinv.proc p
  have hactive := (hinv.ring r).active_of_owner hown
  obtain ⟨hstate, -⟩ := hinv.owner r i p hown
  obtain ⟨pte, hpte, -⟩ := hinv.attached_leaf hown hatt (v := b) ⟨le_rfl, by omega⟩
  obtain ⟨tf, htf, hspace⟩ := hok.space (isNull_of_leafAt hpte)
  have howns : ∀ j s, (k.disowned r p i b pt).Owns j s → k.Owns j s := by
    rintro j s ⟨c, hc⟩
    exact ⟨c, (owner_disowned hc).1 ▸ hc⟩
  refine hinv.of_changes (p := p) (r := r) (pages_disowned hinv hown hatt hdet) rfl rfl
    (fun j hj => disowned_procs_ne hj b pt) (fun s hs => disowned_ring_ne hs b pt) ?_ ?_ ?_ ?_ ?_
    ?_ hinv.teardown
  · rw [disowned_procs_self]
    exact .of_space hok.aligned hok.word hstate htf
      (hspace.of_same fun v => detached_own hinv hown hatt hdet)
  · rw [disowned_ring_self]
    exact (hinv.ring r).withoutOwner hown b
  · rw [disowned_ring_self]
    unfold Ringbuf.withoutOwner
    split_ifs with hone
    · exact fun h => absurd rfl h
    · intro _ s hs hact heq
      exact hs (hinv.name s r hact hactive heq)
  · intro c j hc
    obtain ⟨hsame, -, hne⟩ := owner_disowned hc
    rw [hsame] at hc ⊢
    have hj : j ≠ p := by
      rintro rfl
      exact hne ⟨rfl, (hinv.ring r).distinct c i j hc hown⟩
    obtain ⟨hstate, b', hatt'⟩ := hinv.owner r c j hc
    obtain ⟨hone, -⟩ := (hinv.ring r).withoutOwner_owners hown hc (fun h => hne ⟨rfl, h⟩) b
    rw [disowned_procs_ne hj, disowned_ring_self]
    unfold Ringbuf.withoutOwner
    rw [if_neg hone]
    exact ⟨hstate, b', hatt'.of_pages rfl rfl⟩
  · intro s hs c b' hc hatt'
    rw [disowned_procs_self]
    refine ⟨hstate, hatt'.of_leaf fun v h₁ h₂ => ?_⟩
    rw [show leafAt _ v = leafAt pt v from rfl, hdet.leaf v, if_neg]
    -- a page in both regions would be a page of both ring buffers
    intro hin
    obtain ⟨pte, hpte, hmem⟩ := hinv.attached_leaf hc hatt' ⟨h₁, h₂⟩
    obtain ⟨pte', hpte', hmem'⟩ := hinv.attached_leaf hown hatt hin
    cases hpte.symm.trans hpte'
    exact hs (hinv.ring_of_page hmem hmem')
  · intro j
    by_cases hj : j = p
    · subst hj
      rw [disowned_procs_self]
      have hsub : (k.disowned r j i b pt).ringsOf j ⊆ (k.ringsOf j).erase r := by
        intro s hs
        rw [mem_ringsOf] at hs
        refine Finset.mem_erase.mpr ⟨?_, mem_ringsOf.mpr (howns j s hs)⟩
        rintro rfl
        exact not_owns_disowned hinv hown b pt hs
      have hcard := Finset.card_le_card hsub
      rw [Finset.card_erase_of_mem (mem_ringsOf.mpr ⟨i, hown⟩)] at hcard
      exact le_trans hcard (Nat.sub_le_sub_right (hinv.owned j) 1)
    · rw [disowned_procs_ne hj]
      exact le_trans (card_ringsOf_mono (howns j)) (hinv.owned j)

theorem disowned_spec : Disowned k p (k.disowned r p i b pt) := by
  have hleaf : ∀ v pte, leafAt ((k.disowned r p i b pt).procs p).pagetable v = some pte →
      leafAt (k.procs p).pagetable v = some pte ∧ ¬ (b ≤ v ∧ v < b + 33) := by
    intro v pte hleaf
    rw [disowned_procs_self] at hleaf
    change leafAt pt v = some pte at hleaf
    rw [hdet.leaf v] at hleaf
    split_ifs at hleaf with hin
    exact ⟨hleaf, hin⟩
  have hother : ∀ {s c j}, j ≠ p → ((k.ringbufs s).owners c).proc = some j →
      ((k.disowned r p i b pt).ringbufs s).owners c = (k.ringbufs s).owners c := by
    intro s c j hj hc
    refine owners_disowned hinv hown ?_ hc
    rintro ⟨rfl, rfl⟩
    cases hown.symm.trans hc
    exact hj rfl
  refine ⟨inv_disowned hinv hown hatt hdet, pages_disowned hinv hown hatt hdet, rfl, rfl, rfl,
    fun j hj => disowned_procs_ne hj b pt, ?_, ?_, fun s c j hc => (owner_disowned hc).1,
    fun s c j => hother, fun v pte h => (hleaf v pte h).1, fun s c j hc => (owner_disowned hc).2.1⟩
  · rw [disowned_procs_self]
  · intro j v hstray
    by_cases hj : j = p
    · subst hj
      obtain ⟨pte, hpte⟩ := Option.ne_none_iff_exists'.mp hstray.1
      obtain ⟨hold, hout⟩ := hleaf v pte hpte
      refine hstray.of_kept (by simp [hold]) (by rw [disowned_procs_self]) fun s c b' hc hb' hin => ?_
      refine owners_disowned hinv hown ?_ hc
      rintro ⟨rfl, rfl⟩
      rw [hatt.vbook, Option.some_inj] at hb'
      exact hout (Nat.eq_of_mul_eq_mul_right pgSize_pos hb' ▸ hin)
    · have hsame := disowned_procs_ne (k := k) (r := r) (p := p) (i := i) hj b pt
      exact hstray.of_kept (hsame ▸ hstray.1) (by rw [hsame]) fun s c _ hc _ _ => hother hj hc

end Disowned

end Kernel

end Xv6Zig
