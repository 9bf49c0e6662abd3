/-
Xv6Zig/KernelInv.lean

The invariant of the memory system.

Every page the kernel hands out has one holder: the free list, a process
(its trapframe, its page-table pages and the pages of its size), a ring
buffer or a pipe.  `pages` is the ledger of all of them, and no step changes
it.  The invariant says besides that every process has its address space,
that a ring buffer is either idle or has its pages and one or two owners, and
that each owner still has the whole ring buffer mapped.

From the ledger it follows that the region of a ring buffer overlaps neither
the pages of the process nor the region of another ring buffer.
-/
import Mathlib.Algebra.BigOperators.Fin
import Mathlib.Tactic.DeriveFintype
import Xv6Zig.Lib.Ledger
import Xv6Zig.Proc
import Xv6Zig.RingbufSpec

namespace Xv6Zig

open Lib Function

/-! ### Address spaces -/

/-- The virtual pages of the trampoline and the trapframe. -/
def trampolineVpn : ℕ := trampolineVA / pgSize

def trapframeVpn : ℕ := trapframeVA / pgSize

/-- What every process has mapped; `tr` and `tf` are the physical pages of the
trampoline and of the trapframe. -/
structure AddressSpace (tr tf : ℕ) (pt : PageTable) (sz : ℕ) : Prop where
  trampoline : leafAt pt trampolineVpn = some ⟨tr, Kernel.trampolinePerm⟩
  trapframe : leafAt pt trapframeVpn = some ⟨tf, Kernel.trapframePerm⟩
  user : ∀ v < npages sz, leafAt pt v ≠ none
  le : npages sz ≤ trapframeVpn

/-- Mappings were only added. -/
def Grown (pt pt' : PageTable) : Prop :=
  ∀ w pte, leafAt pt w = some pte → leafAt pt' w = some pte

/-- What is mapped now was mapped before, or is new where nothing was and can be
written. -/
def Extended (pt pt' : PageTable) : Prop :=
  ∀ v pte, leafAt pt' v = some pte →
    leafAt pt v = some pte ∨ leafAt pt v = none ∧ pte.perm.w = true

variable {pt pt' : PageTable} {sz tr tf : ℕ} {m m' : Kmem}

theorem Extended.of_eq (h : leafAt pt' = leafAt pt) : Extended pt pt' := by
  intro v pte hpte
  rw [h] at hpte
  exact .inl hpte

theorem Grown.leafPages_eq (h : Grown pt pt') (huser : ∀ v < npages sz, leafAt pt v ≠ none) :
    leafPages pt' 0 (npages sz) = leafPages pt 0 (npages sz) := by
  apply leafPages_congr
  intro w _ hw
  obtain ⟨pte, hpte⟩ := Option.ne_none_iff_exists'.mp (huser w (by omega))
  rw [hpte, h w pte hpte]

theorem AddressSpace.grown (h : AddressSpace tr tf pt sz) (hg : Grown pt pt') :
    AddressSpace tr tf pt' sz := by
  refine ⟨hg _ _ h.trampoline, hg _ _ h.trapframe, ?_, h.le⟩
  intro v hv
  obtain ⟨pte, hpte⟩ := Option.ne_none_iff_exists'.mp (h.user v hv)
  simp [hg v pte hpte]

theorem AddressSpace.of_same (h : AddressSpace tr tf pt sz) (hsame : ∀ v,
    v = trampolineVpn ∨ v = trapframeVpn ∨ v < npages sz → leafAt pt' v = leafAt pt v) :
    AddressSpace tr tf pt' sz := by
  refine ⟨(hsame _ (.inl rfl)).trans h.trampoline, (hsame _ (.inr (.inl rfl))).trans h.trapframe,
    fun v hv => ?_, h.le⟩
  rw [hsame v (.inr (.inr hv))]
  exact h.user v hv

theorem Kernel.MappedDown.grown {l : List ℕ} {v : ℕ} (h : Kernel.MappedDown l m pt v m' pt') :
    Grown pt pt' := by
  intro w pte hw
  by_cases hin : w ≤ v ∧ v < w + l.length
  · -- a page in the range was not mapped before
    have hfresh := h.fresh (v - w) (by omega)
    rw [show v - (v - w) = w by omega, hw] at hfresh
    cases hfresh
  · rw [h.rest w (by omega), hw]

theorem Allocated.grown {P : ℕ → Perm → Prop} {v n : ℕ} (h : Allocated P m pt v n m' pt') :
    Grown pt pt' := by
  intro w pte hw
  by_cases hin : v ≤ w ∧ w < v + n
  · have hfresh := h.fresh w hin.1 hin.2
    rw [hw] at hfresh
    cases hfresh
  · rw [h.rest w hin, hw]

theorem leafAt_absent (v : ℕ) : leafAt .absent v = none := by
  unfold leafAt
  split_ifs
  · rfl
  · rfl

theorem isNull_of_leafAt {v : ℕ} {pte : Pte} (h : leafAt pt v = some pte) :
    Kernel.isNull pt = false := by
  cases pt with
  | absent =>
    rw [leafAt_absent] at h
    cases h
  | node => rfl

theorem isNull_iff : Kernel.isNull pt = true ↔ pt = .absent := by
  cases pt with
  | absent => simp [Kernel.isNull]
  | node => simp [Kernel.isNull]

/-! ### Processes and ring buffers -/

/-- The pages a process holds. -/
def Proc.pages (q : Proc) : List ℕ :=
  q.trapframe.toList ++ q.pagetable.pages ++ leafPages q.pagetable 0 (npages q.sz)

theorem Proc.pages_empty : Proc.empty.pages = [] := by
  unfold Proc.pages Proc.empty
  rw [npages_zero]
  rfl

section Pages

variable {q : Proc} {pa v : ℕ}

theorem Proc.coe_pages (q : Proc) : (q.pages : Multiset ℕ) = (q.trapframe.toList : Multiset ℕ)
    + q.pagetable.pages + leafPages q.pagetable 0 (npages q.sz) := by
  simp only [Proc.pages, Multiset.coe_add]

theorem Proc.mem_pages_trapframe (htf : q.trapframe = some tf) : tf ∈ q.pages := by
  simp [Proc.pages, htf]

theorem Proc.mem_pages_table (hpa : pa ∈ q.pagetable.pages) : pa ∈ q.pages := by
  simp [Proc.pages, hpa]

theorem Proc.mem_pages_user {pte : Pte} (hv : v < npages q.sz)
    (hleaf : leafAt q.pagetable v = some pte) : pte.pa ∈ q.pages :=
  List.mem_append_right _ (mem_leafPages.mpr ⟨v, pte, Nat.zero_le v, by omega, hleaf, rfl⟩)

end Pages

structure ProcOk (tr : ℕ) (q : Proc) : Prop where
  aligned : q.topFreeUvmPg % pgSize = 0
  word : q.topFreeUvmPg < 2 ^ 64
  unused : q.state = .unused → q = Proc.empty
  null : Kernel.isNull q.pagetable = true → q.sz = 0
  space : Kernel.isNull q.pagetable = false →
    ∃ tf, q.trapframe = some tf ∧ AddressSpace tr tf q.pagetable q.sz
  live : q.state = .live ∨ q.state = .zombie → Kernel.isNull q.pagetable = false

theorem ProcOk.of_space {q : Proc} (haligned : q.topFreeUvmPg % pgSize = 0)
    (hword : q.topFreeUvmPg < 2 ^ 64) (hstate : q.state ≠ .unused) (htf : q.trapframe = some tf)
    (hspace : AddressSpace tr tf q.pagetable q.sz) : ProcOk tr q := by
  have hnull := isNull_of_leafAt hspace.trampoline
  refine ⟨haligned, hword, fun hunused => absurd hunused hstate, ?_, fun _ => ⟨tf, htf, hspace⟩,
    fun _ => hnull⟩
  intro habs
  rw [hnull] at habs
  cases habs

theorem ProcOk.state_ne_unused {q : Proc} (h : ProcOk tr q)
    (hnull : Kernel.isNull q.pagetable = false) : q.state ≠ .unused := by
  intro hunused
  rw [h.unused hunused] at hnull
  cases hnull

theorem ProcOk.empty (tr : ℕ) : ProcOk tr Proc.empty := by
  refine ⟨by decide, by decide, fun _ => rfl, fun _ => rfl, ?_, ?_⟩
  · exact fun h => nomatch h
  · rintro (h | h)
    · cases h
    · cases h

namespace Ringbuf

variable {rb : Ringbuf}

/-- The owners of a ring buffer. -/
def ownerCount (rb : Ringbuf) : ℕ :=
  (Finset.univ.filter fun i => (rb.owners i).proc ≠ none).card

theorem ownerCount_eq (rb : Ringbuf) (i : Fin 2) :
    rb.ownerCount = (if (rb.owners i).proc ≠ none then 1 else 0) +
      if (rb.owners (1 - i)).proc ≠ none then 1 else 0 := by
  unfold ownerCount
  rw [Finset.card_filter, Fin.sum_univ_two]
  fin_cases i
  · rfl
  · exact Nat.add_comm _ _

end Ringbuf

/-- A ring buffer is idle or has its pages. -/
structure RingOk (rb : Ringbuf) : Prop where
  count : rb.refcount = rb.ownerCount
  distinct : ∀ i j p, (rb.owners i).proc = some p → (rb.owners j).proc = some p → i = j
  idle : rb.refcount = 0 → rb.NoPages
  active : rb.refcount ≠ 0 → ∃ f book, rb.Holds f book

theorem RingOk.empty : RingOk Ringbuf.empty := by
  refine ⟨by decide, ?_, fun _ => ⟨rfl, rfl⟩, fun h => absurd rfl h⟩
  intro i j p h
  cases h

theorem RingOk.active_of_owner {rb : Ringbuf} {i : Fin 2} {p : ProcIx} (h : RingOk rb)
    (hi : (rb.owners i).proc = some p) : rb.refcount ≠ 0 := by
  rw [h.count, rb.ownerCount_eq i, hi]
  simp

section Owners

variable {rb rb' : Ringbuf} {o : Owner} {p j : ProcIx} {i c : Fin 2} {f : Fin 16 → ℕ} {book : ℕ}

theorem RingOk.add_owner (hcount : rb.refcount = rb.ownerCount)
    (hdistinct : ∀ i j p, (rb.owners i).proc = some p → (rb.owners j).proc = some p → i = j)
    (hholds : rb'.Holds f book) (hempty : (rb.owners i).proc = none)
    (hnot : ∀ j, (rb.owners j).proc ≠ some p) (hp : o.proc = some p)
    (howners : rb'.owners = update rb.owners i o) (href : rb'.refcount = rb.refcount + 1) :
    RingOk rb' := by
  have hne : rb'.refcount ≠ 0 := by
    rw [href]
    exact Nat.succ_ne_zero _
  refine ⟨?_, ?_, fun h => absurd h hne, fun _ => ⟨f, book, hholds⟩⟩
  · have hother : (1 : Fin 2) - i ≠ i := by fin_cases i <;> decide
    rw [href, hcount, rb'.ownerCount_eq i, rb.ownerCount_eq i, howners, update_self,
      update_of_ne hother, hempty, hp]
    simp
    exact Nat.add_comm _ _
  · intro a c p' ha hc
    rw [howners] at ha hc
    by_cases hai : a = i
    · by_cases hci : c = i
      · rw [hai, hci]
      · rw [hai, update_self, hp] at ha
        rw [update_of_ne hci] at hc
        exact absurd (ha ▸ hc) (hnot c)
    · rw [update_of_ne hai] at ha
      by_cases hci : c = i
      · rw [hci, update_self, hp] at hc
        exact absurd (hc ▸ ha) (hnot a)
      · rw [update_of_ne hci] at hc
        exact hdistinct a c p' ha hc

/-- With one owner in slot `i`, the other slot is empty. -/
theorem RingOk.other_eq_none (h : RingOk rb)
    (hi : (rb.owners i).proc = some p) (hone : rb.refcount = 1) (hci : c ≠ i) :
    (rb.owners c).proc = none := by
  have hcount := h.count
  have hc : c = 1 - i := by
    revert hci
    fin_cases c <;> fin_cases i <;> decide
  rw [rb.ownerCount_eq i, hi, ← hc, hone] at hcount
  by_contra hne
  simp [hne] at hcount

theorem RingOk.withoutOwner_owners (h : RingOk rb)
    (hi : (rb.owners i).proc = some p) (hc : (rb.owners c).proc = some j) (hci : c ≠ i) (b : ℕ) :
    rb.refcount ≠ 1 ∧ (rb.withoutOwner i b).owners c = rb.owners c := by
  have hone : rb.refcount ≠ 1 := by
    intro hone
    rw [h.other_eq_none hi hone hci] at hc
    cases hc
  refine ⟨hone, ?_⟩
  unfold Ringbuf.withoutOwner
  rw [if_neg hone]
  exact update_of_ne hci _ _

theorem RingOk.withoutOwner (h : RingOk rb) (hi : (rb.owners i).proc = some p)
    (b : ℕ) : RingOk (rb.withoutOwner i b) := by
  obtain ⟨f, book, hholds⟩ := h.active (h.active_of_owner hi)
  have hpos := h.active_of_owner hi
  unfold Ringbuf.withoutOwner
  split_ifs with hone
  · exact RingOk.empty
  · refine ⟨?_, ?_, ?_, fun _ => ⟨f, book, hholds.buf, hholds.book⟩⟩
    · have hother : (1 : Fin 2) - i ≠ i := by fin_cases i <;> decide
      have hcount := h.count
      rw [rb.ownerCount_eq i, hi] at hcount
      rw [Ringbuf.ownerCount_eq _ i]
      simp only [update_self, update_of_ne hother]
      rw [hcount]
      simp
    · intro a c j ha hc
      by_cases hai : a = i
      · simp only [hai, update_self] at ha
        cases ha
      · by_cases hci : c = i
        · simp only [hci, update_self] at hc
          cases hc
        · simp only [update_of_ne hai] at ha
          simp only [update_of_ne hci] at hc
          exact h.distinct a c j ha hc
    · intro hzero
      change rb.refcount - 1 = 0 at hzero
      omega

end Owners

/-! ### The ledger -/

/-- Who can hold a page. -/
inductive Holder
  | free
  | pipes
  | proc (p : ProcIx)
  | ring (r : RingIx)
  deriving DecidableEq, Fintype

namespace Kernel

variable {k k' : Kernel} {p : ProcIx} {r : RingIx}

/-- The pages of one holder. -/
def held (k : Kernel) : Holder → Multiset ℕ
  | .free => k.mem.free
  | .pipes => k.pipes
  | .proc p => (k.procs p).pages
  | .ring r => (k.ringbufs r).pages

@[simp] theorem held_free (k : Kernel) : k.held .free = k.mem.free := rfl

@[simp] theorem held_pipes (k : Kernel) : k.held .pipes = k.pipes := rfl

@[simp] theorem held_proc (k : Kernel) (p : ProcIx) : k.held (.proc p) = (k.procs p).pages := rfl

@[simp] theorem held_ring (k : Kernel) (r : RingIx) : k.held (.ring r) = (k.ringbufs r).pages := rfl

attribute [irreducible] held

/-- All pages. -/
@[irreducible]
def pages (k : Kernel) : Multiset ℕ :=
  ∑ h, k.held h

/-- A step that moves pages between the free list, a process and a ring buffer. -/
theorem pages_eq_of_moved
    (h : (k'.mem.free : Multiset ℕ) + (k'.procs p).pages + (k'.ringbufs r).pages
      = k.mem.free + (k.procs p).pages + (k.ringbufs r).pages)
    (hprocs : ∀ j ≠ p, k'.procs j = k.procs j) (hrings : ∀ s ≠ r, k'.ringbufs s = k.ringbufs s)
    (hpipes : k'.pipes = k.pipes) : k'.pages = k.pages := by
  unfold pages
  apply sum_eq_of_transaction {.free, .proc p, .ring r}
  · have hsum : ∀ k : Kernel, ∑ j ∈ {.free, .proc p, .ring r}, k.held j
        = (k.mem.free : Multiset ℕ) + (k.procs p).pages + (k.ringbufs r).pages := by
      intro k
      rw [Finset.sum_insert (by simp), Finset.sum_insert (by simp), Finset.sum_singleton,
        ← add_assoc, held_free, held_proc, held_ring]
    rw [hsum, hsum, h]
  · intro j hj
    simp only [Finset.mem_insert, Finset.mem_singleton, not_or] at hj
    cases j with
    | free => exact absurd rfl hj.1
    | pipes => rw [held_pipes, held_pipes, hpipes]
    | proc j => rw [held_proc, held_proc, hprocs j fun h => hj.2.1 (h ▸ rfl)]
    | ring s => rw [held_ring, held_ring, hrings s fun h => hj.2.2 (h ▸ rfl)]

theorem pages_eq_of_moved_proc
    (h : (k'.mem.free : Multiset ℕ) + (k'.procs p).pages = k.mem.free + (k.procs p).pages)
    (hprocs : ∀ j ≠ p, k'.procs j = k.procs j) (hrings : k'.ringbufs = k.ringbufs)
    (hpipes : k'.pipes = k.pipes) : k'.pages = k.pages := by
  apply pages_eq_of_moved (p := p) (r := 0) _ hprocs (fun s _ => congrFun hrings s) hpipes
  rw [h, hrings]

/-! ### The invariant -/

/-- The ring buffers a process owns. -/
def ringsOf (k : Kernel) (p : ProcIx) : Finset RingIx :=
  Finset.univ.filter fun r => ∃ i, ((k.ringbufs r).owners i).proc = some p

/-- The process is an owner of the ring buffer. -/
def Owns (k : Kernel) (p : ProcIx) (r : RingIx) : Prop :=
  ∃ i, ((k.ringbufs r).owners i).proc = some p

instance (k : Kernel) (p : ProcIx) (r : RingIx) : Decidable (k.Owns p r) :=
  inferInstanceAs (Decidable (∃ _, _))

theorem mem_ringsOf : r ∈ k.ringsOf p ↔ k.Owns p r := by
  unfold ringsOf Owns
  rw [Finset.mem_filter]
  exact and_iff_right (Finset.mem_univ r)

theorem card_ringsOf_mono (h : ∀ s, k'.Owns p s → k.Owns p s) :
    (k'.ringsOf p).card ≤ (k.ringsOf p).card :=
  Finset.card_le_card fun s hs => mem_ringsOf.mpr (h s (mem_ringsOf.mp hs))

/-- A page table was torn down whose mappings were those of its size, the
trampoline and the trapframe; each of its pages was freed once. -/
structure Clean (t : Teardown) : Prop where
  exact : ∀ v, leafAt t.pagetable v ≠ none ↔
    v = trampolineVpn ∨ v = trapframeVpn ∨ v < npages t.sz
  freed : (t.after : Multiset ℕ)
    = t.before + t.pagetable.pages + leafPages t.pagetable 0 (npages t.sz)
  once : t.after.Nodup

/-- **What holds between any two system calls.** -/
structure Inv (k : Kernel) : Prop where
  nodup : k.pages.Nodup
  valid : ∀ pa ∈ k.pages, ValidPage k.mem.kend pa
  trampoline : k.trampoline < k.mem.kend
  proc : ∀ p, ProcOk k.trampoline (k.procs p)
  ring : ∀ r, RingOk (k.ringbufs r)
  name : ∀ r s, (k.ringbufs r).refcount ≠ 0 → (k.ringbufs s).refcount ≠ 0 →
    (k.ringbufs r).name = (k.ringbufs s).name → r = s
  owner : ∀ r i p, ((k.ringbufs r).owners i).proc = some p → (k.procs p).state ≠ .unused ∧
    ∃ b, Attached (k.ringbufs r) ((k.ringbufs r).owners i) (k.procs p).pagetable b
  owned : ∀ p, (k.ringsOf p).card ≤ (k.procs p).ownedRingbufs
  teardown : ∀ t ∈ k.teardowns, Clean t

namespace Inv

theorem mem_pages {h : Holder} {pa : ℕ} (hpa : pa ∈ k.held h) : pa ∈ k.pages := by
  unfold pages
  exact mem_sum_of_mem hpa

theorem valid_free (h : Inv k) {pa : ℕ} (hpa : pa ∈ k.mem.free) : ValidPage k.mem.kend pa := by
  apply h.valid pa
  apply mem_pages (h := .free)
  rwa [held_free]

theorem valid_proc (h : Inv k) {pa : ℕ} (hpa : pa ∈ (k.procs p).pages) :
    ValidPage k.mem.kend pa := by
  apply h.valid pa
  apply mem_pages (h := .proc p)
  rwa [held_proc]

theorem valid_ring (h : Inv k) {pa : ℕ} (hpa : pa ∈ (k.ringbufs r).pages) :
    ValidPage k.mem.kend pa := by
  apply h.valid pa
  apply mem_pages (h := .ring r)
  rwa [held_ring]

/-- **Every page has one holder.** -/
theorem holder_eq (h : Inv k) {h₁ h₂ : Holder} {pa : ℕ} (hpa₁ : pa ∈ k.held h₁)
    (hpa₂ : pa ∈ k.held h₂) : h₁ = h₂ := by
  have hnodup := h.nodup
  unfold pages at hnodup
  exact holder_unique hnodup hpa₁ hpa₂

theorem proc_page_not_ring (h : Inv k) {pa : ℕ} (hp : pa ∈ (k.procs p).pages) :
    pa ∉ (k.ringbufs r).pages := by
  intro hr
  rw [← Multiset.mem_coe, ← held_proc] at hp
  rw [← Multiset.mem_coe, ← held_ring] at hr
  cases h.holder_eq hp hr

theorem ring_of_page (h : Inv k) {s : RingIx} {pa : ℕ} (hr : pa ∈ (k.ringbufs r).pages)
    (hs : pa ∈ (k.ringbufs s).pages) : r = s := by
  rw [← Multiset.mem_coe, ← held_ring] at hr hs
  exact Holder.ring.inj (h.holder_eq hr hs)

/-- Where a process has a ring buffer's page mapped it has nothing of its own. -/
theorem leaf_of_ring_page (h : Inv k) {v : ℕ} {pte : Pte}
    (hleaf : leafAt (k.procs p).pagetable v = some pte) (hpa : pte.pa ∈ (k.ringbufs r).pages) :
    v ≠ trampolineVpn ∧ v ≠ trapframeVpn ∧ npages (k.procs p).sz ≤ v := by
  obtain ⟨tf, htf, hspace⟩ := (h.proc p).space (isNull_of_leafAt hleaf)
  refine ⟨?_, ?_, ?_⟩
  · rintro rfl
    rw [hspace.trampoline] at hleaf
    cases hleaf
    have hge := (h.valid_ring hpa).2.1
    exact absurd hge (not_le.mpr h.trampoline)
  · rintro rfl
    rw [hspace.trapframe] at hleaf
    cases hleaf
    exact h.proc_page_not_ring (Proc.mem_pages_trapframe htf) hpa
  · by_contra hlt
    exact h.proc_page_not_ring (Proc.mem_pages_user (not_le.mp hlt) hleaf) hpa

/-- The pages an owner sees are the ring buffer's. -/
theorem attached_leaf (h : Inv k) {i : Fin 2} {b v : ℕ}
    (hown : ((k.ringbufs r).owners i).proc = some p)
    (hatt : Attached (k.ringbufs r) ((k.ringbufs r).owners i) (k.procs p).pagetable b)
    (hv : b ≤ v ∧ v < b + 33) :
    ∃ pte, leafAt (k.procs p).pagetable v = some pte ∧ pte.pa ∈ (k.ringbufs r).pages := by
  obtain ⟨f, book, hholds⟩ := (h.ring r).active ((h.ring r).active_of_owner hown)
  obtain ⟨pa, hpa, hslot⟩ := hholds.slot_isSome (show v - b ≤ 32 by omega)
  refine ⟨⟨pa, ringPerm⟩, ?_, hpa⟩
  have hleaf := hatt.leaf (v - b) (by omega)
  rwa [show b + (v - b) = v by omega, hslot] at hleaf

/-- The region of an owner is apart from what every process has mapped. -/
theorem attached_apart (h : Inv k) {i : Fin 2} {b v : ℕ}
    (hown : ((k.ringbufs r).owners i).proc = some p)
    (hatt : Attached (k.ringbufs r) ((k.ringbufs r).owners i) (k.procs p).pagetable b)
    (hv : b ≤ v ∧ v < b + 33) :
    v ≠ trampolineVpn ∧ v ≠ trapframeVpn ∧ npages (k.procs p).sz ≤ v := by
  obtain ⟨pte, hpte, hmem⟩ := h.attached_leaf hown hatt hv
  exact h.leaf_of_ring_page hpte hmem

theorem leaf_zero (h : Inv k) (hrun : k.Running p) : leafAt (k.procs p).pagetable 0 ≠ none := by
  obtain ⟨tf, -, hspace⟩ := (h.proc p).space ((h.proc p).live (.inl hrun.1))
  apply hspace.user
  rw [Nat.pos_iff_ne_zero]
  exact fun hz => hrun.2.ne' (npages_eq_zero_iff.mp hz)

end Inv

/-- The process has something mapped that is neither its own nor part of a ring
buffer it owns. -/
def Stray (k : Kernel) (p : ProcIx) (v : ℕ) : Prop :=
  leafAt (k.procs p).pagetable v ≠ none ∧ v ≠ trampolineVpn ∧ v ≠ trapframeVpn ∧
    npages (k.procs p).sz ≤ v ∧ ∀ r i b, ((k.ringbufs r).owners i).proc = some p →
      ((k.ringbufs r).owners i).vbook = some (b * pgSize) → ¬ (b ≤ v ∧ v < b + 33)

/-- The step left no stray mapping behind. -/
def Tidy (k k' : Kernel) : Prop :=
  ∀ p v, k'.Stray p v → k.Stray p v

/-- What is stray after a step was so before it if it was mapped and no region around
it went away. -/
theorem Stray.of_kept {v : ℕ} (h : k'.Stray p v) (hleaf : leafAt (k.procs p).pagetable v ≠ none)
    (hsz : (k'.procs p).sz = (k.procs p).sz)
    (hown : ∀ s c b, ((k.ringbufs s).owners c).proc = some p →
      ((k.ringbufs s).owners c).vbook = some (b * pgSize) → b ≤ v ∧ v < b + 33 →
      (k'.ringbufs s).owners c = (k.ringbufs s).owners c) : k.Stray p v := by
  obtain ⟨-, h₁, h₂, h₃, hnew⟩ := h
  refine ⟨hleaf, h₁, h₂, hsz ▸ h₃, fun s c b hc hb hin => ?_⟩
  have hsame := hown s c b hc hb hin
  exact hnew s c b (hsame ▸ hc) (hsame ▸ hb) hin

theorem Tidy.refl (k : Kernel) : Tidy k k := fun _ _ h => h

theorem Tidy.trans {k'' : Kernel} (h : Tidy k k') (h' : Tidy k' k'') : Tidy k k'' :=
  fun p v hs => h p v (h' p v hs)

/-- Regions survive as long as the mappings of the ring buffer's pages do. -/
theorem Attached.of_leaf {rb : Ringbuf} {o : Owner} {b : ℕ} (h : Attached rb o pt b)
    (hleaf : ∀ v, b ≤ v → v < b + 33 → leafAt pt' v = leafAt pt v) : Attached rb o pt' b := by
  refine ⟨h.pos, h.lt, h.vbook, h.vbuf, ?_⟩
  intro j hj
  rw [hleaf (b + j) (by omega) (by omega)]
  exact h.leaf j hj

/-- Only the pages of the ring buffer matter. -/
theorem Attached.of_pages {rb rb' : Ringbuf} {o : Owner} {b : ℕ} (h : Attached rb o pt b)
    (hbuf : rb'.bufPages = rb.bufPages) (hbook : rb'.bookPage = rb.bookPage) :
    Attached rb' o pt b := by
  refine ⟨h.pos, h.lt, h.vbook, h.vbuf, ?_⟩
  intro j hj
  rw [h.leaf j hj]
  unfold Ringbuf.slot
  rw [hbuf, hbook]

theorem Inv.attached_grown (h : Inv k) {i : Fin 2} {b : ℕ}
    (hown : ((k.ringbufs r).owners i).proc = some p)
    (hatt : Attached (k.ringbufs r) ((k.ringbufs r).owners i) (k.procs p).pagetable b)
    (hg : Grown (k.procs p).pagetable pt') :
    Attached (k.ringbufs r) ((k.ringbufs r).owners i) pt' b := by
  apply hatt.of_leaf
  intro v h₁ h₂
  obtain ⟨pte, hpte, -⟩ := h.attached_leaf hown hatt ⟨h₁, h₂⟩
  rw [hpte, hg v pte hpte]

/-- **A step that changes one process and one ring buffer.** -/
theorem Inv.of_changes (h : Inv k) (hpages : k'.pages = k.pages)
    (hkend : k'.mem.kend = k.mem.kend) (htr : k'.trampoline = k.trampoline)
    (hprocs : ∀ j ≠ p, k'.procs j = k.procs j) (hrings : ∀ s ≠ r, k'.ringbufs s = k.ringbufs s)
    (hproc : ProcOk k.trampoline (k'.procs p)) (hring : RingOk (k'.ringbufs r))
    (hname : (k'.ringbufs r).refcount ≠ 0 → ∀ s ≠ r, (k.ringbufs s).refcount ≠ 0 →
      (k.ringbufs s).name ≠ (k'.ringbufs r).name)
    (hself : ∀ i j, ((k'.ringbufs r).owners i).proc = some j → (k'.procs j).state ≠ .unused ∧
      ∃ b, Attached (k'.ringbufs r) ((k'.ringbufs r).owners i) (k'.procs j).pagetable b)
    (hothers : ∀ s ≠ r, ∀ i b, ((k.ringbufs s).owners i).proc = some p →
      Attached (k.ringbufs s) ((k.ringbufs s).owners i) (k.procs p).pagetable b →
      (k'.procs p).state ≠ .unused ∧
        Attached (k.ringbufs s) ((k.ringbufs s).owners i) (k'.procs p).pagetable b)
    (howned : ∀ j, (k'.ringsOf j).card ≤ (k'.procs j).ownedRingbufs)
    (hlog : ∀ t ∈ k'.teardowns, Clean t) : Inv k' := by
  refine ⟨hpages ▸ h.nodup, ?_, ?_, ?_, ?_, ?_, ?_, howned, hlog⟩
  · rw [hpages, hkend]
    exact h.valid
  · rw [htr, hkend]
    exact h.trampoline
  · intro j
    rw [htr]
    by_cases hj : j = p
    · exact hj ▸ hproc
    · rw [hprocs j hj]
      exact h.proc j
  · intro s
    by_cases hs : s = r
    · exact hs ▸ hring
    · rw [hrings s hs]
      exact h.ring s
  · intro s t hs ht heq
    by_cases hsr : s = r
    · by_cases htr : t = r
      · rw [hsr, htr]
      · rw [hrings t htr] at ht heq
        exact absurd (hsr ▸ heq).symm (hname (hsr ▸ hs) t htr ht)
    · rw [hrings s hsr] at hs heq
      by_cases htr : t = r
      · exact absurd (htr ▸ heq) (hname (htr ▸ ht) s hsr hs)
      · rw [hrings t htr] at ht heq
        exact h.name s t hs ht heq
  · intro s i j hown
    by_cases hs : s = r
    · subst hs
      exact hself i j hown
    · rw [hrings s hs] at hown ⊢
      obtain ⟨hstate, b, hatt⟩ := h.owner s i j hown
      by_cases hj : j = p
      · subst hj
        obtain ⟨hstate', hatt'⟩ := hothers s hs i b hown hatt
        exact ⟨hstate', b, hatt'⟩
      · rw [hprocs j hj]
        exact ⟨hstate, b, hatt⟩

/-- **A step that changes one process.** -/
theorem Inv.of_proc (h : Inv k) (hpages : k'.pages = k.pages)
    (hkend : k'.mem.kend = k.mem.kend) (htr : k'.trampoline = k.trampoline)
    (hprocs : ∀ j ≠ p, k'.procs j = k.procs j) (hrings : k'.ringbufs = k.ringbufs)
    (hproc : ProcOk k.trampoline (k'.procs p))
    (howns : ∀ s i b, ((k.ringbufs s).owners i).proc = some p →
      Attached (k.ringbufs s) ((k.ringbufs s).owners i) (k.procs p).pagetable b →
      (k'.procs p).state ≠ .unused ∧
        Attached (k.ringbufs s) ((k.ringbufs s).owners i) (k'.procs p).pagetable b)
    (howned : (k.ringsOf p).card ≤ (k'.procs p).ownedRingbufs)
    (hlog : ∀ t ∈ k'.teardowns, Clean t) : Inv k' := by
  refine h.of_changes (p := p) (r := 0) hpages hkend htr hprocs (fun s _ => congrFun hrings s)
    hproc ?_ ?_ ?_ (fun s _ => howns s) ?_ hlog
  · rw [hrings]
    exact h.ring 0
  · rw [hrings]
    intro h0 s hs hact heq
    exact hs (h.name s 0 hact h0 heq)
  · rw [hrings]
    intro i j hown
    obtain ⟨hstate, b, hatt⟩ := h.owner 0 i j hown
    by_cases hj : j = p
    · subst hj
      obtain ⟨hstate', hatt'⟩ := howns 0 i b hown hatt
      exact ⟨hstate', b, hatt'⟩
    · rw [hprocs j hj]
      exact ⟨hstate, b, hatt⟩
  · intro j
    have hsame : k'.ringsOf j = k.ringsOf j := by
      unfold ringsOf
      rw [hrings]
    rw [hsame]
    by_cases hj : j = p
    · exact hj ▸ howned
    · rw [hprocs j hj]
      exact h.owned j

theorem nodup_free (h : k.pages.Nodup) : (k.mem.free : Multiset ℕ).Nodup := by
  unfold pages at h
  have hfree := nodup_of_nodup_sum h .free
  rwa [held_free] at hfree

/-- Process `p` can be replaced by `q`, with the memory `m` and the teardowns `T`. -/
structure Replaces (k : Kernel) (p : ProcIx) (m : Kmem) (T : List Teardown) (q : Proc) : Prop where
  kend : m.kend = k.mem.kend
  pages : (m.free : Multiset ℕ) + q.pages = k.mem.free + (k.procs p).pages
  proc : ProcOk k.trampoline q
  owns : ∀ s i b, ((k.ringbufs s).owners i).proc = some p →
    Attached (k.ringbufs s) ((k.ringbufs s).owners i) (k.procs p).pagetable b →
    q.state ≠ .unused ∧ Attached (k.ringbufs s) ((k.ringbufs s).owners i) q.pagetable b
  owned : (k.ringsOf p).card ≤ q.ownedRingbufs
  stray : ∀ v, leafAt q.pagetable v ≠ none → v ≠ trampolineVpn → v ≠ trapframeVpn →
    npages q.sz ≤ v → leafAt (k.procs p).pagetable v ≠ none ∧ npages (k.procs p).sz ≤ v
  log : (m.free : Multiset ℕ).Nodup → ∀ t ∈ T, Clean t

namespace Replaces

variable {m : Kmem} {T : List Teardown} {q : Proc}

theorem pages_eq (h : Replaces k p m T q) :
    ({ k with mem := m, teardowns := T }.setProc p q).pages = k.pages := by
  refine pages_eq_of_moved_proc (p := p) ?_ (fun j hj => update_of_ne hj _ _) rfl rfl
  rw [setProc_procs, update_self]
  exact h.pages

theorem inv (h : Replaces k p m T q) (hinv : Inv k) :
    Inv ({ k with mem := m, teardowns := T }.setProc p q) := by
  have hself : ({ k with mem := m, teardowns := T }.setProc p q).procs p = q := update_self _ _ _
  have hnodup := nodup_free (h.pages_eq ▸ hinv.nodup)
  refine hinv.of_proc (p := p) h.pages_eq h.kend rfl (fun j hj => update_of_ne hj _ _) rfl ?_ ?_ ?_
    (h.log hnodup)
  · rw [hself]
    exact h.proc
  · rw [hself]
    exact h.owns
  · rw [hself]
    exact h.owned

theorem tidy (h : Replaces k p m T q) :
    Tidy k ({ k with mem := m, teardowns := T }.setProc p q) := by
  rintro j v ⟨hleaf, h₁, h₂, h₃, hrest⟩
  rw [setProc_procs] at hleaf h₃
  by_cases hj : j = p
  · subst hj
    rw [update_self] at hleaf h₃
    obtain ⟨hleaf', h₃'⟩ := h.stray v hleaf h₁ h₂ h₃
    exact ⟨hleaf', h₁, h₂, h₃', hrest⟩
  · rw [update_of_ne hj] at hleaf h₃
    exact ⟨hleaf, h₁, h₂, h₃, hrest⟩

end Replaces

end Kernel

end Xv6Zig
