/-
Xv6Zig/FreeList.lean

The free list as it lies in memory: `kernel/kalloc.zig`, and `kernel/kalloc.c`
which it replaced.

A free page holds the address of the next one in its first eight bytes, and
null is 0.  Both allocators fill a page with ones when it comes back and with
fives when it goes out, so the link must be written after the one fill and read
before the other.  `Chain` is the list that the links spell out; on it the
allocators do what `Kmem` says, which is all the rest of the development uses.

A history is `kinit` and then calls in any order, between which a caller may
write what it likes to the pages it holds.  Only pages that are held are freed.

The Zig code casts the address it is given to a pointer aligned to a page before
it looks at it.  The kernel is built without the check of that cast, so an address
that is not aligned is illegal behaviour there and a panic in C.  On all others,
which are all that a history frees, the two allocators are one.
-/
import Xv6Zig.Kalloc
import Xv6Zig.Lib.Bytes
import Xv6Zig.Lib.Run
import Xv6Zig.Vm

namespace Xv6Zig

open Lib

/-- `KERNBASE`, where the kernel is loaded: `end` is above it. -/
def kernBase : ℕ := 0x80000000

/-- Memory and the allocator's `freelist`. -/
structure Heap where
  mem : Bytes
  freelist : ℕ

/-- How the allocators do not return. -/
inductive AllocPanic
  /-- "freerange error" -/
  | freerange
  /-- "kfree error", and "kfree" in C -/
  | kfree
  /-- not a panic: illegal behaviour, of an unchecked `@alignCast` -/
  | alignCast
  deriving DecidableEq, Repr

/-! ### `kernel/kalloc.zig` -/

namespace Heap

/-- `@alignCast` to a page, as the kernel is built (`ReleaseSmall`). -/
def alignCast (pa : ℕ) : Except AllocPanic ℕ :=
  if pa % pgSize = 0 then .ok pa else .error .alignCast

/-- `freePage`, whose argument is aligned by its type. -/
def freePage (kend : ℕ) (s : Heap) (pa : ℕ) : Except PageError Heap :=
  if pa % pgSize ≠ 0 then .error .addressNotPageAligned
  else if pa < kend then .error .addressTooLow
  else if physTop ≤ pa then .error .addressTooHigh
  else
    let mem := s.mem.fill pa pgSize 1
    .ok { mem := mem.store pa 8 s.freelist, freelist := pa }

def kfree (kend : ℕ) (s : Heap) (pa : ℕ) : Except AllocPanic Heap := do
  let page ← alignCast pa
  match s.freePage kend page with
  | .ok s => .ok s
  | .error _ => .error .kfree

def allocPage (s : Heap) : Option ℕ × Heap :=
  let r := s.freelist
  let s := if r ≠ 0 then { s with freelist := s.mem.load r 8 } else s
  if r ≠ 0 then (some r, { s with mem := s.mem.fill r pgSize 5 }) else (none, s)

def kalloc (s : Heap) : ℕ × Heap :=
  match s.allocPage with
  | (some pa, s) => (pa, s)
  | (none, s) => (0, s)

/-- `std.mem.alignForward`. -/
def alignForward (addr alignment : ℕ) : ℕ :=
  let a := addr + (alignment - 1)
  a - a % alignment

/-- The loop of `freerange`. -/
def freeLoop (kend paEnd : ℕ) : ℕ → ℕ → Heap → Except AllocPanic Heap
  | 0, _, s => .ok s
  | n + 1, p, s =>
      if p + pgSize ≤ paEnd then do
        let page ← alignCast p
        match s.freePage kend page with
        | .ok s => freeLoop kend paEnd n (p + pgSize) s
        | .error _ => .error .freerange
      else .ok s

/-- `freerange`, of at most `paEnd / PGSIZE` rounds. -/
def freerange (kend : ℕ) (s : Heap) (paStart paEnd : ℕ) : Except AllocPanic Heap :=
  freeLoop kend paEnd (paEnd / pgSize) (alignForward paStart pgSize) s

/-- `kinit`, whatever is in memory. -/
def kinit (kend : ℕ) (mem : Bytes) : Except AllocPanic Heap :=
  freerange kend ⟨mem, 0⟩ kend physTop

end Heap

/-! ### `kernel/kalloc.c` -/

namespace KallocC

def kfree (kend : ℕ) (s : Heap) (pa : ℕ) : Except AllocPanic Heap :=
  if pa % pgSize ≠ 0 ∨ pa < kend ∨ physTop ≤ pa then .error .kfree
  else
    let s := { s with mem := s.mem.fill pa pgSize 1 }
    .ok { mem := s.mem.store pa 8 s.freelist, freelist := pa }

def kalloc (s : Heap) : ℕ × Heap :=
  let r := s.freelist
  let s := if r ≠ 0 then { s with freelist := s.mem.load r 8 } else s
  let s := if r ≠ 0 then { s with mem := s.mem.fill r pgSize 5 } else s
  (r, s)

/-- The loop of `freerange`. -/
def freeLoop (kend paEnd : ℕ) : ℕ → ℕ → Heap → Except AllocPanic Heap
  | 0, _, s => .ok s
  | n + 1, p, s =>
      if p + pgSize ≤ paEnd then do
        let s ← kfree kend s p
        freeLoop kend paEnd n (p + pgSize) s
      else .ok s

def freerange (kend : ℕ) (s : Heap) (paStart paEnd : ℕ) : Except AllocPanic Heap :=
  freeLoop kend paEnd (paEnd / pgSize) (pgRoundUp paStart) s

def kinit (kend : ℕ) (mem : Bytes) : Except AllocPanic Heap :=
  freerange kend ⟨mem, 0⟩ kend physTop

end KallocC

/-! ### The list in memory -/

/-- From `p` on the links lead through the pages `l`. -/
def Chain (mem : Bytes) : ℕ → List ℕ → Prop
  | p, [] => p = 0
  | p, a :: l => p = a ∧ a ≠ 0 ∧ Chain mem (mem.load a 8) l

variable {mem mem' : Bytes} {p pa kend : ℕ} {l : List ℕ}

theorem Chain.congr (h : Chain mem p l)
    (hmem : ∀ a ∈ l, ∀ x, a ≤ x → x < a + pgSize → mem' x = mem x) : Chain mem' p l := by
  induction l generalizing p with
  | nil => exact h
  | cons a l ih =>
    obtain ⟨rfl, hne, hrest⟩ := h
    have hlink : mem'.load p 8 = mem.load p 8 := by
      apply Bytes.load_congr
      intro x h₁ h₂
      exact hmem p List.mem_cons_self x h₁ (by unfold pgSize; omega)
    refine ⟨rfl, hne, ?_⟩
    rw [hlink]
    exact ih hrest fun b hb => hmem b (List.mem_cons_of_mem _ hb)

theorem Chain.eq_nil_iff (h : Chain mem p l) : l = [] ↔ p = 0 := by
  rcases l with - | ⟨a, l⟩
  · exact ⟨fun _ => h, fun _ => rfl⟩
  · obtain ⟨rfl, hne, -⟩ := h
    exact ⟨(fun hl => nomatch hl), fun hp => absurd hp hne⟩

theorem Chain.head_mem (h : Chain mem p l) (hp : p ≠ 0) : p ∈ l := by
  rcases l with - | ⟨a, l⟩
  · exact absurd h hp
  · rw [h.1]
    exact List.mem_cons_self

/-- Two pages that are not the same have no byte in common. -/
theorem page_disjoint {a b x : ℕ} (ha : a % pgSize = 0) (hb : b % pgSize = 0) (hab : a ≠ b)
    (h₁ : a ≤ x) (h₂ : x < a + pgSize) : x < b ∨ b + pgSize ≤ x := by
  unfold pgSize at *
  omega

theorem ValidPage.lt (h : ValidPage kend pa) : pa < 256 ^ 8 := by
  have := h.2.2
  unfold physTop at this
  omega

theorem ValidPage.ne_zero (hend : kernBase ≤ kend) (h : ValidPage kend pa) : pa ≠ 0 := by
  have := h.2.1
  unfold kernBase at hend
  omega

/-! ### The allocators on the list -/

namespace Heap

variable {s s' : Heap} {m m' : Kmem}

/-- The heap has the free list of the model, of pages `freePage` would take. -/
structure Rep (s : Heap) (m : Kmem) : Prop where
  chain : Chain s.mem s.freelist m.free
  nodup : m.free.Nodup
  valid : ∀ pa ∈ m.free, ValidPage m.kend pa

/-- The memory outside of the free pages is not the allocator's. -/
theorem Rep.congr (h : Rep s m) (hlist : s'.freelist = s.freelist)
    (hmem : ∀ a ∈ m.free, ∀ x, a ≤ x → x < a + pgSize → s'.mem x = s.mem x) : Rep s' m := by
  refine ⟨?_, h.nodup, h.valid⟩
  rw [hlist]
  exact h.chain.congr hmem

/-- **`freePage` puts the page in front.**  The link is written after the fill. -/
theorem Rep.freePage (h : Rep s m) (hend : kernBase ≤ m.kend) (hpa : ValidPage m.kend pa)
    (hnew : pa ∉ m.free) :
    ∃ s', s.freePage m.kend pa = .ok s' ∧ Rep s' { m with free := pa :: m.free } := by
  have hpos := hpa.ne_zero hend
  obtain ⟨h₁, h₂, h₃⟩ := hpa
  refine ⟨⟨(s.mem.fill pa pgSize 1).store pa 8 s.freelist, pa⟩, ?_, ?_, ?_, ?_⟩
  · unfold Heap.freePage
    rw [if_neg (not_not.mpr h₁), if_neg (by omega), if_neg (by omega)]
  · -- the old head fits into the link
    have hhead : s.freelist < 256 ^ 8 := by
      rcases eq_or_ne s.freelist 0 with hzero | hzero
      · rw [hzero]
        decide
      · exact (h.valid _ (h.chain.head_mem hzero)).lt
    refine ⟨rfl, hpos, ?_⟩
    rw [Bytes.load_store _ _ hhead]
    apply h.chain.congr
    intro a ha x h₄ h₅
    show (s.mem.fill pa pgSize 1).store pa 8 s.freelist x = s.mem x
    have hne : a ≠ pa := fun heq => hnew (heq ▸ ha)
    rcases page_disjoint (h.valid a ha).1 h₁ hne h₄ h₅ with hx | hx
    · rw [Bytes.store_of_lt hx, Bytes.fill_of_lt 1 hx]
    · rw [Bytes.store_of_le (by unfold pgSize at hx; omega), Bytes.fill_of_le 1 hx]
  · exact List.nodup_cons.mpr ⟨hnew, h.nodup⟩
  · intro a ha
    rcases List.mem_cons.mp ha with rfl | ha
    · exact ⟨h₁, h₂, h₃⟩
    · exact h.valid a ha

/-- **`allocPage` takes the first page.**  The link is read before the fill. -/
theorem Rep.allocPage (h : Rep s m) :
    match m.allocPage with
    | none => s.allocPage = (none, s)
    | some (pa, m') => ∃ s', s.allocPage = (some pa, s') ∧ Rep s' m' ∧
        s'.mem = s.mem.fill pa pgSize 5 := by
  obtain ⟨hchain, hnodup, hvalid⟩ := h
  unfold Kmem.allocPage
  rcases hf : m.free with - | ⟨pa, free⟩
  · rw [hf] at hchain
    have hzero : s.freelist = 0 := hchain
    simp [Heap.allocPage, hzero]
  · rw [hf] at hchain hnodup hvalid
    obtain ⟨hhead, hne, hrest⟩ := hchain
    obtain ⟨hnot, hnodup⟩ := List.nodup_cons.mp hnodup
    refine ⟨⟨s.mem.fill pa pgSize 5, s.mem.load pa 8⟩, ?_, ⟨?_, hnodup, ?_⟩, rfl⟩
    · simp [Heap.allocPage, hhead, hne]
    · apply hrest.congr
      intro a ha x h₁ h₂
      have hane : a ≠ pa := fun heq => hnot (heq ▸ ha)
      rcases page_disjoint (hvalid a (List.mem_cons_of_mem _ ha)).1
        (hvalid pa List.mem_cons_self).1 hane h₁ h₂ with hx | hx
      · exact Bytes.fill_of_lt 5 hx
      · exact Bytes.fill_of_le 5 hx
    · exact fun a ha => hvalid a (List.mem_cons_of_mem _ ha)

theorem Rep.kfree (h : Rep s m) (hend : kernBase ≤ m.kend) (hpa : ValidPage m.kend pa)
    (hnew : pa ∉ m.free) :
    ∃ s', s.kfree m.kend pa = .ok s' ∧ Rep s' { m with free := pa :: m.free } := by
  obtain ⟨s', hr, hrep⟩ := h.freePage hend hpa hnew
  refine ⟨s', ?_, hrep⟩
  unfold Heap.kfree alignCast
  rw [if_pos hpa.1, ok_bind, hr]

theorem Rep.kalloc (h : Rep s m) :
    match m.allocPage with
    | none => s.kalloc = (0, s)
    | some (pa, m') => ∃ s', s.kalloc = (pa, s') ∧ Rep s' m' ∧
        s'.mem = s.mem.fill pa pgSize 5 := by
  have hspec := h.allocPage
  rcases halloc : m.allocPage with - | ⟨pa, m'⟩
  · rw [halloc] at hspec
    show s.kalloc = (0, s)
    unfold Heap.kalloc
    rw [show s.allocPage = (none, s) from hspec]
  · rw [halloc] at hspec
    obtain ⟨s', hr, hrep, hmem⟩ := hspec
    refine ⟨s', ?_, hrep, hmem⟩
    unfold Heap.kalloc
    rw [hr]

end Heap

/-! ### `kinit` -/

theorem validPage_iff : ValidPage kend pa ↔
    pa % pgSize = 0 ∧ pgRoundUp kend ≤ pa ∧ pa < physTop := by
  unfold ValidPage pgRoundUp npages pgSize
  omega

theorem alignForward_eq (a : ℕ) : Heap.alignForward a pgSize = pgRoundUp a := by
  show a + (pgSize - 1) - (a + (pgSize - 1)) % pgSize = npages a * pgSize
  unfold npages pgSize
  omega

theorem kfree_eq (s : Heap) (hpa : pa % pgSize = 0) :
    s.kfree kend pa = KallocC.kfree kend s pa := by
  unfold Heap.kfree Heap.alignCast Heap.freePage KallocC.kfree
  rw [if_pos hpa, ok_bind, if_neg (not_not.mpr hpa)]
  by_cases h₂ : pa < kend
  · rw [if_pos h₂, if_pos (.inr (.inl h₂))]
  rw [if_neg h₂]
  by_cases h₃ : physTop ≤ pa
  · rw [if_pos h₃, if_pos (.inr (.inr h₃))]
  rw [if_neg h₃, if_neg]
  rintro (h | h | h)
  · exact h hpa
  · exact h₂ h
  · exact h₃ h

/-- An address that is not aligned is refused in C only. -/
theorem kfree_of_misaligned (kend : ℕ) (s : Heap) (hpa : pa % pgSize ≠ 0) :
    s.kfree kend pa = .error .alignCast ∧ KallocC.kfree kend s pa = .error .kfree := by
  unfold Heap.kfree Heap.alignCast KallocC.kfree
  rw [if_neg hpa, if_pos (.inl hpa)]
  exact ⟨rfl, rfl⟩

theorem kalloc_eq (s : Heap) : s.kalloc = KallocC.kalloc s := by
  unfold Heap.kalloc Heap.allocPage KallocC.kalloc
  by_cases h : s.freelist = 0
  · simp [h]
  · simp [h]

/-- What the loops of `freerange` have freed when they come to `p`. -/
structure Freed (kend : ℕ) (s : Heap) (l : List ℕ) (p : ℕ) : Prop where
  rep : s.Rep ⟨kend, l⟩
  mem : ∀ x, x ∈ l ↔ ValidPage kend x ∧ x < p

/-- **Both loops free all pages from `p` on.** -/
theorem freeLoop_spec {s : Heap} {n : ℕ} (hend : kernBase ≤ kend) (h : Freed kend s l p)
    (hp : p % pgSize = 0) (hle : kend ≤ p) (hn : physTop ≤ p + n * pgSize) :
    ∃ s' l', Heap.freeLoop kend physTop n p s = .ok s' ∧
      KallocC.freeLoop kend physTop n p s = .ok s' ∧ s'.Rep ⟨kend, l'⟩ ∧
      ∀ x, x ∈ l' ↔ ValidPage kend x := by
  -- at the end no page is left
  have hdone : physTop ≤ p → ∀ x, x ∈ l ↔ ValidPage kend x := by
    intro hge x
    rw [h.mem x]
    exact ⟨fun hx => hx.1, fun hx => ⟨hx, lt_of_lt_of_le hx.2.2 hge⟩⟩
  induction n generalizing s p l with
  | zero => exact ⟨s, l, rfl, rfl, h.rep, hdone (by omega)⟩
  | succ n ih =>
    by_cases hlt : p < physTop
    · have hroom : p + pgSize ≤ physTop := by
        have htop : physTop % pgSize = 0 := by decide
        unfold pgSize at *
        omega
      have hvalid : ValidPage kend p := ⟨hp, hle, hlt⟩
      obtain ⟨s₁, hr, hrep⟩ := h.rep.freePage hend hvalid
        fun hin => absurd ((h.mem p).mp hin).2 (lt_irrefl p)
      have hfreed : Freed kend s₁ (p :: l) (p + pgSize) := by
        refine ⟨hrep, fun x => ?_⟩
        rw [List.mem_cons, h.mem x]
        constructor
        · rintro (rfl | ⟨hx, hxp⟩)
          · exact ⟨hvalid, Nat.lt_add_of_pos_right pgSize_pos⟩
          · exact ⟨hx, by omega⟩
        · rintro ⟨hx, hxp⟩
          have hxmod := hx.1
          unfold pgSize at *
          by_cases hxeq : x = p
          · exact .inl hxeq
          · exact .inr ⟨hx, by omega⟩
      have hr' : KallocC.kfree kend s p = .ok s₁ := by
        rw [← kfree_eq s hp]
        unfold Heap.kfree Heap.alignCast
        rw [if_pos hp, ok_bind, show s.freePage kend p = .ok s₁ from hr]
      obtain ⟨s', l', hz, hc, hrep', hall⟩ := ih hfreed (by rw [Nat.add_mod_right, hp])
        (by omega) (by rw [Nat.succ_mul] at hn; omega) (by
          intro hge x
          rw [hfreed.mem x]
          exact ⟨fun hx => hx.1, fun hx => ⟨hx, lt_of_lt_of_le hx.2.2 hge⟩⟩)
      refine ⟨s', l', ?_, ?_, hrep', hall⟩
      · unfold Heap.freeLoop Heap.alignCast
        rw [if_pos hroom, if_pos hp, ok_bind, show s.freePage kend p = .ok s₁ from hr]
        exact hz
      · unfold KallocC.freeLoop
        rw [if_pos hroom, hr']
        exact hc
    · have hfull : ¬ p + pgSize ≤ physTop := by
        have := pgSize_pos
        omega
      refine ⟨s, l, ?_, ?_, h.rep, hdone (not_lt.mp hlt)⟩
      · unfold Heap.freeLoop
        rw [if_neg hfull]
      · unfold KallocC.freeLoop
        rw [if_neg hfull]

/-- **`kinit`.** -/
theorem kinit_spec (hend : kernBase ≤ kend) (mem : Bytes) :
    ∃ s l, Heap.kinit kend mem = .ok s ∧ KallocC.kinit kend mem = .ok s ∧ s.Rep ⟨kend, l⟩ ∧
      ∀ x, x ∈ l ↔ ValidPage kend x := by
  unfold Heap.kinit KallocC.kinit Heap.freerange KallocC.freerange
  rw [alignForward_eq]
  refine freeLoop_spec hend (l := []) ⟨⟨rfl, List.nodup_nil, fun a ha => nomatch ha⟩, ?_⟩ ?_ ?_ ?_
  · intro x
    constructor
    · exact fun hx => nomatch hx
    · rintro ⟨hx, hlt⟩
      exact absurd (validPage_iff.mp hx).2.1 (not_le.mpr hlt)
  · unfold pgRoundUp
    exact Nat.mul_mod_left _ _
  · unfold pgRoundUp npages pgSize
    omega
  · have htop : physTop / pgSize * pgSize = physTop := by decide
    omega

/-! ### Histories -/

/-- The heap and the pages callers hold. -/
structure Hist where
  heap : Heap
  held : List ℕ

/-- A call, with what `kalloc` returned, or a holder that writes to its page. -/
inductive AllocEv
  | kalloc (r : ℕ)
  | kfree (pa : ℕ)
  | write (pa : ℕ) (f : Bytes)

/-- A step with one of the two allocators. -/
def AllocStep (kalloc : Heap → ℕ × Heap) (kfree : Heap → ℕ → Except AllocPanic Heap) (h : Hist)
    (e : AllocEv) (h' : Hist) : Prop :=
  match e with
  | .kalloc r => kalloc h.heap = (r, h'.heap) ∧
      h'.held = if r = 0 then h.held else r :: h.held
  | .kfree pa => pa ∈ h.held ∧ kfree h.heap pa = .ok h'.heap ∧ h'.held = h.held.erase pa
  | .write pa f => pa ∈ h.held ∧ h'.held = h.held ∧ h'.heap = { h.heap with
      mem := fun x => if pa ≤ x ∧ x < pa + pgSize then f x else h.heap.mem x }

/-- A step with the allocator of `kalloc.zig`. -/
def ZigStep (kend : ℕ) : Hist → AllocEv → Hist → Prop :=
  AllocStep Heap.kalloc (Heap.kfree kend)

/-- A step with the allocator of `kalloc.c`. -/
def CStep (kend : ℕ) : Hist → AllocEv → Hist → Prop :=
  AllocStep KallocC.kalloc (KallocC.kfree kend)

/-- A call of `kfree` that returns does the same in both. -/
theorem kfree_ok_iff (kend : ℕ) (s s' : Heap) (pa : ℕ) :
    s.kfree kend pa = .ok s' ↔ KallocC.kfree kend s pa = .ok s' := by
  by_cases hpa : pa % pgSize = 0
  · rw [kfree_eq s hpa]
  · obtain ⟨hz, hc⟩ := kfree_of_misaligned kend s hpa
    rw [hz, hc]
    exact iff_of_false (by simp) (by simp)

theorem zigStep_eq (kend : ℕ) : ZigStep kend = CStep kend := by
  funext h e h'
  unfold ZigStep CStep AllocStep
  cases e with
  | kalloc r => rw [kalloc_eq]
  | kfree pa => simp only [kfree_ok_iff]
  | write pa f => rfl

/-- What holds between two calls: `free` is the list in memory, and free and
held pages together are all pages, each once. -/
structure Partition (kend : ℕ) (h : Hist) (free : List ℕ) : Prop where
  rep : h.heap.Rep ⟨kend, free⟩
  nodup : (free ++ h.held).Nodup
  all : ∀ x, x ∈ free ++ h.held ↔ ValidPage kend x

/-- **One step.** -/
theorem Partition.step {h h' : Hist} {e : AllocEv} (hend : kernBase ≤ kend)
    (hp : Partition kend h l) (hstep : ZigStep kend h e h') : ∃ l', Partition kend h' l' := by
  obtain ⟨hrep, hnodup, hall⟩ := hp
  cases e with
  | kalloc r =>
    obtain ⟨hr, hheld⟩ := hstep
    have hspec := hrep.kalloc
    rcases l with - | ⟨pa, l⟩
    · obtain ⟨rfl, heap⟩ := Prod.mk.inj (hr.symm.trans hspec)
      refine ⟨[], heap ▸ hrep, ?_, ?_⟩
      · rwa [hheld, if_pos rfl]
      · rwa [hheld, if_pos rfl]
    · obtain ⟨s', hs', hrep', -⟩ := hspec
      obtain ⟨rfl, rfl⟩ := Prod.mk.inj (hr.symm.trans hs')
      have hpos : r ≠ 0 := (hrep.valid r List.mem_cons_self).ne_zero hend
      have hmove : (l ++ r :: h.held).Perm (r :: l ++ h.held) := List.perm_middle
      refine ⟨l, hrep', ?_, fun x => ?_⟩
      · rw [hheld, if_neg hpos, hmove.nodup_iff]
        exact hnodup
      · rw [hheld, if_neg hpos, hmove.mem_iff]
        exact hall x
  | kfree pa =>
    obtain ⟨hpa, hr, hheld⟩ := hstep
    have hvalid : ValidPage kend pa := (hall pa).mp (List.mem_append_right l hpa)
    have hnew : pa ∉ l := fun hin => List.disjoint_of_nodup_append hnodup hin hpa
    obtain ⟨s', hs', hrep'⟩ := hrep.kfree hend hvalid hnew
    obtain rfl : s' = h'.heap := Except.ok.inj (hs'.symm.trans hr)
    have hmove : (pa :: l ++ h.held.erase pa).Perm (l ++ h.held) :=
      List.perm_middle.symm.trans ((List.perm_cons_erase hpa).symm.append_left l)
    refine ⟨pa :: l, hrep', ?_, fun x => ?_⟩
    · rw [hheld, hmove.nodup_iff]
      exact hnodup
    · rw [hheld, hmove.mem_iff]
      exact hall x
  | write pa f =>
    obtain ⟨hpa, hheld, hheap⟩ := hstep
    refine ⟨l, hrep.congr (by rw [hheap]) ?_, hheld ▸ hnodup, hheld ▸ hall⟩
    -- a page that is held is not on the list
    intro a ha x h₁ h₂
    have hne : a ≠ pa := by
      rintro rfl
      exact List.disjoint_of_nodup_append hnodup ha hpa
    rw [hheap]
    refine if_neg fun hin => ?_
    have hamod := (hrep.valid a ha).1
    have hpmod := ((hall pa).mp (List.mem_append_right l hpa)).1
    rcases page_disjoint hamod hpmod hne h₁ h₂ with hx | hx
    · omega
    · omega

/-- What the allocator keeps between two calls: the list in memory is
duplicate-free, has page-aligned addresses in `[PGROUNDUP(end), PHYSTOP)`, none
of them held, and every such page is free or held; `allocPage` fails only when
the list is empty, and no page that is held is refused.  `kfree` refuses an
address if and only if C does, provided that it is aligned, and only then. -/
structure AllocOk (kend : ℕ) (h : Hist) (free : List ℕ) : Prop where
  list : Chain h.heap.mem h.heap.freelist free
  nodup : free.Nodup
  range : ∀ pa ∈ free, pa % pgSize = 0 ∧ pgRoundUp kend ≤ pa ∧ pa < physTop
  disjoint : ∀ pa ∈ free, pa ∉ h.held
  all : ∀ pa, pa % pgSize = 0 → pgRoundUp kend ≤ pa → pa < physTop → pa ∈ free ∨ pa ∈ h.held
  null : h.heap.allocPage.1 = none ↔ free = []
  takes : ∀ pa ∈ h.held, ∃ s, h.heap.kfree kend pa = .ok s
  rejects : ∀ pa, (h.heap.kfree kend pa = .error .kfree ↔
    KallocC.kfree kend h.heap pa = .error .kfree) ↔ pa % pgSize = 0

theorem Partition.ok {h : Hist} (hend : kernBase ≤ kend) (hp : Partition kend h l) :
    AllocOk kend h l := by
  obtain ⟨hrep, hnodup, hall⟩ := hp
  have hdisj : ∀ pa ∈ l, pa ∉ h.held :=
    fun pa hin hheld => List.disjoint_of_nodup_append hnodup hin hheld
  refine ⟨hrep.chain, hrep.nodup, fun pa hpa => validPage_iff.mp (hrep.valid pa hpa), hdisj, ?_, ?_,
    ?_, fun pa => ⟨fun hsame => ?_, fun hpa => by rw [kfree_eq _ hpa]⟩⟩
  · intro pa h₁ h₂ h₃
    exact List.mem_append.mp ((hall pa).mpr (validPage_iff.mpr ⟨h₁, h₂, h₃⟩))
  · have hspec := hrep.allocPage
    rcases l with - | ⟨pa, l⟩
    · rw [show h.heap.allocPage = (none, h.heap) from hspec]
      exact ⟨fun _ => rfl, fun _ => rfl⟩
    · obtain ⟨s', hs', -, -⟩ := hspec
      rw [hs']
      exact ⟨(fun hno => nomatch hno), fun hno => nomatch hno⟩
  · intro pa hpa
    obtain ⟨s', hs', -⟩ := hrep.kfree hend ((hall pa).mp (List.mem_append_right l hpa))
      fun hin => hdisj pa hin hpa
    exact ⟨s', hs'⟩
  · by_contra hpa
    obtain ⟨hz, hc⟩ := kfree_of_misaligned kend h.heap hpa
    cases hz.symm.trans (hsame.mpr hc)

/-- **The page allocator.**  Both allocators start with the same heap and have
the same histories, call for call and page for page, and in every state reached
the free list and the pages held are all pages, each once. -/
theorem allocators_agree (hend : kernBase ≤ kend) (mem : Bytes) :
    ∃ s₀, Heap.kinit kend mem = .ok s₀ ∧ KallocC.kinit kend mem = .ok s₀ ∧
      ∀ tr h, (Run (ZigStep kend) ⟨s₀, []⟩ tr h ↔ Run (CStep kend) ⟨s₀, []⟩ tr h) ∧
        (Run (ZigStep kend) ⟨s₀, []⟩ tr h → ∃ free, AllocOk kend h free) := by
  obtain ⟨s₀, l₀, hz, hc, hrep, hall⟩ := kinit_spec hend mem
  refine ⟨s₀, hz, hc, fun tr h => ⟨by rw [zigStep_eq], fun hrun => ?_⟩⟩
  have hstart : Partition kend ⟨s₀, []⟩ l₀ := by
    refine ⟨hrep, ?_, ?_⟩
    · rw [List.append_nil]
      exact hrep.nodup
    · simpa using hall
  obtain ⟨free, hp⟩ := hrun.invariant (I := fun h => ∃ free, Partition kend h free) ⟨l₀, hstart⟩
    fun ⟨_, hp⟩ hstep => hp.step hend hstep
  exact ⟨free, hp.ok hend⟩

/-- A kernel that ends in the middle of a page, three pages below `PHYSTOP`, with
memory full of sevens: both allocators hand out the same page. -/
theorem allocators_agree_small :
    ∃ s₀ s r, Heap.kinit (physTop - 4 * pgSize + 5) (fun _ => 7) = .ok s₀ ∧
      Run (ZigStep (physTop - 4 * pgSize + 5)) ⟨s₀, []⟩ [.kalloc r] ⟨s, [r]⟩ ∧
      Run (CStep (physTop - 4 * pgSize + 5)) ⟨s₀, []⟩ [.kalloc r] ⟨s, [r]⟩ ∧
      ∃ free, AllocOk (physTop - 4 * pgSize + 5) ⟨s, [r]⟩ free := by
  obtain ⟨s₀, hz, -, hruns⟩ :=
    allocators_agree (show kernBase ≤ physTop - 4 * pgSize + 5 by decide) fun _ => 7
  obtain ⟨free, hok⟩ := (hruns [] ⟨s₀, []⟩).2 (Run.nil _)
  -- the last page below `PHYSTOP` is free, so the list is not empty
  have hlast := hok.all (physTop - pgSize) (by decide) (by decide) (by decide)
  have hne : s₀.freelist ≠ 0 := by
    intro hzero
    rw [hok.list.eq_nil_iff.mpr hzero] at hlast
    rcases hlast with h | h
    · exact absurd h List.not_mem_nil
    · exact absurd h List.not_mem_nil
  have hstep : ZigStep (physTop - 4 * pgSize + 5) ⟨s₀, []⟩ (.kalloc s₀.freelist)
      ⟨s₀.kalloc.2, [s₀.freelist]⟩ := by
    refine ⟨?_, by rw [if_neg hne]⟩
    simp [Heap.kalloc, Heap.allocPage, hne]
  have hrun : Run (ZigStep (physTop - 4 * pgSize + 5)) ⟨s₀, []⟩ [.kalloc s₀.freelist]
      ⟨s₀.kalloc.2, [s₀.freelist]⟩ := Run.single hstep
  obtain ⟨hiff, hafter⟩ := hruns [.kalloc s₀.freelist] ⟨s₀.kalloc.2, [s₀.freelist]⟩
  exact ⟨s₀, s₀.kalloc.2, s₀.freelist, hz, hrun, hiff.mp hrun, hafter hrun⟩

/-- **`kfree` of an address in the middle of a page** panics in C; in Zig it is not refused, what
it does is not defined. -/
theorem kfree_misaligned_differs :
    ∃ s₀, Heap.kinit kernBase (fun _ => 7) = .ok s₀ ∧
      KallocC.kinit kernBase (fun _ => 7) = .ok s₀ ∧
      KallocC.kfree kernBase s₀ (physTop - 8) = .error .kfree ∧
      s₀.kfree kernBase (physTop - 8) ≠ .error .kfree := by
  obtain ⟨s₀, _, hz, hc, -⟩ := kinit_spec (le_refl kernBase) fun _ => 7
  obtain ⟨hzig, hpanic⟩ := kfree_of_misaligned kernBase s₀
    (show (physTop - 8) % pgSize ≠ 0 by decide)
  refine ⟨s₀, hz, hc, hpanic, ?_⟩
  rw [hzig]
  simp

end Xv6Zig
