/-
Xv6Zig/PageMem.lean

Page tables as they lie in memory (`kernel/vm.c`, `kernel/riscv.h`).

A table is a page of 512 entries of eight bytes.  `walk` goes down two levels
through entries with `PTE_V` and returns the address of the entry at the third,
0 for null; it takes the tables that are missing from the allocator of
`FreeList.lean`.  The functions here work on memory, not on trees.

`Table` says which radix tree a table in memory is.  It does not care what the
values in the tree are, only how they are written as entries (`enc`).  `walk`
without allocation finds what `Radix.find` finds, `walk` with allocation does
what `Radix.grow` does, and a store through the address it returns is
`Radix.set`.  Memory outside of the tables of the tree and the free pages stays
as it was, so that other trees do not notice.
-/
import Xv6Zig.FreeList
import Xv6Zig.Ringbuf

namespace Xv6Zig

open Lib Function

/-! ### `kernel/riscv.h` -/

/-- `PTE_V`. -/
def pteV : ℕ := 1 <<< 0

/-- `PTE_U`. -/
def pteU : ℕ := 1 <<< 4

/-- `PA2PTE`. -/
def pa2pte (pa : ℕ) : ℕ := (pa >>> 12) <<< 10

/-- `PTE2PA`, of a `uint64`. -/
def pte2pa (pte : ℕ) : ℕ := (pte >>> 10) <<< 12 % 2 ^ 64

/-- `PTE_FLAGS`. -/
def pteFlags (pte : ℕ) : ℕ := pte &&& 0x3FF

/-! ### `kernel/vm.c` -/

namespace Heap

/-- The loop of `walk`, from a level down to 0. -/
def walkLoop (alloc : Bool) (va : ℕ) : ℕ → Heap → ℕ → Heap × ℕ
  | 0, s, pagetable => (s, pagetable + 8 * px va 0)
  | level + 1, s, pagetable =>
      let pte := pagetable + 8 * px va (level + 1)
      if s.mem.load pte 8 &&& pteV ≠ 0 then
        walkLoop alloc va level s (pte2pa (s.mem.load pte 8))
      else if alloc = false then (s, 0)
      else
        let (pagetable, s) := s.kalloc
        if pagetable = 0 then (s, 0)
        else
          let mem := s.mem.fill pagetable pgSize 0
          walkLoop alloc va level
            { s with mem := mem.store pte 8 (pa2pte pagetable ||| pteV) } pagetable

/-- `walk`: the address of the entry, or 0. -/
def walk (s : Heap) (pagetable va : ℕ) (alloc : Bool) : Except Panic (Heap × ℕ) :=
  if maxVA ≤ va then .error .walk
  else .ok (walkLoop alloc va 2 s pagetable)

/-- `walkaddr`; 0 if not mapped. -/
def walkaddr (s : Heap) (pagetable va : ℕ) : Except Panic ℕ :=
  if maxVA ≤ va then .ok 0
  else do
    let (s, pte) ← s.walk pagetable va false
    if pte = 0 then .ok 0
    else if s.mem.load pte 8 &&& pteV = 0 then .ok 0
    else if s.mem.load pte 8 &&& pteU = 0 then .ok 0
    else .ok (pte2pa (s.mem.load pte 8))

/-- The loop of `mappages`, of at most the given number of rounds; `false`
stands for -1. -/
def mapLoop (pagetable last perm : ℕ) : ℕ → Heap → ℕ → ℕ → Except Panic (Heap × Bool)
  | 0, s, _, _ => .ok (s, true)
  | n + 1, s, a, pa => do
      let (s, pte) ← s.walk pagetable a true
      if pte = 0 then .ok (s, false)
      else if s.mem.load pte 8 &&& pteV ≠ 0 then .error .mappagesRemap
      else
        let s := { s with mem := s.mem.store pte 8 (pa2pte pa ||| perm ||| pteV) }
        if a = last then .ok (s, true)
        else mapLoop pagetable last perm n s (add64 a pgSize) (add64 pa pgSize)

def mappages (s : Heap) (pagetable va size pa perm : ℕ) : Except Panic (Heap × Bool) :=
  if size = 0 then .error .mappagesSize
  else
    let a := pgRoundDown va
    let last := pgRoundDown (sub64 (add64 va size) 1)
    mapLoop pagetable last perm ((last - a) / pgSize + 1) s a pa

/-- The loop of `uvmunmap`, of at most the given number of rounds. -/
def unmapLoop (kend pagetable limit : ℕ) (doFree : Bool) : ℕ → Heap → ℕ → Except Panic Heap
  | 0, s, _ => .ok s
  | n + 1, s, a =>
      if a < limit then do
        let (s, pte) ← s.walk pagetable a false
        if pte = 0 then .error .uvmunmapWalk
        else if s.mem.load pte 8 &&& pteV = 0 then .error .uvmunmapNotMapped
        else if pteFlags (s.mem.load pte 8) = pteV then .error .uvmunmapNotLeaf
        else do
          let s ← (if doFree then
            match s.kfree kend (pte2pa (s.mem.load pte 8)) with
            | .ok s => .ok s
            | .error _ => .error .kfree
            else .ok s)
          unmapLoop kend pagetable limit doFree n
            { s with mem := s.mem.store pte 8 0 } (add64 a pgSize)
      else .ok s

def uvmunmap (kend : ℕ) (s : Heap) (pagetable va npages : ℕ) (doFree : Bool) :
    Except Panic Heap :=
  if va % pgSize ≠ 0 then .error .uvmunmapNotAligned
  else unmapLoop kend pagetable (add64 va (npages * pgSize % 2 ^ 64)) doFree npages s va

end Heap

/-! ### Entries -/

theorem and_pteV (e : ℕ) : e &&& pteV = e % 2 := Nat.and_one_is_mod e

theorem pa2pte_or {pa f : ℕ} (hf : f < 1024) : pa2pte pa ||| f = pa / 4096 * 1024 + f := by
  have hor := Nat.two_pow_add_eq_or_of_lt (i := 10) (b := f) hf (pa / 4096)
  unfold pa2pte
  rw [Nat.shiftRight_eq_div_pow, Nat.shiftLeft_eq, mul_comm, ← hor, mul_comm]

theorem pte2pa_eq {pa f : ℕ} (hpa : pa % pgSize = 0) (hlt : pa < 2 ^ 64) (hf : f < 1024) :
    pte2pa (pa2pte pa ||| f) = pa := by
  rw [pa2pte_or hf]
  unfold pte2pa
  rw [Nat.shiftRight_eq_div_pow, Nat.shiftLeft_eq]
  unfold pgSize at hpa
  omega

theorem pteFlags_eq {pa f : ℕ} (hf : f < 1024) : pteFlags (pa2pte pa ||| f) = f := by
  have hmask : pteFlags (pa2pte pa ||| f) = (pa2pte pa ||| f) % 2 ^ 10 :=
    Nat.and_two_pow_sub_one_eq_mod _ 10
  rw [hmask, pa2pte_or hf]
  omega

theorem pa2pte_or_lt {pa f : ℕ} (hlt : pa < 2 ^ 64) (hf : f < 1024) :
    (pa2pte pa ||| f) < 256 ^ 8 := by
  rw [pa2pte_or hf]
  omega

theorem or_pteV_lt {f : ℕ} (hf : f < 1024) : f ||| pteV < 1024 :=
  Nat.or_lt_two_pow (n := 10) hf (by decide)

/-! ### Trees in memory -/

variable {α : Type} {enc : α → ℕ} {mem mem' : Bytes} {n : ℕ}

/-- The tree is no table. -/
def IsAbsent : {n : ℕ} → Radix 512 ℕ α n → Prop
  | _, .absent => True
  | _, .leaf _ _ => False
  | _, .node _ _ => False

/-- The entry at an address: not valid, or a value as it is written. -/
def EntryIs (enc : α → ℕ) (mem : Bytes) (a : ℕ) : Option α → Prop
  | none => mem.load a 8 % 2 = 0
  | some x => mem.load a 8 = enc x ∧ enc x % 2 = 1

/-- The table on a page is the tree. -/
def Table (enc : α → ℕ) (mem : Bytes) : {n : ℕ} → Radix 512 ℕ α n → ℕ → Prop
  | _, .absent, _ => False
  | _, .leaf p e, page => page = p ∧ ∀ i : Fin 512, EntryIs enc mem (p + 8 * i) (e i)
  | _, .node p c, page => page = p ∧ ∀ i : Fin 512,
      (IsAbsent (c i) ∧ mem.load (p + 8 * i) 8 % 2 = 0) ∨
      (mem.load (p + 8 * i) 8 % 2 = 1 ∧ Table enc mem (c i) (pte2pa (mem.load (p + 8 * i) 8)))

theorem IsAbsent.eq {t : Radix 512 ℕ α n} (h : IsAbsent t) : t = .absent := by
  cases t with
  | absent => rfl
  | leaf p e => exact h.elim
  | node p c => exact h.elim

theorem entry_lt (p : ℕ) (i : Fin 512) {x : ℕ} (h : x < p + 8 * i + 8) : x < p + pgSize := by
  have := i.isLt
  unfold pgSize
  omega

theorem load_entry_congr {p : ℕ} (i : Fin 512)
    (h : ∀ x, p ≤ x → x < p + pgSize → mem' x = mem x) :
    mem'.load (p + 8 * i) 8 = mem.load (p + 8 * i) 8 := by
  apply Bytes.load_congr
  intro x h₁ h₂
  exact h x (by omega) (entry_lt p i h₂)

/-- The memory agrees on the pages. -/
def SameOn (mem mem' : Bytes) (ps : List ℕ) : Prop :=
  ∀ p ∈ ps, ∀ x, p ≤ x → x < p + pgSize → mem' x = mem x

theorem EntryIs.congr {a : ℕ} {o : Option α} (h : EntryIs enc mem a o)
    (hload : mem'.load a 8 = mem.load a 8) : EntryIs enc mem' a o := by
  cases o with
  | none =>
    show mem'.load a 8 % 2 = 0
    rw [hload]
    exact h
  | some x =>
    show mem'.load a 8 = enc x ∧ _
    rw [hload]
    exact h

theorem mem_pages_child {p q : ℕ} {c : Fin 512 → Radix 512 ℕ α n} (i : Fin 512)
    (h : q ∈ (c i).pages) : q ∈ (Radix.node p c).pages := by
  apply List.mem_append_left
  rw [List.mem_flatMap]
  exact ⟨i, List.mem_finRange i, h⟩

theorem mem_pages_root (p : ℕ) (c : Fin 512 → Radix 512 ℕ α n) : p ∈ (Radix.node p c).pages :=
  List.mem_append_right _ List.mem_cons_self

/-- **Only the pages of the tree matter.** -/
theorem Table.congr {t : Radix 512 ℕ α n} {page : ℕ} (h : Table enc mem t page)
    (hsame : SameOn mem mem' t.pages) : Table enc mem' t page := by
  induction t generalizing page with
  | absent => exact h
  | leaf p e =>
    obtain ⟨rfl, hentry⟩ := h
    refine ⟨rfl, fun i => (hentry i).congr ?_⟩
    exact load_entry_congr i (hsame page List.mem_cons_self)
  | @node n p c ih =>
    obtain ⟨rfl, hchild⟩ := h
    refine ⟨rfl, fun i => ?_⟩
    rw [load_entry_congr i (hsame page (mem_pages_root page c))]
    rcases hchild i with habsent | ⟨hv, htable⟩
    · exact .inl habsent
    · exact .inr ⟨hv, ih i htable fun q hq => hsame q (mem_pages_child i hq)⟩

/-- The address of the entry of a key. -/
def entryAddr : {n : ℕ} → Radix 512 ℕ α n → (ℕ → Fin 512) → Option ℕ
  | _, .absent, _ => none
  | _, .leaf p _, d => some (p + 8 * d 0)
  | n + 1, .node _ c, d => entryAddr (c (d (n + 1))) d

theorem entryAddr_mem {t : Radix 512 ℕ α n} {d : ℕ → Fin 512} {a : ℕ}
    (h : entryAddr t d = some a) : ∃ p ∈ t.pages, a = p + 8 * d 0 := by
  induction t with
  | absent => cases h
  | leaf p e => exact ⟨p, List.mem_cons_self, (Option.some.inj h).symm⟩
  | @node n p c ih =>
    obtain ⟨q, hq, ha⟩ := ih _ h
    exact ⟨q, mem_pages_child _ hq, ha⟩

theorem entryAddr_eq_none_iff (t : Radix 512 ℕ α n) (d : ℕ → Fin 512) :
    entryAddr t d = none ↔ t.find d = none := by
  induction t with
  | absent => exact ⟨fun _ => rfl, fun _ => rfl⟩
  | leaf p e => exact ⟨(fun h => nomatch h), fun h => nomatch h⟩
  | @node n p c ih => exact ih _

theorem Table.entryIs {t : Radix 512 ℕ α n} {page a : ℕ} {d : ℕ → Fin 512}
    (h : Table enc mem t page) (ha : entryAddr t d = some a) :
    ∃ o, t.find d = some o ∧ EntryIs enc mem a o := by
  induction t generalizing page with
  | absent => cases ha
  | leaf p e =>
    cases ha
    exact ⟨e (d 0), rfl, h.2 (d 0)⟩
  | @node n p c ih =>
    rcases h.2 (d (n + 1)) with ⟨habsent, -⟩ | ⟨-, htable⟩
    · change entryAddr (c (d (n + 1))) d = some a at ha
      rw [habsent.eq] at ha
      cases ha
    · exact ih _ htable ha

/-! ### `walk` without allocation -/

/-- **`walk` finds what the tree has.** -/
theorem walkLoop_find {s : Heap} {t : Radix 512 ℕ α n} {page : ℕ} (va : ℕ)
    (h : Table enc s.mem t page) :
    Heap.walkLoop false va n s page = (s, (entryAddr t (px va)).getD 0) := by
  induction t generalizing page with
  | absent => exact h.elim
  | leaf p e =>
    obtain ⟨rfl, -⟩ := h
    rfl
  | @node n p c ih =>
    obtain ⟨rfl, hchild⟩ := h
    unfold Heap.walkLoop
    simp only [and_pteV]
    show _ = (s, (entryAddr (c (px va (n + 1))) (px va)).getD 0)
    rcases hchild (px va (n + 1)) with ⟨habsent, hzero⟩ | ⟨hv, htable⟩
    · rw [if_neg (by omega), if_pos trivial, habsent.eq]
      rfl
    · rw [if_pos (by omega)]
      exact ih _ htable

/-! ### Stores to entries -/

/-- A store to an entry keeps every page but the entry's. -/
theorem store_entry_of_ne {p q x v : ℕ} (i : Fin 512) (hp : p % pgSize = 0) (hq : q % pgSize = 0)
    (hne : q ≠ p) (h₁ : q ≤ x) (h₂ : x < q + pgSize) :
    mem.store (p + 8 * i) 8 v x = mem x := by
  rcases page_disjoint hq hp hne h₁ h₂ with hx | hx
  · exact Bytes.store_of_lt (by omega)
  · apply Bytes.store_of_le
    have := i.isLt
    unfold pgSize at hx
    omega

/-- A store to one entry of a page leaves the others. -/
theorem load_store_entry_of_ne {p v : ℕ} {i j : Fin 512} (hne : j ≠ i) :
    (mem.store (p + 8 * i) 8 v).load (p + 8 * j) 8 = mem.load (p + 8 * j) 8 := by
  have hval : j.val ≠ i.val := fun h => hne (Fin.ext h)
  apply Bytes.load_congr
  intro x h₁ h₂
  rcases Nat.lt_or_gt_of_ne hval with hlt | hlt
  · exact Bytes.store_of_lt (by omega)
  · exact Bytes.store_of_le (by omega)

theorem nodup_child {p : ℕ} {c : Fin 512 → Radix 512 ℕ α n} (h : (Radix.node p c).pages.Nodup)
    (i : Fin 512) : (c i).pages.Nodup ∧ p ∉ (c i).pages := by
  obtain ⟨hflat, -, hdisj⟩ := List.nodup_append'.mp h
  have hi := (List.nodup_flatMap.mp hflat).1 i (List.mem_finRange i)
  refine ⟨hi, fun hp => ?_⟩
  exact hdisj (List.mem_flatMap.mpr ⟨i, List.mem_finRange i, hp⟩) List.mem_cons_self

theorem nodup_children {p q : ℕ} {c : Fin 512 → Radix 512 ℕ α n}
    (h : (Radix.node p c).pages.Nodup) {i j : Fin 512} (hij : i ≠ j) (hi : q ∈ (c i).pages) :
    q ∉ (c j).pages := by
  obtain ⟨hflat, -, -⟩ := List.nodup_append'.mp h
  have hpair := (List.nodup_flatMap.mp hflat).2
  intro hj
  have : Std.Symm fun a b => List.Disjoint (c a).pages (c b).pages := ⟨fun _ _ hab => hab.symm⟩
  exact hpair.forall (List.mem_finRange i) (List.mem_finRange j) hij hi hj

/-- A store to an entry is not seen on other pages. -/
theorem sameOn_store {q v : ℕ} {ps : List ℕ} (i : Fin 512) (hq : q % pgSize = 0)
    (hps : ∀ p ∈ ps, p % pgSize = 0) (hnot : q ∉ ps) :
    SameOn mem (mem.store (q + 8 * i) 8 v) ps := by
  intro p hp x h₁ h₂
  have hne : p ≠ q := fun h => hnot (h ▸ hp)
  exact store_entry_of_ne i hq (hps p hp) hne h₁ h₂

/-- **A store to the entry of a key is `set`.** -/
theorem Table.set {t : Radix 512 ℕ α n} {page a v : ℕ} {d : ℕ → Fin 512} {o : Option α}
    (h : Table enc mem t page) (hnodup : t.pages.Nodup) (halign : ∀ p ∈ t.pages, p % pgSize = 0)
    (ha : entryAddr t d = some a) (hv : EntryIs enc (mem.store a 8 v) a o) :
    Table enc (mem.store a 8 v) (t.set d o) page := by
  induction t generalizing page with
  | absent => cases ha
  | leaf p e =>
    obtain ⟨rfl, hentry⟩ := h
    cases ha
    refine ⟨rfl, fun i => ?_⟩
    by_cases hi : i = d 0
    · rw [hi, update_self]
      exact hv
    · rw [update_of_ne hi]
      exact (hentry i).congr (load_store_entry_of_ne hi)
  | @node n p c ih =>
    obtain ⟨rfl, hchild⟩ := h
    obtain ⟨q, hq, rfl⟩ := entryAddr_mem (show entryAddr (c (d (n + 1))) d = some a from ha)
    have hqmod : q % pgSize = 0 := halign q (mem_pages_child _ hq)
    -- the entries of this table stay
    have hroot : ∀ i : Fin 512, (mem.store (q + 8 * d 0) 8 v).load (page + 8 * i) 8
        = mem.load (page + 8 * i) 8 := by
      intro i
      apply load_entry_congr i
      have hnot : q ∉ [page] := by
        rw [List.mem_singleton]
        rintro rfl
        exact (nodup_child hnodup _).2 hq
      exact sameOn_store (d 0) hqmod (by simpa using halign page (mem_pages_root page c)) hnot
        page List.mem_cons_self
    refine ⟨rfl, fun i => ?_⟩
    rw [hroot i]
    by_cases hi : i = d (n + 1)
    · subst hi
      rw [update_self]
      rcases hchild (d (n + 1)) with ⟨habsent, -⟩ | ⟨hv', htable⟩
      · rw [habsent.eq] at hq
        exact absurd hq List.not_mem_nil
      · exact .inr ⟨hv', ih _ htable (nodup_child hnodup _).1
          (fun p' hp' => halign p' (mem_pages_child _ hp')) ha⟩
    · rw [update_of_ne hi]
      rcases hchild i with habsent | ⟨hv', htable⟩
      · exact .inl habsent
      · refine .inr ⟨hv', htable.congr ?_⟩
        exact sameOn_store (d 0) hqmod (fun p' hp' => halign p' (mem_pages_child _ hp'))
          (nodup_children hnodup (Ne.symm hi) hq)

/-! ### `walk` with allocation -/

/-- A table without entries. -/
def emptyTable : (n : ℕ) → ℕ → Radix 512 ℕ α n
  | 0, q => .leaf q fun _ => none
  | _ + 1, q => .node q fun _ => .absent

theorem pages_emptyTable (n q : ℕ) : (emptyTable n q : Radix 512 ℕ α n).pages = [q] := by
  cases n with
  | zero => rfl
  | succ n =>
    show (List.finRange 512).flatMap (fun _ => []) ++ [q] = [q]
    rw [List.flatMap_eq_nil_iff.mpr fun _ _ => rfl]
    rfl

/-- Growing an empty table on a new page is growing what is not there. -/
theorem grow_emptyTable (n q : ℕ) (free : List ℕ) (d : ℕ → Fin 512) :
    (emptyTable n q : Radix 512 ℕ α n).grow free d = Radix.spine n (q :: free) d := by
  cases n with
  | zero => rfl
  | succ n => rfl

theorem Table.empty {q : ℕ} (n : ℕ) (h : ∀ x, q ≤ x → x < q + pgSize → mem x = 0) :
    Table enc mem (emptyTable n q) q := by
  have hzero : ∀ i : Fin 512, mem.load (q + 8 * i) 8 = 0 := by
    intro i
    apply Bytes.load_of_zero
    intro x h₁ h₂
    exact h x (by omega) (entry_lt q i h₂)
  cases n with
  | zero =>
    refine ⟨rfl, fun i => ?_⟩
    show mem.load (q + 8 * i) 8 % 2 = 0
    rw [hzero i]
  | succ n =>
    refine ⟨rfl, fun i => .inl ⟨trivial, ?_⟩⟩
    rw [hzero i]

/-- What `walk` with allocation does to a tree, to the free list and to the
rest of the memory. -/
structure Walked (enc : α → ℕ) (kend : ℕ) (s : Heap) (t : Radix 512 ℕ α n) (page : ℕ)
    (free : List ℕ) (d : ℕ → Fin 512) (r : Heap × ℕ) : Prop where
  rep : r.1.Rep ⟨kend, (t.grow free d).1⟩
  table : Table enc r.1.mem (t.grow free d).2.1 page
  pte : r.2 = (entryAddr (t.grow free d).2.1 d).getD 0
  frame : ∀ ps, (∀ p ∈ ps, p % pgSize = 0) → List.Disjoint t.pages ps → List.Disjoint free ps →
    SameOn s.mem r.1.mem ps

theorem SameOn.trans {mem'' : Bytes} {ps : List ℕ} (h : SameOn mem mem' ps)
    (h' : SameOn mem' mem'' ps) : SameOn mem mem'' ps :=
  fun p hp x h₁ h₂ => (h' p hp x h₁ h₂).trans (h p hp x h₁ h₂)

theorem sameOn_fill {q : ℕ} {ps : List ℕ} (b : UInt8) (hq : q % pgSize = 0)
    (hps : ∀ p ∈ ps, p % pgSize = 0) (hnot : q ∉ ps) : SameOn mem (mem.fill q pgSize b) ps := by
  intro p hp x h₁ h₂
  have hne : p ≠ q := fun h => hnot (h ▸ hp)
  rcases page_disjoint (hps p hp) hq hne h₁ h₂ with hx | hx
  · exact Bytes.fill_of_lt b hx
  · exact Bytes.fill_of_le b hx

variable {kend : ℕ} {free : List ℕ}

/-- The table of a node whose `i`th child was exchanged. -/
theorem Table.update {p : ℕ} {c : Fin 512 → Radix 512 ℕ α n} {i : Fin 512} {t : Radix 512 ℕ α n}
    (hchild : Table enc mem (.node p c) p)
    (hsame : ∀ j ≠ i, mem'.load (p + 8 * j) 8 = mem.load (p + 8 * j) 8 ∧
      SameOn mem mem' (c j).pages)
    (hself : mem'.load (p + 8 * i) 8 % 2 = 1 ∧
      Table enc mem' t (pte2pa (mem'.load (p + 8 * i) 8))) :
    Table enc mem' (.node p (Function.update c i t)) p := by
  refine ⟨rfl, fun j => ?_⟩
  by_cases hj : j = i
  · rw [hj, Function.update_self]
    exact .inr hself
  · obtain ⟨hload, hpages⟩ := hsame j hj
    rw [Function.update_of_ne hj, hload]
    exact (hchild.2 j).imp_right fun hin => ⟨hin.1, hin.2.congr hpages⟩

/-- A new table lies on page `q` and the entry `i` of a page points to it. -/
structure NewTable (kend : ℕ) (s : Heap) (page : ℕ) (i : Fin 512) (q : ℕ) (free : List ℕ)
    (s' : Heap) : Prop where
  rep : s'.Rep ⟨kend, free⟩
  zero : ∀ x, q ≤ x → x < q + pgSize → s'.mem x = 0
  self : s'.mem.load (page + 8 * i) 8 = pa2pte q ||| pteV
  others : ∀ j ≠ i, s'.mem.load (page + 8 * j) 8 = s.mem.load (page + 8 * j) 8
  keep : ∀ ps, (∀ p ∈ ps, p % pgSize = 0) → q ∉ ps → page ∉ ps → SameOn s.mem s'.mem ps

/-- `kalloc`, `memset` and the store to the entry, as `walk` has them. -/
theorem Heap.Rep.newTable {s : Heap} {page q : ℕ} (hrep : s.Rep ⟨kend, q :: free⟩)
    (hpmod : page % pgSize = 0) (hpage : page ∉ q :: free) (i : Fin 512) :
    ∃ s₁, s.kalloc = (q, s₁) ∧ NewTable kend s page i q free
      ⟨(s₁.mem.fill q pgSize 0).store (page + 8 * i) 8 (pa2pte q ||| pteV), s₁.freelist⟩ := by
  obtain ⟨s₁, hk, hrep₁, hmem₁⟩ : ∃ s₁, s.kalloc = (q, s₁) ∧ s₁.Rep ⟨kend, free⟩ ∧
      s₁.mem = s.mem.fill q pgSize 5 := hrep.kalloc
  have hq : ValidPage kend q := hrep.valid q List.mem_cons_self
  have hqpage : q ≠ page := fun heq => hpage (heq ▸ List.mem_cons_self)
  have hqfree : q ∉ free := (List.nodup_cons.mp hrep.nodup).1
  have hpfree : page ∉ free := fun hin => hpage (List.mem_cons_of_mem q hin)
  have hfmod : ∀ p ∈ free, p % pgSize = 0 := fun p hp => (hrep₁.valid p hp).1
  have hkeep₁ : ∀ ps, (∀ p ∈ ps, p % pgSize = 0) → q ∉ ps →
      SameOn s.mem (s₁.mem.fill q pgSize 0) ps := by
    intro ps hps hnq
    rw [hmem₁]
    exact (sameOn_fill 5 hq.1 hps hnq).trans (sameOn_fill 0 hq.1 hps hnq)
  refine ⟨s₁, hk, ?_, ?_, ?_, ?_, ?_⟩
  · exact hrep₁.congr rfl
      ((sameOn_fill 0 hq.1 hfmod hqfree).trans (sameOn_store i hpmod hfmod hpfree))
  · intro x h₁ h₂
    show (s₁.mem.fill q pgSize 0).store (page + 8 * i) 8 _ x = 0
    rw [store_entry_of_ne i hpmod hq.1 hqpage h₁ h₂, Bytes.fill_of_mem 0 h₁ h₂]
  · exact Bytes.load_store _ _ (pa2pte_or_lt hq.lt (by decide))
  · intro j hj
    show Bytes.load (Bytes.store _ _ _ _) _ _ = _
    rw [load_store_entry_of_ne hj]
    apply load_entry_congr j
    exact hkeep₁ [page] (by simpa using hpmod) (by simpa using hqpage) page List.mem_cons_self
  · intro ps hps hnq hnp
    exact (hkeep₁ ps hps hnq).trans (sameOn_store i hpmod hps hnp)

/-- **`walk` grows the tree.** -/
theorem walkLoop_grow (hend : kernBase ≤ kend) (va : ℕ) {s : Heap} {t : Radix 512 ℕ α n}
    {page : ℕ} (h : Table enc s.mem t page) (hrep : s.Rep ⟨kend, free⟩)
    (hnodup : (t.pages ++ free).Nodup) (halign : ∀ p ∈ t.pages, p % pgSize = 0) :
    Walked enc kend s t page free (px va) (Heap.walkLoop true va n s page) := by
  induction n generalizing s page free with
  | zero =>
    cases t with
    | absent => exact h.elim
    | leaf p e =>
      obtain ⟨rfl, -⟩ := id h
      exact ⟨hrep, h, rfl, fun _ _ _ _ _ _ _ _ _ => rfl⟩
  | succ n ih =>
    cases t with
    | absent => exact h.elim
    | node p c =>
      obtain ⟨rfl, hchild⟩ := id h
      obtain ⟨hpages, hfree, hdisj⟩ := List.nodup_append'.mp hnodup
      have hroot : page ∉ free := hdisj (mem_pages_root page c)
      have hpmod : page % pgSize = 0 := halign page (mem_pages_root page c)
      have hcmod : ∀ j, ∀ q ∈ (c j).pages, q % pgSize = 0 :=
        fun j q hq => halign q (mem_pages_child j hq)
      have hcdisj : ∀ j, List.Disjoint (c j).pages free :=
        fun j q hq => hdisj (mem_pages_child j hq)
      have haddr : ∀ t : Radix 512 ℕ α n, entryAddr (.node page (update c (px va (n + 1)) t))
          (px va) = entryAddr t (px va) := by
        intro t
        show entryAddr (update c (px va (n + 1)) t (px va (n + 1))) (px va) = _
        rw [update_self]
      unfold Heap.walkLoop
      simp only [and_pteV]
      rcases hchild (px va (n + 1)) with ⟨habsent, hzero⟩ | ⟨hv, htable⟩
      · have hgrow : ∀ {free : List ℕ} {r : List ℕ × Radix 512 ℕ α n × Bool},
            Radix.spine n free (px va) = r → (Radix.node page c).grow free (px va)
              = (r.1, .node page (update c (px va (n + 1)) r.2.1), r.2.2) := by
          rintro free r rfl
          show (((c (px va (n + 1))).grow free (px va)).1, Radix.node page (update c _
            ((c (px va (n + 1))).grow free (px va)).2.1),
            ((c (px va (n + 1))).grow free (px va)).2.2) = _
          rw [habsent.eq]
          rfl
        rw [if_neg (by omega), if_neg (fun hno => nomatch hno)]
        rcases free with - | ⟨q, free⟩
        · -- there is no page for the table
          have hk : s.kalloc = (0, s) := hrep.kalloc
          have hspine : (Radix.spine n [] (px va) : List ℕ × Radix 512 ℕ α n × Bool)
              = ([], .absent, false) := by
            cases n <;> rfl
          have hsame : update c (px va (n + 1)) .absent = c := by
            rw [update_eq_self_iff]
            exact habsent.eq.symm
          rw [hk, if_pos rfl]
          refine ⟨?_, ?_, ?_, fun _ _ _ _ _ _ _ _ _ => rfl⟩
          · rw [hgrow hspine]
            exact hrep
          · rw [hgrow hspine]
            simp only [hsame]
            exact h
          · rw [hgrow hspine, haddr]
            rfl
        · -- the table is made, and the walk goes on in it
          obtain ⟨s₁, hk, hnew⟩ := hrep.newTable hpmod hroot (px va (n + 1))
          have hq : ValidPage kend q := hrep.valid q List.mem_cons_self
          have hqroot : q ≠ page := fun heq => hroot (heq ▸ List.mem_cons_self)
          have hqc : ∀ j, q ∉ (c j).pages := fun j hin => hcdisj j hin List.mem_cons_self
          have hpfree : page ∉ free := fun hin => hroot (List.mem_cons_of_mem q hin)
          simp only [hk]
          rw [if_neg (hq.ne_zero hend)]
          generalize (⟨(s₁.mem.fill q pgSize 0).store (page + 8 * px va (n + 1)) 8
            (pa2pte q ||| pteV), s₁.freelist⟩ : Heap) = s₂ at hnew ⊢
          have hw := ih (Table.empty n hnew.zero) hnew.rep (by rw [pages_emptyTable]; exact hfree)
            (by rw [pages_emptyTable]; simpa using hq.1)
          have hframe : ∀ ps, (∀ p ∈ ps, p % pgSize = 0) → q ∉ ps → List.Disjoint free ps →
              SameOn s₂.mem (Heap.walkLoop true va n s₂ q).1.mem ps := by
            intro ps hps hnq hnf
            refine hw.frame ps hps ?_ hnf
            rw [pages_emptyTable]
            simpa using hnq
          have hload : ∀ j : Fin 512, (Heap.walkLoop true va n s₂ q).1.mem.load (page + 8 * j) 8
              = s₂.mem.load (page + 8 * j) 8 := by
            intro j
            apply load_entry_congr j
            exact hframe [page] (by simpa using hpmod) (by simpa using hqroot)
              (by simpa using hpfree) page List.mem_cons_self
          have hg := hgrow (grow_emptyTable n q free (px va)).symm
          refine ⟨?_, ?_, ?_, ?_⟩
          · rw [hg]
            exact hw.rep
          · rw [hg]
            refine Table.update h ?_ ?_
            · intro j hj
              refine ⟨by rw [hload j, hnew.others j hj], ?_⟩
              exact (hnew.keep _ (hcmod j) (hqc j) (nodup_child hpages j).2).trans
                (hframe _ (hcmod j) (hqc j) fun p hp hin => hcdisj j hin (List.mem_cons_of_mem q hp))
            · rw [hload, hnew.self, pte2pa_eq hq.1 hq.lt (by decide)]
              refine ⟨?_, hw.table⟩
              rw [pa2pte_or (by decide)]
              unfold pteV
              omega
          · rw [hg, haddr]
            exact hw.pte
          · intro ps hps hd hf
            have hnq : q ∉ ps := hf List.mem_cons_self
            exact (hnew.keep ps hps hnq (hd (mem_pages_root page c))).trans
              (hframe ps hps hnq fun p hp => hf (List.mem_cons_of_mem q hp))
      · -- the table is there
        have hw := ih htable hrep
          (List.nodup_append'.mpr ⟨(nodup_child hpages _).1, hfree, hcdisj _⟩) (hcmod _)
        rw [if_pos (by omega)]
        have hload : ∀ j : Fin 512, (Heap.walkLoop true va n s
            (pte2pa (s.mem.load (page + 8 * px va (n + 1)) 8))).1.mem.load (page + 8 * j) 8
            = s.mem.load (page + 8 * j) 8 := by
          intro j
          apply load_entry_congr j
          refine hw.frame [page] (by simpa using hpmod) ?_ ?_ page List.mem_cons_self
          · simpa using (nodup_child hpages _).2
          · simpa using hroot
        refine ⟨hw.rep, Table.update h ?_ ?_, ?_, ?_⟩
        · intro j hj
          refine ⟨hload j, hw.frame _ (hcmod j) ?_ (hcdisj j).symm⟩
          exact fun q hq => nodup_children hpages (Ne.symm hj) hq
        · rw [hload]
          exact ⟨hv, hw.table⟩
        · rw [hw.pte]
          exact congrArg (fun o => o.getD 0) (haddr _).symm
        · intro ps hps hd hf
          exact hw.frame ps hps (fun q hq => hd (mem_pages_child _ hq)) hf

end Xv6Zig
