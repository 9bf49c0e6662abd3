/-
Xv6Zig/Uvm.lean

What the user-memory functions of `kernel/vm.c` do to an address space.

`uvmalloc`, `uvmdealloc`, `uvmcopy`, `uvmfree` and `freewalk` are described
by the map of leaf entries and by where pages go.  A page handed to the user
leaves the free list, a page taken back returns to it, and page-table pages
move only with `mappages` and `freewalk`; so in every case, whether the call
succeeds or fails half-way, no page is lost and none appears twice.

`Allocated` and `Reverted` are the two ways a loop that allocates and maps
page by page can end: `uvmalloc` and `uvmcopy` share them.
-/
import Xv6Zig.Vm

namespace Xv6Zig

open Lib Function

variable {m m' m₁ : Kmem} {pt pt' pt₁ : PageTable} {a v n : ℕ}

/-! ### Sizes in pages -/

theorem npages_zero : npages 0 = 0 := by decide

theorem npages_mono {x y : ℕ} (h : x ≤ y) : npages x ≤ npages y := by
  unfold npages
  exact Nat.div_le_div_right (by omega)

theorem npages_mul (k : ℕ) : npages (k * pgSize) = k := by
  simp only [npages, pgSize]
  omega

theorem npages_pgRoundUp (x : ℕ) : npages (pgRoundUp x) = npages x :=
  npages_mul _

theorem pgRoundUp_div (x : ℕ) : pgRoundUp x / pgSize = npages x :=
  Nat.mul_div_cancel _ pgSize_pos

theorem pgRoundUp_mod (x : ℕ) : pgRoundUp x % pgSize = 0 :=
  Nat.mul_mod_left _ _

theorem npages_eq_zero_iff {x : ℕ} : npages x = 0 ↔ x = 0 := by
  simp only [npages, pgSize]
  omega

/-- Growing from the rounded size covers the new size. -/
theorem npages_sub {old new : ℕ} (h : old ≤ new) :
    npages old + npages (new - pgRoundUp old) = npages new := by
  simp only [npages, pgRoundUp, pgSize]
  omega

/-! ### Freeing a page table -/

theorem foldlM_freewalk {k : ℕ} {c : Fin 512 → Radix 512 ℕ Pte k}
    (ih : ∀ i {m : Kmem}, (∀ d, (c i).get d = none) → (∀ p ∈ (c i).pages, ValidPage m.kend p) →
      freewalk (c i) m = .ok { m with free := (c i).pages.reverse ++ m.free })
    (hleaf : ∀ i d, (c i).get d = none) (l : List (Fin 512)) (m : Kmem)
    (hvalid : ∀ i ∈ l, ∀ p ∈ (c i).pages, ValidPage m.kend p) :
    l.foldlM (fun m i => freewalk (c i) m) m
      = .ok { m with free := (l.flatMap fun i => (c i).pages).reverse ++ m.free } := by
  induction l generalizing m with
  | nil => rfl
  | cons i l ihl =>
    have hi := ih i (m := m) (hleaf i) (hvalid i List.mem_cons_self)
    rw [List.foldlM_cons, hi, ok_bind, ihl]
    · simp
    · exact fun j hj => hvalid j (List.mem_cons_of_mem i hj)

/-- A child's values are values of the table. -/
theorem get_child_eq_none {k : ℕ} {p : ℕ} {c : Fin 512 → Radix 512 ℕ Pte k}
    (h : ∀ d, (Radix.node p c).get d = none) (i : Fin 512) (d : ℕ → Fin 512) :
    (c i).get d = none := by
  have hd := h (update d (k + 1) i)
  have hi : update d (k + 1) i (k + 1) = i := update_self _ _ _
  change (c (update d (k + 1) i (k + 1))).get _ = none at hd
  rw [hi] at hd
  rw [← hd]
  apply Radix.get_congr
  intro j hj
  rw [update_of_ne (by omega)]

/-- **A page table without leaf entries is freed, every page of it once.** -/
theorem freewalk_ok {k : ℕ} (t : Radix 512 ℕ Pte k) {m : Kmem} (hleaf : ∀ d, t.get d = none)
    (hvalid : ∀ p ∈ t.pages, ValidPage m.kend p) :
    freewalk t m = .ok { m with free := t.pages.reverse ++ m.free } := by
  induction t generalizing m with
  | absent => rfl
  | leaf p e =>
    have hany : ((List.finRange 512).any fun i => (e i).isSome) = false := by
      rw [List.any_eq_false]
      intro i _
      have hi : e i = none := hleaf fun _ => i
      simp [hi]
    show (if _ then _ else _) = _
    rw [hany, if_neg Bool.false_ne_true, Kmem.kfree_ok m (hvalid p List.mem_cons_self)]
    rfl
  | @node k p c ih =>
    have hchild : ∀ i, ∀ q ∈ (c i).pages, q ∈ (Radix.node p c).pages := by
      intro i q hq
      apply List.mem_append_left
      rw [List.mem_flatMap]
      exact ⟨i, List.mem_finRange i, hq⟩
    have hp : p ∈ (Radix.node p c).pages := List.mem_append_right _ List.mem_cons_self
    show ((List.finRange 512).foldlM (fun m i => freewalk (c i) m) m >>= fun m => m.kfree p) = _
    rw [foldlM_freewalk ih (get_child_eq_none hleaf) _ m
      (fun i _ q hq => hvalid q (hchild i q hq)), ok_bind]
    rw [Kmem.kfree_ok ⟨m.kend, ((List.finRange 512).flatMap fun i => (c i).pages).reverse ++ m.free⟩
      (hvalid p hp), Radix.pages_node, List.reverse_append, List.reverse_singleton,
      List.singleton_append, List.cons_append]

theorem of_foldlM_freewalk {k : ℕ} {c : Fin 512 → Radix 512 ℕ Pte k}
    (ih : ∀ i {m m' : Kmem}, freewalk (c i) m = .ok m' →
      (∀ d, (c i).get d = none) ∧ m' = { m with free := (c i).pages.reverse ++ m.free })
    {l : List (Fin 512)} {m m' : Kmem}
    (h : l.foldlM (fun m i => freewalk (c i) m) m = .ok m') :
    (∀ i ∈ l, ∀ d, (c i).get d = none) ∧
      m' = { m with free := (l.flatMap fun i => (c i).pages).reverse ++ m.free } := by
  induction l generalizing m with
  | nil =>
    obtain rfl : m = m' := Except.ok.inj h
    exact ⟨fun i hi => absurd hi List.not_mem_nil, rfl⟩
  | cons i l ihl =>
    rw [List.foldlM_cons] at h
    obtain ⟨m₁, hm₁, hrest⟩ := bind_eq_ok.mp h
    obtain ⟨hi, rfl⟩ := ih i hm₁
    obtain ⟨hl, rfl⟩ := ihl hrest
    refine ⟨?_, by simp⟩
    intro j hj
    rcases List.mem_cons.mp hj with rfl | hj
    · exact hi
    · exact hl j hj

/-- `freewalk` returns only from a page table without leaf entries. -/
theorem of_freewalk {k : ℕ} {t : Radix 512 ℕ Pte k} {m m' : Kmem} (h : freewalk t m = .ok m') :
    (∀ d, t.get d = none) ∧ m' = { m with free := t.pages.reverse ++ m.free } := by
  induction t generalizing m m' with
  | absent =>
    obtain rfl : m = m' := Except.ok.inj h
    exact ⟨fun _ => rfl, rfl⟩
  | leaf p e =>
    change (if _ then _ else _) = _ at h
    split_ifs at h with hany
    obtain ⟨-, rfl⟩ := Kmem.of_kfree_ok h
    refine ⟨?_, rfl⟩
    intro d
    have hnone := List.any_eq_false.mp (Bool.not_eq_true _ ▸ hany) (d 0) (List.mem_finRange _)
    exact Option.not_isSome_iff_eq_none.mp hnone
  | @node k p c ih =>
    obtain ⟨m₁, hm₁, hp⟩ := bind_eq_ok.mp h
    obtain ⟨hl, rfl⟩ := of_foldlM_freewalk ih hm₁
    obtain ⟨-, rfl⟩ := Kmem.of_kfree_ok hp
    refine ⟨fun d => hl _ (List.mem_finRange _) d, ?_⟩
    rw [Radix.pages_node, List.reverse_append, List.append_assoc]
    rfl

theorem kfree_ends (m : Kmem) (pa : ℕ) : Ends (m.kfree pa) Panic.Teardown fun _ => True := by
  unfold Kmem.kfree
  rcases m.freePage pa with x | m'
  · show Panic.Teardown .kfree
    decide
  · trivial

theorem freewalk_ends {k : ℕ} (t : Radix 512 ℕ Pte k) (m : Kmem) :
    Ends (freewalk t m) Panic.Teardown fun _ => True := by
  induction t generalizing m with
  | absent => trivial
  | leaf p e =>
    unfold freewalk
    generalize ((List.finRange 512).any fun i => (e i).isSome) = found
    cases found with
    | true =>
      show Panic.Teardown .freewalkLeaf
      decide
    | false => exact kfree_ends m p
  | node p c ih =>
    unfold freewalk
    generalize List.finRange 512 = l
    exact Ends.bind (Ends.foldlM trivial fun _ _ => ih _ _) fun m' _ => kfree_ends m' p

/-! ### `uvmdealloc` -/

/-- `uvmdealloc` unmaps and frees the pages between the two sizes. -/
theorem of_uvmdealloc {oldsz newsz r : ℕ} (h : uvmdealloc m pt oldsz newsz = .ok (m', pt', r)) :
    r = min oldsz newsz ∧ Unmapped m pt (npages r) (npages oldsz - npages r) true m' pt' := by
  unfold uvmdealloc at h
  by_cases hle : oldsz ≤ newsz
  · rw [if_pos hle] at h
    cases h
    rw [Nat.sub_self]
    exact ⟨(min_eq_left hle).symm, Unmapped.zero _ _ _ _⟩
  · rw [if_neg hle] at h
    obtain ⟨⟨m₁, pt₁⟩, hun, hret⟩ := bind_eq_ok.mp h
    cases hret
    refine ⟨(min_eq_right (by omega)).symm, ?_⟩
    split_ifs at hun with hlt
    · have hu := of_uvmunmap hun
      have hn : (pgRoundUp oldsz - pgRoundUp newsz) / pgSize = npages oldsz - npages newsz := by
        unfold pgRoundUp
        rw [← Nat.sub_mul, Nat.mul_div_cancel _ pgSize_pos]
      rwa [pgRoundUp_div, hn] at hu
    · cases hun
      have hn : npages oldsz - npages newsz = 0 := by
        have := Nat.le_of_mul_le_mul_right (not_lt.mp hlt) pgSize_pos
        omega
      rw [hn]
      exact Unmapped.zero _ _ _ _

/-- The pages `[v₀, v)` are mapped and could be freed. -/
def Returnable (m : Kmem) (pt : PageTable) (v₀ v : ℕ) : Prop :=
  ∀ w, v₀ ≤ w → w < v → ∃ pte, leafAt pt w = some pte ∧ ValidPage m.kend pte.pa

theorem Returnable.uvmunmap {v₀ : ℕ} (h : Returnable m pt v₀ v) (hle : v₀ ≤ v) (hlt : v ≤ vpnMax) :
    ∃ r, uvmunmap m pt (v₀ * pgSize) (v - v₀) true = .ok r := by
  have hdiv : v₀ * pgSize / pgSize = v₀ := Nat.mul_div_cancel _ pgSize_pos
  obtain ⟨m₁, pt₁, hr, -⟩ : ∃ m₁ pt₁, Xv6Zig.uvmunmap m pt (v₀ * pgSize) (v - v₀) true
      = .ok (m₁, pt₁) ∧ _ := by
    apply uvmunmap_returns (Nat.mul_mod_left _ _)
    · rw [hdiv]
      omega
    · intro w h₁ h₂
      rw [hdiv] at h₁ h₂
      obtain ⟨pte, hpte, -⟩ := h w h₁ (by omega)
      simp [hpte]
    · intro _ q hq
      rw [hdiv] at hq
      obtain ⟨w, pte, h₁, h₂, hpte, rfl⟩ := mem_leafPages.mp hq
      obtain ⟨pte', hpte', hv⟩ := h w h₁ (by omega)
      rw [hpte] at hpte'
      exact Option.some.inj hpte' ▸ hv
  exact ⟨_, hr⟩

/-- It returns when the pages between the two sizes are mapped and can be
freed. -/
theorem uvmdealloc_returns {oldsz newsz : ℕ} (hlt : npages oldsz ≤ vpnMax)
    (hmapped : Returnable m pt (npages newsz) (npages oldsz)) :
    ∃ r, uvmdealloc m pt oldsz newsz = .ok r := by
  unfold uvmdealloc
  split_ifs with hle hlt'
  · exact ⟨_, rfl⟩
  · have hn : (pgRoundUp oldsz - pgRoundUp newsz) / pgSize = npages oldsz - npages newsz := by
      unfold pgRoundUp
      rw [← Nat.sub_mul, Nat.mul_div_cancel _ pgSize_pos]
    obtain ⟨r, hr⟩ := hmapped.uvmunmap (npages_mono (by omega)) hlt
    rw [hn, show pgRoundUp newsz = npages newsz * pgSize from rfl, hr]
    exact ⟨_, rfl⟩
  · exact ⟨_, rfl⟩

/-! ### Loops that allocate and map -/

/-- The pages `[v, v + n)` were allocated and mapped, with permissions `P`. -/
structure Allocated (P : ℕ → Perm → Prop) (m : Kmem) (pt : PageTable) (v n : ℕ) (m' : Kmem)
    (pt' : PageTable) : Prop where
  fresh : ∀ w, v ≤ w → w < v + n → leafAt pt w = none
  mapped : ∀ w, v ≤ w → w < v + n → ∃ pte, leafAt pt' w = some pte ∧ P w pte.perm
  rest : ∀ w, ¬ (v ≤ w ∧ w < v + n) → leafAt pt' w = leafAt pt w
  lt : n ≠ 0 → v + n ≤ vpnMax
  kend : m'.kend = m.kend
  pages : (m'.free : Multiset ℕ) + pt'.pages + leafPages pt' v n = m.free + pt.pages

/-- The pages `[v₀, v)` that had been allocated before were given back. -/
structure Reverted (m : Kmem) (pt : PageTable) (v₀ v : ℕ) (m' : Kmem) (pt' : PageTable) :
    Prop where
  leaf : ∀ w, leafAt pt' w = if v₀ ≤ w ∧ w < v then none else leafAt pt w
  kend : m'.kend = m.kend
  pages : (m'.free : Multiset ℕ) + pt'.pages = m.free + pt.pages + leafPages pt v₀ (v - v₀)

/-- One page was allocated and mapped at page `v`. -/
structure OnePage (m : Kmem) (pt : PageTable) (v : ℕ) (pte : Pte) (m' : Kmem) (pt' : PageTable) :
    Prop where
  lt : v < vpnMax
  fresh : leafAt pt v = none
  leaf : leafAt pt' = update (leafAt pt) v (some pte)
  kend : m'.kend = m.kend
  pages : (m'.free : Multiset ℕ) + pt'.pages + {pte.pa} = m.free + pt.pages

theorem OnePage.of_mapped {mem : ℕ} {perm : Perm} (halloc : m.allocPage = some (mem, m₁))
    (h : Mapped m₁ pt a ⟨mem, perm⟩ m' pt') : OnePage m pt (a / pgSize) ⟨mem, perm⟩ m' pt' := by
  obtain ⟨hfree, hkend⟩ := Kmem.of_allocPage halloc
  refine ⟨lt_maxVA_iff.mp h.lt, h.fresh, h.leaf, h.moved.kend.trans hkend, ?_⟩
  rw [h.moved.pages, hfree, ← Multiset.cons_coe, ← Multiset.singleton_add]
  ac_rfl

theorem Allocated.zero (P : ℕ → Perm → Prop) (m : Kmem) (pt : PageTable) (v : ℕ) :
    Allocated P m pt v 0 m pt := by
  refine ⟨?_, ?_, fun _ _ => rfl, fun h => absurd rfl h, rfl, add_zero _⟩
  · intro w h₁ h₂
    omega
  · intro w h₁ h₂
    omega

theorem Allocated.succ {P : ℕ → Perm → Prop} {pte : Pte} (h : Allocated P m₁ pt₁ (v + 1) n m' pt')
    (hone : OnePage m pt v pte m₁ pt₁) (hP : P v pte.perm) :
    Allocated P m pt v (n + 1) m' pt' := by
  have hsame : ∀ w, w ≠ v → leafAt pt₁ w = leafAt pt w := by
    intro w hw
    rw [hone.leaf, update_of_ne hw]
  have hhead : leafAt pt' v = some pte := by
    rw [h.rest v (by omega), hone.leaf, update_self]
  refine ⟨?_, ?_, ?_, ?_, h.kend.trans hone.kend, ?_⟩
  · intro w h₁ h₂
    rcases Nat.eq_or_lt_of_le h₁ with rfl | h₁
    · exact hone.fresh
    · rw [← hsame w (by omega)]
      exact h.fresh w h₁ (by omega)
  · intro w h₁ h₂
    rcases Nat.eq_or_lt_of_le h₁ with rfl | h₁
    · exact ⟨pte, hhead, hP⟩
    · exact h.mapped w h₁ (by omega)
  · intro w hw
    rw [h.rest w (by omega), hsame w (by omega)]
  · intro _
    by_cases hn : n = 0
    · have := hone.lt
      omega
    · have := h.lt hn
      omega
  · rw [leafPages_succ hhead, ← Multiset.cons_coe, ← Multiset.singleton_add, ← hone.pages,
      ← h.pages]
    ac_rfl

/-- With no page left, what was allocated before is unmapped. -/
theorem Reverted.of_unmapped {v₀ : ℕ} (hle : v₀ ≤ v) (h : Unmapped m pt v₀ (v - v₀) true m' pt') :
    Reverted m pt v₀ v m' pt' := by
  refine ⟨?_, h.kend, ?_⟩
  · intro w
    rw [h.leaf w]
    have hiff : (v₀ ≤ w ∧ w < v₀ + (v - v₀)) ↔ (v₀ ≤ w ∧ w < v) := by omega
    simp only [hiff]
  · rw [h.free, if_pos rfl, h.pages, ← Multiset.coe_add, Multiset.coe_reverse]
    ac_rfl

/-- With no page-table page left, the page is freed first. -/
theorem Reverted.of_mapFailed {v₀ mem : ℕ} {m₂ : Kmem} {pt₂ : PageTable} (hle : v₀ ≤ v)
    (halloc : m.allocPage = some (mem, m₁)) (hfail : MapFailed m₁ pt a m₂ pt₂)
    (h : Unmapped { m₂ with free := mem :: m₂.free } pt₂ v₀ (v - v₀) true m' pt') :
    Reverted m pt v₀ v m' pt' := by
  obtain ⟨hfree, hkend⟩ := Kmem.of_allocPage halloc
  have hrev := Reverted.of_unmapped hle h
  have hsame : leafPages pt₂ v₀ (v - v₀) = leafPages pt v₀ (v - v₀) :=
    leafPages_congr fun w _ _ => by rw [hfail.leaf]
  refine ⟨?_, ?_, ?_⟩
  · intro w
    rw [hrev.leaf w, hfail.leaf]
  · exact hrev.kend.trans (hfail.moved.kend.trans hkend)
  · have hmoved := hfail.moved.pages
    rw [hrev.pages, hsame, hfree, ← Multiset.cons_coe, ← Multiset.cons_coe,
      ← Multiset.singleton_add, ← Multiset.singleton_add]
    calc _ = ({mem} : Multiset ℕ) + (m₂.free + pt₂.pages) + leafPages pt v₀ (v - v₀) := by ac_rfl
      _ = ({mem} : Multiset ℕ) + (m₁.free + pt.pages) + leafPages pt v₀ (v - v₀) := by rw [hmoved]
      _ = _ := by ac_rfl

theorem Reverted.pred {v₀ : ℕ} {pte : Pte} (hle : v₀ ≤ v) (h : Reverted m₁ pt₁ v₀ (v + 1) m' pt')
    (hone : OnePage m pt v pte m₁ pt₁) : Reverted m pt v₀ v m' pt' := by
  have hsame : ∀ w, w ≠ v → leafAt pt₁ w = leafAt pt w := by
    intro w hw
    rw [hone.leaf, update_of_ne hw]
  refine ⟨?_, h.kend.trans hone.kend, ?_⟩
  · intro w
    rw [h.leaf w]
    by_cases hw : w = v
    · rw [if_pos (by omega), if_neg (by omega), hw, hone.fresh]
    · have hiff : (v₀ ≤ w ∧ w < v + 1) ↔ (v₀ ≤ w ∧ w < v) := by omega
      simp only [hiff]
      rw [hsame w hw]
  · have hlast : leafPages pt₁ v₀ (v + 1 - v₀) = leafPages pt v₀ (v - v₀) ++ [pte.pa] := by
      have hn : v + 1 - v₀ = (v - v₀) + 1 := by omega
      have hv : leafAt pt₁ (v₀ + (v - v₀)) = some pte := by
        rw [show v₀ + (v - v₀) = v by omega, hone.leaf, update_self]
      rw [hn, leafPages_add, leafPages_succ hv]
      congr 1
      exact leafPages_congr fun w _ _ => hsame w (by omega)
    rw [h.pages, hlast, ← Multiset.coe_add, ← hone.pages, Multiset.coe_singleton]
    ac_rfl

/-- One round of such a loop: a page more at `a`.  With no memory for it, `undo`. -/
def growPage (undo : Kmem → PageTable → Except Panic (Kmem × PageTable)) (perm : Perm)
    (next : Kmem → PageTable → Except Panic (Kmem × PageTable × Bool)) (m : Kmem) (pt : PageTable)
    (a : ℕ) : Except Panic (Kmem × PageTable × Bool) :=
  match m.allocPage with
  | none => do
      let (m, pt) ← undo m pt
      .ok (m, pt, false)
  | some (mem, m) => do
      let (m, pt, ok) ← mapPage m pt a mem perm
      if ok then next m pt
      else do
        let m ← m.kfree mem
        let (m, pt) ← undo m pt
        .ok (m, pt, false)

section GrowPage

variable {undo : Kmem → PageTable → Except Panic (Kmem × PageTable)} {perm : Perm} {v₀ : ℕ}
  {next : Kmem → PageTable → Except Panic (Kmem × PageTable × Bool)}

theorem of_growPage {P : ℕ → Perm → Prop} {ok : Bool} (hle : v₀ ≤ a / pgSize)
    (hP : P (a / pgSize) perm)
    (hundo : ∀ {m pt m' pt'}, undo m pt = .ok (m', pt') →
      Unmapped m pt v₀ (a / pgSize - v₀) true m' pt')
    (hnext : ∀ {m pt}, next m pt = .ok (m', pt', ok) →
      if ok then Allocated P m pt (a / pgSize + 1) n m' pt'
      else Reverted m pt v₀ (a / pgSize + 1) m' pt')
    (h : growPage undo perm next m pt a = .ok (m', pt', ok)) :
    if ok then Allocated P m pt (a / pgSize) (n + 1) m' pt'
    else Reverted m pt v₀ (a / pgSize) m' pt' := by
  unfold growPage at h
  rcases halloc : m.allocPage with - | ⟨mem, m₁⟩
  · rw [halloc] at h
    obtain ⟨⟨m₂, pt₂⟩, hun, hret⟩ := bind_eq_ok.mp h
    cases hret
    exact Reverted.of_unmapped hle (hundo hun)
  · rw [halloc] at h
    obtain ⟨⟨m₂, pt₂, okm⟩, hmap, h⟩ := bind_eq_ok.mp h
    cases okm
    · obtain ⟨m₃, hfree, h⟩ := bind_eq_ok.mp h
      obtain ⟨⟨m₄, pt₄⟩, hun, hret⟩ := bind_eq_ok.mp h
      cases hret
      obtain ⟨-, rfl⟩ := Kmem.of_kfree_ok hfree
      exact Reverted.of_mapFailed hle halloc (of_mapPage_false hmap) (hundo hun)
    · have hone := OnePage.of_mapped halloc (of_mapPage_true hmap)
      have hrec := hnext h
      cases ok
      · exact Reverted.pred hle hrec hone
      · exact Allocated.succ hrec hone hP

theorem mapPage_error {pa : ℕ} {e : Panic} (h : mapPage m pt a pa perm = .error e) :
    e.Building := by
  rw [mapPage_eq] at h
  split_ifs at h
  · cases h
    decide
  · cases h
    decide

theorem Returnable.succ {pte : Pte} (h : Returnable m pt v₀ v)
    (hone : OnePage m pt v pte m' pt') (hpte : ValidPage m.kend pte.pa) :
    Returnable m' pt' v₀ (v + 1) := by
  intro w h₁ h₂
  rw [hone.leaf, hone.kend]
  by_cases hw : w = v
  · rw [hw, update_self]
    exact ⟨pte, rfl, hpte⟩
  · rw [update_of_ne hw]
    exact h w h₁ (by omega)

theorem Returnable.of_mapFailed (h : Returnable m pt v₀ v)
    (hfail : MapFailed m pt a m' pt') : Returnable m' pt' v₀ v := by
  intro w h₁ h₂
  rw [hfail.leaf, hfail.moved.kend]
  exact h w h₁ h₂

/-- The free list keeps to pages that can be freed. -/
theorem OnePage.valid_free {pte : Pte} (h : OnePage m pt v pte m' pt')
    (hfree : ∀ p ∈ m.free, ValidPage m.kend p) (hpages : ∀ p ∈ pt.pages, ValidPage m.kend p) :
    (∀ p ∈ m'.free, ValidPage m'.kend p) ∧ (∀ p ∈ pt'.pages, ValidPage m'.kend p) ∧
      ValidPage m.kend pte.pa := by
  have hall : ∀ p ∈ (m'.free : Multiset ℕ) + pt'.pages + {pte.pa}, ValidPage m.kend p := by
    intro p hp
    rw [h.pages, Multiset.mem_add] at hp
    rcases hp with hp | hp
    · exact hfree p hp
    · exact hpages p hp
  rw [h.kend]
  refine ⟨fun p hp => ?_, fun p hp => ?_, ?_⟩
  · exact hall p (Multiset.mem_add.mpr (.inl (Multiset.mem_add.mpr (.inl hp))))
  · exact hall p (Multiset.mem_add.mpr (.inl (Multiset.mem_add.mpr (.inr hp))))
  · exact hall _ (Multiset.mem_add.mpr (.inr (Multiset.mem_singleton_self _)))

theorem growPage_error {e : Panic} (hfree : ∀ p ∈ m.free, ValidPage m.kend p)
    (hpages : ∀ p ∈ pt.pages, ValidPage m.kend p) (hret : Returnable m pt v₀ (a / pgSize))
    (hundo : ∀ {m pt}, Returnable m pt v₀ (a / pgSize) → ∃ r, undo m pt = .ok r)
    (hnext : ∀ {m' pt'}, (∀ p ∈ m'.free, ValidPage m'.kend p) →
      (∀ p ∈ pt'.pages, ValidPage m'.kend p) → a / pgSize + 1 ≤ vpnMax →
      Returnable m' pt' v₀ (a / pgSize + 1) → next m' pt' = .error e → e.Building)
    (h : growPage undo perm next m pt a = .error e) : e.Building := by
  unfold growPage at h
  rcases halloc : m.allocPage with - | ⟨mem, m₁⟩
  · rw [halloc] at h
    obtain ⟨r, hr⟩ := hundo hret
    simp only [hr, ok_bind] at h
    cases h
  · obtain ⟨hm, hk⟩ := Kmem.of_allocPage halloc
    simp only [halloc] at h
    rcases hmap : mapPage m₁ pt a mem perm with x | ⟨m₂, pt₂, okm⟩
    · rw [hmap] at h
      cases h
      exact mapPage_error hmap
    · rw [hmap, ok_bind] at h
      have hmem : ValidPage m.kend mem := hfree mem (by rw [hm]; exact List.mem_cons_self)
      cases okm
      · have hfail := of_mapPage_false hmap
        have hvalid : ValidPage m₂.kend mem := by rwa [hfail.moved.kend, hk]
        have hret₁ : Returnable m₁ pt v₀ (a / pgSize) := fun w h₁ h₂ => hk ▸ hret w h₁ h₂
        have hret₂ := hret₁.of_mapFailed hfail
        obtain ⟨r, hr⟩ := hundo (m := ⟨m₂.kend, mem :: m₂.free⟩) hret₂
        change ((m₂.kfree mem) >>= _) = _ at h
        rw [Kmem.kfree_ok m₂ hvalid, ok_bind, hr] at h
        cases h
      · have hone := OnePage.of_mapped halloc (of_mapPage_true hmap)
        obtain ⟨hfree₂, hpages₂, -⟩ := hone.valid_free hfree hpages
        exact hnext hfree₂ hpages₂ hone.lt (hret.succ hone hmem) h

end GrowPage

/-! ### `uvmalloc` -/

theorem npages_of_mod (hva : a % pgSize = 0) : npages a = a / pgSize := by
  conv_lhs => rw [← Nat.div_mul_cancel (Nat.dvd_of_mod_eq_zero hva)]
  exact npages_mul _

theorem uvmallocLoop_succ {oldsz : ℕ} {perm : Perm} (hva : a % pgSize = 0) :
    uvmallocLoop oldsz perm (n + 1) m pt a
      = growPage (fun m pt => uvmdealloc m pt a oldsz >>= fun s => .ok (s.1, s.2.1)) perm
        (uvmallocLoop oldsz perm n · · (a + pgSize)) m pt a := by
  conv_lhs => unfold uvmallocLoop
  unfold growPage
  rcases m.allocPage with - | ⟨mem, m₁⟩
  · simp only [bind_assoc, ok_bind]
  · simp only [mappages_page _ _ hva, bind_assoc, ok_bind]

theorem of_uvmallocLoop {v₀ : ℕ} {perm : Perm} {ok : Bool} (hva : a % pgSize = 0)
    (hle : v₀ ≤ a / pgSize)
    (h : uvmallocLoop (v₀ * pgSize) perm n m pt a = .ok (m', pt', ok)) :
    if ok then Allocated (fun _ p => p = perm) m pt (a / pgSize) n m' pt'
    else Reverted m pt v₀ (a / pgSize) m' pt' := by
  induction n generalizing m pt a with
  | zero =>
    cases h
    exact Allocated.zero _ _ _ _
  | succ n ih =>
    rw [uvmallocLoop_succ hva] at h
    refine of_growPage hle rfl (fun {m pt m' pt'} hun => ?_) (fun hnext => ?_) h
    · obtain ⟨⟨m₁, pt₁, r⟩, hde, heq⟩ := bind_eq_ok.mp hun
      cases heq
      obtain ⟨rfl, hun⟩ := of_uvmdealloc hde
      rwa [min_eq_right ((Nat.le_div_iff_mul_le pgSize_pos).mp hle), npages_mul,
        npages_of_mod hva] at hun
    · rw [← Nat.add_div_right a pgSize_pos]
      exact ih (by rw [Nat.add_mod_right, hva]) (by rw [Nat.add_div_right a pgSize_pos]; omega) hnext

/-- **`uvmalloc`** either grows the address space to the new size or leaves
it, and the books, as they were. -/
theorem of_uvmalloc {oldsz newsz r : ℕ} {w x : Bool}
    (h : uvmalloc m pt oldsz newsz w x = .ok (m', pt', r)) :
    (r = 0 ∧ leafAt pt' = leafAt pt ∧ Moved m pt m' pt') ∨
      (r = max oldsz newsz ∧
        Allocated (fun _ p => p = ⟨true, w, x, true, rfl⟩) m pt (npages oldsz)
          (npages r - npages oldsz) m' pt') := by
  unfold uvmalloc at h
  by_cases hlt : newsz < oldsz
  · rw [if_pos hlt] at h
    cases h
    rw [Nat.sub_self]
    exact .inr ⟨(max_eq_left (by omega)).symm, Allocated.zero _ _ _ _⟩
  · rw [if_neg hlt] at h
    obtain ⟨⟨m₁, pt₁, ok⟩, hloop, hret⟩ := bind_eq_ok.mp h
    cases hret
    have hspec := of_uvmallocLoop (pgRoundUp_mod oldsz) (le_of_eq (pgRoundUp_div oldsz).symm) hloop
    rw [pgRoundUp_div] at hspec
    cases ok
    · refine .inl ⟨rfl, ?_, hspec.kend, ?_⟩
      · funext v
        rw [hspec.leaf v, if_neg (by omega)]
      · have hpages := hspec.pages
        rw [Nat.sub_self, leafPages_zero, Multiset.coe_nil, add_zero] at hpages
        exact hpages
    · refine .inr ⟨(max_eq_right (not_lt.mp hlt)).symm, ?_⟩
      have hn : npages newsz - npages oldsz = npages (newsz - pgRoundUp oldsz) := by
        have := npages_sub (not_lt.mp hlt)
        omega
      simp only [if_true, hn]
      exact hspec

theorem uvmallocLoop_error {v₀ : ℕ} {perm : Perm} {e : Panic} (hva : a % pgSize = 0)
    (hle : v₀ ≤ a / pgSize) (hfree : ∀ p ∈ m.free, ValidPage m.kend p)
    (hpages : ∀ p ∈ pt.pages, ValidPage m.kend p) (hlt : a / pgSize ≤ vpnMax)
    (hret : Returnable m pt v₀ (a / pgSize))
    (h : uvmallocLoop (v₀ * pgSize) perm n m pt a = .error e) : e.Building := by
  induction n generalizing m pt a with
  | zero => cases h
  | succ n ih =>
    rw [uvmallocLoop_succ hva] at h
    have hnext : (a + pgSize) / pgSize = a / pgSize + 1 := Nat.add_div_right a pgSize_pos
    refine growPage_error hfree hpages hret (fun hret => ?_) (fun hfree hpages hlt hret h => ?_) h
    · rw [← npages_of_mod hva] at hlt hret
      rw [← npages_mul v₀] at hret
      obtain ⟨r, hr⟩ := uvmdealloc_returns hlt hret
      rw [hr]
      exact ⟨_, rfl⟩
    · rw [← hnext] at hlt hret
      exact ih (by rw [Nat.add_mod_right, hva]) (by omega) hfree hpages hlt hret h

/-- What `uvmalloc` can stop the kernel with, when the pages below the old size
are in order. -/
theorem uvmalloc_error {oldsz newsz : ℕ} {w x : Bool} {e : Panic}
    (hfree : ∀ p ∈ m.free, ValidPage m.kend p) (hpages : ∀ p ∈ pt.pages, ValidPage m.kend p)
    (hlt : npages oldsz ≤ vpnMax) (h : uvmalloc m pt oldsz newsz w x = .error e) :
    ¬ e.Teardown := by
  unfold uvmalloc at h
  split_ifs at h
  rcases hloop : uvmallocLoop (pgRoundUp oldsz) ⟨true, w, x, true, rfl⟩
      (npages (newsz - pgRoundUp oldsz)) m pt (pgRoundUp oldsz) with x | r
  · rw [hloop] at h
    cases h
    refine (uvmallocLoop_error (pgRoundUp_mod oldsz) (le_of_eq (pgRoundUp_div oldsz).symm) hfree
      hpages ?_ ?_ hloop).1
    · rwa [pgRoundUp_div]
    · intro w h₁ h₂
      rw [pgRoundUp_div] at h₂
      omega
  · rw [hloop] at h
    cases h

/-! ### `uvmcopy` -/

theorem walk_error {e : Panic} {va : ℕ} (h : walk pt va = .error e) : e.Building := by
  unfold walk at h
  split_ifs at h
  cases h
  decide

/-- A page of the parent is there. -/
theorem uvmcopyLoop_succ {old : PageTable} {pte : Pte} (hva : a % pgSize = 0)
    (hw : walk old a = .ok (some (some pte))) :
    uvmcopyLoop old (n + 1) m pt a
      = growPage (fun m pt => uvmunmap m pt 0 (a / pgSize) true) pte.perm
        (uvmcopyLoop old n · · (a + pgSize)) m pt a := by
  conv_lhs => unfold uvmcopyLoop
  unfold growPage
  rcases m.allocPage with - | ⟨mem, m₁⟩
  · simp only [hw, ok_bind]
  · simp only [hw, ok_bind, mappages_page _ _ hva]

theorem of_uvmcopyLoop {old : PageTable} {ok : Bool} (hva : a % pgSize = 0)
    (h : uvmcopyLoop old n m pt a = .ok (m', pt', ok)) :
    if ok then
      Allocated (fun v p => ∃ q, leafAt old v = some q ∧ p = q.perm) m pt (a / pgSize) n m' pt'
    else Reverted m pt 0 (a / pgSize) m' pt' := by
  induction n generalizing m pt a with
  | zero =>
    cases h
    exact Allocated.zero _ _ _ _
  | succ n ih =>
    obtain ⟨e, he, h'⟩ := bind_eq_ok.mp h
    rcases e with - | - | pte
    · cases h'
    · cases h'
    obtain ⟨ha, hf⟩ := of_walk he
    have hold := leafAt_of_find ha hf
    rw [uvmcopyLoop_succ hva he] at h
    refine of_growPage (Nat.zero_le _) ⟨pte, hold, rfl⟩ of_uvmunmap (fun hnext => ?_) h
    rw [← Nat.add_div_right a pgSize_pos]
    exact ih (by rw [Nat.add_mod_right, hva]) hnext

/-- **`uvmcopy`** either gives the child every page of the parent's size, or
leaves its address space as it was. -/
theorem of_uvmcopy {old : PageTable} {sz : ℕ} {ok : Bool}
    (h : uvmcopy m old pt sz = .ok (m', pt', ok)) :
    if ok then
      Allocated (fun v p => ∃ q, leafAt old v = some q ∧ p = q.perm) m pt 0 (npages sz) m' pt'
    else leafAt pt' = leafAt pt ∧ Moved m pt m' pt' := by
  have hspec := of_uvmcopyLoop (Nat.zero_mod _) h
  rw [Nat.zero_div] at hspec
  cases ok
  · refine ⟨?_, hspec.kend, ?_⟩
    · funext v
      rw [hspec.leaf v, if_neg (by omega)]
    · have hpages := hspec.pages
      rw [Nat.sub_self, leafPages_zero, Multiset.coe_nil, add_zero] at hpages
      exact hpages
  · exact hspec

theorem uvmcopyLoop_error {old : PageTable} {e : Panic} (hva : a % pgSize = 0)
    (hfree : ∀ p ∈ m.free, ValidPage m.kend p) (hpages : ∀ p ∈ pt.pages, ValidPage m.kend p)
    (hlt : a / pgSize ≤ vpnMax) (hret : Returnable m pt 0 (a / pgSize))
    (h : uvmcopyLoop old n m pt a = .error e) : e.Building := by
  induction n generalizing m pt a with
  | zero => cases h
  | succ n ih =>
    rcases hw : walk old a with x | entry
    · unfold uvmcopyLoop at h
      rw [hw] at h
      cases h
      exact walk_error hw
    rcases entry with - | - | pte
    · unfold uvmcopyLoop at h
      rw [hw] at h
      cases h
      decide
    · unfold uvmcopyLoop at h
      rw [hw] at h
      cases h
      decide
    rw [uvmcopyLoop_succ hva hw] at h
    have hnext : (a + pgSize) / pgSize = a / pgSize + 1 := Nat.add_div_right a pgSize_pos
    refine growPage_error hfree hpages hret (fun hret => ?_) (fun hfree hpages hlt hret h => ?_) h
    · have hun := hret.uvmunmap (Nat.zero_le _) hlt
      rwa [Nat.zero_mul, Nat.sub_zero] at hun
    · rw [← hnext] at hlt hret
      exact ih (by rw [Nat.add_mod_right, hva]) hfree hpages hlt hret h

theorem uvmcopy_error {old : PageTable} {sz : ℕ} {e : Panic}
    (hfree : ∀ p ∈ m.free, ValidPage m.kend p) (hpages : ∀ p ∈ pt.pages, ValidPage m.kend p)
    (h : uvmcopy m old pt sz = .error e) : e.Building := by
  refine uvmcopyLoop_error (Nat.zero_mod _) hfree hpages ?_ ?_ h
  · rw [Nat.zero_div]
    exact Nat.zero_le _
  · intro w _ h₂
    rw [Nat.zero_div] at h₂
    omega

/-! ### `uvmfree` -/

theorem unmapped_of_uvmfree {sz : ℕ}
    (h : (if 0 < sz then uvmunmap m pt 0 (npages sz) true else .ok (m, pt)) = .ok (m', pt')) :
    Unmapped m pt 0 (npages sz) true m' pt' := by
  split_ifs at h with hsz
  · exact of_uvmunmap h
  · cases h
    rw [npages_eq_zero_iff.mpr (by omega)]
    exact Unmapped.zero _ _ _ _

/-- `uvmfree` returns only if the mapped pages are those of the size. -/
theorem of_uvmfree {sz : ℕ} (h : uvmfree m pt sz = .ok m') :
    (∀ v, leafAt pt v ≠ none ↔ v < npages sz) ∧ m'.kend = m.kend ∧
      (m'.free : Multiset ℕ) = m.free + pt.pages + leafPages pt 0 (npages sz) := by
  obtain ⟨⟨m₁, pt₁⟩, hun, hwalk⟩ := bind_eq_ok.mp h
  have hun := unmapped_of_uvmfree hun
  obtain ⟨hnone, rfl⟩ := of_freewalk hwalk
  refine ⟨?_, hun.kend, ?_⟩
  · intro v
    constructor
    · intro hv
      by_contra hge
      apply hv
      have hleaf := hun.leaf v
      rw [if_neg (by omega)] at hleaf
      rw [← hleaf]
      unfold leafAt
      split_ifs
      · exact hnone _
      · rfl
    · intro hv
      exact hun.mapped v (Nat.zero_le v) (by omega)
  · rw [← Multiset.coe_add, Multiset.coe_reverse, hun.free, if_pos rfl, hun.pages,
      ← Multiset.coe_add, Multiset.coe_reverse]
    ac_rfl

/-- The pages of the size can be taken back when they are mapped. -/
theorem uvmfree_unmaps {sz : ℕ} (huser : ∀ v < npages sz, leafAt pt v ≠ none)
    (hlt : npages sz ≤ vpnMax)
    (hvalid : ∀ p ∈ leafPages pt 0 (npages sz), ValidPage m.kend p) :
    ∃ m₁ pt₁, (if 0 < sz then uvmunmap m pt 0 (npages sz) true else .ok (m, pt))
      = .ok (m₁, pt₁) := by
  split_ifs with hsz
  · obtain ⟨m₁, pt₁, hr, -⟩ : ∃ m₁ pt₁, uvmunmap m pt 0 (npages sz) true = .ok (m₁, pt₁) ∧
        Unmapped m pt (0 / pgSize) (npages sz) true m₁ pt₁ :=
      uvmunmap_returns (Nat.zero_mod _) (by simpa using hlt)
        (fun w _ h₂ => huser w (by simpa using h₂)) (fun _ => hvalid)
    exact ⟨m₁, pt₁, hr⟩
  · exact ⟨m, pt, rfl⟩

/-- Then it is `freewalk` that stops the kernel, if anything does. -/
theorem uvmfree_error {sz : ℕ} {e : Panic} (huser : ∀ v < npages sz, leafAt pt v ≠ none)
    (hlt : npages sz ≤ vpnMax)
    (hvalid : ∀ p ∈ leafPages pt 0 (npages sz), ValidPage m.kend p)
    (h : uvmfree m pt sz = .error e) : e.Teardown := by
  obtain ⟨m₁, pt₁, hr⟩ := uvmfree_unmaps huser hlt hvalid
  unfold uvmfree at h
  rw [hr, ok_bind] at h
  exact (freewalk_ends pt₁ m₁).of_error h

/-- **`uvmfree` tears down an address space that is exactly its size.** -/
theorem uvmfree_returns {sz : ℕ} (hexact : ∀ v, leafAt pt v ≠ none ↔ v < npages sz)
    (hlt : npages sz ≤ vpnMax) (hpages : ∀ p ∈ pt.pages, ValidPage m.kend p)
    (huser : ∀ p ∈ leafPages pt 0 (npages sz), ValidPage m.kend p) :
    ∃ m', uvmfree m pt sz = .ok m' := by
  obtain ⟨m₁, pt₁, hr⟩ := uvmfree_unmaps (fun v hv => (hexact v).mpr hv) hlt huser
  have hun := unmapped_of_uvmfree hr
  have hnone : ∀ v, leafAt pt₁ v = none := by
    intro v
    rw [hun.leaf v]
    split_ifs with hv
    · rfl
    · by_contra hne
      exact hv ⟨Nat.zero_le v, by simpa using (hexact v).mp hne⟩
  refine ⟨_, bind_eq_ok.mpr ⟨(m₁, pt₁), hr, freewalk_ok pt₁ (get_of_leafAt_none hnone) ?_⟩⟩
  intro p hp
  rw [hun.kend]
  exact hpages p (hun.pages ▸ hp)

/-! ### `uvmclear` -/

/-- `uvmclear` keeps the page and takes away the user's access. -/
theorem of_uvmclear {va : ℕ} (h : uvmclear pt va = .ok pt') :
    (∀ v, (leafAt pt' v).map Pte.pa = (leafAt pt v).map Pte.pa) ∧
      (∀ v ≠ va / pgSize, leafAt pt' v = leafAt pt v) ∧ pt'.pages = pt.pages := by
  obtain ⟨e, he, h⟩ := bind_eq_ok.mp h
  obtain ⟨hva, hf⟩ := of_walk he
  rcases e with - | x
  · cases h
  cases h
  have hleaf : leafAt (pt.set (px va) _) = _ := leafAt_set hva (by rw [hf]; simp)
    (x.map fun pte => { pte with perm := { pte.perm with u := false } })
  refine ⟨?_, fun v hv => by rw [hleaf, update_of_ne hv], Radix.pages_set _ _ _⟩
  intro v
  rw [hleaf]
  by_cases hv : v = va / pgSize
  · rw [hv, update_self, leafAt_of_lt hva]
    unfold Radix.get
    rw [hf]
    cases x <;> rfl
  · rw [update_of_ne hv]

theorem uvmclear_error {va : ℕ} {e : Panic} (h : uvmclear pt va = .error e) : ¬ e.Teardown := by
  unfold uvmclear at h
  rcases hw : walk pt va with x | entry
  · rw [hw] at h
    cases h
    exact (walk_error hw).1
  · rw [hw, ok_bind] at h
    rcases entry with - | entry
    · cases h
      decide
    · cases h

theorem leafPages_of_pa (h : ∀ v, (leafAt pt' v).map Pte.pa = (leafAt pt v).map Pte.pa) (v n : ℕ) :
    leafPages pt' v n = leafPages pt v n := by
  unfold leafPages
  apply List.filterMap_congr
  exact fun w _ => h w

/-! ### `copyin` and `copyout` -/

/-- A page the user can reach. -/
def UserPage (pt : PageTable) (v : ℕ) : Prop :=
  v < vpnMax ∧ ∃ pte, leafAt pt v = some pte ∧ pte.perm.u = true

theorem walkaddr_isSome_iff (va : ℕ) : (walkaddr pt va).isSome ↔ UserPage pt (va / pgSize) := by
  unfold walkaddr UserPage
  by_cases hva : maxVA ≤ va
  · rw [if_pos hva, ← lt_maxVA_iff]
    constructor
    · exact fun h => nomatch h
    · rintro ⟨hlt, -⟩
      omega
  · rw [if_neg hva, ← lt_maxVA_iff, leafAt_of_lt (not_le.mp hva)]
    unfold Radix.get
    rcases pt.find (px va) with - | - | pte
    · simp
    · simp
    · cases hu : pte.perm.u <;> simp [hu, not_le.mp hva]

theorem copyLoop_iff {fuel len : ℕ} (hlen : len ≤ fuel) (va : ℕ) :
    copyLoop pt fuel va len = true ↔ ∀ b < len, UserPage pt ((va + b) / pgSize) := by
  induction fuel generalizing va len with
  | zero =>
    obtain rfl : len = 0 := by omega
    simp [copyLoop]
  | succ fuel ih =>
    unfold copyLoop
    by_cases hzero : len = 0
    · subst hzero
      simp
    rw [if_neg hzero]
    have hdown : pgRoundDown va / pgSize = va / pgSize := Nat.mul_div_cancel _ pgSize_pos
    have hwalk : (walkaddr pt (pgRoundDown va)).isSome ↔ _ := walkaddr_isSome_iff (pgRoundDown va)
    rw [hdown] at hwalk
    -- the bytes of this round lie in one page, the rest starts at the next
    have hpage : ∀ b, b < pgSize - (va - pgRoundDown va) → (va + b) / pgSize = va / pgSize := by
      intro b hb
      simp only [pgRoundDown, pgSize] at hb ⊢
      omega
    have hrest : ∀ b, va + (pgSize - (va - pgRoundDown va) + b) = pgRoundDown va + pgSize + b := by
      intro b
      simp only [pgRoundDown, pgSize]
      omega
    have hpos : 0 < pgSize - (va - pgRoundDown va) := by
      simp only [pgRoundDown, pgSize]
      omega
    rcases hw : walkaddr pt (pgRoundDown va) with - | p
    · rw [hw] at hwalk
      simp only [hw, Bool.false_eq_true, false_iff]
      intro hall
      have hfirst := hall 0 (by omega)
      rw [Nat.add_zero] at hfirst
      exact absurd (hwalk.mpr hfirst) Bool.false_ne_true
    · rw [hw] at hwalk
      have hhere : UserPage pt (va / pgSize) := hwalk.mp rfl
      simp only [hw]
      rw [ih (by omega)]
      constructor
      · intro hall b hb
        by_cases hin : b < pgSize - (va - pgRoundDown va)
        · rw [hpage b hin]
          exact hhere
        · have hb' := hall (b - (pgSize - (va - pgRoundDown va))) (by omega)
          rw [← hrest] at hb'
          rwa [show pgSize - (va - pgRoundDown va) + (b - (pgSize - (va - pgRoundDown va))) = b
            by omega] at hb'
      · intro hall b hb
        rw [← hrest]
        exact hall _ (by omega)

/-- **`copyout` succeeds if and only if every byte's page is the user's.** -/
theorem copyout_iff (va len : ℕ) :
    copyout pt va len = true ↔ ∀ b < len, UserPage pt ((va + b) / pgSize) :=
  copyLoop_iff le_rfl va

end Xv6Zig
