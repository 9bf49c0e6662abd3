/-
Xv6Zig/Lib/Radix.lean

Radix trees of tables, each of which occupies a page.

A tree of depth `n` is absent, or a table of `B` entries: values at depth 0,
trees of depth `n` at depth `n + 1`.  A key is its digits, `d k` at depth `k`.
`find` looks a key up, `set` stores at it, and `grow` first creates the
tables missing on the key's path, each on a page taken from a list of free
ones; it may run out half-way and then leaves behind the tables it made.

What a user of the tree needs is the map it stands for (`get`), the pages it
occupies (`pages`) and what a key still lacks (`missing`):

* `get_set`, `get_grow` — `set` changes one key, `grow` none;
* `pages_set`, `coe_pages_grow` — pages are only moved between the free list and
  the tree;
* `grow_ok_iff`, `missing_grow` — `grow` succeeds if and only if the free
  pages cover what is missing, and then covers that for every other key too.
-/
import Mathlib.Algebra.BigOperators.Group.Multiset.Basic
import Mathlib.Algebra.BigOperators.Group.Finset.Basic
import Mathlib.Algebra.BigOperators.Pi
import Mathlib.Algebra.Order.Group.Multiset
import Mathlib.Data.Fintype.BigOperators
import Xv6Zig.Lib.Updates

namespace Lib

open Function

/-- A radix tree with `B` entries a table, pages in `P` and values in `α`. -/
inductive Radix (B : ℕ) (P α : Type) : ℕ → Type
  | absent {n : ℕ} : Radix B P α n
  | leaf (page : P) (entry : Fin B → Option α) : Radix B P α 0
  | node {n : ℕ} (page : P) (child : Fin B → Radix B P α n) : Radix B P α (n + 1)

namespace Radix

variable {B : ℕ} {P α : Type} {n : ℕ}

/-! ### Operations -/

/-- The entry at a key; `none` when a table on the way is missing. -/
def find : {n : ℕ} → Radix B P α n → (ℕ → Fin B) → Option (Option α)
  | _, .absent, _ => none
  | _, .leaf _ e, d => some (e (d 0))
  | n + 1, .node _ c, d => find (c (d (n + 1))) d

/-- The value at a key. -/
def get (t : Radix B P α n) (d : ℕ → Fin B) : Option α :=
  (t.find d).join

/-- Store at a key whose tables exist. -/
def set : {n : ℕ} → Radix B P α n → (ℕ → Fin B) → Option α → Radix B P α n
  | _, .absent, _, _ => .absent
  | _, .leaf p e, d, x => .leaf p (update e (d 0) x)
  | n + 1, .node p c, d, x =>
      .node p (update c (d (n + 1)) (set (c (d (n + 1))) d x))

/-- The tables of one path, from an absent tree. -/
def spine : (n : ℕ) → List P → (ℕ → Fin B) → List P × Radix B P α n × Bool
  | _, [], _ => ([], .absent, false)
  | 0, p :: free, _ => (free, .leaf p fun _ => none, true)
  | n + 1, p :: free, d =>
      let r := spine n free d
      (r.1, .node p (update (fun _ => .absent) (d (n + 1)) r.2.1), r.2.2)

/-- Create the tables missing on the path of a key: the free pages left, the
tree, and whether the path is complete. -/
def grow : {n : ℕ} → Radix B P α n → List P → (ℕ → Fin B) → List P × Radix B P α n × Bool
  | n, .absent, free, d => spine n free d
  | _, .leaf p e, free, _ => (free, .leaf p e, true)
  | n + 1, .node p c, free, d =>
      let r := grow (c (d (n + 1))) free d
      (r.1, .node p (update c (d (n + 1)) r.2.1), r.2.2)

/-- The pages of a tree, every table after the tables below it. -/
def pages : {n : ℕ} → Radix B P α n → List P
  | _, .absent => []
  | _, .leaf p _ => [p]
  | _, .node p c => (List.finRange B).flatMap (fun i => pages (c i)) ++ [p]

/-- The tables an absent tree of depth `n` lacks for a key, named by the
digits that lead to them. -/
def spineKeys : (n : ℕ) → (ℕ → Fin B) → Finset (List (Fin B))
  | 0, _ => {[]}
  | n + 1, d => insert [] ((spineKeys n d).image (d (n + 1) :: ·))

/-- The tables missing on the path of a key. -/
def missing : {n : ℕ} → Radix B P α n → (ℕ → Fin B) → Finset (List (Fin B))
  | n, .absent, d => spineKeys n d
  | _, .leaf _ _, _ => ∅
  | n + 1, .node _ c, d => (missing (c (d (n + 1))) d).image (d (n + 1) :: ·)

/-! ### Keys -/

/-- Only the digits up to the depth of the tree matter. -/
theorem find_congr (t : Radix B P α n) {d d' : ℕ → Fin B} (h : ∀ k ≤ n, d k = d' k) :
    t.find d = t.find d' := by
  induction t with
  | absent => rfl
  | leaf p e =>
    show some (e (d 0)) = some (e (d' 0))
    rw [h 0 le_rfl]
  | @node n p c ih =>
    show (c (d (n + 1))).find d = (c (d' (n + 1))).find d'
    rw [← h (n + 1) le_rfl]
    exact ih _ fun k hk => h k (by omega)

theorem get_congr (t : Radix B P α n) {d d' : ℕ → Fin B} (h : ∀ k ≤ n, d k = d' k) :
    t.get d = t.get d' := by
  unfold get
  rw [find_congr t h]

/-! ### Storing -/

theorem get_set (t : Radix B P α n) {d : ℕ → Fin B} (hd : t.find d ≠ none) (x : Option α)
    (d' : ℕ → Fin B) :
    (t.set d x).get d' = if ∀ k ≤ n, d' k = d k then x else t.get d' := by
  induction t with
  | absent => exact absurd rfl hd
  | leaf p e =>
    show (update e (d 0) x) (d' 0) = _
    by_cases h : d' 0 = d 0
    · have hall : ∀ k ≤ 0, d' k = d k := fun k hk => by
        obtain rfl : k = 0 := by omega
        exact h
      rw [if_pos hall, h, update_self]
    · rw [if_neg fun hall => h (hall 0 le_rfl), update_of_ne h]
      rfl
  | @node n p c ih =>
    show (update c (d (n + 1)) ((c (d (n + 1))).set d x) (d' (n + 1))).get d' = _
    by_cases h : d' (n + 1) = d (n + 1)
    · rw [h, update_self, ih _ hd]
      have hiff : (∀ k ≤ n, d' k = d k) ↔ ∀ k ≤ n + 1, d' k = d k := by
        constructor
        · intro hall k hk
          rcases Nat.lt_or_eq_of_le hk with hk | rfl
          · exact hall k (by omega)
          · exact h
        · exact fun hall k hk => hall k (by omega)
      simp only [hiff]
      split_ifs
      · rfl
      · show _ = (c (d' (n + 1))).get d'
        rw [h]
    · rw [if_neg fun hall => h (hall (n + 1) le_rfl), update_of_ne h]
      rfl

/-! ### Growing -/

theorem get_spine (free : List P) (d d' : ℕ → Fin B) :
    (spine n free d : List P × Radix B P α n × Bool).2.1.get d' = none := by
  induction n generalizing free with
  | zero => cases free <;> rfl
  | succ n ih =>
    rcases free with - | ⟨p, free⟩
    · rfl
    show (update (fun _ => absent) (d (n + 1)) (spine n free d).2.1
      (d' (n + 1))).get d' = none
    by_cases h : d' (n + 1) = d (n + 1)
    · rw [h, update_self]
      exact ih free
    · rw [update_of_ne h]
      rfl

theorem get_grow (t : Radix B P α n) (free : List P) (d d' : ℕ → Fin B) :
    (t.grow free d).2.1.get d' = t.get d' := by
  induction t with
  | absent => exact get_spine free d d'
  | leaf p e => rfl
  | @node n p c ih =>
    show (update c (d (n + 1)) ((c (d (n + 1))).grow free d).2.1 (d' (n + 1))).get d'
      = (c (d' (n + 1))).get d'
    by_cases h : d' (n + 1) = d (n + 1)
    · rw [h, update_self]
      exact ih _
    · rw [update_of_ne h]

theorem card_spineKeys (n : ℕ) (d : ℕ → Fin B) : (spineKeys n d).card = n + 1 := by
  induction n with
  | zero => rfl
  | succ n ih =>
    have hinj : Injective (d (n + 1) :: · : List (Fin B) → List (Fin B)) :=
      List.cons_injective
    have hnot : ([] : List (Fin B)) ∉ (spineKeys n d).image (d (n + 1) :: ·) := by simp
    show (insert [] ((spineKeys n d).image (d (n + 1) :: ·))).card = _
    rw [Finset.card_insert_of_notMem hnot, Finset.card_image_of_injective _ hinj, ih]

theorem spine_free (free : List P) (d : ℕ → Fin B) :
    (spine n free d : List P × Radix B P α n × Bool).1 = free.drop (n + 1) := by
  induction n generalizing free with
  | zero => cases free <;> rfl
  | succ n ih =>
    rcases free with - | ⟨p, free⟩
    · rfl
    · exact ih free

theorem spine_ok_iff (free : List P) (d : ℕ → Fin B) :
    (spine n free d : List P × Radix B P α n × Bool).2.2 = true ↔ n + 1 ≤ free.length := by
  induction n generalizing free with
  | zero => cases free <;> simp [spine]
  | succ n ih =>
    rcases free with - | ⟨p, free⟩
    · simp [spine]
    · show (spine n free d).2.2 = true ↔ _
      rw [ih free, List.length_cons]
      omega

theorem card_missing_node {p : P} (c : Fin B → Radix B P α n) (d : ℕ → Fin B) :
    ((node p c).missing d).card = ((c (d (n + 1))).missing d).card :=
  Finset.card_image_of_injective _ List.cons_injective

/-- `grow` takes its pages from the front of the list. -/
theorem grow_free (t : Radix B P α n) (free : List P) (d : ℕ → Fin B) :
    (t.grow free d).1 = free.drop (t.missing d).card := by
  induction t with
  | absent =>
    show (spine _ free d).1 = free.drop (spineKeys _ d).card
    rw [card_spineKeys, spine_free]
  | leaf p e => rfl
  | @node n p c ih =>
    rw [card_missing_node]
    exact ih _

/-- **Growing succeeds if and only if there are pages for what is missing.** -/
theorem grow_ok_iff (t : Radix B P α n) (free : List P) (d : ℕ → Fin B) :
    (t.grow free d).2.2 = true ↔ (t.missing d).card ≤ free.length := by
  induction t with
  | absent =>
    show (spine _ free d).2.2 = true ↔ (spineKeys _ d).card ≤ _
    rw [card_spineKeys, spine_ok_iff]
  | leaf p e => simp [grow, missing]
  | @node n p c ih =>
    rw [card_missing_node]
    exact ih _

theorem find_spine_isSome {free : List P} {d : ℕ → Fin B}
    (h : (spine n free d : List P × Radix B P α n × Bool).2.2 = true) :
    ((spine n free d : List P × Radix B P α n × Bool).2.1.find d).isSome := by
  induction n generalizing free with
  | zero =>
    rcases free with - | ⟨p, free⟩
    · cases h
    · rfl
  | succ n ih =>
    rcases free with - | ⟨p, free⟩
    · cases h
    · show ((update (fun _ => absent) (d (n + 1)) (spine n free d).2.1
        (d (n + 1))).find d).isSome
      rw [update_self]
      exact ih h

/-- After a successful `grow` the tables of the key exist. -/
theorem find_grow_isSome (t : Radix B P α n) {free : List P} {d : ℕ → Fin B}
    (h : (t.grow free d).2.2 = true) : ((t.grow free d).2.1.find d).isSome := by
  induction t with
  | absent => exact find_spine_isSome h
  | leaf p e => rfl
  | @node n p c ih =>
    show ((update c (d (n + 1)) ((c (d (n + 1))).grow free d).2.1 (d (n + 1))).find d).isSome
    rw [update_self]
    exact ih _ h

theorem find_spine_eq_none {free : List P} {d : ℕ → Fin B}
    (h : (spine n free d : List P × Radix B P α n × Bool).2.2 = false) :
    (spine n free d : List P × Radix B P α n × Bool).2.1.find d = none := by
  induction n generalizing free with
  | zero =>
    rcases free with - | ⟨p, free⟩
    · rfl
    · cases h
  | succ n ih =>
    rcases free with - | ⟨p, free⟩
    · rfl
    · show (update (fun _ => absent) (d (n + 1)) (spine n free d).2.1
        (d (n + 1))).find d = none
      rw [update_self]
      exact ih h

/-- A `grow` that fails leaves a table of the key missing. -/
theorem find_grow_eq_none (t : Radix B P α n) {free : List P} {d : ℕ → Fin B}
    (h : (t.grow free d).2.2 = false) : (t.grow free d).2.1.find d = none := by
  induction t with
  | absent => exact find_spine_eq_none h
  | leaf p e => cases h
  | @node n p c ih =>
    show (update c (d (n + 1)) ((c (d (n + 1))).grow free d).2.1 (d (n + 1))).find d = none
    rw [update_self]
    exact ih _ h

/-- The tables of a key exist if and only if none is missing. -/
theorem missing_eq_empty_iff (t : Radix B P α n) (d : ℕ → Fin B) :
    t.missing d = ∅ ↔ (t.find d).isSome := by
  induction t with
  | @absent n =>
    have hne : spineKeys n d ≠ ∅ := by
      rw [← Finset.nonempty_iff_ne_empty, ← Finset.card_pos, card_spineKeys]
      omega
    simp [missing, find, hne]
  | leaf p e => simp [missing, find]
  | @node n p c ih =>
    show Finset.image _ _ = ∅ ↔ ((c (d (n + 1))).find d).isSome
    rw [Finset.image_eq_empty]
    exact ih _

theorem image_cons_sdiff (i : Fin B) (s t : Finset (List (Fin B))) :
    (s \ t).image (i :: ·) = s.image (i :: ·) \ t.image (i :: ·) :=
  Finset.image_sdiff s t List.cons_injective

theorem image_cons_disjoint {i j : Fin B} (h : i ≠ j) (s t : Finset (List (Fin B))) :
    Disjoint (s.image (i :: ·)) (t.image (j :: ·)) := by
  rw [Finset.disjoint_left]
  intro x hx hx'
  obtain ⟨y, -, rfl⟩ := Finset.mem_image.mp hx
  obtain ⟨z, -, hz⟩ := Finset.mem_image.mp hx'
  exact h (List.cons.inj hz).1.symm

theorem insert_nil_sdiff {s : Finset (List (Fin B))} (h : [] ∉ s) (t : Finset (List (Fin B))) :
    insert [] s \ insert [] t = s \ t := by
  ext x
  rw [Finset.mem_sdiff, Finset.mem_sdiff, Finset.mem_insert, Finset.mem_insert]
  constructor
  · rintro ⟨hx | hx, hnot⟩
    · exact absurd (.inl hx) hnot
    · exact ⟨hx, fun ht => hnot (.inr ht)⟩
  · rintro ⟨hx, hnot⟩
    refine ⟨.inr hx, ?_⟩
    rintro (rfl | ht)
    · exact h hx
    · exact hnot ht

theorem missing_spine {free : List P} {d : ℕ → Fin B} (d' : ℕ → Fin B)
    (h : (spine n free d : List P × Radix B P α n × Bool).2.2 = true) :
    (spine n free d : List P × Radix B P α n × Bool).2.1.missing d'
      = spineKeys n d' \ spineKeys n d := by
  induction n generalizing free with
  | zero =>
    rcases free with - | ⟨p, free⟩
    · cases h
    · simp [spine, missing, spineKeys]
  | succ n ih =>
    rcases free with - | ⟨p, free⟩
    · cases h
    show ((update (fun _ => absent) (d (n + 1)) (spine n free d).2.1
      (d' (n + 1))).missing d').image (d' (n + 1) :: ·)
      = insert [] ((spineKeys n d').image (d' (n + 1) :: ·))
        \ insert [] ((spineKeys n d).image (d (n + 1) :: ·))
    rw [insert_nil_sdiff (by simp)]
    by_cases hd : d' (n + 1) = d (n + 1)
    · rw [hd, update_self, ih h, image_cons_sdiff]
    · rw [update_of_ne hd, Finset.sdiff_eq_self_of_disjoint (image_cons_disjoint hd _ _)]
      rfl

/-- **A path once grown is there for every other key.** -/
theorem missing_grow (t : Radix B P α n) {free : List P} {d : ℕ → Fin B} (d' : ℕ → Fin B)
    (h : (t.grow free d).2.2 = true) :
    (t.grow free d).2.1.missing d' = t.missing d' \ t.missing d := by
  induction t with
  | absent => exact missing_spine d' h
  | leaf p e => rfl
  | @node n p c ih =>
    show ((update c (d (n + 1)) ((c (d (n + 1))).grow free d).2.1
      (d' (n + 1))).missing d').image (d' (n + 1) :: ·)
      = ((c (d' (n + 1))).missing d').image (d' (n + 1) :: ·)
        \ ((c (d (n + 1))).missing d).image (d (n + 1) :: ·)
    by_cases hd : d' (n + 1) = d (n + 1)
    · rw [hd, update_self, ih _ h, image_cons_sdiff]
    · rw [update_of_ne hd, Finset.sdiff_eq_self_of_disjoint (image_cons_disjoint hd _ _)]

theorem missing_set (t : Radix B P α n) (d : ℕ → Fin B) (x : Option α) (d' : ℕ → Fin B) :
    (t.set d x).missing d' = t.missing d' := by
  induction t with
  | absent => rfl
  | leaf p e => rfl
  | @node n p c ih =>
    show ((update c (d (n + 1)) ((c (d (n + 1))).set d x) (d' (n + 1))).missing d').image
      (d' (n + 1) :: ·) = ((c (d' (n + 1))).missing d').image (d' (n + 1) :: ·)
    by_cases hd : d' (n + 1) = d (n + 1)
    · rw [hd, update_self, ih]
    · rw [update_of_ne hd]

/-! ### Pages -/

theorem pages_node (p : P) (c : Fin B → Radix B P α n) :
    (node p c).pages = (List.finRange B).flatMap (fun i => (c i).pages) ++ [p] := rfl

theorem coe_pages_node (p : P) (c : Fin B → Radix B P α n) :
    ((node p c).pages : Multiset P) = (∑ i, ((c i).pages : Multiset P)) + {p} := by
  show (((List.finRange B).flatMap (fun i => (c i).pages) ++ [p] : List P) : Multiset P) = _
  rw [← Multiset.coe_add, ← Multiset.coe_bind, Multiset.bind]
  congr 1

/-- Exchanging one child exchanges its pages. -/
theorem coe_pages_update (p : P) (c : Fin B → Radix B P α n) (i : Fin B) (t : Radix B P α n) :
    ((node p (update c i t)).pages : Multiset P) + (c i).pages
      = ((node p c).pages : Multiset P) + t.pages := by
  rw [coe_pages_node, coe_pages_node]
  have hsum := sum_update_add (fun t : Radix B P α n => (t.pages : Multiset P)) c i t
  calc _ = (∑ j, ((update c i t j).pages : Multiset P) + (c i).pages) + {p} := by ac_rfl
    _ = (∑ j, ((c j).pages : Multiset P) + t.pages) + {p} := by rw [hsum]
    _ = _ := by ac_rfl

theorem pages_set (t : Radix B P α n) (d : ℕ → Fin B) (x : Option α) :
    (t.set d x).pages = t.pages := by
  induction t with
  | absent => rfl
  | leaf p e => rfl
  | @node n p c ih =>
    have hchild : (fun i => (update c (d (n + 1)) ((c (d (n + 1))).set d x) i).pages)
        = fun i => (c i).pages := by
      funext i
      by_cases hi : i = d (n + 1)
      · rw [hi, update_self]
        exact ih _
      · rw [update_of_ne hi]
    show (List.finRange B).flatMap _ ++ [p] = (List.finRange B).flatMap _ ++ [p]
    rw [hchild]

theorem coe_pages_spine (free : List P) (d : ℕ → Fin B) :
    ((spine n free d : List P × Radix B P α n × Bool).1 : Multiset P)
      + (spine n free d : List P × Radix B P α n × Bool).2.1.pages = free := by
  induction n generalizing free with
  | zero =>
    rcases free with - | ⟨p, free⟩
    · rfl
    · show (free : Multiset P) + {p} = (p :: free : List P)
      rw [add_comm, Multiset.singleton_add, Multiset.cons_coe]
  | succ n ih =>
    rcases free with - | ⟨p, free⟩
    · simp [spine, pages]
    have hupd := coe_pages_update p (fun _ => (absent : Radix B P α n)) (d (n + 1))
      (spine n free d).2.1
    have hempty : ((node p fun _ => (absent : Radix B P α n)).pages : Multiset P) = {p} := by
      rw [coe_pages_node]
      simp [pages]
    rw [hempty] at hupd
    have habsent : ((absent : Radix B P α n).pages : Multiset P) = 0 := rfl
    rw [habsent, add_zero] at hupd
    show ((spine n free d).1 : Multiset P) + (node p (update _ _ _)).pages = (p :: free : List P)
    rw [hupd, add_left_comm, ih free, Multiset.singleton_add, Multiset.cons_coe]

/-- `grow` moves pages from the free list into the tree. -/
theorem coe_pages_grow (t : Radix B P α n) (free : List P) (d : ℕ → Fin B) :
    ((t.grow free d).1 : Multiset P) + (t.grow free d).2.1.pages = free + t.pages := by
  induction t with
  | absent =>
    rw [show (absent.grow free d : List P × Radix B P α _ × Bool) = spine _ free d from rfl,
      coe_pages_spine]
    exact (add_zero _).symm
  | leaf p e => rfl
  | @node n p c ih =>
    have hupd := coe_pages_update p c (d (n + 1)) ((c (d (n + 1))).grow free d).2.1
    have hih := ih (d (n + 1))
    show (((c (d (n + 1))).grow free d).1 : Multiset P)
      + (node p (update c (d (n + 1)) ((c (d (n + 1))).grow free d).2.1)).pages = _
    apply add_right_cancel (b := ((c (d (n + 1))).pages : Multiset P))
    rw [add_assoc, hupd, add_left_comm, hih]
    ac_rfl

end Radix

end Lib
