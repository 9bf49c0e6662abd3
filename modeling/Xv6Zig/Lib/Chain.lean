/-
Xv6Zig/Lib/Chain.lean

Singly linked lists, with the links kept in the nodes.

`next a` is the link of the node `a`.  `Seg next x l y` says that following the links
from `x` one meets the nodes of `l`, in order, and is then at `y`; a list that ends
with null is a segment to `none`.  A segment looks at the links of its own nodes
only, so that writes to other nodes keep it (`Seg.update`), and it can be taken apart
and put together at any node (`seg_append`).
-/
import Mathlib.Data.List.Basic
import Mathlib.Logic.Function.Basic

namespace Lib

variable {α : Type*}

/-- From `x` through the nodes `l` to `y`. -/
def Seg (next : α → Option α) : Option α → List α → Option α → Prop
  | x, [], y => x = y
  | x, a :: l, y => x = some a ∧ Seg next (next a) l y

variable {next next' : α → Option α} {x y z : Option α} {a : α} {l l₁ l₂ : List α}

theorem seg_append : Seg next x (l₁ ++ l₂) z ↔ ∃ y, Seg next x l₁ y ∧ Seg next y l₂ z := by
  induction l₁ generalizing x with
  | nil => simp [Seg]
  | cons a l₁ ih =>
    constructor
    · rintro ⟨hx, hrest⟩
      obtain ⟨y, h₁, h₂⟩ := ih.mp hrest
      exact ⟨y, ⟨hx, h₁⟩, h₂⟩
    · rintro ⟨y, ⟨hx, h₁⟩, h₂⟩
      exact ⟨hx, ih.mpr ⟨y, h₁, h₂⟩⟩

theorem seg_concat : Seg next x (l ++ [a]) y ↔ Seg next x l (some a) ∧ next a = y := by
  rw [seg_append]
  constructor
  · rintro ⟨z, hl, rfl, hy⟩
    exact ⟨hl, hy⟩
  · rintro ⟨hl, hy⟩
    exact ⟨some a, hl, rfl, hy⟩

namespace Seg

theorem congr (h : Seg next x l y) (hnext : ∀ a ∈ l, next' a = next a) : Seg next' x l y := by
  induction l generalizing x with
  | nil => exact h
  | cons a l ih =>
    refine ⟨h.1, ?_⟩
    rw [hnext a List.mem_cons_self]
    exact ih h.2 fun b hb => hnext b (List.mem_cons_of_mem _ hb)

/-- A segment to null starts with the head of the list. -/
theorem eq_head? (h : Seg next x l none) : x = l.head? := by
  cases l with
  | nil => exact h
  | cons a l => exact h.1

variable [DecidableEq α]

/-- A write to a node outside of the segment. -/
theorem update (h : Seg next x l y) (ha : a ∉ l) (z : Option α) :
    Seg (Function.update next a z) x l y := by
  apply h.congr
  intro b hb
  apply Function.update_of_ne
  rintro rfl
  exact ha hb

theorem relink (h : Seg next x (l ++ [a]) y) (ha : a ∉ l) (z : Option α) :
    Seg (Function.update next a z) x (l ++ [a]) z :=
  seg_concat.mpr ⟨(seg_concat.mp h).1.update ha z, Function.update_self a z next⟩

end Seg

end Lib
