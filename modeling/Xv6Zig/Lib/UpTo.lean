/-
Xv6Zig/Lib/UpTo.lean

A partial function along a range, up to the first place where it is not
defined.

`upTo f a n` lists the values of `f` at `a`, `a + 1`, … and stops early where `f`
has none.  A range can be cut in two: the second part counts only if all of the
first is there (`upTo_add`).
-/
import Mathlib.Data.List.Basic
import Mathlib.Data.Nat.Basic

namespace Lib

variable {β : Type*} {f : ℕ → Option β} {a m n : ℕ}

/-- The values of `f` at `a`, …, `a + n - 1`, up to the first that is none. -/
def upTo (f : ℕ → Option β) : ℕ → ℕ → List β
  | _, 0 => []
  | a, n + 1 =>
      match f a with
      | none => []
      | some x => x :: upTo f (a + 1) n

@[simp] theorem upTo_zero (f : ℕ → Option β) (a : ℕ) : upTo f a 0 = [] := rfl

theorem upTo_succ_of_none (n : ℕ) (h : f a = none) : upTo f a (n + 1) = [] := by
  unfold upTo
  rw [h]

theorem upTo_succ_of_some {x : β} (n : ℕ) (h : f a = some x) :
    upTo f a (n + 1) = x :: upTo f (a + 1) n := by
  conv_lhs => unfold upTo
  rw [h]

theorem upTo_of_none (n : ℕ) (h : f a = none) : upTo f a n = [] := by
  cases n with
  | zero => rfl
  | succ n => exact upTo_succ_of_none n h

theorem length_upTo_le (f : ℕ → Option β) (a n : ℕ) : (upTo f a n).length ≤ n := by
  induction n generalizing a with
  | zero => exact le_rfl
  | succ n ih =>
    rcases h : f a with - | x
    · rw [upTo_succ_of_none n h]
      exact Nat.zero_le _
    · rw [upTo_succ_of_some n h]
      exact Nat.succ_le_succ (ih (a + 1))

theorem lt_length_upTo {j : ℕ} :
    j < (upTo f a n).length ↔ j < n ∧ ∀ i ≤ j, f (a + i) ≠ none := by
  induction n generalizing a j with
  | zero => simp
  | succ n ih =>
    rcases h : f a with - | x
    · rw [upTo_succ_of_none n h]
      refine ⟨fun hj => absurd hj (Nat.not_lt_zero j), fun hall => ?_⟩
      exact absurd h (hall.2 0 (Nat.zero_le j))
    · rw [upTo_succ_of_some n h, List.length_cons]
      cases j with
      | zero => simp [h]
      | succ j =>
        rw [Nat.succ_lt_succ_iff, ih, Nat.succ_lt_succ_iff]
        refine and_congr_right fun _ => ⟨fun hall i hi => ?_, fun hall i hi => ?_⟩
        · cases i with
          | zero => simp [h]
          | succ i =>
            rw [show a + (i + 1) = a + 1 + i by omega]
            exact hall i (by omega)
        · rw [show a + 1 + i = a + (i + 1) by omega]
          exact hall (i + 1) (by omega)

theorem length_upTo_iff : (upTo f a n).length = n ↔ ∀ i < n, f (a + i) ≠ none := by
  constructor
  · intro h i hi
    rw [← h] at hi
    exact (lt_length_upTo.mp hi).2 i le_rfl
  · intro h
    apply le_antisymm (length_upTo_le f a n)
    by_contra hlt
    have hstop := lt_length_upTo.mpr ⟨not_le.mp hlt, fun i hi => h i (by omega)⟩
    exact absurd hstop (lt_irrefl _)

theorem get_upTo {j : ℕ} (h : j < (upTo f a n).length) : f (a + j) = some (upTo f a n)[j] := by
  induction n generalizing a j with
  | zero => exact absurd h (Nat.not_lt_zero j)
  | succ n ih =>
    rcases hf : f a with - | x
    · rw [upTo_succ_of_none n hf] at h
      exact absurd h (Nat.not_lt_zero j)
    · simp only [upTo_succ_of_some n hf, List.length_cons] at h ⊢
      cases j with
      | zero => exact hf
      | succ j =>
        rw [show a + (j + 1) = a + 1 + j by omega, ih (show j < (upTo f (a + 1) n).length by omega)]
        rfl

theorem mem_upTo {x : β} (h : x ∈ upTo f a n) : ∃ i < n, f (a + i) = some x := by
  obtain ⟨j, hj, rfl⟩ := List.mem_iff_getElem.mp h
  exact ⟨j, lt_of_lt_of_le hj (length_upTo_le f a n), get_upTo hj⟩

/-- Where the first part is all there, the second follows. -/
theorem upTo_add (n : ℕ) (h : ∀ i < m, f (a + i) ≠ none) :
    upTo f a (m + n) = upTo f a m ++ upTo f (a + m) n := by
  induction m generalizing a with
  | zero => rw [Nat.zero_add, Nat.add_zero]; rfl
  | succ m ih =>
    obtain ⟨x, hx⟩ := Option.ne_none_iff_exists'.mp (h 0 (Nat.succ_pos m))
    rw [Nat.add_zero] at hx
    have hrest : ∀ i < m, f (a + 1 + i) ≠ none := by
      intro i hi
      rw [show a + 1 + i = a + (i + 1) by omega]
      exact h (i + 1) (by omega)
    rw [show m + 1 + n = m + n + 1 by omega, upTo_succ_of_some _ hx, upTo_succ_of_some _ hx,
      ih hrest, List.cons_append, show a + 1 + m = a + (m + 1) by omega]

/-- A part where the places of the values are consecutive. -/
theorem upTo_range' {g : ℕ → Option ℕ} {b : ℕ} (h : ∀ i < n, g (a + i) = some (b + i)) :
    upTo g a n = List.range' b n := by
  have hlen : (upTo g a n).length = n := by
    rw [length_upTo_iff]
    intro i hi
    rw [h i hi]
    exact Option.some_ne_none _
  apply List.ext_getElem
  · rw [hlen, List.length_range']
  · intro i h₁ h₂
    have hval := get_upTo h₁
    rw [h i (by omega)] at hval
    rw [List.getElem_range', Nat.one_mul]
    exact (Option.some.inj hval).symm

end Lib
