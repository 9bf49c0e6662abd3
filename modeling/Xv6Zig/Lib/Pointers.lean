/-
Xv6Zig/Lib/Pointers.lean

Cells that are allocated, and the pointers to them.

`ptr k` is the cell that the pointer at the place `k` leads to; 0 leads nowhere.
`Exclusive area used ptr` says that in `area` the used cells are those some pointer
leads to, and that no two pointers lead to the same one.  A pointer may be set to a
cell that was free, and any pointers may be cleared when their cells are freed.
-/
import Mathlib.Logic.Function.Basic
import Mathlib.Tactic.Common

namespace Lib

open Function

variable {κ : Type*} {area : ℕ → Prop} {used used' : ℕ → Bool} {ptr ptr' : κ → ℕ} {k : κ} {b : ℕ}

/-- A cell is used iff a pointer leads to it, and then only one. -/
structure Exclusive (area : ℕ → Prop) (used : ℕ → Bool) (ptr : κ → ℕ) : Prop where
  zero : ¬ area 0
  mem : ∀ {k}, ptr k ≠ 0 → area (ptr k)
  inj : ∀ {k k'}, ptr k ≠ 0 → ptr k = ptr k' → k = k'
  used_iff : ∀ {b}, area b → (used b = true ↔ ∃ k, ptr k = b)

namespace Exclusive

theorem ne_zero (h : Exclusive area used ptr) (hb : area b) : b ≠ 0 := by
  rintro rfl
  exact h.zero hb

theorem used_ptr (h : Exclusive area used ptr) (hk : ptr k ≠ 0) : used (ptr k) = true :=
  (h.used_iff (h.mem hk)).mpr ⟨k, rfl⟩

/-- No pointer leads to a free cell. -/
theorem ptr_ne (h : Exclusive area used ptr) (hb : area b) (hfree : used b = false) (k : κ) :
    ptr k ≠ b := by
  intro hk
  have hused := (h.used_iff hb).mpr ⟨k, hk⟩
  rw [hfree] at hused
  cases hused

theorem congr (h : Exclusive area used ptr) (hused : ∀ b, area b → used' b = used b)
    (hptr : ∀ k, ptr' k = ptr k) : Exclusive area used' ptr' := by
  obtain rfl : ptr' = ptr := funext hptr
  refine ⟨h.zero, h.mem, h.inj, fun {b} hb => ?_⟩
  rw [hused b hb]
  exact h.used_iff hb

/-- **A free cell is allocated**, and a pointer set to it. -/
theorem set [DecidableEq κ] (h : Exclusive area used ptr) (hk : ptr k = 0) (hb : area b)
    (hfree : used b = false) :
    Exclusive area (update used b true) (update ptr k b) := by
  have hne := h.ptr_ne hb hfree
  refine ⟨h.zero, fun {k'} hk' => ?_, fun {k' k''} hk' heq => ?_, fun {c} hc => ?_⟩
  · rcases eq_or_ne k' k with rfl | hkk
    · rwa [update_self]
    · rw [update_of_ne hkk] at hk' ⊢
      exact h.mem hk'
  · rcases eq_or_ne k' k with rfl | hkk
    · rcases eq_or_ne k'' k' with rfl | hkk'
      · rfl
      · rw [update_self, update_of_ne hkk'] at heq
        exact absurd heq.symm (hne k'')
    · rw [update_of_ne hkk] at hk' heq
      rcases eq_or_ne k'' k with rfl | hkk'
      · rw [update_self] at heq
        exact absurd heq (hne k')
      · rw [update_of_ne hkk'] at heq
        exact h.inj hk' heq
  · rcases eq_or_ne c b with rfl | hcb
    · rw [update_self]
      exact ⟨fun _ => ⟨k, update_self _ _ _⟩, fun _ => rfl⟩
    · rw [update_of_ne hcb, h.used_iff hc]
      -- the pointer that was set led nowhere before, and leads to another cell now
      constructor
      · rintro ⟨k', rfl⟩
        have hkk : k' ≠ k := fun heq => h.ne_zero hc (heq ▸ hk)
        exact ⟨k', update_of_ne hkk _ _⟩
      · rintro ⟨k', hk'⟩
        have hkk : k' ≠ k := by
          rintro rfl
          rw [update_self] at hk'
          exact hcb hk'.symm
        rw [update_of_ne hkk] at hk'
        exact ⟨k', hk'⟩

end Exclusive

end Lib
