/-
Xv6Zig/Lib/Owners.lean

Exclusive locks and their owners.

`lock k` is the owner of the lock on `k`, if there is one, and `objs p` lists what
`p` has locked.  The two agree, and nobody has locked anything twice: this is kept
when a lock is taken that was free, and when its owner gives it back.
-/
import Mathlib.Data.List.Perm.Basic
import Mathlib.Logic.Function.Basic

namespace Lib

open Function

variable {κ π : Type*}

/-- The owners of locks and what they have locked. -/
structure Owners (lock : κ → Option π) (objs : π → List κ) : Prop where
  mem : ∀ {k p}, lock k = some p ↔ k ∈ objs p
  nodup : ∀ p, (objs p).Nodup

namespace Owners

variable {lock lock' : κ → Option π} {objs objs' : π → List κ} {k : κ} {p q : π}

/-- **Mutual exclusion.** -/
theorem unique (h : Owners lock objs) (hp : k ∈ objs p) (hq : k ∈ objs q) : q = p := by
  have hown := h.mem.mpr hp
  rw [h.mem.mpr hq] at hown
  exact Option.some.inj hown

theorem notMem_of_free (h : Owners lock objs) (hfree : lock k = none) (p : π) : k ∉ objs p := by
  intro hmem
  have hown := h.mem.mpr hmem
  rw [hfree] at hown
  cases hown

theorem congr (h : Owners lock objs) (hlock : lock' = lock) (hobjs : ∀ p, (objs' p).Perm (objs p)) :
    Owners lock' objs' := by
  refine ⟨?_, fun p => (hobjs p).nodup_iff.mpr (h.nodup p)⟩
  intro k p
  rw [hlock, (hobjs p).mem_iff]
  exact h.mem

variable [DecidableEq κ]

theorem acquire (h : Owners lock objs) (hfree : lock k = none)
    (hlock : lock' = update lock k (some p)) (hself : (objs' p).Perm (k :: objs p))
    (hother : ∀ q ≠ p, objs' q = objs q) : Owners lock' objs' := by
  have hnot := h.notMem_of_free hfree
  constructor
  · intro k' q
    rw [hlock]
    rcases eq_or_ne q p with rfl | hq
    · rw [hself.mem_iff, List.mem_cons]
      rcases eq_or_ne k' k with rfl | hk
      · simp
      · rw [update_of_ne hk, or_iff_right hk]
        exact h.mem
    · rw [hother q hq]
      rcases eq_or_ne k' k with rfl | hk
      · rw [update_self]
        exact ⟨fun heq => absurd (Option.some.inj heq).symm hq, fun hmem => absurd hmem (hnot q)⟩
      · rw [update_of_ne hk]
        exact h.mem
  · intro q
    rcases eq_or_ne q p with rfl | hq
    · exact hself.nodup_iff.mpr (List.nodup_cons.mpr ⟨hnot q, h.nodup q⟩)
    · rw [hother q hq]
      exact h.nodup q

theorem release (h : Owners lock objs) (hlock : lock' = update lock k none)
    (hself : (objs p).Perm (k :: objs' p)) (hother : ∀ q ≠ p, objs' q = objs q) :
    Owners lock' objs' := by
  have hmem : k ∈ objs p := hself.mem_iff.mpr List.mem_cons_self
  have hnodup := List.nodup_cons.mp (hself.nodup_iff.mp (h.nodup p))
  constructor
  · intro k' q
    rw [hlock]
    rcases eq_or_ne k' k with rfl | hk
    · rw [update_self]
      refine ⟨nofun, fun hmem' => ?_⟩
      rcases eq_or_ne q p with rfl | hq
      · exact absurd hmem' hnodup.1
      · rw [hother q hq] at hmem'
        exact absurd (h.unique hmem hmem') hq
    · rw [update_of_ne hk, h.mem]
      rcases eq_or_ne q p with rfl | hq
      · rw [hself.mem_iff, List.mem_cons, or_iff_right hk]
      · rw [hother q hq]
  · intro q
    rcases eq_or_ne q p with rfl | hq
    · exact hnodup.2
    · rw [hother q hq]
      exact h.nodup q

end Owners

end Lib
