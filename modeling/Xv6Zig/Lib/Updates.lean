/-
Xv6Zig/Lib/Updates.lean

Lists of updates to a map.

`applyUpdates f us` is the map `f` after the key/value pairs `us` have been
stored in order.  A later update to the same key wins, a key no update names
keeps its value, and updates that come in two lists can be applied one list
after the other.

`sum_update_add` is about one update under a sum over all keys: the value
that goes and the value that comes stand on opposite sides.  `update_field` is about
one update of records, of which a field stays as it is, and `update_cases` about what
is found after it.
-/
import Mathlib.Algebra.BigOperators.Group.Finset.Basic
import Mathlib.Data.Fintype.Basic

namespace Lib

open Function

variable {κ β : Type*} [DecidableEq κ]

/-- The map `f` after the updates `us`, in order. -/
def applyUpdates (f : κ → β) (us : List (κ × β)) : κ → β :=
  us.foldl (fun f u => update f u.1 u.2) f

theorem applyUpdates_append (f : κ → β) (us vs : List (κ × β)) :
    applyUpdates f (us ++ vs) = applyUpdates (applyUpdates f us) vs := by
  unfold applyUpdates
  rw [List.foldl_append]

@[simp] theorem applyUpdates_concat (f : κ → β) (us : List (κ × β)) (k : κ) (v : β) :
    applyUpdates f (us ++ [(k, v)]) = update (applyUpdates f us) k v := by
  rw [applyUpdates_append]
  rfl

theorem applyUpdates_of_notMem (f : κ → β) {us : List (κ × β)} {k : κ} (h : k ∉ us.map Prod.fst) :
    applyUpdates f us k = f k := by
  induction us using List.reverseRecOn with
  | nil => rfl
  | append_singleton us u ih =>
    rw [List.map_append, List.mem_append, not_or] at h
    obtain ⟨k', v⟩ := u
    have hne : k ≠ k' := fun heq => h.2 (List.mem_singleton.mpr heq)
    rw [applyUpdates_concat, update_of_ne hne, ih h.1]

/-- Keys stored in order with their values: a key that is named once has its
value. -/
theorem applyUpdates_zip (f : κ → β) {ks : List κ} {vs : List β} {j : ℕ} (hk : j < ks.length)
    (hv : j < vs.length) (honce : ∀ i (hi : i < ks.length), ks[i] = ks[j] → i = j) :
    applyUpdates f (ks.zip vs) ks[j] = vs[j] := by
  have hj : j < (ks.zip vs).length := by
    rw [List.length_zip]
    exact lt_min hk hv
  have hsplit : ks.zip vs = (ks.zip vs).take j ++ (ks[j], vs[j]) :: (ks.zip vs).drop (j + 1) := by
    rw [← List.getElem_zip (h := hj), List.getElem_cons_drop, List.take_append_drop]
  rw [hsplit, List.append_cons, applyUpdates_append, applyUpdates_of_notMem, applyUpdates_concat,
    update_self]
  -- what comes later is for other keys
  intro hmem
  obtain ⟨i, hi, heq⟩ := List.mem_iff_getElem.mp hmem
  rw [List.getElem_map, List.getElem_drop, List.getElem_zip] at heq
  have hlater := honce (j + 1 + i) _ heq
  omega

/-- A field of the value is kept by an update that keeps it at the key. -/
theorem update_field {γ : Type*} (g : β → γ) {f : κ → β} {k : κ} {v : β} (h : g v = g (f k))
    (j : κ) : g (update f k v j) = g (f j) := by
  rcases eq_or_ne j k with rfl | hne
  · rw [update_self, h]
  · rw [update_of_ne hne]

theorem update_cases {f : κ → β} {k j : κ} {v w : β} (h : update f k v j = w) :
    (j = k ∧ v = w) ∨ (j ≠ k ∧ f j = w) := by
  rcases eq_or_ne j k with rfl | hne
  · exact .inl ⟨rfl, by rwa [update_self] at h⟩
  · exact .inr ⟨hne, by rwa [update_of_ne hne] at h⟩

theorem sum_update_add {M : Type*} [AddCommMonoid M] [Fintype κ] (g : β → M) (f : κ → β) (k : κ)
    (v : β) : ∑ j, g (update f k v j) + g (f k) = ∑ j, g (f j) + g v := by
  have hrest : ∑ j ∈ Finset.univ.erase k, g (update f k v j)
      = ∑ j ∈ Finset.univ.erase k, g (f j) := by
    apply Finset.sum_congr rfl
    intro j hj
    rw [update_of_ne (Finset.ne_of_mem_erase hj)]
  rw [← Finset.add_sum_erase _ _ (Finset.mem_univ k), ← Finset.add_sum_erase _ _ (Finset.mem_univ k),
    hrest, update_self]
  ac_rfl

end Lib
