/-
Xv6Zig/Lib/Ledger.lean

Who holds what: resources that are spread over a finite family of holders.

The holdings are multisets and the ledger is their sum.  If nothing occurs
twice in the ledger then nothing occurs twice with one holder, and two
holders have nothing in common.  A transaction between some of the holders
leaves the ledger as it is.
-/
import Mathlib.Algebra.BigOperators.Group.Finset.Basic
import Mathlib.Algebra.Order.BigOperators.Group.Multiset
import Mathlib.Data.Fintype.Basic

namespace Lib

variable {ι α : Type*} [Fintype ι] {g : ι → Multiset α} {x : α} {i j : ι}

theorem mem_sum_of_mem (h : x ∈ g i) : x ∈ ∑ j, g j :=
  Multiset.mem_sum.mpr ⟨i, Finset.mem_univ i, h⟩

theorem countP_sum (P : α → Prop) [DecidablePred P] (g : ι → Multiset α) :
    (∑ j, g j).countP P = ∑ j, (g j).countP P :=
  map_sum (Multiset.countPAddMonoidHom P) g Finset.univ

variable [DecidableEq ι]

theorem sum_eq_add_erase (g : ι → Multiset α) (i : ι) :
    ∑ j, g j = g i + ∑ j ∈ Finset.univ.erase i, g j :=
  (Finset.add_sum_erase _ _ (Finset.mem_univ i)).symm

theorem nodup_of_nodup_sum (h : (∑ j, g j).Nodup) (i : ι) : (g i).Nodup := by
  rw [sum_eq_add_erase g i] at h
  exact (Multiset.nodup_add.mp h).1

/-- **Nothing has two holders.** -/
theorem holder_unique (h : (∑ j, g j).Nodup) (hi : x ∈ g i) (hj : x ∈ g j) : i = j := by
  by_contra hne
  rw [sum_eq_add_erase g i] at h
  have hdisj := (Multiset.nodup_add.mp h).2.2
  apply Multiset.disjoint_left.mp hdisj hi
  exact Multiset.mem_sum.mpr ⟨j, Finset.mem_erase.mpr ⟨Ne.symm hne, Finset.mem_univ j⟩, hj⟩

/-- **What some holders pass among themselves does not change the ledger.** -/
theorem sum_eq_of_transaction {g' : ι → Multiset α} (S : Finset ι)
    (hS : ∑ j ∈ S, g' j = ∑ j ∈ S, g j) (hrest : ∀ j ∉ S, g' j = g j) :
    ∑ j, g' j = ∑ j, g j := by
  have hcompl : ∑ j ∈ Sᶜ, g' j = ∑ j ∈ Sᶜ, g j := by
    apply Finset.sum_congr rfl
    intro j hj
    exact hrest j (Finset.mem_compl.mp hj)
  rw [← Finset.sum_add_sum_compl S, ← Finset.sum_add_sum_compl S, hS, hcompl]

end Lib
