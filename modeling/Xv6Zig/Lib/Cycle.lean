/-
Xv6Zig/Lib/Cycle.lean

Circular linked lists.

`Linked next l` says that following `next` goes through `l` and from its end back to its
start.  Where the list is cut makes no difference (`linked_append_comm`), so a change is
looked at from the place where it happens: there the chain is open between the last
node and the first (`linked_iff`).
-/
import Mathlib.Data.List.Rotate

namespace Lib

variable {α : Type*} {next : α → α} {l l' : List α}

/-- `next` goes around `l`. -/
def Linked (next : α → α) (l : List α) : Prop := l.map next = l.rotate 1

theorem linked_append_comm (h : Linked next (l ++ l')) : Linked next (l' ++ l) := by
  unfold Linked at *
  rw [← List.rotate_append_length_eq l l', List.map_rotate, h, List.rotate_rotate,
    List.rotate_rotate, Nat.add_comm]

theorem linked_iff {q p : α} {t init : List α} (h : init ++ [p] = q :: t) :
    Linked next (q :: t) ↔ init.map next = t ∧ next p = q := by
  unfold Linked
  have hlen : (init.map next).length = t.length := by
    have := congrArg List.length h
    simpa using this
  rw [List.rotate_cons_succ, List.rotate_zero, ← h, List.map_append, List.map_singleton]
  constructor
  · intro heq
    obtain ⟨h₁, h₂⟩ := List.append_inj heq hlen
    exact ⟨h₁, List.singleton_inj.mp h₂⟩
  · rintro ⟨h₁, h₂⟩
    rw [h₁, h₂]

theorem Linked.next_mem (h : Linked next l) {a : α} (ha : a ∈ l) : next a ∈ l := by
  have hmem : next a ∈ l.rotate 1 := h ▸ List.mem_map_of_mem ha
  exact List.mem_rotate.mp hmem

end Lib
