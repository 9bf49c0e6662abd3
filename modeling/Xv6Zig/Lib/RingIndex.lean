/-
Xv6Zig/Lib/RingIndex.lean

A ring with free-running 16-bit indices.

The producer counts what it has written with `hi`, the consumer what it has taken with
`lo`; the entry `x` is in cell `x % n`, and the counters wrap at `2 ^ 16`, of which `n`
is a divisor.  `Entries cells n lo hi l` says that the entries between the two are `l`.
It is kept by a store at `hi` as long as there are fewer than `n`, whether or not `hi`
has been advanced yet, and what is read at `lo` is the first entry.
-/
import Xv6Zig.Lib.Circular

namespace Lib

variable {β : Type*}

/-- The entries of a ring of `n` cells between the counters `lo` and `hi`. -/
structure Entries (cells : ℕ → β) (n : ℕ) (lo hi : UInt16) (l : List β) : Prop where
  le : l.length ≤ n
  hi_eq : hi = lo + .ofNat l.length
  cell : ∀ k (hk : k < l.length), cells ((lo.toNat + k) % n) = l[k]

namespace Entries

variable {cells : ℕ → β} {n : ℕ} {lo hi : UInt16} {l : List β} {x : β}

theorem nil (cells : ℕ → β) (n : ℕ) (lo : UInt16) : Entries cells n lo lo [] :=
  ⟨Nat.zero_le n, by simp, fun k hk => absurd hk (Nat.not_lt_zero k)⟩

/-- A counter that wraps names the same cell. -/
theorem toNat_add_mod (hn : n ∣ 2 ^ 16) (lo : UInt16) (k : ℕ) :
    (lo + .ofNat k).toNat % n = (lo.toNat + k) % n := by
  rw [UInt16.toNat_add, UInt16.toNat_ofNat', Nat.mod_mod_of_dvd _ hn, Nat.add_mod,
    Nat.mod_mod_of_dvd _ hn, ← Nat.add_mod]

theorem hi_mod (h : Entries cells n lo hi l) (hn : n ∣ 2 ^ 16) :
    hi.toNat % n = (lo.toNat + l.length) % n := by
  rw [h.hi_eq, toNat_add_mod hn]

/-- There is an entry exactly when the counters differ. -/
theorem eq_nil_iff (h : Entries cells n lo hi l) (hn : n < 2 ^ 16) : l = [] ↔ lo = hi := by
  constructor
  · rintro rfl
    simpa using h.hi_eq.symm
  · intro heq
    have hadd := congrArg UInt16.toNat h.hi_eq
    rw [← heq, UInt16.toNat_add, UInt16.toNat_ofNat',
      Nat.mod_eq_of_lt (lt_of_le_of_lt h.le hn)] at hadd
    have hle := h.le
    have hlo := lo.toNat_lt
    exact List.length_eq_zero_iff.mp (by omega)

theorem toNat_sub (h : Entries cells n lo hi l) (hn : n < 2 ^ 16) : (hi - lo).toNat = l.length := by
  have hle := h.le
  have hlo := lo.toNat_lt
  rw [UInt16.toNat_sub, h.hi_eq, UInt16.toNat_add, UInt16.toNat_ofNat',
    Nat.mod_eq_of_lt (lt_of_le_of_lt hle hn)]
  omega

/-- A store at `hi` does not touch the entries while there is room. -/
theorem store (h : Entries cells n lo hi l) (hn : n ∣ 2 ^ 16) (hroom : l.length < n) (x : β) :
    Entries (Function.update cells (hi.toNat % n) x) n lo hi l := by
  refine ⟨h.le, h.hi_eq, fun k hk => ?_⟩
  have hne : (lo.toNat + k) % n ≠ hi.toNat % n := by
    rw [h.hi_mod hn]
    exact mod_ne_of_lt (by omega) (by omega)
  rw [Function.update_of_ne hne]
  exact h.cell k hk

theorem push (h : Entries cells n lo hi l) (hn : n ∣ 2 ^ 16) (hroom : l.length < n)
    (hx : cells (hi.toNat % n) = x) : Entries cells n lo (hi + 1) (l ++ [x]) := by
  refine ⟨?_, ?_, fun k hk => ?_⟩
  · rw [List.length_append]
    exact hroom
  · rw [h.hi_eq, List.length_append, UInt16.ofNat_add, UInt16.add_assoc]
    rfl
  · rcases Nat.lt_or_ge k l.length with hlt | hge
    · rw [List.getElem_append_left hlt]
      exact h.cell k hlt
    · rw [List.length_append, List.length_singleton] at hk
      obtain rfl : k = l.length := by omega
      rw [List.getElem_append_right le_rfl, ← h.hi_mod hn, hx]
      simp

theorem head (h : Entries cells n lo hi (x :: l)) : cells (lo.toNat % n) = x := by
  have hcell := h.cell 0 (Nat.succ_pos _)
  simpa using hcell

theorem pop (h : Entries cells n lo hi (x :: l)) (hn : n ∣ 2 ^ 16) :
    Entries cells n (lo + 1) hi l := by
  refine ⟨(Nat.le_succ _).trans h.le, ?_, fun k hk => ?_⟩
  · rw [h.hi_eq, List.length_cons, UInt16.ofNat_add, UInt16.add_comm (UInt16.ofNat l.length),
      ← UInt16.add_assoc]
    rfl
  · have hcell := h.cell (k + 1) (Nat.succ_lt_succ hk)
    rw [List.getElem_cons_succ] at hcell
    rw [← hcell]
    congr 1
    have hone := toNat_add_mod hn lo 1
    rw [Nat.add_mod, show lo + 1 = lo + UInt16.ofNat 1 from rfl, hone, ← Nat.add_mod, add_assoc,
      add_comm 1 k]

end Entries

end Lib
