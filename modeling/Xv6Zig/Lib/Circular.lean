/-
Xv6Zig/Lib/Circular.lean

Streams in circular memory.

A memory of `n` cells holds a window of an unbounded stream: stream position
`x` lives in cell `x % n`.  `Holds mem n f lo hi` says the window `[lo, hi)`
of the stream `f` is in the memory.  As long as a window is no longer than
the memory, distinct positions of it live in distinct cells, so a store at a
position past the window (but less than one turn past its start) leaves the
window alone.

`storeAt` stores a block of cells that does not go around the end.  If it
starts where the window ends it lengthens the window (`storeAt_append`).
-/
import Mathlib.Logic.Function.Basic
import Mathlib.Data.Nat.ModEq
import Mathlib.Data.List.GetD

namespace Lib

variable {β : Type*}

/-- The positions `[lo, hi)` of the stream `f` are held in the memory `mem`
of `n` cells. -/
def Holds (mem : ℕ → β) (n : ℕ) (f : ℕ → β) (lo hi : ℕ) : Prop :=
  ∀ x, lo ≤ x → x < hi → mem (x % n) = f x

/-- Positions less than one turn apart live in distinct cells. -/
theorem mod_ne_of_lt {n x y : ℕ} (hxy : x < y) (hn : y < x + n) : x % n ≠ y % n := by
  intro h
  have hd : n ∣ y - x := (Nat.modEq_iff_dvd' hxy.le).mp h
  have hle := Nat.le_of_dvd (by omega) hd
  omega

namespace Holds

variable {mem : ℕ → β} {n : ℕ} {f : ℕ → β} {lo hi : ℕ}

theorem empty (mem : ℕ → β) (n : ℕ) (f : ℕ → β) (lo : ℕ) : Holds mem n f lo lo :=
  fun x h₁ h₂ => absurd h₁ (by omega)

/-- Dropping positions from the front of the window. -/
theorem drop (h : Holds mem n f lo hi) {lo' : ℕ} (hle : lo ≤ lo') : Holds mem n f lo' hi :=
  fun x h₁ h₂ => h x (hle.trans h₁) h₂

/-- A store at a position past the window, less than one turn past its
start, leaves the window alone. -/
theorem store (h : Holds mem n f lo hi) {p : ℕ} (b : β) (hhi : hi ≤ p) (hp : p < lo + n) :
    Holds (Function.update mem (p % n) b) n f lo hi := by
  intro x h₁ h₂
  have hne : x % n ≠ p % n := mod_ne_of_lt (by omega) (by omega)
  rw [Function.update_of_ne hne]
  exact h x h₁ h₂

/-- Extending the stream by the cells that follow the window. -/
theorem extend (h : Holds mem n f lo hi) {g : ℕ → β} {hi' : ℕ}
    (hold : ∀ x, x < hi → g x = f x)
    (hnew : ∀ x, hi ≤ x → x < hi' → g x = mem (x % n)) : Holds mem n g lo hi' := by
  intro x h₁ h₂
  by_cases hx : x < hi
  · rw [hold x hx]
    exact h x h₁ hx
  · exact (hnew x (by omega) h₂).symm

end Holds

/-! ### Blocks -/

/-- The cells `bs` stored from `pos` on. -/
def storeAt (mem : ℕ → β) (pos : ℕ) (bs : List β) : ℕ → β :=
  fun x => if pos ≤ x then (bs[x - pos]?).getD (mem x) else mem x

@[simp] theorem storeAt_nil (mem : ℕ → β) (pos : ℕ) : storeAt mem pos [] = mem := by
  funext x
  exact ite_self _

theorem storeAt_of_lt {mem : ℕ → β} {pos x : ℕ} (bs : List β) (h : x < pos) :
    storeAt mem pos bs x = mem x :=
  if_neg (Nat.not_le_of_lt h)

theorem storeAt_of_le {mem : ℕ → β} {pos x : ℕ} {bs : List β} (h : pos + bs.length ≤ x) :
    storeAt mem pos bs x = mem x := by
  have hnone : bs[x - pos]? = none := List.getElem?_eq_none (by omega)
  unfold storeAt
  rw [if_pos (by omega), hnone, Option.getD_none]

theorem storeAt_add {mem : ℕ → β} {pos j : ℕ} {bs : List β} (h : j < bs.length) :
    storeAt mem pos bs (pos + j) = bs[j] := by
  unfold storeAt
  rw [if_pos (Nat.le_add_right pos j), Nat.add_sub_cancel_left, List.getElem?_eq_getElem h,
    Option.getD_some]

/-- Without going around the end, the cells of a block are those of the
positions that follow. -/
theorem add_mod_of_le {n p j k : ℕ} (hwrap : p % n + k ≤ n) (hj : j < k) :
    (p + j) % n = p % n + j := by
  rw [Nat.add_mod, Nat.mod_eq_of_lt (show j < n by omega), Nat.mod_eq_of_lt (by omega)]

namespace Holds

variable {mem : ℕ → β} {n : ℕ} {f : ℕ → β} {lo hi : ℕ} {bs : List β}

/-- A block past the window leaves the window alone. -/
theorem storeAt_past (h : Holds mem n f lo hi) (hwrap : hi % n + bs.length ≤ n)
    (hroom : hi + bs.length ≤ lo + n) : Holds (storeAt mem (hi % n) bs) n f lo hi := by
  intro x h₁ h₂
  rw [← h x h₁ h₂]
  -- a cell of the block belongs to another position
  have hne : ∀ j < bs.length, x % n ≠ hi % n + j := by
    intro j hj
    rw [← add_mod_of_le hwrap hj]
    exact mod_ne_of_lt (by omega) (by omega)
  by_cases hlt : x % n < hi % n
  · exact storeAt_of_lt bs hlt
  · apply storeAt_of_le
    by_contra hin
    exact hne (x % n - hi % n) (by omega) (by omega)

/-- **A block stored where the window ends lengthens it.** -/
theorem storeAt_append {l : List β} {d : β} (h : Holds mem n (fun x => l.getD x d) lo l.length)
    (hwrap : l.length % n + bs.length ≤ n) (hroom : l.length + bs.length ≤ lo + n) :
    Holds (storeAt mem (l.length % n) bs) n (fun x => (l ++ bs).getD x d) lo (l ++ bs).length := by
  rw [List.length_append]
  apply (h.storeAt_past hwrap hroom).extend
  · intro x hx
    show (l ++ bs).getD x d = l.getD x d
    rw [List.getD_append l bs d x hx]
  · intro x h₁ h₂
    obtain ⟨j, rfl⟩ := Nat.exists_eq_add_of_le h₁
    have hj : j < bs.length := by omega
    show (l ++ bs).getD (l.length + j) d = _
    rw [add_mod_of_le hwrap hj, storeAt_add hj, List.getD_append_right l bs d _ h₁,
      Nat.add_sub_cancel_left, List.getD_eq_getElem bs d hj]

theorem load (h : Holds mem n f lo hi) {k : ℕ} (hk : lo + k ≤ hi) (hwrap : lo % n + k ≤ n) :
    ((List.range k).map fun j => mem (lo % n + j)) = (List.range k).map fun j => f (lo + j) := by
  apply List.map_congr_left
  intro j hj
  have hjk := List.mem_range.mp hj
  rw [← add_mod_of_le hwrap hjk]
  exact h (lo + j) (Nat.le_add_right lo j) (by omega)

end Holds

end Lib
