/-
Xv6Zig/Lib/Bytes.lean

Memory as bytes, and the little-endian numbers in it.

`load mem a n` is the number in the `n` bytes from `a` on, the first byte the
lowest; `store` writes one and `fill` sets a range to one byte.  A store is seen
by a load of the same place and by no load of another: `load_store` and
`load_congr` are all that the users of this memory need.

`slice` and `write` read and write a list of bytes.
-/
import Mathlib.Algebra.Group.Nat.Even
import Mathlib.Data.List.GetD
import Mathlib.Tactic.Ring

namespace Lib

open Function

/-- A memory of bytes. -/
abbrev Bytes := ℕ → UInt8

namespace Bytes

variable {mem mem' : Bytes} {a b n v : ℕ}

/-- The number in the `n` bytes from `a` on. -/
def load (mem : Bytes) (a : ℕ) : ℕ → ℕ
  | 0 => 0
  | n + 1 => (mem a).toNat + 256 * load mem (a + 1) n

/-- The memory with the low `n` bytes of `v` at `a`. -/
def store (mem : Bytes) (a n v : ℕ) : Bytes := fun x =>
  if a ≤ x ∧ x < a + n then UInt8.ofNat (v / 256 ^ (x - a)) else mem x

/-- The `n` bytes from `a` on. -/
def slice (mem : Bytes) (a n : ℕ) : List UInt8 := (List.range n).map fun i => mem (a + i)

/-- The memory with the bytes `l` at `a`. -/
def write (mem : Bytes) (a : ℕ) (l : List UInt8) : Bytes := fun x =>
  if a ≤ x ∧ x < a + l.length then l.getD (x - a) 0 else mem x

/-- The memory with `n` bytes from `a` on set to `x`. -/
def fill (mem : Bytes) (a n : ℕ) (x : UInt8) : Bytes := fun y =>
  if a ≤ y ∧ y < a + n then x else mem y

theorem store_of_lt (h : b < a) : mem.store a n v b = mem b :=
  if_neg fun hin => absurd hin.1 (not_le.mpr h)

theorem store_of_le (h : a + n ≤ b) : mem.store a n v b = mem b :=
  if_neg fun hin => absurd hin.2 (not_lt.mpr h)

theorem fill_of_mem (x : UInt8) (h₁ : a ≤ b) (h₂ : b < a + n) : mem.fill a n x b = x :=
  if_pos ⟨h₁, h₂⟩

theorem fill_of_lt (x : UInt8) (h : b < a) : mem.fill a n x b = mem b :=
  if_neg fun hin => absurd hin.1 (not_le.mpr h)

theorem fill_of_le (x : UInt8) (h : a + n ≤ b) : mem.fill a n x b = mem b :=
  if_neg fun hin => absurd hin.2 (not_lt.mpr h)

theorem load_congr (h : ∀ x, a ≤ x → x < a + n → mem x = mem' x) :
    mem.load a n = mem'.load a n := by
  induction n generalizing a with
  | zero => rfl
  | succ n ih =>
    show (mem a).toNat + 256 * mem.load (a + 1) n = (mem' a).toNat + 256 * mem'.load (a + 1) n
    rw [h a le_rfl (by omega), ih fun x h₁ h₂ => h x (by omega) (by omega)]

theorem load_of_zero (h : ∀ x, a ≤ x → x < a + n → mem x = 0) : mem.load a n = 0 := by
  induction n generalizing a with
  | zero => rfl
  | succ n ih =>
    show (mem a).toNat + 256 * mem.load (a + 1) n = 0
    rw [h a le_rfl (by omega), ih fun x h₁ h₂ => h x (by omega) (by omega)]
    rfl

theorem load_store_mod (mem : Bytes) (a n v : ℕ) : (mem.store a n v).load a n = v % 256 ^ n := by
  induction n generalizing mem a v with
  | zero => rw [pow_zero, Nat.mod_one]; rfl
  | succ n ih =>
    -- the bytes after the first are those of `v / 256`
    have hrest : (mem.store a (n + 1) v).load (a + 1) n
        = (mem.store (a + 1) n (v / 256)).load (a + 1) n := by
      apply load_congr
      intro x h₁ h₂
      show (if _ then _ else _) = if _ then _ else _
      rw [if_pos (by omega), if_pos (by omega), Nat.div_div_eq_div_mul,
        show x - a = (x - (a + 1)) + 1 by omega, pow_succ, mul_comm]
    have hfirst : (mem.store a (n + 1) v a).toNat = v % 256 := by
      show (if _ then _ else _ : UInt8).toNat = _
      rw [if_pos (by omega), Nat.sub_self, pow_zero, Nat.div_one]
      rfl
    show (mem.store a (n + 1) v a).toNat + 256 * (mem.store a (n + 1) v).load (a + 1) n = _
    rw [hfirst, hrest, ih, pow_succ, mul_comm (256 ^ n), Nat.mod_mul]

theorem load_store (mem : Bytes) (a : ℕ) (h : v < 256 ^ n) :
    (mem.store a n v).load a n = v := by
  rw [load_store_mod, Nat.mod_eq_of_lt h]

/-! ### Lists of bytes -/

@[simp] theorem length_slice (mem : Bytes) (a n : ℕ) : (mem.slice a n).length = n := by
  rw [slice, List.length_map, List.length_range]

theorem slice_congr (h : ∀ i < n, mem (a + i) = mem' (b + i)) :
    mem.slice a n = mem'.slice b n := by
  unfold slice
  apply List.map_congr_left
  intro i hi
  exact h i (List.mem_range.mp hi)

theorem take_slice (mem : Bytes) (a m n : ℕ) : (mem.slice a m).take n = mem.slice a (min n m) := by
  unfold slice
  rw [← List.map_take, List.take_range]

theorem drop_slice (mem : Bytes) (a m n : ℕ) : (mem.slice a m).drop n = mem.slice (a + n) (m - n) := by
  apply List.ext_getElem
  · simp
  · intro i _ _
    simp only [slice, List.getElem_drop, List.getElem_map, List.getElem_range, Nat.add_assoc]

theorem slice_append (mem : Bytes) (a m n : ℕ) :
    mem.slice a m ++ mem.slice (a + m) n = mem.slice a (m + n) := by
  rw [← List.take_append_drop m (mem.slice a (m + n)), take_slice, drop_slice,
    min_eq_left (Nat.le_add_right m n), Nat.add_sub_cancel_left]

theorem write_of_lt (l : List UInt8) (h : b < a) : mem.write a l b = mem b :=
  if_neg fun hin => absurd hin.1 (not_le.mpr h)

theorem write_of_le (l : List UInt8) (h : a + l.length ≤ b) : mem.write a l b = mem b :=
  if_neg fun hin => absurd hin.2 (not_lt.mpr h)

theorem write_add (mem : Bytes) (a : ℕ) {l : List UInt8} {i : ℕ} (h : i < l.length) :
    mem.write a l (a + i) = l[i] := by
  show (if _ then _ else _) = _
  rw [if_pos (by omega), Nat.add_sub_cancel_left]
  exact List.getElem_eq_getD 0 |>.symm

theorem write_congr {l : List UInt8} (h : mem b = mem' b ∨ a ≤ b ∧ b < a + l.length) :
    mem.write a l b = mem'.write a l b := by
  show (if _ then _ else _) = if _ then _ else _
  split
  · rfl
  · rename_i hout
    exact h.resolve_right hout

theorem write_append (mem : Bytes) (a : ℕ) (l l' : List UInt8) :
    (mem.write a l).write (a + l.length) l' = mem.write a (l ++ l') := by
  funext x
  show (if _ then _ else if _ then _ else _) = if _ then _ else _
  rw [List.length_append]
  rcases Nat.lt_or_ge x (a + l.length) with hlt | hge
  · rw [if_neg (by omega)]
    rcases Nat.lt_or_ge x a with hx | hx
    · rw [if_neg (by omega), if_neg (by omega)]
    · rw [if_pos (by omega), if_pos (by omega), List.getD_append _ _ _ _ (by omega)]
  · rw [if_neg (show ¬ (a ≤ x ∧ x < a + l.length) by omega)]
    by_cases hin : x < a + l.length + l'.length
    · rw [if_pos (by omega), if_pos (by omega), List.getD_append_right _ _ _ _ (by omega),
        Nat.sub_sub]
    · rw [if_neg (by omega), if_neg (by omega)]

@[simp] theorem write_nil (mem : Bytes) (a : ℕ) : mem.write a [] = mem := by
  funext x
  exact if_neg (by rw [List.length_nil]; omega)

theorem load_div (mem : Bytes) (a : ℕ) {i : ℕ} (h : i < n) :
    UInt8.ofNat (mem.load a n / 256 ^ i) = mem (a + i) := by
  induction n generalizing a i with
  | zero => exact absurd h (Nat.not_lt_zero i)
  | succ n ih =>
    have hbyte := (mem a).toNat_lt
    show UInt8.ofNat (((mem a).toNat + 256 * mem.load (a + 1) n) / 256 ^ i) = _
    cases i with
    | zero =>
      rw [pow_zero, Nat.div_one, Nat.add_zero, UInt8.ofNat_add, UInt8.ofNat_mul,
        UInt8.ofNat_toNat]
      show mem a + 0 * _ = mem a
      rw [UInt8.zero_mul, UInt8.add_zero]
    | succ i =>
      rw [pow_succ, mul_comm (256 ^ i), ← Nat.div_div_eq_div_mul,
        show ((mem a).toNat + 256 * mem.load (a + 1) n) / 256 = mem.load (a + 1) n by omega,
        ih (a + 1) (by omega), show a + 1 + i = a + (i + 1) by omega]

theorem store_load (mem mem' : Bytes) (a b n : ℕ) :
    mem.store a n (mem'.load b n) = mem.write a (mem'.slice b n) := by
  funext x
  show (if _ then _ else _) = if _ then _ else _
  rw [length_slice]
  split
  · rename_i hx
    have hlen : x - a < (mem'.slice b n).length := by rw [length_slice]; omega
    rw [load_div mem' b (by omega), ← List.getElem_eq_getD (h := hlen) 0]
    simp only [slice, List.getElem_map, List.getElem_range]
  · rfl

theorem update_eq_write (mem : Bytes) (a : ℕ) (x : UInt8) :
    update mem a x = mem.write a [x] := by
  funext y
  show _ = if _ then _ else _
  rw [List.length_singleton]
  rcases eq_or_ne y a with rfl | hne
  · rw [update_self, if_pos (by omega), Nat.sub_self]
    rfl
  · rw [update_of_ne hne, if_neg (by omega)]

theorem write_cons (mem : Bytes) (a : ℕ) (x : UInt8) (l : List UInt8) :
    mem.write a (x :: l) = write (update mem a x) (a + 1) l := by
  rw [update_eq_write]
  exact (write_append mem a [x] l).symm

theorem write_concat (mem : Bytes) (a : ℕ) (l : List UInt8) (x : UInt8) :
    mem.write a (l ++ [x]) = write (update mem (a + l.length) x) a l := by
  rw [← write_append, ← update_eq_write]
  funext y
  rcases eq_or_ne y (a + l.length) with rfl | hne
  · rw [update_self, write_of_le l le_rfl, update_self]
  · rw [update_of_ne hne]
    exact write_congr (.inl (update_of_ne hne _ _).symm)

theorem slice_one (mem : Bytes) (a : ℕ) : mem.slice a 1 = [mem a] := rfl

theorem slice_succ (mem : Bytes) (a n : ℕ) :
    mem.slice a (n + 1) = mem a :: mem.slice (a + 1) n := by
  rw [Nat.add_comm n, ← slice_append, slice_one, List.singleton_append]

theorem slice_write_of_disjoint {l : List UInt8} (h : a + n ≤ b ∨ b + l.length ≤ a) :
    (mem.write b l).slice a n = mem.slice a n := by
  apply slice_congr
  intro i hi
  rcases h with h | h
  · exact write_of_lt l (by omega)
  · exact write_of_le l (by omega)

theorem write_slice_add (mem : Bytes) {k : ℕ} (h : a + (k + n) ≤ b ∨ b + (k + n) ≤ a) :
    (mem.write a (mem.slice b k)).write (a + k) ((mem.write a (mem.slice b k)).slice (b + k) n)
      = mem.write a (mem.slice b (k + n)) := by
  have hlen : (mem.slice b k).length = k := length_slice mem b k
  have happend := write_append mem a (mem.slice b k) (mem.slice (b + k) n)
  rw [hlen] at happend
  rw [slice_write_of_disjoint (by omega), happend, slice_append]

theorem slice_write_self (mem : Bytes) (a : ℕ) (l : List UInt8) :
    (mem.write a l).slice a l.length = l := by
  apply List.ext_getElem
  · rw [length_slice]
  · intro i _ hi
    simp only [slice, List.getElem_map, List.getElem_range]
    exact write_add mem a hi

/-- The list with `l` in the place of what was there from `a` on. -/
def overwrite (c : List UInt8) (a : ℕ) (l : List UInt8) : List UInt8 :=
  c.take a ++ l ++ c.drop (a + l.length)

@[simp] theorem overwrite_nil (c : List UInt8) (a : ℕ) : overwrite c a [] = c := by
  rw [overwrite, List.append_nil, List.length_nil, Nat.add_zero, List.take_append_drop]

theorem length_overwrite {c : List UInt8} (l : List UInt8) (h : a ≤ c.length) :
    (overwrite c a l).length = max c.length (a + l.length) := by
  rw [overwrite, List.length_append, List.length_append, List.length_take, List.length_drop]
  omega

section Overwrite

variable {c l : List UInt8} (h : a ≤ c.length)
include h

theorem drop_overwrite (hn : a + l.length ≤ n) : (overwrite c a l).drop n = c.drop n := by
  have hlen : (c.take a ++ l).length = a + l.length := by
    rw [List.length_append, List.length_take_of_le h]
  rw [overwrite, List.drop_append, List.drop_of_length_le (by omega), List.nil_append, hlen,
    List.drop_drop, Nat.add_sub_cancel' hn]

theorem overwrite_append (l' : List UInt8) :
    overwrite (overwrite c a l) (a + l.length) l' = overwrite c a (l ++ l') := by
  have hlen : (c.take a ++ l).length = a + l.length := by
    rw [List.length_append, List.length_take_of_le h]
  have htake : (overwrite c a l).take (a + l.length) = c.take a ++ l := by
    rw [overwrite, List.take_left' hlen]
  rw [overwrite, htake, drop_overwrite h (Nat.le_add_right _ _), overwrite, List.length_append,
    List.append_assoc, List.append_assoc, List.append_assoc, List.append_assoc, Nat.add_assoc]

end Overwrite

theorem overwrite_slice (mem : Bytes) (l : List UInt8) (h : a ≤ n) :
    overwrite (mem.slice 0 n) a l = (mem.write a l).slice 0 (max n (a + l.length)) := by
  have hsplit : max n (a + l.length) = a + l.length + (n - (a + l.length)) := by omega
  have hbefore : (mem.write a l).slice 0 a = mem.slice 0 a :=
    slice_congr fun i hi => write_of_lt l (by omega)
  have hafter : (mem.write a l).slice (0 + (a + l.length)) (n - (a + l.length))
      = mem.slice (0 + (a + l.length)) (n - (a + l.length)) :=
    slice_congr fun i _ => write_of_le l (by omega)
  rw [overwrite, take_slice, drop_slice, min_eq_left h, hsplit, ← slice_append, ← slice_append,
    hbefore, hafter, Nat.zero_add, Nat.zero_add, slice_write_self]

end Bytes

end Lib
