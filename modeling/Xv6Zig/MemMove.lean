/-
Xv6Zig/MemMove.lean

The words of `custom_memcpy` and the two `memmove`s.

`custom_memcpy` (`kernel/vm.c`) copies bytes "until word aligned" and then words.  Its
first loop stops as soon as one of the two pointers is aligned, so the words are
aligned on both sides only if the pointers are congruent to begin with.

`memmove` of the kernel (`kernel/string.c`) and of the user library
(`user/ulib/ulib.c`) choose between a copy from the front and one from the back by
different tests.  Either copy is right if it does not write what it has yet to read.
-/
import Xv6Zig.CopyMem

namespace Xv6Zig

open Lib Function

variable {mem : Bytes} {dst src n : ℕ}

/-! ### Words -/

/-- The stores and loads of the second loop of `custom_memcpy`. -/
def wordAccesses : ℕ → ℕ → ℕ → List (ℕ × ℕ)
  | n + 8, dst, src => (dst, src) :: wordAccesses n (dst + 8) (src + 8)
  | _, _, _ => []

/-- The addresses `custom_memcpy` stores a word to and loads it from. -/
def memcpyWords (mem : Bytes) (dst src : ℕ) (n : Int32) : List (ℕ × ℕ) :=
  let (_, dst, src, n) := alignLoop n.toInt.toNat mem dst src
  wordAccesses n dst src

/-- A word is copied. -/
def copyWord (mem : Bytes) (a : ℕ × ℕ) : Bytes := mem.store a.1 8 (mem.load a.2 8)

/-- The bytes up to the next multiple of 8. -/
def gap (a : ℕ) : ℕ := (8 - a % 8) % 8

/-- The first loop stops where the first of the pointers is aligned. -/
theorem alignLoop_stop (mem : Bytes) (dst src n : ℕ) :
    (alignLoop n mem dst src).2 = (dst + min n (min (gap dst) (gap src)),
      src + min n (min (gap dst) (gap src)), n - min n (min (gap dst) (gap src))) := by
  induction n generalizing mem dst src with
  | zero => simp [alignLoop]
  | succ n ih =>
    unfold alignLoop
    split
    · rename_i hboth
      have hd : gap (dst + 1) + 1 = gap dst := by unfold gap; omega
      have hs : gap (src + 1) + 1 = gap src := by unfold gap; omega
      rw [ih, ← hd, ← hs, Prod.mk.injEq, Prod.mk.injEq]
      omega
    · rename_i hone
      have hzero : min (gap dst) (gap src) = 0 := by unfold gap; omega
      rw [hzero, Nat.min_zero]
      rfl

theorem wordAccesses_of_lt (h : n < 8) : wordAccesses n dst src = [] := by
  unfold wordAccesses
  split
  · omega
  · rfl

/-- The loop copies these words, one after the other. -/
theorem wordLoop_eq (n : ℕ) (mem : Bytes) (dst src : ℕ) : wordLoop n mem dst src =
    ((wordAccesses n dst src).foldl copyWord mem, dst + n / 8 * 8, src + n / 8 * 8, n % 8) := by
  induction n using Nat.strong_induction_on generalizing mem dst src with
  | _ n ih =>
    by_cases hn : n < 8
    · rw [wordLoop_of_lt hn, wordAccesses_of_lt hn, Nat.div_eq_of_lt hn, Nat.mod_eq_of_lt hn]
      simp
    · obtain ⟨n, rfl⟩ := Nat.exists_eq_add_of_le' (not_lt.mp hn)
      unfold wordLoop wordAccesses
      rw [ih n (by omega), List.foldl_cons, Nat.add_mod_right, Nat.add_div_right n (by decide),
        Nat.succ_mul, Nat.add_assoc dst, Nat.add_assoc src, Nat.add_comm 8]
      rfl

theorem wordAccesses_aligned (n : ℕ) :
    (∀ a ∈ wordAccesses n dst src, a.1 % 8 = 0 ∧ a.2 % 8 = 0) ↔
      n < 8 ∨ dst % 8 = 0 ∧ src % 8 = 0 := by
  induction n using Nat.strong_induction_on generalizing dst src with
  | _ n ih =>
    by_cases hn : n < 8
    · simp [wordAccesses_of_lt hn, hn]
    · obtain ⟨n, rfl⟩ := Nat.exists_eq_add_of_le' (not_lt.mp hn)
      unfold wordAccesses
      rw [List.forall_mem_cons, ih n (by omega)]
      omega

/-- **The words** that `custom_memcpy` copies between its bytes **are aligned** exactly if
the pointers are congruent modulo 8, or if there are too few bytes for a word. -/
theorem memcpy_aligned_iff (mem : Bytes) (dst src : ℕ) (n : Int32) :
    (customMemcpy mem dst src n =
      let (mem', dst', src', n') := alignLoop n.toInt.toNat mem dst src
      byteLoop (n' % 8) ((memcpyWords mem dst src n).foldl copyWord mem') (dst' + n' / 8 * 8)
        (src' + n' / 8 * 8)) ∧
    ((∀ a ∈ memcpyWords mem dst src n, a.1 % 8 = 0 ∧ a.2 % 8 = 0) ↔
      dst % 8 = src % 8 ∨ n.toInt < 8 + min (gap dst) (gap src)) := by
  constructor
  · unfold customMemcpy memcpyWords
    simp only [wordLoop_eq]
  have hstop := alignLoop_stop mem dst src n.toInt.toNat
  unfold memcpyWords
  rcases halign : alignLoop n.toInt.toNat mem dst src with ⟨mem', dst', src', n'⟩
  rw [halign] at hstop
  obtain ⟨rfl, hrest⟩ := Prod.mk.inj hstop
  cases hrest
  dsimp only
  rw [wordAccesses_aligned]
  unfold gap
  omega

/-- From a page of the kernel to the second byte of a page of the user. -/
theorem memcpy_misaligned :
    ¬ ∀ a ∈ memcpyWords (fun _ => 0) 0x4001 0x9000 16, a.1 % 8 = 0 ∧ a.2 % 8 = 0 := by
  decide

/-! ### `memmove` -/

/-- `*--d = *--s`, `n` times. -/
def backLoop : ℕ → Bytes → ℕ → ℕ → Bytes
  | 0, mem, _, _ => mem
  | n + 1, mem, d, s => backLoop n (update mem (d - 1) (mem (s - 1))) (d - 1) (s - 1)

/-- `memmove` of the kernel. -/
def memmove (mem : Bytes) (dst src : ℕ) (n : UInt32) : Bytes :=
  if n = 0 then mem
  else if src < dst ∧ dst < add64 src n.toNat then
    backLoop n.toNat mem (dst + n.toNat) (src + n.toNat)
  else byteLoop n.toNat mem dst src

/-- `memmove` of the user library.  Neither loop runs for a negative `n`. -/
def memmoveUser (mem : Bytes) (dst src : ℕ) (n : Int32) : Bytes :=
  if dst < src then byteLoop n.toInt.toNat mem dst src
  else backLoop n.toInt.toNat mem (dst + n.toInt.toNat) (src + n.toInt.toNat)

/-- A copy from the front to lower addresses, or apart. -/
theorem byteLoop_eq (mem : Bytes) (h : dst ≤ src ∨ src + n ≤ dst) :
    byteLoop n mem dst src = mem.write dst (mem.slice src n) := by
  induction n generalizing mem dst src with
  | zero => exact (Bytes.write_nil mem dst).symm
  | succ n ih =>
    have hrest : Bytes.slice (update mem dst (mem src)) (src + 1) n
        = mem.slice (src + 1) n := by
      apply Bytes.slice_congr
      intro i hi
      exact update_of_ne (by omega) _ _
    unfold byteLoop
    rw [ih _ (by omega), hrest, Bytes.slice_succ, Bytes.write_cons]

/-- A copy from the back to higher addresses. -/
theorem backLoop_eq (mem : Bytes) (h : src ≤ dst) :
    backLoop n mem (dst + n) (src + n) = mem.write dst (mem.slice src n) := by
  induction n generalizing mem with
  | zero => exact (Bytes.write_nil mem dst).symm
  | succ n ih =>
    have hrest : Bytes.slice (update mem (dst + n) (mem (src + n))) src n
        = mem.slice src n := by
      apply Bytes.slice_congr
      intro i hi
      exact update_of_ne (by omega) _ _
    show backLoop n (update mem (dst + n) (mem (src + n))) (dst + n) (src + n) = _
    rw [ih, hrest, ← Bytes.slice_append, Bytes.slice_one, Bytes.write_concat, Bytes.length_slice]

/-- **Both `memmove`s move the bytes**, however the ranges overlap, and nothing else
changes. -/
theorem memmove_moves (mem : Bytes) (dst src : ℕ) :
    (∀ n : UInt32, src + n.toNat < 2 ^ 64 → dst + n.toNat < 2 ^ 64 →
      memmove mem dst src n = mem.write dst (mem.slice src n.toNat)) ∧
    ∀ n : Int32, src + n.toInt.toNat < 2 ^ 64 → dst + n.toInt.toNat < 2 ^ 64 →
      memmoveUser mem dst src n = mem.write dst (mem.slice src n.toInt.toNat) := by
  refine ⟨fun n hsrc _ => ?_, fun n _ _ => ?_⟩
  · unfold memmove
    rw [add64, Nat.mod_eq_of_lt hsrc]
    split
    · rename_i hzero
      rw [hzero]
      exact (Bytes.write_nil mem dst).symm
    · split
      · rename_i hoverlap
        exact backLoop_eq mem (le_of_lt hoverlap.1)
      · exact byteLoop_eq mem (by omega)
  · unfold memmoveUser
    split
    · rename_i hlt
      exact byteLoop_eq mem (.inl hlt.le)
    · rename_i hge
      exact backLoop_eq mem (not_lt.mp hge)

theorem memmove_moves_overlap :
    (memmove (fun a => UInt8.ofNat a) 2 1 3).slice 0 6 = [0, 1, 1, 2, 3, 5] ∧
      (memmoveUser (fun a => UInt8.ofNat a) 1 2 3).slice 0 6 = [0, 2, 3, 4, 4, 5] := by
  rw [(memmove_moves _ 2 1).1 3 (by decide) (by decide),
    (memmove_moves _ 1 2).2 3 (by decide) (by decide)]
  decide

end Xv6Zig
