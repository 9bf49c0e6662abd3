/-
Xv6Zig/Fs/FileBytes.lean

A file is an array of bytes.

A `writei` that writes all it was given replaces these bytes of the contents, `readi`
then reads the contents, and the other inodes have theirs.  It fails, without a
change, iff the range is not one a file can have.
-/
import Xv6Zig.Fs.LogWrites

namespace Xv6Zig

open Lib Function

namespace Blocks

variable {B B' : Blocks} {D : ℕ → Dinode} {d d' : Dinode} {i j n off room : ℕ}
variable {src : List (Option UInt8)}

/-- `readi`, also of a range that is none: such a range has no bytes. -/
theorem Owns.readi_eq (h : Owns B (update D i d)) (hd : d.type ≠ 0) (hroom : n ≤ room) :
    B.readi d off n room = .ok (some (if off + n < 2 ^ 32 then
      ((d.contents B.data).drop off).take n else []), B, d) := by
  obtain ⟨r, hread, hr⟩ : ∃ r, B.readi d off n room = .ok (r, B, d) ∧ _ := h.readi hd off n
  split
  · rename_i hlt
    rw [hread, hr hroom hlt]
  · rename_i hge
    unfold Blocks.readi
    rw [if_pos (.inr (not_lt.mp hge))]

/-- All is written only if all could be copied. -/
theorem copied_of_length (h : (copied src).length = src.length) : (copied src).map some = src := by
  rw [map_some_copied]
  rw [length_copied] at h
  exact (List.takeWhile_prefix _).eq_of_length h

/-- **A file is an array of bytes.** -/
theorem writei_replaces_bytes (h : Owns B (update D i d)) (hd : d.type ≠ 0)
    (src : List (Option UInt8)) (off : ℕ) :
    ∃ r B' d', B.writei d src off = .ok (r, B', d') ∧
      (r = none ↔ d.size.toNat < off ∨ 2 ^ 32 ≤ off + src.length ∨
        maxFile * bSize < off + src.length) ∧
      (r = none → B' = B ∧ d' = d) ∧
      (r = some src.length →
        (copied src).map some = src ∧
        d'.contents B'.data = Bytes.overwrite (d.contents B.data) off (copied src) ∧
        (∀ off' n room, n ≤ room → B'.readi d' off' n room = .ok (some (if off' + n < 2 ^ 32 then
          ((Bytes.overwrite (d.contents B.data) off (copied src)).drop off').take n else []),
          B', d')) ∧
        ∀ j ≠ i, (D j).type ≠ 0 → (D j).contents B'.data = (D j).contents B.data) := by
  rw [← writeiLogged_eq i]
  by_cases hin : d.size.toNat < off ∨ 2 ^ 32 ≤ off + src.length ∨ maxFile * bSize < off + src.length
  · rw [writeiLogged_none hin]
    exact ⟨none, B, d, rfl, ⟨fun _ => hin, fun _ => rfl⟩, fun _ => ⟨rfl, rfl⟩, nofun⟩
  · have hoff : off ≤ d.size.toNat := by omega
    have hmax : off + src.length ≤ maxFile * bSize := by omega
    obtain ⟨tot, put, B', d', log, hwritei, hw⟩ := h.writeiLogged hd hoff hmax
    have hd' : (grown d' (off + tot)).type ≠ 0 := by
      rw [(sameKind_grown d' _).type, hw.same.type]
      exact hd
    rw [hwritei]
    refine ⟨_, B', _, rfl, ⟨nofun, fun hout => absurd hout hin⟩, nofun, fun htot => ?_⟩
    obtain rfl : tot = src.length := Option.some.inj htot
    obtain ⟨hput, hput', -⟩ := hw.ended.le
    have hlen := length_copied_le src
    have hall : (copied src).length = src.length := by omega
    have hcontents : (grown d' (off + src.length)).contents B'.data
        = Bytes.overwrite (d.contents B.data) off (copied src) := by
      rw [hw.contents h hd hoff hmax (by omega), ← hall, List.take_length]
    refine ⟨copied_of_length hall, hcontents, fun off' n room hroom => ?_, fun j hj htype => ?_⟩
    · rw [← hcontents]
      exact (hw.owns_grown hmax).readi_eq hd' hroom
    · refine hw.apart.contents hj htype fun k hk => ?_
      have hbelow := h.below (i := j) (k := k)
      rw [update_of_ne hj] at hbelow
      exact hbelow htype hk

/-! ### A disk with one file -/

/-- An inode with the bytes 7, 7, 7 in the block 46. -/
def oneFile : Dinode := { Dinode.zero with
  type := tFile
  nlink := 1
  size := 3
  addrs := fun k => if k = 0 then 46 else 0 }

/-- Its blocks. -/
def oneFileBlocks : Blocks := ⟨fun b => b < 47, fun _ _ => 7⟩

theorem ptr_oneFile (data : ℕ → Bytes) (k : ℕ) :
    oneFile.ptr data k = if k = 0 then 46 else 0 := by
  have haddr : ∀ k, oneFile.addr k = if k = 0 then 46 else 0 := by
    intro k
    unfold Dinode.addr
    split
    · rename_i hk
      show (if (⟨k, hk⟩ : Fin (nDirect + 1)) = 0 then 46 else 0 : UInt32).toNat = _
      rcases Nat.eq_zero_or_pos k with rfl | hpos
      · rfl
      · rw [if_neg (by rintro ⟨⟩; exact lt_irrefl 0 hpos), if_neg hpos.ne']
        rfl
    · rename_i hk
      have hdirect : nDirect = 12 := rfl
      rw [if_neg (by omega)]
  have hind : oneFile.addr nDirect = 0 := by rw [haddr]; rfl
  have hdirect : nDirect = 12 := rfl
  unfold Dinode.ptr
  rw [hind, haddr, if_pos rfl]
  split
  · rfl
  · rw [if_neg (show k ≠ 0 by omega), ite_self, ite_self]

theorem oneFile_owns : Owns oneFileBlocks (update (fun _ => Dinode.zero) 2 oneFile) := by
  have hptrs : ∀ x, ptrs oneFileBlocks.data (update (fun _ => Dinode.zero) 2 oneFile) x
      = if x = (2, 0) then 46 else 0 := by
    rintro ⟨j, k⟩
    rcases eq_or_ne j 2 with rfl | hj
    · rw [ptrs_of_type (by rw [update_self]; decide), update_self, ptr_oneFile]
      rcases eq_or_ne k 0 with rfl | hk
      · rfl
      · rw [if_neg hk, if_neg fun heq => hk (Prod.mk.inj heq).2]
    · unfold ptrs
      dsimp only
      rw [update_of_ne hj, if_neg fun heq => hj (Prod.mk.inj heq).1]
      rfl
  have hself : ∀ {j}, (update (fun _ => Dinode.zero) 2 oneFile j).type ≠ 0 → j = 2 := by
    intro j hj
    by_contra hne
    rw [update_of_ne hne] at hj
    exact hj rfl
  refine ⟨⟨by decide, ?_, ?_, ?_⟩, ?_, ?_, ?_⟩
  · intro x hx
    rw [hptrs] at hx ⊢
    split at hx
    · rename_i heq
      rw [if_pos heq]
      decide
    · exact absurd rfl hx
  · intro x y hx heq
    rw [hptrs] at hx heq
    rw [hptrs] at heq
    split at hx
    · rename_i hxeq
      rw [if_pos hxeq] at heq
      split at heq
      · rename_i hyeq
        rw [hxeq, hyeq]
      · cases heq
    · exact absurd rfl hx
  · rintro b ⟨hlo, hhi⟩
    have hstart : dataStart = 46 := rfl
    show decide (b < 47) = true ↔ _
    rw [decide_eq_true_iff]
    constructor
    · intro hlt
      refine ⟨(2, 0), ?_⟩
      rw [hptrs, if_pos rfl]
      omega
    · rintro ⟨x, hx⟩
      rw [hptrs] at hx
      split at hx
      · omega
      · omega
  · intro b hb
    have hstart : dataStart = 46 := rfl
    exact decide_eq_true (by omega)
  · intro j hj
    obtain rfl := hself hj
    rw [update_self]
    decide
  · intro j k hj hk
    obtain rfl := hself hj
    rw [update_self] at hk ⊢
    have hsize : oneFile.size.toNat = 3 := rfl
    have hb : bSize = 1024 := rfl
    rw [hsize, hb] at hk
    rw [ptr_oneFile, if_pos (by omega)]
    decide

/-- Two bytes are written at 2. -/
theorem writei_replaces_bytes_oneFile : ∃ B' d',
    oneFileBlocks.writei oneFile [some 1, some 2] 2 = .ok (some 2, B', d') ∧
      d'.contents B'.data = [7, 7, 1, 2] := by
  obtain ⟨r, B', d', hwritei, -, -, hall⟩ :=
    writei_replaces_bytes oneFile_owns (by decide) [some 1, some 2] 2
  have hr : (oneFileBlocks.writei oneFile [some 1, some 2] 2).toOption.map Prod.fst
      = some (some 2) := by rfl
  rw [hwritei] at hr
  obtain rfl : r = some 2 := Option.some.inj hr
  refine ⟨B', d', hwritei, ?_⟩
  rw [(hall rfl).2.1]
  rfl

end Blocks

end Xv6Zig
