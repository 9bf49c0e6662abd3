/-
Xv6Zig/Fs/FileRead.lean

`fileread` (`kernel/file.c`) of an inode, with what it stores in user memory.

The caller's `int n` becomes a `uint` in `readi`.  A negative one is a large number
there: if the offset is large enough the sum with it wraps around and nothing is read,
but from an offset in front of that the sum is merely beyond the end of the file, and
all the rest of the file is read.
-/
import Xv6Zig.Fs.FileBytes
import Xv6Zig.UserCopy
import Xv6Zig.PipeStream

namespace Xv6Zig

open Lib Function

namespace Blocks

/-- The loop of `readi` to the user's address `dst`: the bytes it stores, and how many it has
read, `none` for -1. -/
def readLoopTo (pt : PageTable) : ℕ → Blocks → Dinode → ℕ → ℕ → ℕ →
    Except FsPanic ((List (ℕ × UInt8) × Option ℕ) × Blocks × Dinode)
  | 0, B, d, _, _, _ => .ok (([], some 0), B, d)
  | fuel + 1, B, d, dst, off, n =>
    if n = 0 then .ok (([], some 0), B, d)
    else do
      let (addr, B, d) ← B.bmap d (off / bSize)
      if addr = 0 then .ok (([], some 0), B, d)
      else do
        let buf ← B.bread addr
        let m := min n (bSize - off % bSize)
        let (addrs, ok) := copyAddrs pt m dst m
        let stores := addrs.zip (buf.slice (off % bSize) m)
        if ok then do
          let ((rest, r), B, d) ← readLoopTo pt fuel B d (add64 dst m) (off + m) (n - m)
          .ok ((stores ++ rest, r.map (m + ·)), B, d)
        else .ok ((stores, none), B, d)

/-- `readi(ip, 1, dst, off, n)` -/
def readiTo (pt : PageTable) (B : Blocks) (d : Dinode) (dst off n : ℕ) :
    Except FsPanic ((List (ℕ × UInt8) × Option ℕ) × Blocks × Dinode) :=
  if d.size.toNat < off ∨ 2 ^ 32 ≤ off + n then .ok (([], some 0), B, d)
  else
    let n := if d.size.toNat < off + n then d.size.toNat - off else n
    readLoopTo pt n B d dst off n

/-- What a call of `fileread` returns, the offset of the file after it, and what it stored. -/
structure FileRead where
  ret : ℤ
  off : ℕ
  stores : List (ℕ × UInt8)

/-- `fileread` of a file that is open for reading, at the offset `off`. -/
def fileread (pt : PageTable) (B : Blocks) (d : Dinode) (off addr : ℕ) (n : Int32) :
    Except FsPanic (FileRead × Blocks × Dinode) := do
  let ((stores, r), B, d) ← readiTo pt B d addr off n.toUInt32.toNat
  let ret : ℤ := match r with
    | none => -1
    | some tot => tot
  .ok (⟨ret, if 0 < ret then off + ret.toNat else off, stores⟩, B, d)

variable {pt : PageTable} {B B' : Blocks} {D : ℕ → Dinode} {d d' : Dinode}
variable {i n off dst addr : ℕ}

/-- **The loop of `readi`** stores what of the contents can be stored. -/
theorem Owns.readLoopTo {fuel : ℕ} (h : Owns B (update D i d)) (hd : d.type ≠ 0)
    (hdst : dst < 2 ^ 64) (hfuel : n ≤ fuel) (hsize : off + n ≤ d.size.toNat) :
    readLoopTo pt fuel B d dst off n =
      .ok (((reach pt dst n).zip (Bytes.slice (d.byte B.data) off n),
        if copyout pt dst n = true then some n else none), B, d) := by
  induction fuel generalizing off n dst with
  | zero =>
    obtain rfl : n = 0 := by omega
    rfl
  | succ fuel ih =>
    rw [Blocks.readLoopTo]
    split
    · rename_i h0
      subst h0
      rfl
    · rename_i hn
      have hmax := h.size_le_self hd
      have hmod := Nat.mod_lt off bSize_pos
      have hdiv := Nat.div_mul_le_self off bSize
      have hne : d.ptr B.data (off / bSize) ≠ 0 := h.below_self hd (by omega)
      have hlt : off / bSize < maxFile := (Nat.div_lt_iff_lt_mul bSize_pos).mpr (by omega)
      rw [h.bmap_of_ne hd hlt hne, ok_bind]
      simp only [if_neg hne, bread_ok (h.inArea_self hd hne), ok_bind]
      generalize hm : min n (bSize - off % bSize) = m
      have hmn : m ≤ n := hm ▸ min_le_left _ _
      have hmb : m ≤ bSize - off % bSize := hm ▸ min_le_right _ _
      have hm0 : 0 < m := hm ▸ lt_min (by omega) (by omega)
      obtain ⟨k, rfl⟩ := Nat.exists_eq_add_of_le hmn
      rw [copyAddrs_ok, slice_block (by omega), Nat.add_sub_cancel_left]
      show (if copyout pt dst m = true then _ else _) = _
      cases hok : copyout pt dst m with
      | true =>
        have hreach : (reach pt dst m).length = m := length_reach_iff.mp hok
        rw [if_pos rfl, add64_of_copyout hdst hok,
          ih (add_lt_of_copyout hdst hok) (by omega) (by omega), ok_bind, copyout_add hok,
          reach_add hok, zip_append_of_le hreach (by rw [Bytes.length_slice]; omega),
          Bytes.drop_slice, Nat.add_sub_cancel_left, ← zip_take_of_length_le hreach.le,
          Bytes.take_slice, min_eq_left (Nat.le_add_right m k)]
        dsimp only
        split
        · rfl
        · rfl
      | false =>
        have hreach : (reach pt dst m).length ≤ m := (reached pt dst m).le
        have hzip : (reach pt dst m).zip (Bytes.slice (d.byte B.data) off m)
            = (reach pt dst m).zip (Bytes.slice (d.byte B.data) off (m + k)) := by
          conv_rhs =>
            rw [← zip_take_of_length_le hreach, Bytes.take_slice, min_eq_left (Nat.le_add_right m k)]
        rw [if_neg Bool.false_ne_true, reach_of_short hok, copyout_of_short hok,
          if_neg Bool.false_ne_true, ← hzip]
        rfl

/-- **`fileread`**: `k` bytes are asked for, and as many as can be stored are. -/
theorem Owns.fileread_of {k : ℕ} {n : Int32} (h : Owns B (update D i d)) (hd : d.type ≠ 0)
    (haddr : addr < 2 ^ 64) (hk : off + k ≤ d.size.toNat)
    (hread : readiTo pt B d addr off n.toUInt32.toNat = Blocks.readLoopTo pt k B d addr off k) :
    fileread pt B d off addr n = .ok (⟨if copyout pt addr k = true then k else -1,
      if copyout pt addr k = true then off + k else off,
      (reach pt addr k).zip (Bytes.slice (d.byte B.data) off k)⟩, B, d) := by
  unfold fileread
  rw [hread, h.readLoopTo hd haddr le_rfl hk, ok_bind]
  dsimp only
  cases copyout pt addr k with
  | true =>
    rw [if_pos rfl, if_pos rfl, if_pos rfl]
    dsimp only
    congr 3
    split
    · rfl
    · omega
  | false => rfl

/-- The bytes that `fileread` should store. -/
def requested (d : Dinode) (off : ℕ) (n : Int32) : ℕ := min n.toInt.toNat (d.size.toNat - off)

/-- `fileread` does what was asked for. -/
structure Bounded (pt : PageTable) (d : Dinode) (off addr : ℕ) (n : Int32) (r : FileRead) :
    Prop where
  stores_le : (r.stores.length : ℤ) ≤ max n.toInt 0
  ret : r.ret = -1 ∧ (∃ x < requested d off n, translate pt (addr + x) = none) ∨
    r.ret = requested d off n
  off : r.off = off + r.ret.toNat

/-- The count as `readi` sees it. -/
theorem toNat_toUInt32 (n : Int32) :
    (n.toUInt32.toNat : ℤ) = if 0 ≤ n.toInt then n.toInt else 2 ^ 32 + n.toInt := by
  have hint : n.toInt = n.toUInt32.toBitVec.toInt := rfl
  have hlt := n.toUInt32.toBitVec.isLt
  rw [hint, BitVec.toInt_eq_toNat_cond]
  show (n.toUInt32.toBitVec.toNat : ℤ) = _
  split
  · rw [if_pos (by omega)]
  · rw [if_neg (by omega)]
    omega

section Bounds

variable (h : Owns B (update D i d)) (hd : d.type ≠ 0) (haddr : addr < 2 ^ 64) {n : Int32}

theorem fileread_of_none (hout : d.size.toNat < off ∨ 2 ^ 32 ≤ off + n.toUInt32.toNat) :
    fileread pt B d off addr n = .ok (⟨0, off, []⟩, B, d) := by
  unfold fileread readiTo
  rw [if_pos hout]
  rfl

include h hd haddr

theorem Owns.fileread_bounded
    (hread : readiTo pt B d addr off n.toUInt32.toNat
      = Blocks.readLoopTo pt (requested d off n) B d addr off (requested d off n))
    (hoff : off ≤ d.size.toNat) :
    ∃ r, fileread pt B d off addr n = .ok (r, B, d) ∧ Bounded pt d off addr n r := by
  have hle : requested d off n ≤ d.size.toNat - off := min_le_right _ _
  have hn : requested d off n ≤ n.toInt.toNat := min_le_left _ _
  have hreached := reached pt addr (requested d off n)
  refine ⟨_, h.fileread_of hd haddr (by omega) hread, ?_, ?_, ?_⟩
  · have hlen := hreached.le
    rw [List.length_zip]
    omega
  · dsimp only
    cases hok : copyout pt addr (requested d off n) with
    | true => exact .inr (if_pos rfl)
    | false =>
      rw [hok] at hreached
      have hlt : (reach pt addr (requested d off n)).length < requested d off n :=
        lt_of_le_of_ne hreached.le fun heq => Bool.false_ne_true (hreached.ok_iff.mpr heq)
      exact .inl ⟨if_neg Bool.false_ne_true, _, hlt, hreached.stop hlt⟩
  · dsimp only
    split
    · rfl
    · rfl

/-- **`fileread` does what was asked for iff** the count is not negative, or there is nothing
behind the offset, or the offset is large enough for the sum to wrap around. -/
theorem fileread_bounded_iff (off : ℕ) :
    (∃ r, fileread pt B d off addr n = .ok (r, B, d) ∧ Bounded pt d off addr n r) ↔
      0 ≤ n.toInt ∨ d.size.toNat ≤ off ∨ -n.toInt ≤ off := by
  have hsize := h.size_le_self hd
  have hnum : maxFile * bSize = 274432 := rfl
  have huint := toNat_toUInt32 n
  have hmin := n.le_toInt
  have hmax := n.toInt_lt
  by_cases hout : d.size.toNat < off ∨ 2 ^ 32 ≤ off + n.toUInt32.toNat
  · -- nothing is read
    have hzero : requested d off n = 0 := by
      unfold requested
      split at huint
      · omega
      · omega
    refine ⟨fun _ => ?_, fun _ => ⟨_, fileread_of_none hout, ?_, ?_, rfl⟩⟩
    · split at huint
      · omega
      · omega
    · exact le_max_right _ _
    · rw [hzero]
      exact .inr rfl
  · have hread : ∀ k, (if d.size.toNat < off + n.toUInt32.toNat then d.size.toNat - off
        else n.toUInt32.toNat) = k → readiTo pt B d addr off n.toUInt32.toNat
          = Blocks.readLoopTo pt k B d addr off k := by
      rintro k rfl
      unfold readiTo
      rw [if_neg hout]
    split at huint
    · -- a count that is none too many
      rename_i hn
      refine ⟨fun _ => .inl hn, fun _ => h.fileread_bounded hd haddr (hread _ ?_) (by omega)⟩
      unfold requested
      split
      · omega
      · omega
    · -- the rest of the file
      rename_i hn
      have hrest := hread (d.size.toNat - off) (if_pos (by omega))
      constructor
      · rintro ⟨r, hr, hbounded⟩
        rw [h.fileread_of hd haddr (by omega) hrest] at hr
        obtain ⟨rfl, -⟩ := Prod.mk.inj (Except.ok.inj hr)
        have hzero : requested d off n = 0 := by
          unfold requested
          omega
        have hret := hbounded.ret
        rw [hzero] at hret
        obtain ⟨-, x, hx, -⟩ | hret := hret
        · exact absurd hx (Nat.not_lt_zero x)
        · dsimp only at hret
          split at hret
          · omega
          · cases hret
      · intro hcond
        have hzero : d.size.toNat - off = requested d off n := by
          unfold requested
          omega
        rw [hzero] at hrest
        exact h.fileread_bounded hd haddr hrest (by omega)

end Bounds

/-- Three bytes of a file are read by a caller that asks for three. -/
theorem fileread_bounded_iff_oneFile :
    ∃ r, fileread PipeSys.onePage oneFileBlocks oneFile 0 0 3 = .ok (r, oneFileBlocks, oneFile) ∧
      Bounded PipeSys.onePage oneFile 0 0 3 r :=
  (fileread_bounded_iff oneFile_owns (by decide) (by decide) 0).mpr (.inl (by decide))

/-- **A caller that asks for -1 bytes** gets the whole file. -/
theorem fileread_negative :
    fileread PipeSys.onePage oneFileBlocks oneFile 0 0 (-1)
        = .ok (⟨3, 3, [(0x80004000, 7), (0x80004001, 7), (0x80004002, 7)]⟩,
          oneFileBlocks, oneFile) := by
  rfl

end Blocks

end Xv6Zig
