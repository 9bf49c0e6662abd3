/-
Xv6Zig/Fs/Format.lean

The format of the disk (`kernel/fs.h`), directory entries and path elements
(`kernel/fs.c`), with the string functions they need (`kernel/string.c`).

A C string is the list of its bytes; behind the end of a list there is a 0.  The
array `name` that `skipelem` fills has no terminator if the element has `DIRSIZ`
bytes or more, and `strncmp` stops after as many: so it is the list of its bytes as
well.
-/
import Mathlib.Data.List.TakeWhile
import Xv6Zig.Itable
import Xv6Zig.Param
import Xv6Zig.Lib.Bytes

namespace Xv6Zig

open Lib

/-- `NINDIRECT`: the block numbers in an indirect block. -/
def nIndirect : ℕ := bSize / 4

/-- `ROOTINO` -/
def rootIno : ℕ := 1

/-- `DIRSIZ`: the bytes of a name in a directory. -/
def dirSiz : ℕ := 14

/-- `nmeta` of the image builder: the first block behind the bitmap. -/
def dataStart : ℕ := 2 + nlog + ninodeblocks + nbitmap

def tDir : Int16 := 1

def tFile : Int16 := 2

/-! ### Block numbers of an inode -/

namespace Dinode

/-- `addrs[k]` -/
def addr (d : Dinode) (k : ℕ) : ℕ := if h : k < nDirect + 1 then (d.addrs ⟨k, h⟩).toNat else 0

/-- `addrs[k] = b` -/
def setAddr (d : Dinode) (k b : ℕ) : Dinode :=
  { d with addrs := fun j => if j.val = k then .ofNat b else d.addrs j }

variable {d : Dinode} {j k b : ℕ}

theorem addr_setAddr_self (hk : k < nDirect + 1) (hb : b < 2 ^ 32) :
    (d.setAddr k b).addr k = b := by
  unfold addr
  rw [dif_pos hk]
  show (if k = k then UInt32.ofNat b else _).toNat = b
  rw [if_pos rfl, UInt32.toNat_ofNat', Nat.mod_eq_of_lt hb]

theorem addr_setAddr_of_ne (h : j ≠ k) : (d.setAddr k b).addr j = d.addr j := by
  unfold addr
  split
  · show (if j = k then UInt32.ofNat b else _).toNat = _
    rw [if_neg h]
  · rfl

/-- The places where a block number can stand: the first `MAXFILE` are for the blocks of
the contents in their order, the last for the indirect block. -/
def ptr (d : Dinode) (data : ℕ → Bytes) (k : ℕ) : ℕ :=
  if k < nDirect then d.addr k
  else if k < maxFile then
    if d.addr nDirect = 0 then 0 else (data (d.addr nDirect)).load (4 * (k - nDirect)) 4
  else if k = maxFile then d.addr nDirect
  else 0

/-- The byte at `k`. -/
def byte (d : Dinode) (data : ℕ → Bytes) (k : ℕ) : UInt8 :=
  data (d.ptr data (k / bSize)) (k % bSize)

/-- The contents. -/
def contents (d : Dinode) (data : ℕ → Bytes) : List UInt8 :=
  (List.range d.size.toNat).map (d.byte data)

@[simp] theorem length_contents (d : Dinode) (data : ℕ → Bytes) :
    (d.contents data).length = d.size.toNat := by
  rw [contents, List.length_map, List.length_range]

theorem getElem_contents {data : ℕ → Bytes} (h : k < (d.contents data).length) :
    (d.contents data)[k] = d.byte data k := by
  simp only [contents, List.getElem_map, List.getElem_range]

end Dinode

/-! ### Strings -/

/-- `strncmp(p, q, n)` -/
def strncmp : ℕ → List UInt8 → List UInt8 → ℤ
  | 0, _, _ => 0
  | n + 1, p, q =>
    if p.headD 0 ≠ 0 ∧ p.headD 0 = q.headD 0 then strncmp n p.tail q.tail
    else (p.headD 0).toNat - (q.headD 0).toNat

/-! ### Directory entries -/

/-- `de.inum` -/
def direntInum (de : List UInt8) : ℕ := (de.getD 0 0).toNat + 256 * (de.getD 1 0).toNat

/-- `de.name` -/
def direntName (de : List UInt8) : List UInt8 := de.drop 2

/-! ### Paths -/

/-- `/` -/
def slash : UInt8 := 47

/-- `skipelem(path, name)`: the name and what is left of the path. -/
def skipelem (path : List UInt8) : Option (List UInt8 × List UInt8) :=
  let path := path.dropWhile (· = slash)
  if path = [] then none
  else
    let s := path.takeWhile (· ≠ slash)
    let path := path.dropWhile (· ≠ slash)
    some (if dirSiz ≤ s.length then s.take dirSiz else s, path.dropWhile (· = slash))

end Xv6Zig
