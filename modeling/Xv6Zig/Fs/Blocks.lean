/-
Xv6Zig/Fs/Blocks.lean

Blocks and the contents of inodes (`kernel/fs.c`): `balloc`, `bfree`, `bmap`,
`itrunc`, `readi` and `writei`.

The functions work on the bitmap and the blocks behind it, and on the copy of the
inode in memory, which the caller has locked.  Inode blocks and bitmap are no data
blocks here; reading or writing a block in front of the data area or behind the disk
through a block number of an inode is an error, `outside`, of the model's own.

User memory is a list of bytes, `none` where nothing is mapped.  `copyin` takes the
bytes in front of the first of these and fails there, so that the block in the
buffer is changed although `writei` does not log it.
-/
import Xv6Zig.Fs.Format

namespace Xv6Zig

open Lib Function

/-- How the file system stops. -/
inductive FsPanic
  | freeingFreeBlock
  | bmapOutOfRange
  | igetNoInodes
  | ilock
  | ilockNoType
  | iunlock
  | dirlookupNotDir
  | dirlookupRead
  | dirlinkRead
  | isdirempty
  | unlinkNlink
  | unlinkWritei
  | filedup
  | fileclose
  | filewrite
  /-- a block number that is not one of a data block -/
  | outside
  deriving DecidableEq, Repr

/-- The bitmap and the data blocks. -/
structure Blocks where
  used : ℕ → Bool
  data : ℕ → Bytes

namespace Blocks

/-- The block numbers of the data area. -/
def InArea (b : ℕ) : Prop := dataStart ≤ b ∧ b < fsSize

instance (b : ℕ) : Decidable (InArea b) := inferInstanceAs (Decidable (_ ∧ _))

/-- `bread` of a data block. -/
def bread (B : Blocks) (b : ℕ) : Except FsPanic Bytes :=
  if InArea b then .ok (B.data b) else .error .outside

/-- The block `b` with other bytes. -/
def set (B : Blocks) (b : ℕ) (mem : Bytes) : Blocks :=
  { B with data := update B.data b mem }

theorem set_data_self (B : Blocks) (b : ℕ) (mem : Bytes) : (B.set b mem).data b = mem :=
  update_self _ _ _

theorem set_data_of_ne (B : Blocks) {b c : ℕ} (mem : Bytes) (h : c ≠ b) :
    (B.set b mem).data c = B.data c :=
  update_of_ne h _ _

/-- `balloc`, with its `bzero`; 0 if out of disk space. -/
def balloc (B : Blocks) : Except FsPanic (ℕ × Blocks) :=
  match (List.range fsSize).find? fun b => !B.used b with
  | none => .ok (0, B)
  | some b =>
    if InArea b then
      .ok (b, ⟨update B.used b true, update B.data b fun _ => 0⟩)
    else .error .outside

def bfree (B : Blocks) (b : ℕ) : Except FsPanic Blocks :=
  if B.used b then .ok { B with used := update B.used b false }
  else .error .freeingFreeBlock

/-! ### `bmap` and `itrunc` -/

/-- `addrs[k]`, allocated if it is 0. -/
def addrOf (B : Blocks) (d : Dinode) (k : ℕ) : Except FsPanic (ℕ × Blocks × Dinode) :=
  if d.addr k ≠ 0 then .ok (d.addr k, B, d)
  else do
    let (addr, B) ← B.balloc
    if addr = 0 then .ok (0, B, d) else .ok (addr, B, d.setAddr k addr)

def bmap (B : Blocks) (d : Dinode) (bn : ℕ) : Except FsPanic (ℕ × Blocks × Dinode) :=
  if bn < nDirect then B.addrOf d bn
  else if bn - nDirect < nIndirect then do
    let (ind, B, d) ← B.addrOf d nDirect
    if ind = 0 then .ok (0, B, d)
    else do
      let a ← B.bread ind
      let addr := a.load (4 * (bn - nDirect)) 4
      if addr ≠ 0 then .ok (addr, B, d)
      else do
        let (addr, B) ← B.balloc
        if addr = 0 then .ok (0, B, d)
        else .ok (addr, B.set ind ((B.data ind).store (4 * (bn - nDirect)) 4 addr), d)
  else .error .bmapOutOfRange

/-- One round of the first loop of `itrunc`. -/
def truncDirect (x : Blocks × Dinode) (i : ℕ) : Except FsPanic (Blocks × Dinode) :=
  if x.2.addr i ≠ 0 then do
    let B ← x.1.bfree (x.2.addr i)
    .ok (B, x.2.setAddr i 0)
  else .ok x

/-- One round of the second loop, over the indirect block `a`. -/
def truncEntry (a : Bytes) (B : Blocks) (j : ℕ) : Except FsPanic Blocks :=
  if a.load (4 * j) 4 ≠ 0 then B.bfree (a.load (4 * j) 4) else .ok B

/-- `itrunc`, without its `iupdate`. -/
def itrunc (B : Blocks) (d : Dinode) : Except FsPanic (Blocks × Dinode) := do
  let (B, d) ← (List.range nDirect).foldlM truncDirect (B, d)
  if d.addr nDirect ≠ 0 then do
    let a ← B.bread (d.addr nDirect)
    let B ← (List.range nIndirect).foldlM (truncEntry a) B
    let B ← B.bfree (d.addr nDirect)
    .ok (B, { d.setAddr nDirect 0 with size := 0 })
  else .ok (B, { d with size := 0 })

/-! ### `readi` and `writei` -/

/-- The loop of `readi`: the bytes that were read, and whether `copyout` failed, for which
there is room for `room` bytes.  Each round reads a byte at least. -/
def readLoop : ℕ → Blocks → Dinode → ℕ → ℕ → ℕ →
    Except FsPanic ((List UInt8 × Bool) × Blocks × Dinode)
  | 0, B, d, _, _, _ => .ok (([], false), B, d)
  | fuel + 1, B, d, off, n, room =>
    if n = 0 then .ok (([], false), B, d)
    else do
      let (addr, B, d) ← B.bmap d (off / bSize)
      if addr = 0 then .ok (([], false), B, d)
      else do
        let buf ← B.bread addr
        let m := min n (bSize - off % bSize)
        if room < m then .ok (([], true), B, d)
        else do
          let ((rest, fault), B, d) ← readLoop fuel B d (off + m) (n - m) (room - m)
          .ok ((buf.slice (off % bSize) m ++ rest, fault), B, d)

/-- `readi`: the bytes read; `none` for -1. -/
def readi (B : Blocks) (d : Dinode) (off n room : ℕ) :
    Except FsPanic (Option (List UInt8) × Blocks × Dinode) :=
  if d.size.toNat < off ∨ 2 ^ 32 ≤ off + n then .ok (some [], B, d)
  else do
    let n := if d.size.toNat < off + n then d.size.toNat - off else n
    let ((bytes, fault), B, d) ← readLoop n B d off n room
    .ok (if fault then none else some bytes, B, d)

/-- What `copyin` copies of `src` before it fails, if it does. -/
def copied (src : List (Option UInt8)) : List UInt8 :=
  (src.takeWhile Option.isSome).map fun c => c.getD 0

/-- The loop of `writei`: the bytes written. -/
def writeLoop : ℕ → Blocks → Dinode → ℕ → List (Option UInt8) →
    Except FsPanic (ℕ × Blocks × Dinode)
  | 0, B, d, _, _ => .ok (0, B, d)
  | fuel + 1, B, d, off, src =>
    if src = [] then .ok (0, B, d)
    else do
      let (addr, B, d) ← B.bmap d (off / bSize)
      if addr = 0 then .ok (0, B, d)
      else do
        let buf ← B.bread addr
        let m := min src.length (bSize - off % bSize)
        let got := copied (src.take m)
        let B := B.set addr (buf.write (off % bSize) got)
        if got.length < m then .ok (0, B, d)
        else do
          let (tot, B, d) ← writeLoop fuel B d (off + m) (src.drop m)
          .ok (m + tot, B, d)

/-- `writei`, without its `iupdate`: the bytes written; `none` for the two early -1. -/
def writei (B : Blocks) (d : Dinode) (src : List (Option UInt8)) (off : ℕ) :
    Except FsPanic (Option ℕ × Blocks × Dinode) :=
  if d.size.toNat < off ∨ 2 ^ 32 ≤ off + src.length then .ok (none, B, d)
  else if maxFile * bSize < off + src.length then .ok (none, B, d)
  else do
    let (tot, B, d) ← writeLoop src.length B d off src
    .ok (some tot, B, if d.size.toNat < off + tot then { d with size := .ofNat (off + tot) } else d)

end Blocks

end Xv6Zig
