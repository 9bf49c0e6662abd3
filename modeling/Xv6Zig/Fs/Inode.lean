/-
Xv6Zig/Fs/Inode.lean

The inode table, directories and path names (`kernel/fs.c`), for system calls that
run one after the other.

An entry of the table goes by its inode number, since no two entries that are in use
have the same (`Itable`); `table` lists those that are.  Locks are left out: what is
said here of a function that has an inode locked is what it finds and leaves.
-/
import Xv6Zig.Fs.Blocks

namespace Xv6Zig

open Lib

/-- `struct inode`, without the number; `copy` are the fields copied from the disk. -/
structure InCore where
  ref : ℕ
  valid : Bool
  copy : Dinode

/-- The disk and the inode table. -/
structure Fs where
  blocks : Blocks
  dinode : ℕ → Dinode
  inode : ℕ → InCore
  table : List ℕ

namespace Fs

def setInode (s : Fs) (ip : ℕ) (c : InCore) : Fs :=
  { s with inode := Function.update s.inode ip c }

/-! ### The inode table -/

/-- `iget`, with `NINODE` entries. -/
def iget (s : Fs) (inum : ℕ) : Except FsPanic Fs :=
  if 0 < (s.inode inum).ref then
    .ok (s.setInode inum { s.inode inum with ref := (s.inode inum).ref + 1 })
  else if 50 ≤ s.table.length then .error .igetNoInodes
  else
    .ok { s.setInode inum { s.inode inum with ref := 1, valid := false } with
      table := inum :: s.table }

def idup (s : Fs) (ip : ℕ) : Fs :=
  s.setInode ip { s.inode ip with ref := (s.inode ip).ref + 1 }

def ilock (s : Fs) (ip : ℕ) : Except FsPanic Fs :=
  if (s.inode ip).ref < 1 then .error .ilock
  else if (s.inode ip).valid then .ok s
  else if (s.dinode ip).type = 0 then .error .ilockNoType
  else .ok (s.setInode ip { s.inode ip with valid := true, copy := s.dinode ip })

def iunlock (s : Fs) (ip : ℕ) : Except FsPanic Fs :=
  if (s.inode ip).ref < 1 then .error .iunlock else .ok s

/-- A change to the copy of a locked inode. -/
def modify (s : Fs) (ip : ℕ) (f : Dinode → Dinode) : Fs :=
  s.setInode ip { s.inode ip with copy := f (s.inode ip).copy }

def iupdate (s : Fs) (ip : ℕ) : Fs :=
  { s with dinode := Function.update s.dinode ip (s.inode ip).copy }

/-! ### Contents -/

/-- What a function on blocks does to an inode of the table. -/
def onBlocks {α : Type} (s : Fs) (ip : ℕ) (f : Blocks → Dinode → Except FsPanic (α × Blocks × Dinode)) :
    Except FsPanic (α × Fs) := do
  let (a, B, d) ← f s.blocks (s.inode ip).copy
  .ok (a, { s with blocks := B }.modify ip fun _ => d)

def itrunc (s : Fs) (ip : ℕ) : Except FsPanic Fs := do
  let (_, s) ← s.onBlocks ip fun B d => do
    let (B, d) ← B.itrunc d
    .ok ((), B, d)
  .ok (s.iupdate ip)

/-- `iput`: truncate and free. -/
def ifree (s : Fs) (ip : ℕ) : Except FsPanic Fs := do
  let s ← s.itrunc ip
  let s := (s.modify ip fun d => { d with type := 0 }).iupdate ip
  .ok (s.setInode ip { s.inode ip with valid := false })

/-- `ip->ref--` -/
def unref (s : Fs) (ip : ℕ) : Fs :=
  { s.setInode ip { s.inode ip with ref := (s.inode ip).ref - 1 } with
    table := if (s.inode ip).ref = 1 then s.table.erase ip else s.table }

def iput (s : Fs) (ip : ℕ) : Except FsPanic Fs := do
  let s ←
    if (s.inode ip).ref = 1 ∧ (s.inode ip).valid ∧ (s.inode ip).copy.nlink = 0 then s.ifree ip
    else .ok s
  .ok (s.unref ip)

def iunlockput (s : Fs) (ip : ℕ) : Except FsPanic Fs := do
  let s ← s.iunlock ip
  s.iput ip

/-- `readi` to a user address, behind which `room` bytes are mapped. -/
def readiUser (s : Fs) (ip off n room : ℕ) : Except FsPanic (Option (List UInt8) × Fs) :=
  s.onBlocks ip fun B d => B.readi d off n room

/-- `readi` to a kernel address. -/
def readi (s : Fs) (ip off n : ℕ) : Except FsPanic (Option (List UInt8) × Fs) :=
  s.readiUser ip off n n

/-! ### Directories -/

/-- `for(off = 0; off < dp->size; off += sizeof(de))` -/
def offsets (size : UInt32) : List ℕ := (List.range ((size.toNat + 15) / 16)).map (16 * ·)

/-- The loop of `dirlookup`: the inode found, and the offset of its entry. -/
def dirlookupLoop (dp : ℕ) (name : List UInt8) :
    List ℕ → Fs → Except FsPanic (Option (ℕ × ℕ) × Fs)
  | [], s => .ok (none, s)
  | off :: offs, s => do
    let (de, s) ← s.readi dp off 16
    match de with
    | none => .error .dirlookupRead
    | some de =>
      if de.length ≠ 16 then .error .dirlookupRead
      else if direntInum de = 0 then dirlookupLoop dp name offs s
      else if strncmp dirSiz name (direntName de) = 0 then do
        let s ← s.iget (direntInum de)
        .ok (some (direntInum de, off), s)
      else dirlookupLoop dp name offs s

def dirlookup (s : Fs) (dp : ℕ) (name : List UInt8) : Except FsPanic (Option (ℕ × ℕ) × Fs) :=
  if (s.inode dp).copy.type ≠ tDir then .error .dirlookupNotDir
  else dirlookupLoop dp name (offsets (s.inode dp).copy.size) s

/-! ### Paths -/

/-- The loop of `namex`: the inode, with the last path element if the parent is asked for. -/
def namexLoop (parent : Bool) :
    ℕ → Fs → ℕ → List UInt8 → Except FsPanic (Option (ℕ × List UInt8) × Fs)
  | 0, s, _, _ => .ok (none, s)
  | fuel + 1, s, ip, path =>
    match skipelem path with
    | none =>
      if parent then do
        let s ← s.iput ip
        .ok (none, s)
      else .ok (some (ip, []), s)
    | some (name, path) => do
      let s ← s.ilock ip
      if (s.inode ip).copy.type ≠ tDir then do
        let s ← s.iunlockput ip
        .ok (none, s)
      else if parent ∧ path = [] then do
        let s ← s.iunlock ip
        .ok (some (ip, name), s)
      else do
        let (next, s) ← s.dirlookup ip name
        let s ← s.iunlockput ip
        match next with
        | none => .ok (none, s)
        | some (next, _) => namexLoop parent fuel s next path

/-- `namex`, for a process whose current directory is `cwd`.  Each element takes a byte of the
path at least. -/
def namex (s : Fs) (cwd : ℕ) (path : List UInt8) (parent : Bool) :
    Except FsPanic (Option (ℕ × List UInt8) × Fs) :=
  if path.headD 0 = slash then do
    let s ← s.iget rootIno
    namexLoop parent (path.length + 1) s rootIno path
  else namexLoop parent (path.length + 1) (s.idup cwd) cwd path

def namei (s : Fs) (cwd : ℕ) (path : List UInt8) : Except FsPanic (Option ℕ × Fs) := do
  let (r, s) ← s.namex cwd path false
  .ok (r.map Prod.fst, s)

def nameiparent (s : Fs) (cwd : ℕ) (path : List UInt8) :
    Except FsPanic (Option (ℕ × List UInt8) × Fs) :=
  s.namex cwd path true

end Fs

end Xv6Zig
