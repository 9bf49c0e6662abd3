/-
Xv6Zig/Itable.lean

The inode table (`kernel/fs.c`): `iget`, `idup`, `ilock`, `iunlock`, `iput`, `ialloc`
and `iupdate` of any processes, in any interleaving.

A step is one critical section of `itable.lock`, one `acquiresleep` or
`releasesleep`, one access to the inode by the process that has its sleep lock, or
one access to the inode's block, which the lock of its buffer makes atomic.  So in
`iput` others may come in between any two of `itrunc`, `ip->type = 0`, `iupdate`,
`ip->valid = 0`, the release of the sleep lock and `ip->ref--`.

A reference is a pointer that some variable holds: a local variable of a system
call, the `ip` of an open file, the `cwd` of a process.  `T` is the type of these
variables, of which there are finitely many.  Several processes may lock an inode
through one variable, as they do through an open file; a variable whose reference is
being dropped is used for nothing else.

Callers drop each reference once, call `iget` for inodes with links (or through
`ialloc`), change an inode under its lock, never its type, and call `iupdate` before
they unlock it.  `dirty` says that an inode was changed since.  The blocks of a file
are not part of this model: `itrunc` clears the pointers to them.
-/
import Xv6Zig.Lib.Run
import Xv6Zig.Ringbuf

namespace Xv6Zig

open Lib Function

/-- `NDIRECT` -/
def nDirect : ℕ := 12

/-- `struct dinode`. -/
structure Dinode where
  type : Int16
  major : Int16
  minor : Int16
  nlink : Int16
  size : UInt32
  addrs : Fin (nDirect + 1) → UInt32
  deriving DecidableEq

namespace Dinode

/-- All zeros. -/
def zero : Dinode := ⟨0, 0, 0, 0, 0, fun _ => 0⟩

/-- `itrunc`, as to the inode itself. -/
def trunc (d : Dinode) : Dinode := { d with size := 0, addrs := fun _ => 0 }

end Dinode

/-- A device and an inode number. -/
abbrev Ino := ℕ × ℕ

/-- `NINODE` slots. -/
abbrev InodeIx := Fin 50

/-- `struct inode`; the fields that are copied from the disk are `copy`. -/
structure Inode where
  ino : Ino
  ref : ℕ
  /-- the process that has the sleep lock -/
  lock : Option ProcIx
  valid : Bool
  copy : Dinode

/-- What `ialloc` is called with: `T_DIR`, `T_FILE` or `T_DEVICE`. -/
abbrev FileType := { type : Int16 // type ≠ 0 }

/-- Where a process is. -/
inductive InodePc (T : Type*)
  /-- outside of these functions -/
  | out
  /-- `ilock`: before `acquiresleep(&ip->lock)` -/
  | ilock (t : T)
  /-- `ilock`: before the test of `ip->valid` -/
  | iread (t : T)
  /-- `iput`: before `acquire(&itable.lock)` -/
  | iput (t : T)
  /-- `iput`: before `itrunc(ip)` -/
  | itrunc (t : T)
  /-- `iput`: before `ip->type = 0` -/
  | untype (t : T)
  /-- `iput`: before `iupdate(ip)` -/
  | iupdate (t : T)
  /-- `iput`: before `ip->valid = 0` -/
  | invalidate (t : T)
  /-- `iput`: before `releasesleep(&ip->lock)` -/
  | unlock (t : T)
  /-- `iput`: before the second `acquire(&itable.lock)` -/
  | drop (t : T)
  /-- `ialloc`: at the head of the loop -/
  | ialloc (dev : ℕ) (type : FileType) (inum : ℕ)
  /-- `ialloc`: before `iget(dev, inum)` -/
  | iget (k : Ino)
  deriving DecidableEq

/-- A process: where it is, and the variables through which it has locked inodes. -/
structure InodeUser (T : Type*) where
  pc : InodePc T
  held : List T
  deriving DecidableEq

/-- The table, the inodes in their blocks, the variables and the processes. -/
structure Itable (T : Type*) where
  inode : InodeIx → Inode
  dinode : Ino → Dinode
  var : T → Option InodeIx
  users : ProcIx → InodeUser T
  dirty : InodeIx → Bool

/-- What a process does. -/
inductive InodeAct (T : Type*)
  /-- `iget` of an inode with links, into `t` -/
  | iget (k : Ino) (t : T)
  /-- `iget` at the end of `ialloc` -/
  | iallocGet (t : T)
  /-- `idup` of the inode in `t`, into `t'` -/
  | idup (t t' : T)
  /-- a call of `ilock` -/
  | ilock (t : T)
  /-- the owner of the lock changes the inode, but for its type -/
  | modify (t : T) (d : Dinode)
  | iupdate (t : T)
  | iunlock (t : T)
  /-- a call of `iput` -/
  | iput (t : T)
  /-- a call of `ialloc` -/
  | ialloc (dev : ℕ) (type : FileType)
  /-- the next step of `ilock`, `iput` or `ialloc` -/
  | go

namespace InodePc

variable {T : Type*}

/-- The variable that the call was given. -/
def var? : InodePc T → Option T
  | ilock t | iread t | iput t | itrunc t | untype t | iupdate t | invalidate t | unlock t
  | drop t => some t
  | out | ialloc _ _ _ | iget _ => none

/-- The variable, where the process has the sleep lock. -/
def locked? : InodePc T → Option T
  | iread t | itrunc t | untype t | iupdate t | invalidate t | unlock t => some t
  | _ => none

/-- The variable whose reference is being dropped. -/
def put? : InodePc T → Option T
  | iput t | itrunc t | untype t | iupdate t | invalidate t | unlock t | drop t => some t
  | _ => none

end InodePc

namespace InodeUser

variable {T : Type*}

/-- The variables a process uses. -/
def uses (u : InodeUser T) : List T := u.pc.var?.toList ++ u.held

/-- The variables through which it has sleep locks. -/
def locked (u : InodeUser T) : List T := u.pc.locked?.toList ++ u.held

end InodeUser

namespace Itable

variable {T : Type*} [DecidableEq T]

/-! ### Steps -/

@[simps] def setInode (s : Itable T) (i : InodeIx) (x : Inode) : Itable T :=
  { s with inode := update s.inode i x }

@[simps] def setDinode (s : Itable T) (k : Ino) (d : Dinode) : Itable T :=
  { s with dinode := update s.dinode k d }

@[simps] def setVar (s : Itable T) (t : T) (i : Option InodeIx) : Itable T :=
  { s with var := update s.var t i }

@[simps] def setUser (s : Itable T) (p : ProcIx) (u : InodeUser T) : Itable T :=
  { s with users := update s.users p u }

@[simps] def setDirty (s : Itable T) (i : InodeIx) (x : Bool) : Itable T :=
  { s with dirty := update s.dirty i x }

/-- Process `p` goes on at `pc`. -/
@[simps!] def goto (s : Itable T) (p : ProcIx) (pc : InodePc T) : Itable T :=
  s.setUser p { s.users p with pc := pc }

/-- The loop of `iget`: the entry for `k`, or else the first free one. -/
def igetLoop (s : Itable T) (k : Ino) : List InodeIx → Option InodeIx → Option InodeIx
  | [], empty => empty
  | i :: is, empty =>
    if (s.inode i).ref > 0 ∧ (s.inode i).ino = k then some i
    else if empty = none ∧ (s.inode i).ref = 0 then s.igetLoop k is (some i)
    else s.igetLoop k is empty

/-- The critical section of `iget`; `none` is `panic("iget: no inodes")`. -/
def iget (s : Itable T) (k : Ino) (t : T) : Option (Itable T) :=
  match s.igetLoop k (List.finRange 50) none with
  | none => none
  | some i =>
    if (s.inode i).ref > 0 ∧ (s.inode i).ino = k then
      some ((s.setInode i { s.inode i with ref := (s.inode i).ref + 1 }).setVar t (some i))
    else
      some ((s.setInode i { s.inode i with ino := k, ref := 1, valid := false }).setVar t (some i))

/-- `iupdate` of entry `i`. -/
@[simps!] def iupdate (s : Itable T) (i : InodeIx) : Itable T :=
  s.setDinode (s.inode i).ino (s.inode i).copy

/-- `ip->ref--` for the reference in `t`, at the end of `iput`. -/
@[simps!] def unref (s : Itable T) (p : ProcIx) (t : T) (i : InodeIx) : Itable T :=
  ((s.setInode i { s.inode i with ref := (s.inode i).ref - 1 }).setVar t none).goto p .out

/-- The first critical section of `iput`.  With `ref == 1` nobody has the inode locked,
so that `acquiresleep` does not have to wait. -/
def iput (s : Itable T) (p : ProcIx) (t : T) (i : InodeIx) : Option (Itable T) :=
  if (s.inode i).ref = 1 ∧ (s.inode i).valid = true ∧ (s.inode i).copy.nlink = 0 then
    if (s.inode i).lock = none then
      some ((s.setInode i { s.inode i with lock := some p }).goto p (.itrunc t))
    else none
  else some (s.unref p t i)

/-- `ilock` has returned. -/
@[simps!] def ret (s : Itable T) (p : ProcIx) (t : T) : Itable T :=
  s.setUser p ⟨.out, t :: (s.users p).held⟩

/-- The inode as read from its block; `none` is `panic("ilock: no type")`. -/
def iread (s : Itable T) (p : ProcIx) (t : T) (i : InodeIx) : Option (Itable T) :=
  if (s.inode i).valid then some (s.ret p t)
  else if (s.dinode (s.inode i).ino).type = 0 then none
  else
    some ((s.setInode i
      { s.inode i with valid := true, copy := s.dinode (s.inode i).ino }).ret p t)

/-- One round of the loop of `ialloc`; `mkfsSuperblock.ninodes` is `sb.ninodes`. -/
def iallocRound (s : Itable T) (p : ProcIx) (dev : ℕ) (type : FileType) (inum : ℕ) : Itable T :=
  if inum < mkfsSuperblock.ninodes then
    if (s.dinode (dev, inum)).type = 0 then
      (s.setDinode (dev, inum) { Dinode.zero with type := type.1 }).goto p (.iget (dev, inum))
    else s.goto p (.ialloc dev type (inum + 1))
  else s.goto p .out

/-- The next step of `ilock` or `iput` on entry `i`. -/
def advance (s : Itable T) (p : ProcIx) (i : InodeIx) : InodePc T → Option (Itable T)
  | .ilock t =>
    if (s.inode i).lock = none then
      some ((s.setInode i { s.inode i with lock := some p }).goto p (.iread t))
    else none
  | .iread t => s.iread p t i
  | .iput t => s.iput p t i
  | .itrunc t =>
    let s := s.setInode i { s.inode i with copy := (s.inode i).copy.trunc }
    some ((s.iupdate i).goto p (.untype t))
  | .untype t =>
    let s := s.setInode i { s.inode i with copy := { (s.inode i).copy with type := 0 } }
    some ((s.setDirty i true).goto p (.iupdate t))
  | .iupdate t => some ((s.iupdate i).goto p (.invalidate t))
  | .invalidate t =>
    let s := s.setInode i { s.inode i with valid := false }
    some ((s.setDirty i false).goto p (.unlock t))
  | .unlock t =>
    some ((s.setInode i { s.inode i with lock := none }).goto p (.drop t))
  | .drop t => some (s.unref p t i)
  | .out | .ialloc _ _ _ | .iget _ => none

/-- The next step of a call. -/
def go (s : Itable T) (p : ProcIx) : Option (Itable T) :=
  match (s.users p).pc with
  | .ialloc dev type inum => some (s.iallocRound p dev type inum)
  | pc => (pc.var?.bind s.var).bind fun i => s.advance p i pc

/-- Nobody is dropping the reference in `t`. -/
def Kept (s : Itable T) (t : T) : Prop := ∀ p, (s.users p).pc.put? ≠ some t

/-- Nobody uses `t`. -/
def Idle (s : Itable T) (t : T) : Prop := ∀ p, t ∉ (s.users p).uses

instance (s : Itable T) (t : T) : Decidable (s.Kept t) := inferInstanceAs (Decidable (∀ _, _))
instance (s : Itable T) (t : T) : Decidable (s.Idle t) := inferInstanceAs (Decidable (∀ _, _))

/-- A process that is in none of the functions calls one. -/
def call (s : Itable T) (p : ProcIx) : InodeAct T → Option (Itable T)
  | .iget k t =>
    if s.var t = none ∧ 0 < (s.dinode k).nlink then (s.iget k t).map (·.goto p .out) else none
  | .idup t t' =>
    (s.var t).bind fun i =>
      if s.Kept t ∧ s.var t' = none then
        some ((s.setInode i { s.inode i with ref := (s.inode i).ref + 1 }).setVar t' (some i))
      else none
  | .ilock t => if s.var t ≠ none ∧ s.Kept t then some (s.goto p (.ilock t)) else none
  | .modify t d =>
    (s.var t).bind fun i =>
      if t ∈ (s.users p).held then
        some ((s.setInode i
          { s.inode i with copy := { d with type := (s.inode i).copy.type } }).setDirty i true)
      else none
  | .iupdate t =>
    (s.var t).bind fun i =>
      if t ∈ (s.users p).held then some ((s.iupdate i).setDirty i false) else none
  | .iunlock t =>
    (s.var t).bind fun i =>
      if t ∈ (s.users p).held ∧ s.dirty i = false then
        some ((s.setInode i { s.inode i with lock := none }).setUser p
          ⟨.out, (s.users p).held.erase t⟩)
      else none
  | .iput t => if s.var t ≠ none ∧ s.Idle t then some (s.goto p (.iput t)) else none
  | .ialloc dev type => some (s.goto p (.ialloc dev type 1))
  | .iallocGet _ | .go => none

/-- One step. -/
def next (s : Itable T) (e : ProcIx × InodeAct T) : Option (Itable T) :=
  match e.2, (s.users e.1).pc with
  | .iallocGet t, .iget k =>
    if s.var t = none then (s.iget k t).map (·.goto e.1 .out) else none
  | .go, _ => s.go e.1
  | a, .out => s.call e.1 a
  | _, _ => none

/-- `s.Step e s'`: the act `e.2` of process `e.1` leads from `s` to `s'`. -/
def Step (s : Itable T) (e : ProcIx × InodeAct T) (s' : Itable T) : Prop := s.next e = some s'

/-- An empty table over inodes on the disk, of which those with links are allocated and
no others. -/
structure Initial (s : Itable T) : Prop where
  inode : ∀ i, (s.inode i).ref = 0 ∧ (s.inode i).lock = none ∧ (s.inode i).valid = false
  dinode : ∀ k, (s.dinode k).type ≠ 0 ↔ 0 < (s.dinode k).nlink
  var : ∀ t, s.var t = none
  users : ∀ p, s.users p = ⟨.out, []⟩
  dirty : ∀ i, s.dirty i = false

end Itable

end Xv6Zig
