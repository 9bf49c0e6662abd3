/-
Xv6Zig/Bio.lean

The buffer cache (`kernel/bio.c`): `bread`, `bwrite`, `brelse`, `bpin` and `bunpin`
of any processes, in any interleaving.

A step is one critical section of `bcache.lock`, one `acquiresleep` or
`releasesleep`, or one access to the buffer by the process that has its sleep lock.
So others may come in while a process waits for a buffer it has already counted,
while it reads the block from the disk, and in `brelse` between the release of the
sleep lock and the update of `refcnt`.

Callers release what they hold: a process stores to, writes, pins and releases the
buffers that `bread` returned to it.  The log pins a block once for each entry of
its header, which has `LOGSIZE` of them, and unpins what it has pinned.

A `Ref` is a reference to a buffer together with the block it was taken for; the
source keeps the block in local variables and in the header of the log.  The block
size plays no role, so the contents of a block are of any type.  The disk driver
looks at `b->blockno` only.
-/
import Mathlib.Algebra.BigOperators.Group.Finset.Basic
import Xv6Zig.Lib.Links
import Xv6Zig.Lib.Ledger
import Xv6Zig.Lib.Run
import Xv6Zig.Ringbuf

namespace Xv6Zig

open Lib Function

abbrev BufIx := Fin nBuf

instance : NeZero nBuf := ⟨nofun⟩

/-- `struct buf`, without the links. -/
structure Buf (D : Type*) where
  valid : Bool
  dev : UInt32
  blockno : UInt32
  /-- the process that has the sleep lock -/
  lock : Option ProcIx
  refcnt : UInt32
  data : D

/-- A reference to a buffer, and the block it was taken for. -/
structure Ref where
  buf : BufIx
  dev : UInt32
  blockno : UInt32
  deriving DecidableEq, Repr

/-- Where a process is. -/
inductive BioPc
  /-- outside of `bio.c` -/
  | out
  /-- `bget`: before `acquiresleep(&b->lock)` -/
  | lock (r : Ref)
  /-- `bread`: before the test of `b->valid` -/
  | test (r : Ref)
  /-- `bread`: before `b->valid = 1` -/
  | fill (r : Ref)
  /-- `brelse`: before `acquire(&bcache.lock)` -/
  | drop (r : Ref)
  deriving DecidableEq, Repr

/-- A process: where it is, and the buffers that `bread` returned to it. -/
structure Caller where
  pc : BioPc
  held : List Ref
  deriving DecidableEq, Repr

/-- The cache, the disk, the processes and the pins of the log. -/
structure Bcache (D : Type*) where
  links : Links BufIx
  buf : BufIx → Buf D
  disk : UInt32 → D
  callers : ProcIx → Caller
  pins : List Ref

/-- What happens. -/
inductive BioEv (D : Type*)
  /-- `bread`, up to the end of the critical section of `bget` -/
  | bget (p : ProcIx) (dev blockno : UInt32)
  /-- the next step of `bread` or `brelse` -/
  | go (p : ProcIx)
  /-- a store to `b->data` -/
  | store (p : ProcIx) (r : Ref) (d : D)
  | bwrite (p : ProcIx) (r : Ref)
  /-- `brelse`, up to `releasesleep` -/
  | brelse (p : ProcIx) (r : Ref)
  | bpin (p : ProcIx) (r : Ref)
  | bunpin (p : ProcIx) (r : Ref)

/-- The first sector of a block, as `virtio_disk_rw` computes it. -/
def sector (blockno : UInt32) : UInt32 := blockno * 2

/-- The reference of the call that is under way. -/
def BioPc.ref? : BioPc → Option Ref
  | out => none
  | lock r | test r | fill r | drop r => some r

/-- The reference of the call that is under way, where the process has the sleep lock. -/
def BioPc.locked? : BioPc → Option Ref
  | test r | fill r => some r
  | _ => none

namespace Caller

/-- The references of a process, as holder, as waiter, or on the way out. -/
def uses (c : Caller) : Multiset Ref := c.pc.ref?.toList + c.held

/-- The references with the sleep lock. -/
def locked (c : Caller) : List Ref := c.pc.locked?.toList ++ c.held

end Caller

namespace Bcache

variable {D : Type*}

/-! ### Steps -/

@[simps] def setBuf (s : Bcache D) (b : BufIx) (x : Buf D) : Bcache D :=
  { s with buf := update s.buf b x }

@[simps] def setCaller (s : Bcache D) (p : ProcIx) (c : Caller) : Bcache D :=
  { s with callers := update s.callers p c }

/-- Process `p` goes on at `pc`. -/
def goto (s : Bcache D) (p : ProcIx) (pc : BioPc) : Bcache D :=
  s.setCaller p { s.callers p with pc := pc }

/-- `bread` returns the buffer. -/
def ret (s : Bcache D) (p : ProcIx) (r : Ref) : Bcache D :=
  s.setCaller p ⟨.out, r :: (s.callers p).held⟩

/-- The critical section of `bget`; `none` is `panic("bget: no buffers")`. -/
def bget (s : Bcache D) (p : ProcIx) (dev blockno : UInt32) : Option (Bcache D) :=
  match Links.find s.links.next (fun b => (s.buf b).dev == dev && (s.buf b).blockno == blockno)
      (nBuf + 1) (s.links.next none) with
  | some b =>
    some ((s.setBuf b { s.buf b with refcnt := (s.buf b).refcnt + 1 }).goto p
      (.lock ⟨b, dev, blockno⟩))
  | none =>
    match Links.find s.links.prev (fun b => (s.buf b).refcnt == 0) (nBuf + 1)
        (s.links.prev none) with
    | some b =>
      some ((s.setBuf b { s.buf b with dev, blockno, valid := false, refcnt := 1 }).goto p
        (.lock ⟨b, dev, blockno⟩))
    | none => none

/-- The critical section of `brelse`. -/
def release (s : Bcache D) (b : BufIx) : Bcache D :=
  let refcnt := (s.buf b).refcnt - 1
  let s := s.setBuf b { s.buf b with refcnt }
  if refcnt = 0 then { s with links := (s.links.unlink b).push b } else s

/-- The next step of `bread` or `brelse`. -/
def advance (s : Bcache D) (p : ProcIx) : Option (Bcache D) :=
  match (s.callers p).pc with
  | .out => none
  | .lock r =>
    if (s.buf r.buf).lock = none then
      some ((s.setBuf r.buf { s.buf r.buf with lock := some p }).goto p (.test r))
    else none
  | .test r =>
    if (s.buf r.buf).valid then some (s.ret p r)
    else
      some ((s.setBuf r.buf
        { s.buf r.buf with data := s.disk (sector (s.buf r.buf).blockno) }).goto p (.fill r))
  | .fill r => some ((s.setBuf r.buf { s.buf r.buf with valid := true }).ret p r)
  | .drop r => some ((s.release r.buf).goto p .out)

/-- `p` holds the buffer and is not in `bio.c`; the second part is `holdingsleep`. -/
def Holds (s : Bcache D) (p : ProcIx) (r : Ref) : Prop :=
  (s.callers p).pc = .out ∧ r ∈ (s.callers p).held ∧ (s.buf r.buf).lock = some p

instance (s : Bcache D) (p : ProcIx) (r : Ref) : Decidable (s.Holds p r) :=
  inferInstanceAs (Decidable (_ ∧ _ ∧ _))

/-- One step. -/
def next (s : Bcache D) : BioEv D → Option (Bcache D)
  | .bget p dev blockno => if (s.callers p).pc = .out then s.bget p dev blockno else none
  | .go p => s.advance p
  | .store p r d =>
    if s.Holds p r then some (s.setBuf r.buf { s.buf r.buf with data := d }) else none
  | .bwrite p r =>
    if s.Holds p r then
      some { s with
        disk := update s.disk (sector (s.buf r.buf).blockno) (s.buf r.buf).data }
    else none
  | .brelse p r =>
    if s.Holds p r then
      some ((s.setBuf r.buf { s.buf r.buf with lock := none }).setCaller p
        ⟨.drop r, (s.callers p).held.erase r⟩)
    else none
  | .bpin p r =>
    if s.Holds p r ∧ s.pins.length < logSize then
      some { s.setBuf r.buf { s.buf r.buf with refcnt := (s.buf r.buf).refcnt + 1 } with
        pins := r :: s.pins }
    else none
  | .bunpin p r =>
    if s.Holds p r ∧ r ∈ s.pins then
      some { s.setBuf r.buf { s.buf r.buf with refcnt := (s.buf r.buf).refcnt - 1 } with
        pins := s.pins.erase r }
    else none

/-- `s.Step e s'`: `e` leads from `s` to `s'`. -/
def Step (s : Bcache D) (e : BioEv D) (s' : Bcache D) : Prop := s.next e = some s'

/-- `binit`, on the zeros the kernel starts with. -/
def binit (disk : UInt32 → D) (zeros : D) : Bcache D where
  links := (List.finRange nBuf).foldl Links.push Links.empty
  buf := fun _ => ⟨false, 0, 0, none, 0, zeros⟩
  disk := disk
  callers := fun _ => ⟨.out, []⟩
  pins := []

/-- All references: those of the processes and the pins. -/
@[irreducible] def refs (s : Bcache D) : Multiset Ref := ∑ p, (s.callers p).uses + s.pins

end Bcache

end Xv6Zig
