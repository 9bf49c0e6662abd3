/-
Xv6Zig/Virtio.lean

The driver of the disk (`kernel/virtio_disk.c`) and the device.

Processes call `virtio_disk_rw` with a buffer that they have locked, so that no two
calls are about the same buffer.  What a call does under `vdisk_lock` is one step, but
for one place: between the store into the avail ring and the one to `avail->idx` the
device may come in, and so may it between two rounds of the loop of `virtio_disk_intr`.
A process that sleeps may look again at any time, whoever wakes it.

The device takes the chains from the avail ring in order, and completes them in any
order: it follows the chain to the byte for the status, writes 0 there, and puts the
head of the chain into the used ring.

A step that panics, or that goes through a null pointer or past the end of `info`, is an
error.
-/
import Xv6Zig.Lib.RingIndex
import Xv6Zig.Param

namespace Xv6Zig

open Function

/-- `NUM` descriptors. -/
abbrev DescIx := Fin 8

/-- What the address in a descriptor points to. -/
inductive DescAddr (B : Type)
  | null
  /-- `&disk.ops[i]` -/
  | op (i : DescIx)
  /-- `b->data` -/
  | data (b : B)
  /-- `&disk.info[i].status` -/
  | status (i : DescIx)

/-- `struct virtq_desc` -/
structure VirtqDesc (B : Type) where
  addr : DescAddr B
  len : ℕ
  flags : UInt16
  next : ℕ

/-- `VRING_DESC_F_NEXT`: chained with another descriptor. -/
def descNext : UInt16 := 1

/-- `VRING_DESC_F_WRITE`: the device writes. -/
def descWrite : UInt16 := 2

/-- A descriptor as `free_desc` leaves it. -/
def VirtqDesc.zero {B : Type} : VirtqDesc B := ⟨.null, 0, 0, 0⟩

/-- `struct virtio_blk_req` -/
structure VirtioBlkReq where
  type : ℕ
  reserved : ℕ
  sector : UInt64

/-- The entries of `info`. -/
structure DiskInfo (B : Type) where
  b : Option B
  status : UInt8

/-- A ring and the index of its producer. -/
structure Virtq where
  idx : UInt16
  ring : ℕ → ℕ

/-- `struct disk`, but for the lock. -/
structure Disk (B : Type) where
  desc : DescIx → VirtqDesc B
  avail : Virtq
  used : Virtq
  free : DescIx → Bool
  /-- we've looked this far in `used` -/
  usedIdx : UInt16
  info : DescIx → DiskInfo B
  ops : DescIx → VirtioBlkReq

/-- The three descriptors of a request. -/
structure DescChain where
  fst : DescIx
  snd : DescIx
  trd : DescIx
  deriving DecidableEq

/-- The ways to fail. -/
inductive DiskPanic
  /-- "free_desc 1" -/
  | freeDesc1
  /-- "free_desc 2" -/
  | freeDesc2
  /-- "virtio_disk_intr status" -/
  | intrStatus
  /-- `info[id]` with `id` not below `NUM` -/
  | infoBounds
  /-- `b->disk = 0` with a null `b` -/
  | nullBuf
  deriving DecidableEq

namespace Disk

variable {B : Type}

/-- `alloc_desc` -/
def allocDesc (d : Disk B) : Option (DescIx × Disk B) :=
  ((List.finRange 8).find? fun i => d.free i).map fun i =>
    (i, { d with free := update d.free i false })

/-- `free_desc` -/
def freeDesc (d : Disk B) (i : ℕ) : Except DiskPanic (Disk B) :=
  if h : i < 8 then
    if d.free ⟨i, h⟩ then .error .freeDesc2
    else .ok
      { d with
        desc := update d.desc ⟨i, h⟩ .zero
        free := update d.free ⟨i, h⟩ true }
  else .error .freeDesc1

/-- `free_chain`; after `NUM` rounds `free_desc` has panicked. -/
def freeChain (d : Disk B) (i : ℕ) : ℕ → Except DiskPanic (Disk B)
  | 0 => .error .freeDesc2
  | n + 1 =>
    if h : i < 8 then do
      let x := d.desc ⟨i, h⟩
      let d ← d.freeDesc i
      if x.flags &&& descNext ≠ 0 then d.freeChain x.next n else .ok d
    else .error .freeDesc1

/-- `alloc3_desc` -/
def alloc3Desc (d : Disk B) : Except DiskPanic (Option DescChain × Disk B) :=
  match d.allocDesc with
  | none => .ok (none, d)
  | some (i, d) =>
    match d.allocDesc with
    | none => do
      let d ← d.freeDesc i
      .ok (none, d)
    | some (j, d) =>
      match d.allocDesc with
      | none => do
        let d ← d.freeDesc i
        let d ← d.freeDesc j
        .ok (none, d)
      | some (k, d) => .ok (some ⟨i, j, k⟩, d)

/-- `virtio_disk_rw`: format the three descriptors and record the buffer. -/
def format (d : Disk B) (idx : DescChain) (b : B) (blockno : UInt32) (write : Bool) : Disk B :=
  let ops := update d.ops idx.fst
    ⟨if write then 1 else 0, 0, (blockno * 2).toUInt64⟩
  let desc := update d.desc idx.fst ⟨.op idx.fst, 16, descNext, idx.snd⟩
  let desc := update desc idx.snd
    ⟨.data b, bSize, (if write then 0 else descWrite) ||| descNext, idx.trd⟩
  let desc := update desc idx.trd ⟨.status idx.fst, 1, descWrite, 0⟩
  { d with ops := ops, desc := desc, info := update d.info idx.fst ⟨some b, 0xff⟩ }

/-- `disk.avail->ring[disk.avail->idx % NUM] = idx[0]` -/
def offer (d : Disk B) (i : DescIx) : Disk B :=
  { d with avail.ring := update d.avail.ring (d.avail.idx.toNat % 8) i }

/-- `disk.avail->idx += 1` -/
def publish (d : Disk B) : Disk B := { d with avail.idx := d.avail.idx + 1 }

/-- `virtio_disk_rw`: what is left to do when the request has finished. -/
def finish (d : Disk B) (idx : DescChain) : Except DiskPanic (Disk B) :=
  freeChain { d with info := update d.info idx.fst { d.info idx.fst with b := none } }
    idx.fst 9

/-- The descriptor the device finds at `i`. -/
def descAt (d : Disk B) (i : ℕ) : VirtqDesc B := if h : i < 8 then d.desc ⟨i, h⟩ else .zero

/-- The device writes the status through the third descriptor of the chain at `i`. -/
def succeed (d : Disk B) (i : ℕ) : Disk B :=
  match (d.descAt (d.descAt (d.descAt i).next).next).addr with
  | .status j => { d with info := update d.info j { d.info j with status := 0 } }
  | _ => d

/-- The device puts the head of a chain into the used ring. -/
def use (d : Disk B) (i : ℕ) : Disk B :=
  { d with used := ⟨d.used.idx + 1, update d.used.ring (d.used.idx.toNat % 8) i⟩ }

end Disk

/-- Where a process is in `virtio_disk_rw`. -/
inductive DiskPc (B : Type)
  | out
  /-- before `alloc3_desc`, or asleep for want of descriptors -/
  | alloc (b : B) (write : Bool)
  /-- before `disk.avail->idx += 1` -/
  | publish (b : B) (idx : DescChain)
  /-- asleep until the request has finished -/
  | wait (b : B) (idx : DescChain)

/-- Who has `vdisk_lock`. -/
inductive DiskOwner (P : Type)
  | proc (p : P)
  | intr
  deriving DecidableEq

/-- The disk, the buffers, the processes and the device. -/
structure Virtio (P B : Type) where
  disk : Disk B
  /-- `b->disk` -/
  busy : B → Bool
  pc : P → DiskPc B
  /-- the process that has the buffer locked and calls `virtio_disk_rw` with it -/
  caller : B → Option P
  lock : Option (DiskOwner P)
  /-- the device: how far it has taken the avail ring, and what it is working on -/
  lastAvail : UInt16
  taken : List ℕ

/-- What happens. -/
inductive DiskAct (P B : Type)
  /-- `virtio_disk_rw(b, write)` is called -/
  | call (p : P) (b : B) (write : Bool)
  /-- a process goes on -/
  | go (p : P)
  /-- `virtio_disk_intr` goes on -/
  | intr
  /-- the device takes a chain -/
  | take
  /-- the device completes the chain with the head `i` -/
  | complete (i : ℕ)

namespace Virtio

variable {P B : Type} [DecidableEq P] [DecidableEq B]

/-- `while(b->disk == 1) sleep(b, &disk.vdisk_lock);` and the rest of `virtio_disk_rw`. -/
def waitLoop (s : Virtio P B) (p : P) (b : B) (idx : DescChain) : Except DiskPanic (Virtio P B) :=
  if s.busy b then .ok { s with pc := update s.pc p (.wait b idx), lock := none }
  else do
    let d ← s.disk.finish idx
    .ok { s with
      disk := d, pc := update s.pc p .out,
      caller := update s.caller b none, lock := none }

/-- `virtio_disk_rw` up to the store into the avail ring, after which it still has the lock; or
no three descriptors are free, and it sleeps. -/
def request (blockno : B → UInt32) (s : Virtio P B) (p : P) (b : B) (write : Bool) :
    Except DiskPanic (Virtio P B) := do
  let (idx, d) ← s.disk.alloc3Desc
  match idx with
  | none => .ok { s with disk := d }
  | some idx =>
    .ok { s with
      disk := (d.format idx b (blockno b) write).offer idx.fst
      busy := update s.busy b true
      pc := update s.pc p (.publish b idx)
      lock := some (.proc p) }

/-- One round of the loop of `virtio_disk_intr`. -/
def intrRound (s : Virtio P B) : Except DiskPanic (Virtio P B) :=
  let id := s.disk.used.ring (s.disk.usedIdx.toNat % 8)
  if h : id < 8 then
    if (s.disk.info ⟨id, h⟩).status ≠ 0 then .error .intrStatus
    else
      match (s.disk.info ⟨id, h⟩).b with
      | none => .error .nullBuf
      | some b =>
        .ok { s with
          disk := { s.disk with usedIdx := s.disk.usedIdx + 1 }
          busy := update s.busy b false }
  else .error .infoBounds

/-- `virtio_disk_intr`: `acquire`, the loop, `release`. -/
def intr (s : Virtio P B) : Option (Except DiskPanic (Virtio P B)) :=
  match s.lock with
  | none => some (.ok { s with lock := some .intr })
  | some .intr =>
    if s.disk.usedIdx ≠ s.disk.used.idx then some s.intrRound
    else some (.ok { s with lock := none })
  | some (.proc _) => none

/-- A process goes on. -/
def go (blockno : B → UInt32) (s : Virtio P B) (p : P) : Option (Except DiskPanic (Virtio P B)) :=
  match s.pc p with
  | .out => none
  | .alloc b write => if s.lock = none then some (s.request blockno p b write) else none
  | .publish b idx => some ({ s with disk := s.disk.publish }.waitLoop p b idx)
  | .wait b idx => if s.lock = none then some (s.waitLoop p b idx) else none

/-- What happens next; `none` if the action is not possible. -/
def next (blockno : B → UInt32) (s : Virtio P B) :
    DiskAct P B → Option (Except DiskPanic (Virtio P B))
  | .call p b write =>
    match s.pc p with
    | .out =>
      if s.caller b = none then
        some (.ok { s with
          pc := update s.pc p (.alloc b write)
          caller := update s.caller b (some p) })
      else none
    | _ => none
  | .go p => s.go blockno p
  | .intr => s.intr
  | .take =>
    if s.lastAvail ≠ s.disk.avail.idx then
      some (.ok { s with
        taken := s.disk.avail.ring (s.lastAvail.toNat % 8) :: s.taken
        lastAvail := s.lastAvail + 1 })
    else none
  | .complete i =>
    if i ∈ s.taken then
      some (.ok { s with disk := (s.disk.succeed i).use i, taken := s.taken.erase i })
    else none

/-- `s.Step e s'`: `e` leads from `s` to `s'`. -/
def Step (blockno : B → UInt32) (s : Virtio P B) (e : DiskAct P B) (s' : Virtio P B) : Prop :=
  s.next blockno e = some (.ok s')

/-- After `virtio_disk_init`. -/
def init (ops : DescIx → VirtioBlkReq) : Virtio P B where
  disk := ⟨fun _ => .zero, ⟨0, fun _ => 0⟩, ⟨0, fun _ => 0⟩, fun _ => true, 0, fun _ => ⟨none, 0⟩, ops⟩
  busy _ := false
  pc _ := .out
  caller _ := none
  lock := none
  lastAvail := 0
  taken := []

end Virtio

end Xv6Zig
