/-
Xv6Zig/Ringbuf.lean

The kernel's memory state and the ring-buffer manager (`kernel/ringbuf.zig`).

`Kernel` is what the memory system calls share: the page allocator, the
process table and the array of ring buffers.  The functions follow the source
statement by statement; the order of effects matters where a panic or an
`errdefer` can come between them.  A pointer is an address or the index of the
process or ring buffer it points to, the null pointer `none`.  Arithmetic on
`usize` and `uint64` wraps around: the kernel is built without run-time checks.

User memory enters in three places.  The name is what `argstr` made of it:
nothing, or the bytes before the terminator.  `copyin` and `copyout` fail or
not by the page table, and the eight bytes a successful `copyin` finds are an
input of the call.
-/
import Xv6Zig.Uvm

namespace Xv6Zig

open Function

/-! ### State -/

/-- An index into `proc[NPROC]`. -/
abbrev ProcIx := Fin nProc

instance neZero_procs : NeZero nProc := ⟨by decide⟩

/-- An index into `ringbufs[MAX_RINGBUFS]`. -/
abbrev RingIx := Fin 10

/-- A ring buffer has two owners. -/
instance neZero_owners : NeZero 2 := ⟨by decide⟩

/-- `enum procstate`; SLEEPING, RUNNABLE and RUNNING are one here. -/
inductive ProcState
  | unused
  | used
  | live
  | zombie
  deriving DecidableEq, Repr

/-- The fields of `struct proc` that memory management reads and writes.  An
absent page table is the null pointer.  `ownedRingbufs` grows by at most one a
call and is not taken modulo 2^64. -/
structure Proc where
  state : ProcState
  parent : Option ProcIx
  sz : ℕ
  pagetable : PageTable
  topFreeUvmPg : ℕ
  trapframe : Option ℕ
  ownedRingbufs : ℕ

/-- A slot as `procinit` and `freeproc` leave it. -/
def Proc.empty : Proc where
  state := .unused
  parent := none
  sz := 0
  pagetable := .absent
  topFreeUvmPg := trapframeVA - 2 * pgSize
  trapframe := none
  ownedRingbufs := 0

structure Owner where
  proc : Option ProcIx
  vbuf : Option ℕ
  vbook : Option ℕ
  deriving DecidableEq, Repr

structure Ringbuf where
  refcount : ℕ
  owners : Fin 2 → Owner
  nameBuf : List UInt8
  bufPages : Fin 16 → Option ℕ
  bookPage : Option ℕ

/-- `.{}`: a ring buffer that is not in use. -/
def Ringbuf.empty : Ringbuf where
  refcount := 0
  owners := fun _ => ⟨none, none, none⟩
  nameBuf := List.replicate maxNameLen 0
  bufPages := fun _ => none
  bookPage := none

/-- A call of `proc_freepagetable` that returned: its arguments and the free
list around it. -/
structure Teardown where
  pagetable : PageTable
  sz : ℕ
  before : List ℕ
  after : List ℕ

/-- The kernel.  `trampoline` is the physical page of the trampoline code,
`pipes` are the pages `pipealloc` took; `teardowns` is a record of what
happened, which nothing reads. -/
structure Kernel where
  mem : Kmem
  procs : ProcIx → Proc
  ringbufs : RingIx → Ringbuf
  pipes : List ℕ
  trampoline : ℕ
  teardowns : List Teardown

/-! ### Words and names -/

/-- Addition on `uint64`. -/
def add64 (x y : ℕ) : ℕ := (x + y) % 2 ^ 64

/-- Subtraction on `uint64`. -/
def sub64 (x y : ℕ) : ℕ := (x + 2 ^ 64 - y % 2 ^ 64) % 2 ^ 64

theorem add64_add64 (x y z : ℕ) : add64 (add64 x y) z = add64 x (y + z) := by
  simp only [add64]
  omega

theorem add64_lt (x y : ℕ) : add64 x y < 2 ^ 64 := Nat.mod_lt _ (by decide)

/-- `@ptrFromInt` to an optional pointer. -/
def ptrFromInt (x : ℕ) : Option ℕ := if x = 0 then none else some x

/-- `@intFromPtr` of an optional pointer. -/
def intFromPtr (p : Option ℕ) : ℕ := p.getD 0

/-- What a successful `argstr(0, &name, MAX_NAME_LEN)` leaves before the
terminator. -/
structure CStr where
  bytes : List UInt8
  nonzero : 0 ∉ bytes
  short : bytes.length < maxNameLen

/-- The array `name` of `sys_ringbuf`: it was all zeros, and `argstr` has stored the name
and its terminator. -/
def callerName (name : List UInt8) : List UInt8 :=
  name ++ [0] ++ (List.replicate maxNameLen 0).drop (name.length + 1)

/-- `@memcpy(&self.name_buf, name)`: as many bytes as `name_buf` has, from where the name
is. -/
def nameBufOf (name : List UInt8) : List UInt8 := (callerName name).take maxNameLen

/-- `std.mem.span` of the name buffer. -/
def Ringbuf.name (rb : Ringbuf) : List UInt8 :=
  rb.nameBuf.takeWhile (· ≠ 0)

/-- `RingbufError`. -/
inductive RingbufError
  | alreadyActive
  | alreadyIsOwner
  | alreadyTwoOwners
  | noOriginalOwner
  | badNameLength
  | outOfMemory
  | noFreeRingbuf
  | mapPagesFailed
  | copyOutFailed
  | copyInFailed
  | noAddrGiven
  | nameNotFound
  | notOwner
  | badAddr
  | alreadyInactive
  deriving DecidableEq, Repr

/-- The errors in the order of their declaration. -/
def RingbufError.fields : List RingbufError :=
  [.alreadyActive, .alreadyIsOwner, .alreadyTwoOwners, .noOriginalOwner, .badNameLength,
    .outOfMemory, .noFreeRingbuf, .mapPagesFailed, .copyOutFailed, .copyInFailed, .noAddrGiven,
    .nameNotFound, .notOwner, .badAddr, .alreadyInactive]

/-- `intFromErr`. -/
def intFromErr (e : RingbufError) : ℤ :=
  -((RingbufError.fields.idxOf e : ℤ) + 1)

/-! ### `Ringbuf` -/

/-- `kalloc.freePage(pa) catch @panic("failed to free page")`. -/
def Kmem.freeRingPage (m : Kmem) (pa : ℕ) : Except Panic Kmem :=
  match m.freePage pa with
  | .ok m => .ok m
  | .error _ => .error .failedToFreePage

/-- Allocate up to `n` pages, in order. -/
def Kmem.allocPages : ℕ → Kmem → List ℕ × Kmem
  | 0, m => ([], m)
  | n + 1, m =>
      match m.allocPage with
      | none => ([], m)
      | some (pa, m) =>
          let (got, m) := allocPages n m
          (pa :: got, m)

namespace Ringbuf

/-- `activate`. -/
def activate (rb : Ringbuf) (m : Kmem) (name : List UInt8) :
    Except Panic (Kmem × Ringbuf × Except RingbufError Unit) :=
  if 0 < rb.refcount then .ok (m, rb, .error .alreadyActive)
  else if name.length > maxNameLen ∨ name.length = 0 then .ok (m, rb, .error .badNameLength)
  else
    let (got, m) := m.allocPages 16
    let (book, m) := match m.allocPage with
      | none => (none, m)
      | some (pa, m) => (some pa, m)
    let rb := { rb with
      nameBuf := nameBufOf name
      bufPages := fun i => got[i.val]? <|> rb.bufPages i
      bookPage := book }
    if got.length < 16 ∨ book = none then do
      let m ← (match book with
        | some pa => m.freeRingPage pa
        | none => .ok m)
      let m ← got.foldlM Kmem.freeRingPage m
      let rb := { rb with
        bufPages := fun i => if i.val < got.length then none else rb.bufPages i
        bookPage := none }
      .ok (m, rb, .error .outOfMemory)
    else .ok (m, rb, .ok ())

/-- `deactivate`. -/
def deactivate (rb : Ringbuf) (m : Kmem) : Except Panic (Kmem × Ringbuf) := do
  let m ← (List.ofFn rb.bufPages).reduceOption.foldlM Kmem.freeRingPage m
  match rb.bookPage with
  | none => .error .bookPageAlreadyNull
  | some pa =>
      let m ← m.freeRingPage pa
      if (rb.owners 0).proc ≠ none ∨ (rb.owners 1).proc ≠ none then .error .ringbufHasOwners
      else .ok (m, empty)

end Ringbuf

namespace Kernel

/-- Exchange one process. -/
@[simps]
def setProc (k : Kernel) (p : ProcIx) (q : Proc) : Kernel :=
  { k with procs := update k.procs p q }

/-- Exchange one ring buffer. -/
@[simps]
def setRing (k : Kernel) (r : RingIx) (rb : Ringbuf) : Kernel :=
  { k with ringbufs := update k.ringbufs r rb }

/-- `disownIfOwned` once the owner is found. -/
def disown (k : Kernel) (r : RingIx) (p : ProcIx) (i : Fin 2) : Except Panic Kernel := do
  let rb := k.ringbufs r
  let q := k.procs p
  match (rb.owners i).vbuf with
  | none => .error .disownWithoutVbuf
  | some vbuf =>
      let (m, pt) ← uvmunmap k.mem q.pagetable vbuf (2 * ringbufSize) false
      match (rb.owners i).vbook with
      | none => .error .disownWithoutVbook
      | some vbook =>
          let (m, pt) ← uvmunmap m pt vbook 1 false
          let rb := { rb with
            owners := update rb.owners i ⟨none, none, some vbook⟩
            refcount := rb.refcount - 1 }
          let q := { q with pagetable := pt, ownedRingbufs := q.ownedRingbufs - 1 }
          let (m, rb) ← (if rb.refcount = 0 then rb.deactivate m else .ok (m, rb))
          .ok (({ k with mem := m }.setProc p q).setRing r rb)

def disownIfOwned (k : Kernel) (r : RingIx) (p : ProcIx) : Except Panic Kernel :=
  if ((k.ringbufs r).owners 0).proc = some p then k.disown r p 0
  else if ((k.ringbufs r).owners 1).proc = some p then k.disown r p 1
  else .ok k

def ringbufDisownAll (k : Kernel) (p : ProcIx) : Except Panic Kernel :=
  (List.finRange 10).foldlM (fun k r => k.disownIfOwned r p) k

def findFreeRingbuf (k : Kernel) : Option RingIx :=
  (List.finRange 10).find? fun r => (k.ringbufs r).refcount = 0

def findRingbufByName (k : Kernel) (name : List UInt8) : Option RingIx :=
  (List.finRange 10).find? fun r =>
    (k.ringbufs r).refcount ≠ 0 ∧ (k.ringbufs r).name = name

/-- `PTE_R | PTE_W | PTE_U`. -/
def ringPerm : Perm := ⟨true, true, false, true, Perm.readWrite⟩

/-- Map pages one below the other from `top` on; the last components are the
new top and whether all were mapped. -/
def mapDown (null : Panic) : List (Option ℕ) → Kmem → PageTable → ℕ →
    Except Panic (Kmem × PageTable × ℕ × Bool)
  | [], m, pt, top => .ok (m, pt, top, true)
  | none :: _, _, _, _ => .error null
  | some pa :: rest, m, pt, top => do
      let (m, pt, ok) ← mappages m pt top pgSize pa ringPerm
      if ok then mapDown null rest m pt (sub64 top pgSize) else .ok (m, pt, top, false)

/-- The mappings of an open: the buffer pages twice, then the book page. -/
def mapRing (rb : Ringbuf) (m : Kmem) (pt : PageTable) (top : ℕ) :
    Except Panic (Kmem × PageTable × ℕ × Bool) := do
  let bufs := List.ofFn rb.bufPages
  let (m, pt, top, ok) ← mapDown .bufPageNull (bufs ++ bufs) m pt top
  if ok then mapDown .bookPageNull [rb.bookPage] m pt top else .ok (m, pt, top, false)

/-- The open from `owner.proc = proc` on, for owner slot `i` of ring buffer
`r`. -/
def attach (k : Kernel) (p : ProcIx) (r : RingIx) (i : Fin 2) (addr : ℕ) :
    Except Panic (Kernel × Except RingbufError Unit) := do
  let rb := k.ringbufs r
  let q := k.procs p
  let owner : Owner := { rb.owners i with proc := some p }
  let (m, pt, top, ok) ← mapRing rb k.mem q.pagetable q.topFreeUvmPg
  let q := { q with
    pagetable := pt
    topFreeUvmPg := top
    ownedRingbufs := q.ownedRingbufs + 1 }
  -- the `errdefer`: `owner.proc` and `refcount` are back where they were
  let undo (owner : Owner) (e : RingbufError) : Except Panic (Kernel × Except RingbufError Unit) := do
    let rb := { rb with owners := update rb.owners i { owner with proc := none } }
    let (m, rb) ← rb.deactivate m
    .ok (({ k with mem := m }.setProc p q).setRing r rb, .error e)
  if ok then
    let owner := { owner with
      vbook := ptrFromInt (add64 top (1 * pgSize))
      vbuf := ptrFromInt (add64 top (2 * pgSize)) }
    if copyout pt addr 8 then
      let rb := { rb with
        owners := update rb.owners i owner
        refcount := rb.refcount + 1 }
      let q := { q with topFreeUvmPg := sub64 top pgSize }
      .ok (({ k with mem := m }.setProc p q).setRing r rb, .ok ())
    else undo owner .copyOutFailed
  else undo owner .mapPagesFailed

/-- The `.open` branch of `ringbuf`. -/
def openRingbuf (k : Kernel) (p : ProcIx) (name : List UInt8) (addr : ℕ) :
    Except Panic (Kernel × Except RingbufError Unit) :=
  match k.findRingbufByName name with
  | some r =>
      let o := (k.ringbufs r).owners
      if (o 0).proc = some p ∨ (o 1).proc = some p then .ok (k, .error .alreadyIsOwner)
      else if (o 0).proc = none ∧ (o 1).proc = none then .error .orphanedRingbuf
      else if (o 0).proc ≠ none ∧ (o 1).proc ≠ none then .ok (k, .error .alreadyTwoOwners)
      else k.attach p r (if (o 1).proc = none then 1 else 0) addr
  | none =>
      match k.findFreeRingbuf with
      | some r => do
          let (m, rb, res) ← (k.ringbufs r).activate k.mem name
          let k := { k with mem := m }.setRing r rb
          match res with
          | .error e => .ok (k, .error e)
          | .ok () =>
              if (rb.owners 0).proc ≠ none ∨ (rb.owners 1).proc ≠ none then
                .error .freeRingbufHasOwners
              else k.attach p r 0 addr
      | none => .ok (k, .error .noFreeRingbuf)

/-- The `.close` branch of `ringbuf`; `vaddr` is what `copyin` finds. -/
def closeRingbuf (k : Kernel) (p : ProcIx) (name : List UInt8) (addr vaddr : ℕ) :
    Except Panic (Kernel × Except RingbufError Unit) :=
  if ¬ copyin (k.procs p).pagetable addr 8 then .ok (k, .error .copyInFailed)
  else match k.findRingbufByName name with
  | none => .ok (k, .error .nameNotFound)
  | some r =>
      let rb := k.ringbufs r
      if vaddr = 0 then .ok (k, .error .noAddrGiven)
      else if (rb.owners 0).proc ≠ some p ∧ (rb.owners 1).proc ≠ some p then
        .ok (k, .error .notOwner)
      else
        let owner := rb.owners (if (rb.owners 0).proc = some p then 0 else 1)
        if intFromPtr owner.vbuf ≠ vaddr then .ok (k, .error .badAddr)
        else if intFromPtr owner.vbook ≠ sub64 vaddr pgSize then .ok (k, .error .badAddr)
        else if rb.refcount = 0 then .ok (k, .error .alreadyInactive)
        else if rb.bookPage = none then .error .bookPageNull
        else do
          let k ← k.disownIfOwned r p
          let q := k.procs p
          let q :=
            if q.topFreeUvmPg = sub64 vaddr (3 * pgSize) then
              { q with
                topFreeUvmPg := add64 q.topFreeUvmPg ((1 + 1 + 2 * ringbufSize) * pgSize) }
            else q
          .ok (k.setProc p q, .ok ())

/-- `Rb.Op`. -/
inductive Op
  | close
  | open
  deriving DecidableEq, Repr

/-- `@enumFromInt` to `Op`; `none` is illegal behaviour. -/
def Op.fromInt (op : Int32) : Option Op :=
  if op = 0 then some .close else if op = 1 then some .open else none

/-- `ringbuf`. -/
def ringbuf (k : Kernel) (p : ProcIx) (name : List UInt8) (op : Op) (addr vaddr : ℕ) :
    Except Panic (Kernel × Except RingbufError Unit) :=
  if name.length > maxNameLen ∨ name.length = 0 then .ok (k, .error .badNameLength)
  else match op with
    | .open => k.openRingbuf p name addr
    | .close => k.closeRingbuf p name addr vaddr

/-- `sys_ringbuf`. -/
def sysRingbuf (k : Kernel) (p : ProcIx) (str : Option CStr) (op : Int32) (addr vaddr : ℕ) :
    Except Panic (Kernel × ℤ) :=
  match str with
  | none => .ok (k, intFromErr .badNameLength)
  | some name =>
      match Op.fromInt op with
      | none => .error .illegalOp
      | some op => do
          let (k, res) ← k.ringbuf p name.bytes op addr vaddr
          match res with
          | .ok () => .ok (k, 0)
          | .error e => .ok (k, intFromErr e)

end Kernel

end Xv6Zig
