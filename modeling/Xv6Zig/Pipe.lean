/-
Xv6Zig/Pipe.lean

Pipes (`kernel/pipe.c`): the ring of `PIPESIZE` bytes, its 32-bit counters and
the calls on it, by any number of processes.

A process in a call is at one of the places where another one can run: at the
head of a loop with the pipe's lock held, asleep, or woken and waiting for the
lock.  A round of a loop is one step; what happens in it under the lock is seen
by nobody else.  `kill` can come between any two steps, and within a round after
`killed` was looked at.

The memory a writer copies from is an argument of its call.  Every byte of the
buffer is copied at most once, so that memory which others change meanwhile is
the same as memory that had each byte's value from the start.

`started`, `pieces` and `delivered` are a record of what happened, which
nothing reads: the writes, what they stored and what was read.
-/
import Mathlib.Logic.Function.Basic
import Xv6Zig.Lib.Circular
import Xv6Zig.Lib.Run
import Xv6Zig.Ringbuf
import Xv6Zig.UserCopy

namespace Xv6Zig

open Lib Function

/-- `PIPESIZE`. -/
def pipeSize : ℕ := 512

/-- Addition on `uint`. -/
def add32 (x y : ℕ) : ℕ := (x + y) % 2 ^ 32

/-- Subtraction on `uint`. -/
def sub32 (x y : ℕ) : ℕ := (x + 2 ^ 32 - y % 2 ^ 32) % 2 ^ 32

/-- A `uint` as an `int`. -/
def asInt (x : ℕ) : ℤ := if x < 2 ^ 31 then x else x - 2 ^ 32

/-- `struct pipe`, its lock aside. -/
structure Pipe where
  data : ℕ → UInt8
  nread : ℕ
  nwrite : ℕ
  readopen : Bool
  writeopen : Bool

/-- A call of `pipewrite`: its number, the caller's memory, the arguments and
how far it is. -/
structure PipeWrite where
  call : ℕ
  pagetable : PageTable
  ram : Ram
  addr : ℕ
  n : Int32
  i : ℕ

/-- A call of `piperead`. -/
structure PipeRead where
  pagetable : PageTable
  addr : ℕ
  n : Int32
  i : ℕ

namespace Pipe

/-- `chunked_n_to_write`. -/
def writeChunk (pi : Pipe) (w : PipeWrite) : ℕ :=
  let availSpace := asInt (sub32 pipeSize (sub32 pi.nwrite pi.nread))
  let nToWrite := min availSpace (w.n.toInt - w.i)
  let writePos := pi.nwrite % pipeSize
  let bytesUntilEnd := pipeSize - writePos
  (min (bytesUntilEnd : ℤ) nToWrite).toNat

/-- `chunked_n_to_read`. -/
def readChunk (pi : Pipe) (r : PipeRead) : ℕ :=
  let remaining := asInt (sub32 pi.nwrite pi.nread)
  let nToRead := min remaining (r.n.toInt - r.i)
  let readPos := pi.nread % pipeSize
  let bytesUntilEnd := pipeSize - readPos
  (min nToRead (bytesUntilEnd : ℤ)).toNat

/-- `copyin` of the next chunk. -/
def fetch (pi : Pipe) (w : PipeWrite) : List UInt8 × Bool :=
  copyinBytes w.pagetable w.ram (add64 w.addr w.i) (pi.writeChunk w)

/-- Bytes that were copied to `pi->data + write_pos`. -/
def fill (pi : Pipe) (bs : List UInt8) : Pipe :=
  { pi with data := storeAt pi.data (pi.nwrite % pipeSize) bs }

/-- The next chunk, as it stands at `pi->data + read_pos`. -/
def chunk (pi : Pipe) (r : PipeRead) : List UInt8 :=
  (List.range (pi.readChunk r)).map fun j => pi.data (pi.nread % pipeSize + j)

/-- The bytes in the ring. -/
def ring (pi : Pipe) : List UInt8 :=
  (List.range (sub32 pi.nwrite pi.nread)).map fun j => pi.data ((pi.nread + j) % pipeSize)

end Pipe

/-- The two addresses processes sleep on. -/
inductive Chan
  | nread
  | nwrite
  deriving DecidableEq, Repr

/-- Where a process is: out of the pipe, with what its last call returned, or
in `pipewrite` or `piperead`. -/
inductive PipePc
  | out (ret : ℤ)
  | writing (w : PipeWrite)
  | sleepWrite (w : PipeWrite)
  | wakeWrite (w : PipeWrite)
  | waiting (r : PipeRead)
  | reading (r : PipeRead)
  | sleepRead (r : PipeRead)
  | wakeRead (r : PipeRead)

namespace PipePc

/-- What `wakeup(chan)` does to a process. -/
def wakeup : Chan → PipePc → PipePc
  | .nread, .sleepRead r => .wakeRead r
  | .nwrite, .sleepWrite w => .wakeWrite w
  | _, pc => pc

/-- What `kill` does to a process besides setting `killed`. -/
def kill : PipePc → PipePc
  | .sleepRead r => .wakeRead r
  | .sleepWrite w => .wakeWrite w
  | pc => pc

/-- The process is SLEEPING on the address. -/
def SleepsOn : Chan → PipePc → Prop
  | .nread, .sleepRead _ | .nwrite, .sleepWrite _ => True
  | _, _ => False

/-- The call of `pipewrite` the process is in. -/
def write? : PipePc → Option PipeWrite
  | .writing w | .sleepWrite w | .wakeWrite w => some w
  | _ => none

/-- The process is in no call. -/
def isOut : PipePc → Bool
  | .out _ => true
  | _ => false

theorem exists_out {pc : PipePc} (h : pc.isOut = true) : ∃ ret, pc = .out ret := by
  cases pc with
  | out ret => exact ⟨ret, rfl⟩
  | _ => cases h

@[simp] theorem write?_wakeup (c : Chan) (pc : PipePc) : (pc.wakeup c).write? = pc.write? := by
  cases c <;> cases pc <;> rfl

@[simp] theorem write?_kill (pc : PipePc) : pc.kill.write? = pc.write? := by
  cases pc <;> rfl

end PipePc

/-- A pipe and the processes that share it. -/
structure PipeSys (P : Type*) where
  pipe : Pipe
  lock : Option P
  pc : P → PipePc
  killed : P → Bool
  started : List PipeWrite
  pieces : List (ℕ × List UInt8)
  delivered : List UInt8

namespace PipeSys

variable {P : Type*} [DecidableEq P]

/-- Move one process. -/
@[simps]
def setPc (s : PipeSys P) (p : P) (pc : PipePc) : PipeSys P :=
  { s with pc := update s.pc p pc }

/-- `wakeup`. -/
@[simps]
def wakeup (s : PipeSys P) (c : Chan) : PipeSys P :=
  { s with pc := fun q => (s.pc q).wakeup c }

/-- `release(&pi->lock)`. -/
@[simps]
def release (s : PipeSys P) : PipeSys P :=
  { s with lock := none }

/-! ### `pipewrite` -/

/-- The end of `pipewrite`. -/
def endWrite (s : PipeSys P) (p : P) (w : PipeWrite) : PipeSys P :=
  ((s.wakeup .nread).release).setPc p (.out w.i)

/-- A round of the loop of `pipewrite`. -/
def pipewrite (s : PipeSys P) (p : P) (w : PipeWrite) : PipeSys P :=
  if w.i < w.n.toInt then
    if s.pipe.readopen = false ∨ s.killed p = true then s.release.setPc p (.out (-1))
    else if s.pipe.nwrite = add32 s.pipe.nread pipeSize then
      ((s.wakeup .nread).release).setPc p (.sleepWrite w)
    else
      let n := s.pipe.writeChunk w
      let (bs, ok) := s.pipe.fetch w
      let s := { s with pipe := s.pipe.fill bs }
      if ok then
        { s with
          pipe := { s.pipe with nwrite := add32 s.pipe.nwrite n }
          pieces := s.pieces ++ [(w.call, bs)] }.setPc p (.writing { w with i := w.i + n })
      else s.endWrite p w
  else s.endWrite p w

/-! ### `piperead` -/

/-- The end of `piperead`. -/
def endRead (s : PipeSys P) (p : P) (r : PipeRead) : PipeSys P :=
  ((s.wakeup .nwrite).release).setPc p (.out r.i)

/-- A round of the first loop of `piperead`. -/
def pipereadWait (s : PipeSys P) (p : P) (r : PipeRead) : PipeSys P :=
  if s.pipe.nread = s.pipe.nwrite ∧ s.pipe.writeopen = true then
    if s.killed p = true then s.release.setPc p (.out (-1))
    else s.release.setPc p (.sleepRead r)
  else s.setPc p (.reading r)

/-- A round of the second loop of `piperead`. -/
def pipereadCopy (s : PipeSys P) (p : P) (r : PipeRead) : PipeSys P :=
  if r.i < r.n.toInt then
    if asInt (sub32 s.pipe.nwrite s.pipe.nread) = 0 then s.endRead p r
    else
      let n := s.pipe.readChunk r
      if copyout r.pagetable (add64 r.addr r.i) n = true then
        { s with
          pipe := { s.pipe with nread := add32 s.pipe.nread n }
          delivered := s.delivered ++ s.pipe.chunk r }.setPc p (.reading { r with i := r.i + n })
      else s.endRead p r
  else s.endRead p r

/-! ### The rounds, case by case -/

/-- **How a round of `pipewrite` ends.** -/
inductive WriteRound (s : PipeSys P) (p : P) (w : PipeWrite) : PipeSys P → Prop
  | done (all : ¬ w.i < w.n.toInt) : WriteRound s p w (s.endWrite p w)
  | abort (more : w.i < w.n.toInt) (dead : s.pipe.readopen = false ∨ s.killed p = true) :
      WriteRound s p w (s.release.setPc p (.out (-1)))
  | full (more : w.i < w.n.toInt) (alive : ¬ (s.pipe.readopen = false ∨ s.killed p = true))
      (full : s.pipe.nwrite = add32 s.pipe.nread pipeSize) :
      WriteRound s p w (((s.wakeup .nread).release).setPc p (.sleepWrite w))
  | failed (more : w.i < w.n.toInt) (alive : ¬ (s.pipe.readopen = false ∨ s.killed p = true))
      (space : s.pipe.nwrite ≠ add32 s.pipe.nread pipeSize) (fail : (s.pipe.fetch w).2 = false) :
      WriteRound s p w ({ s with pipe := s.pipe.fill (s.pipe.fetch w).1 }.endWrite p w)
  | stored (more : w.i < w.n.toInt) (alive : ¬ (s.pipe.readopen = false ∨ s.killed p = true))
      (space : s.pipe.nwrite ≠ add32 s.pipe.nread pipeSize) (ok : (s.pipe.fetch w).2 = true) :
      WriteRound s p w ({ s with
        pipe := { s.pipe.fill (s.pipe.fetch w).1 with
          nwrite := add32 s.pipe.nwrite (s.pipe.writeChunk w) }
        pieces := s.pieces ++ [(w.call, (s.pipe.fetch w).1)] }.setPc p
          (.writing { w with i := w.i + s.pipe.writeChunk w }))

theorem pipewrite_round (s : PipeSys P) (p : P) (w : PipeWrite) :
    WriteRound s p w (s.pipewrite p w) := by
  unfold pipewrite
  by_cases hmore : w.i < w.n.toInt
  swap
  · rw [if_neg hmore]
    exact .done hmore
  rw [if_pos hmore]
  by_cases hdead : s.pipe.readopen = false ∨ s.killed p = true
  · rw [if_pos hdead]
    exact .abort hmore hdead
  rw [if_neg hdead]
  by_cases hfull : s.pipe.nwrite = add32 s.pipe.nread pipeSize
  · rw [if_pos hfull]
    exact .full hmore hdead hfull
  rw [if_neg hfull]
  cases hok : (s.pipe.fetch w).2 with
  | false =>
    have hround := WriteRound.failed (p := p) hmore hdead hfull hok
    rw [← Prod.mk.eta (p := s.pipe.fetch w)]
    simp only [hok]
    exact hround
  | true =>
    have hround := WriteRound.stored (p := p) hmore hdead hfull hok
    rw [← Prod.mk.eta (p := s.pipe.fetch w)]
    simp only [hok]
    exact hround

/-- How a round of the first loop of `piperead` ends. -/
inductive WaitRound (s : PipeSys P) (p : P) (r : PipeRead) : PipeSys P → Prop
  | abort (empty : s.pipe.nread = s.pipe.nwrite) (writeopen : s.pipe.writeopen = true)
      (killed : s.killed p = true) : WaitRound s p r (s.release.setPc p (.out (-1)))
  | sleep (empty : s.pipe.nread = s.pipe.nwrite) (writeopen : s.pipe.writeopen = true)
      (alive : s.killed p = false) : WaitRound s p r (s.release.setPc p (.sleepRead r))
  | ready (ready : ¬ (s.pipe.nread = s.pipe.nwrite ∧ s.pipe.writeopen = true)) :
      WaitRound s p r (s.setPc p (.reading r))

theorem pipereadWait_round (s : PipeSys P) (p : P) (r : PipeRead) :
    WaitRound s p r (s.pipereadWait p r) := by
  unfold pipereadWait
  split_ifs with hempty hkilled
  · exact .abort hempty.1 hempty.2 hkilled
  · exact .sleep hempty.1 hempty.2 (Bool.eq_false_of_not_eq_true hkilled)
  · exact .ready hempty

/-- How a round of the second loop of `piperead` ends. -/
inductive CopyRound (s : PipeSys P) (p : P) (r : PipeRead) : PipeSys P → Prop
  | done (all : ¬ (r.i < r.n.toInt ∧ asInt (sub32 s.pipe.nwrite s.pipe.nread) ≠ 0)) :
      CopyRound s p r (s.endRead p r)
  | failed (more : r.i < r.n.toInt) (some : asInt (sub32 s.pipe.nwrite s.pipe.nread) ≠ 0)
      (fail : copyout r.pagetable (add64 r.addr r.i) (s.pipe.readChunk r) = false) :
      CopyRound s p r (s.endRead p r)
  | read (more : r.i < r.n.toInt) (some : asInt (sub32 s.pipe.nwrite s.pipe.nread) ≠ 0)
      (ok : copyout r.pagetable (add64 r.addr r.i) (s.pipe.readChunk r) = true) :
      CopyRound s p r ({ s with
        pipe := { s.pipe with nread := add32 s.pipe.nread (s.pipe.readChunk r) }
        delivered := s.delivered ++ s.pipe.chunk r }.setPc p
          (.reading { r with i := r.i + s.pipe.readChunk r }))

theorem pipereadCopy_round (s : PipeSys P) (p : P) (r : PipeRead) :
    CopyRound s p r (s.pipereadCopy p r) := by
  unfold pipereadCopy
  simp only
  split_ifs with hmore hnone hok
  · exact .done fun h => h.2 hnone
  · exact .read hmore hnone hok
  · exact .failed hmore hnone (Bool.eq_false_of_not_eq_true hok)
  · exact .done fun h => hmore h.1

/-! ### The other steps -/

/-- `pipewrite` up to its loop. -/
def beginWrite (s : PipeSys P) (p : P) (pagetable : PageTable) (ram : Ram) (addr : ℕ)
    (n : Int32) : PipeSys P :=
  let w : PipeWrite := ⟨s.started.length, pagetable, ram, addr, n, 0⟩
  { s with lock := some p, started := s.started ++ [w] }.setPc p (.writing w)

/-- `piperead` up to its first loop. -/
def beginRead (s : PipeSys P) (p : P) (pagetable : PageTable) (addr : ℕ) (n : Int32) : PipeSys P :=
  { s with lock := some p }.setPc p (.waiting ⟨pagetable, addr, n, 0⟩)

/-- `pipeclose`. -/
def pipeclose (s : PipeSys P) (writable : Bool) : PipeSys P :=
  if writable then { s with pipe := { s.pipe with writeopen := false } }.wakeup .nread
  else { s with pipe := { s.pipe with readopen := false } }.wakeup .nwrite

/-- `kill`. -/
def kill (s : PipeSys P) (p : P) : PipeSys P :=
  { s with killed := update s.killed p true }.setPc p (s.pc p).kill

/-- A `kill` that came during a round of `p`, after the round had looked at
`killed` and before it put `p` to sleep, if it did. -/
@[simps]
def killedLate (s : PipeSys P) (p : P) (late : Bool) : PipeSys P :=
  { s with killed := update s.killed p (s.killed p || late) }

/-- What can happen next: a call begins, a process that has the lock goes on,
one that was woken takes the lock, an end is closed, a process is killed. -/
inductive Act (P : Type*)
  | write (p : P) (pagetable : PageTable) (ram : Ram) (addr : ℕ) (n : Int32)
  | read (p : P) (pagetable : PageTable) (addr : ℕ) (n : Int32)
  | run (p : P) (late : Bool)
  | resume (p : P)
  | close (writable : Bool)
  | kill (p : P)

/-- The pipe has not been freed. -/
def Exists (s : PipeSys P) : Prop :=
  s.pipe.readopen = true ∨ s.pipe.writeopen = true

instance (s : PipeSys P) : Decidable s.Exists :=
  inferInstanceAs (Decidable (_ ∨ _))

/-- A process in a call goes on. -/
def run (s : PipeSys P) (p : P) : Option (PipeSys P) :=
  match s.pc p with
  | .writing w => some (s.pipewrite p w)
  | .waiting r => some (s.pipereadWait p r)
  | .reading r => some (s.pipereadCopy p r)
  | _ => none

/-- A process in a call is in one of the three loops. -/
inductive Round (s : PipeSys P) (p : P) (s' : PipeSys P) : Prop
  | write {w : PipeWrite} (pc : s.pc p = .writing w) (round : WriteRound s p w s')
  | wait {r : PipeRead} (pc : s.pc p = .waiting r) (round : WaitRound s p r s')
  | copy {r : PipeRead} (pc : s.pc p = .reading r) (round : CopyRound s p r s')

theorem run_round {s s' : PipeSys P} {p : P} (h : s.run p = some s') : Round s p s' := by
  unfold run at h
  split at h
  · rename_i w hpc
    cases h
    exact .write hpc (pipewrite_round s p w)
  · rename_i r hpc
    cases h
    exact .wait hpc (pipereadWait_round s p r)
  · rename_i r hpc
    cases h
    exact .copy hpc (pipereadCopy_round s p r)
  · cases h

/-- The end of `sleep`: the lock is taken again. -/
def resume (s : PipeSys P) (p : P) : Option (PipeSys P) :=
  match s.pc p with
  | .wakeWrite w => some ({ s with lock := some p }.setPc p (.writing w))
  | .wakeRead r => some ({ s with lock := some p }.setPc p (.waiting r))
  | _ => none

/-- The steps.  Calls and closes take the lock first.  The page of the pipe is
freed with the second end; nobody is in a call then, because a process in a call
has an end open. -/
def Step (s : PipeSys P) : Act P → PipeSys P → Prop
  | .write p pagetable ram addr n, s' =>
      (∃ ret, s.pc p = .out ret) ∧ s.lock = none ∧ s.Exists ∧
        s' = s.beginWrite p pagetable ram addr n
  | .read p pagetable addr n, s' =>
      (∃ ret, s.pc p = .out ret) ∧ s.lock = none ∧ s.Exists ∧ s' = s.beginRead p pagetable addr n
  | .run p late, s' => (s.run p).map (killedLate · p late) = some s'
  | .resume p, s' => s.lock = none ∧ s.resume p = some s'
  | .close writable, s' => s.lock = none ∧ s.Exists ∧ s' = s.pipeclose writable ∧
      (¬ s'.Exists → ∀ p, ∃ ret, s.pc p = .out ret)
  | .kill p, s' => s' = s.kill p

/-- The steps that are not `close`, as a function. -/
def next (s : PipeSys P) : Act P → Option (PipeSys P)
  | .write p pagetable ram addr n =>
      if (s.pc p).isOut ∧ s.lock = none ∧ s.Exists then some (s.beginWrite p pagetable ram addr n)
      else none
  | .read p pagetable addr n =>
      if (s.pc p).isOut ∧ s.lock = none ∧ s.Exists then some (s.beginRead p pagetable addr n)
      else none
  | .run p late => (s.run p).map (killedLate · p late)
  | .resume p => if s.lock = none then s.resume p else none
  | .close _ => none
  | .kill p => some (s.kill p)

theorem step_of_next {s s' : PipeSys P} {a : Act P} (h : s.next a = some s') : Step s a s' := by
  cases a with
  | write p pagetable ram addr n =>
    obtain ⟨⟨hout, hlock, hexists⟩, h⟩ := Option.ite_none_right_eq_some.mp h
    exact ⟨PipePc.exists_out hout, hlock, hexists, (Option.some.inj h).symm⟩
  | read p pagetable addr n =>
    obtain ⟨⟨hout, hlock, hexists⟩, h⟩ := Option.ite_none_right_eq_some.mp h
    exact ⟨PipePc.exists_out hout, hlock, hexists, (Option.some.inj h).symm⟩
  | run p late => exact h
  | resume p => exact Option.ite_none_right_eq_some.mp h
  | close writable => cases h
  | kill p => exact (Option.some.inj h).symm

theorem exists_run {γ : Type*} {s : PipeSys P} (g : PipeSys P → γ) (v : γ) (tr : List (Act P))
    (h : (tr.foldlM next s).map g = some v) : ∃ s', Run Step s tr s' ∧ g s' = v :=
  Run.of_foldlM_map step_of_next tr h

/-- A new pipe, with whatever the page held before. -/
structure Fresh (s : PipeSys P) : Prop where
  nread : s.pipe.nread = 0
  nwrite : s.pipe.nwrite = 0
  readopen : s.pipe.readopen = true
  writeopen : s.pipe.writeopen = true
  lock : s.lock = none
  pc : ∀ p, ∃ ret, s.pc p = .out ret
  started : s.started = []
  pieces : s.pieces = []
  delivered : s.delivered = []

/-- A process with one page, at 0. -/
def onePage : PageTable :=
  (Radix.spine 2 [0x80001000, 0x80002000, 0x80003000] (px 0)).2.1.set (px 0)
    (some ⟨0x80004000, ⟨true, true, false, true, Perm.readWrite⟩⟩)

/-- A new pipe between two processes. -/
def newPipe : PipeSys Bool :=
  ⟨⟨fun _ => 5, 0, 0, true, true⟩, none, fun _ => .out 0, fun _ => false, [], [], []⟩

theorem newPipe_fresh : Fresh newPipe :=
  ⟨rfl, rfl, rfl, rfl, rfl, fun _ => ⟨0, rfl⟩, rfl, rfl, rfl⟩

end PipeSys

end Xv6Zig
