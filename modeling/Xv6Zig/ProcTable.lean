/-
Xv6Zig/ProcTable.lean

The process table (`kernel/proc.c`): `fork`, `exit`, `wait` and `kill` of any
processes, in any interleaving.

A step is one critical section of a `p->lock`; `wait_lock` is held over several
of them and is a part of the state.  So a `kill` can come between any two slots
that another call looks at.  Whether `kalloc`, `proc_pagetable` and `uvmcopy` find
memory and whether an address is mapped are inputs of the step.

What other calls do to a slot is one step, `other`: a process changes the fields
that are private to it as it likes.  They also sleep, on channels of their own.
A process that is killed calls `exit` at some point, like any other.

The number of a process, the lists of births and exits and what `wait` returned
are not in the source.  Pids do not serve as names, since `allocpid` runs through
all 2^32 of them and starts again.
-/
import Xv6Zig.Files

namespace Xv6Zig

open Lib Function

/-- `enum procstate`. -/
inductive Procstate
  | unused
  | used
  | sleeping
  | runnable
  | running
  | zombie
  deriving DecidableEq, Repr

/-- A sleep channel: the address of a process, or another one. -/
inductive SleepChan
  | proc (p : ProcIx)
  | other (n : ℕ)
  deriving DecidableEq, Repr

/-- `struct proc`; the memory of a process is in `Kernel`, `cwd` is the slot of an
inode. -/
structure ProcSlot where
  state : Procstate
  chan : Option SleepChan
  killed : Bool
  xstate : Int32
  pid : Int32
  parent : Option ProcIx
  sz : ℕ
  topFreeUvmPg : ℕ
  ofile : Fd → Option FileIx
  cwd : Option ℕ
  ownedRingbufs : ℕ

namespace ProcSlot

/-- A slot as `procinit` leaves it. -/
def empty : ProcSlot where
  state := .unused
  chan := none
  killed := false
  xstate := 0
  pid := 0
  parent := none
  sz := 0
  topFreeUvmPg := trapframeVA - 2 * pgSize
  ofile := fun _ => none
  cwd := none
  ownedRingbufs := 0

/-- `freeproc`, which leaves `ofile` and `cwd` alone. -/
def freeproc (x : ProcSlot) : ProcSlot :=
  { x with
    topFreeUvmPg := trapframeVA - 2 * pgSize
    sz := 0
    ownedRingbufs := 0
    pid := 0
    parent := none
    chan := none
    killed := false
    xstate := 0
    state := .unused }

/-- What `fork` copies from the parent. -/
def inherit (x parent : ProcSlot) : ProcSlot :=
  { x with
    sz := parent.sz
    ofile := fun fd => if parent.ofile fd = none then x.ofile fd else parent.ofile fd
    cwd := parent.cwd }

/-- What `kill` does to the slot it finds. -/
def kill (x : ProcSlot) : ProcSlot :=
  { x with
    killed := true
    state := if x.state = .sleeping then .runnable else x.state }

end ProcSlot

/-- Where a process is.  The counters of the loops run up to `NPROC` and `NOFILE`. -/
inductive Pc
  /-- in user code or in a call that is not modelled -/
  | out
  /-- `fork`: the loop of `allocproc` -/
  | allocproc (i : ℕ)
  /-- `fork`: before `acquire(&wait_lock)` -/
  | forkParent (np : ProcIx) (pid : Int32)
  /-- `fork`: before the second `acquire(&np->lock)` -/
  | forkReady (np : ProcIx) (pid : Int32)
  /-- the loop of `kill` -/
  | kill (pid : Int32) (i : ℕ)
  /-- `exit`: the loop that closes the files -/
  | exitClose (status : Int32) (fd : ℕ)
  /-- `exit`: before `acquire(&wait_lock)` -/
  | exitLock (status : Int32)
  /-- `exit`: the loop of `reparent` -/
  | reparent (status : Int32) (i : ℕ)
  /-- `exit`: before `acquire(&p->lock)` -/
  | exitZombie (status : Int32)
  /-- does not come back from `sched` -/
  | exited
  /-- `wait`: before `acquire(&wait_lock)`, at first or in `sleep` -/
  | waitLock (addr : UInt64)
  /-- `wait`: the loop over the table -/
  | waitScan (addr : UInt64) (i : ℕ) (havekids : Bool)
  /-- `wait`: before the `acquire(&p->lock)` of `sleep` -/
  | waitSleep (addr : UInt64)
  /-- the loop of `wakeup`, and where it returns to -/
  | wakeup (chan : Option SleepChan) (i : ℕ) (k : Pc)
  /-- in the `sched` of a `sleep`, and where that returns to -/
  | asleep (k : Pc)
  deriving DecidableEq, Repr

/-- Where another call can sleep: outside of the modelled ones, or when `exit`
closes a file. -/
def Pc.sleeps : Pc → Bool
  | .out | .exitClose _ _ => true
  | _ => false

/-- The birth of a process. -/
structure Birth where
  child : ℕ
  forker : ℕ
  pid : Int32
  deriving DecidableEq, Repr

/-- A `wait` that returned a process; `status` is what it stored. -/
structure Reap where
  child : ℕ
  reaper : ℕ
  pid : Int32
  status : Option Int32
  deriving DecidableEq, Repr

/-- The process table with its locks, the places of the processes, what their
calls returned last, and what has happened. -/
structure ProcTable where
  slots : ProcIx → ProcSlot
  nextpid : Int32
  waitLock : Option ProcIx
  pc : ProcIx → Pc
  a0 : ProcIx → Int32
  number : ProcIx → ℕ
  forks : ℕ
  births : List Birth
  exits : List (ℕ × Int32)
  reaps : List Reap

namespace ProcTable

/-! ### Parts of a step -/

/-- The process goes on at `k`. -/
@[simps -fullyApplied] def goto (s : ProcTable) (p : ProcIx) (k : Pc) : ProcTable :=
  { s with pc := update s.pc p k }

/-- The call returns. -/
@[simps -fullyApplied] def ret (s : ProcTable) (p : ProcIx) (v : Int32) : ProcTable :=
  { s with pc := update s.pc p .out, a0 := update s.a0 p v }

@[simps -fullyApplied] def setSlot (s : ProcTable) (j : ProcIx) (x : ProcSlot) : ProcTable :=
  { s with slots := update s.slots j x }

/-- `acquire(&wait_lock)`. -/
@[simps -fullyApplied]
def acquire (s : ProcTable) (p : ProcIx) : ProcTable := { s with waitLock := some p }

/-- `release(&wait_lock)`. -/
@[simps -fullyApplied] def release (s : ProcTable) : ProcTable := { s with waitLock := none }

/-- `allocpid`. -/
@[simps -fullyApplied]
def allocpid (s : ProcTable) : ProcTable := { s with nextpid := s.nextpid + 1 }

/-- A new process in a slot, whose context is set up to start at `forkret`. -/
@[simps -fullyApplied] def bear (s : ProcTable) (p np : ProcIx) (pid : Int32) : ProcTable :=
  { s with
    pc := update s.pc np .out
    number := update s.number np s.forks
    forks := s.forks + 1
    births := s.births ++ [⟨s.forks, s.number p, pid⟩] }

/-- `wait` has a process to return. -/
@[simps -fullyApplied] def note (s : ProcTable) (p j : ProcIx) (addr : UInt64) : ProcTable :=
  { s with
    reaps := s.reaps ++ [⟨s.number j, s.number p, (s.slots j).pid,
      if addr ≠ 0 then some (s.slots j).xstate else none⟩] }

/-! ### Steps -/

/-- A system call. -/
inductive Call
  | fork
  | kill (pid : Int32)
  | exit (status : Int32)
  | wait (addr : UInt64)
  deriving DecidableEq, Repr

/-- The start of a call; `exit` of the first process panics. -/
def start (s : ProcTable) (p : ProcIx) : Call → Option ProcTable
  | .fork => some (s.goto p (.allocproc 0))
  | .kill pid => some (s.goto p (.kill pid 0))
  | .exit status =>
      if p = Kernel.initproc then none
      else some ({ s with exits := s.exits ++ [(s.number p, status)] }.goto p (.exitClose status 0))
  | .wait addr => some (s.goto p (.waitLock addr))

/-- The next critical section of a process. -/
def advance (s : ProcTable) (p : ProcIx) (memory mapped : Bool) : Option ProcTable :=
  match s.pc p with
  | .out | .asleep _ | .exited => none
  | .allocproc i =>
      if h : i < nProc then
        let np : ProcIx := ⟨i, h⟩
        if (s.slots np).state = .unused then
          let x := { s.slots np with pid := s.nextpid, state := .used }
          if memory then
            some (((s.allocpid.bear p np x.pid).setSlot np (x.inherit (s.slots p))).goto p
              (.forkParent np x.pid))
          else some ((s.allocpid.setSlot np x.freeproc).ret p (-1))
        else some (s.goto p (.allocproc (i + 1)))
      else some (s.ret p (-1))
  | .forkParent np pid =>
      if s.waitLock = none then
        some ((s.setSlot np { s.slots np with parent := some p }).goto p (.forkReady np pid))
      else none
  | .forkReady np pid =>
      some ((s.setSlot np { s.slots np with state := .runnable }).ret p pid)
  | .kill pid i =>
      if h : i < nProc then
        let j : ProcIx := ⟨i, h⟩
        if (s.slots j).pid = pid then some ((s.setSlot j (s.slots j).kill).ret p 0)
        else some (s.goto p (.kill pid (i + 1)))
      else some (s.ret p (-1))
  | .exitClose status fd =>
      if h : fd < 16 then
        let x := s.slots p
        some ((s.setSlot p { x with ofile := update x.ofile ⟨fd, h⟩ none }).goto p
          (.exitClose status (fd + 1)))
      else some ((s.setSlot p { s.slots p with cwd := none }).goto p (.exitLock status))
  | .exitLock status =>
      if s.waitLock = none then some ((s.acquire p).goto p (.reparent status 0)) else none
  | .reparent status i =>
      if h : i < nProc then
        let j : ProcIx := ⟨i, h⟩
        if (s.slots j).parent = some p then
          some ((s.setSlot j { s.slots j with parent := some Kernel.initproc }).goto p
            (.wakeup (some (.proc Kernel.initproc)) 0 (.reparent status (i + 1))))
        else some (s.goto p (.reparent status (i + 1)))
      else some (s.goto p (.wakeup ((s.slots p).parent.map .proc) 0 (.exitZombie status)))
  | .exitZombie status =>
      some ((s.setSlot p { s.slots p with xstate := status, state := .zombie }).release.goto p
        .exited)
  | .waitLock addr =>
      if s.waitLock = none then some ((s.acquire p).goto p (.waitScan addr 0 false)) else none
  | .waitScan addr i havekids =>
      if h : i < nProc then
        let j : ProcIx := ⟨i, h⟩
        if (s.slots j).parent = some p then
          if (s.slots j).state = .zombie then
            if addr ≠ 0 ∧ mapped = false then some (s.release.ret p (-1))
            else
              some (((s.note p j addr).setSlot j (s.slots j).freeproc).release.ret p
                (s.slots j).pid)
          else some (s.goto p (.waitScan addr (i + 1) true))
        else some (s.goto p (.waitScan addr (i + 1) havekids))
      else if havekids = false ∨ (s.slots p).killed = true then some (s.release.ret p (-1))
      else some (s.goto p (.waitSleep addr))
  | .waitSleep addr =>
      some ((s.setSlot p { s.slots p with chan := some (.proc p), state := .sleeping }).release.goto
        p (.asleep (.waitLock addr)))
  | .wakeup chan i k =>
      if h : i < nProc then
        let j : ProcIx := ⟨i, h⟩
        let s := s.goto p (.wakeup chan (i + 1) k)
        if j ≠ p ∧ (s.slots j).state = .sleeping ∧ (s.slots j).chan = chan then
          some (s.setSlot j { s.slots j with state := .runnable })
        else some s
      else some (s.goto p k)

/-- What can happen next. -/
inductive Act
  | call (p : ProcIx) (c : Call)
  | advance (p : ProcIx) (memory mapped : Bool)
  /-- `scheduler` runs the process, which finishes a `sleep` -/
  | sched (p : ProcIx)
  /-- `yield`, at a timer interrupt -/
  | yield (p : ProcIx)
  /-- `sleep` in another call -/
  | sleep (p : ProcIx) (n : ℕ)
  /-- a `wakeup` on such a channel gets to the slot -/
  | wake (j : ProcIx) (n : ℕ)
  /-- `setkilled`, at a fault -/
  | fault (p : ProcIx)
  /-- what other calls do to the process -/
  | other (p : ProcIx) (sz topFreeUvmPg : ℕ) (ofile : Fd → Option FileIx) (cwd : Option ℕ)
      (ownedRingbufs : ℕ)

def next (s : ProcTable) : Act → Option ProcTable
  | .call p c =>
      if (s.slots p).state = .running ∧ s.pc p = .out then s.start p c else none
  | .advance p memory mapped =>
      if (s.slots p).state = .running then s.advance p memory mapped else none
  | .sched p =>
      if (s.slots p).state = .runnable then
        match s.pc p with
        | .asleep k =>
            some ((s.setSlot p { s.slots p with state := .running, chan := none }).goto p k)
        | _ => some (s.setSlot p { s.slots p with state := .running })
      else none
  | .yield p =>
      -- interrupts are off while a lock is held
      if (s.slots p).state = .running ∧ s.waitLock ≠ some p then
        some (s.setSlot p { s.slots p with state := .runnable })
      else none
  | .sleep p n =>
      if (s.slots p).state = .running ∧ (s.pc p).sleeps = true then
        some ((s.setSlot p { s.slots p with state := .sleeping, chan := some (.other n) }).goto p
          (.asleep (s.pc p)))
      else none
  | .wake j n =>
      if (s.slots j).state = .sleeping ∧ (s.slots j).chan = some (.other n) then
        some (s.setSlot j { s.slots j with state := .runnable })
      else none
  | .fault p =>
      if (s.slots p).state = .running ∧ s.pc p = .out then
        some (s.setSlot p { s.slots p with killed := true })
      else none
  | .other p sz topFreeUvmPg ofile cwd ownedRingbufs =>
      if (s.slots p).state = .running ∧ s.pc p = .out then
        some (s.setSlot p { s.slots p with
          sz := sz, topFreeUvmPg := topFreeUvmPg, ofile := ofile, cwd := cwd
          ownedRingbufs := ownedRingbufs })
      else none

/-- A step of the system. -/
def Step (s : ProcTable) (a : Act) (s' : ProcTable) : Prop := s.next a = some s'

/-- The table after `userinit`. -/
def initial : ProcTable where
  slots := update (fun _ => .empty) Kernel.initproc
    { ProcSlot.empty with state := .runnable, pid := 1, sz := pgSize, cwd := some 0 }
  nextpid := 2
  waitLock := none
  pc := fun _ => .out
  a0 := fun _ => 0
  number := fun _ => 0
  forks := 1
  births := []
  exits := []
  reaps := []

def Reachable (s : ProcTable) : Prop := ∃ tr, Run Step initial tr s

/-! ### What a step can do -/

/-- The critical sections, one by one. -/
inductive Section (s : ProcTable) (p : ProcIx) (mapped : Bool) : ProcTable → Prop
  | allocNext {np : ProcIx} (at_ : s.pc p = .allocproc np) (busy : (s.slots np).state ≠ .unused) :
      Section s p mapped (s.goto p (.allocproc (np + 1)))
  | allocNone {i : ℕ} (at_ : s.pc p = .allocproc i) (all : nProc ≤ i) :
      Section s p mapped (s.ret p (-1))
  | allocFail {np : ProcIx} (at_ : s.pc p = .allocproc np) (free : (s.slots np).state = .unused) :
      Section s p mapped ((s.allocpid.setSlot np
        (ProcSlot.freeproc { s.slots np with pid := s.nextpid, state := .used })).ret p (-1))
  | alloc {np : ProcIx} (at_ : s.pc p = .allocproc np) (free : (s.slots np).state = .unused) :
      Section s p mapped (((s.allocpid.bear p np s.nextpid).setSlot np
        (ProcSlot.inherit { s.slots np with pid := s.nextpid, state := .used } (s.slots p))).goto p
          (.forkParent np s.nextpid))
  | forkParent {np : ProcIx} {pid : Int32} (at_ : s.pc p = .forkParent np pid)
      (lock : s.waitLock = none) :
      Section s p mapped ((s.setSlot np { s.slots np with parent := some p }).goto p
        (.forkReady np pid))
  | forkReady {np : ProcIx} {pid : Int32} (at_ : s.pc p = .forkReady np pid) :
      Section s p mapped ((s.setSlot np { s.slots np with state := .runnable }).ret p pid)
  | killNext {pid : Int32} {j : ProcIx} (at_ : s.pc p = .kill pid j)
      (other : (s.slots j).pid ≠ pid) : Section s p mapped (s.goto p (.kill pid (j + 1)))
  | killNone {pid : Int32} {i : ℕ} (at_ : s.pc p = .kill pid i) (all : nProc ≤ i) :
      Section s p mapped (s.ret p (-1))
  | kill {pid : Int32} {j : ProcIx} (at_ : s.pc p = .kill pid j) (found : (s.slots j).pid = pid) :
      Section s p mapped ((s.setSlot j (s.slots j).kill).ret p 0)
  | exitClose {status : Int32} {fd : Fd} (at_ : s.pc p = .exitClose status fd) :
      Section s p mapped ((s.setSlot p { s.slots p with
        ofile := update (s.slots p).ofile fd none }).goto p (.exitClose status (fd + 1)))
  | exitCwd {status : Int32} {fd : ℕ} (at_ : s.pc p = .exitClose status fd) (all : 16 ≤ fd) :
      Section s p mapped ((s.setSlot p { s.slots p with cwd := none }).goto p (.exitLock status))
  | exitLock {status : Int32} (at_ : s.pc p = .exitLock status) (lock : s.waitLock = none) :
      Section s p mapped ((s.acquire p).goto p (.reparent status 0))
  | reparentNext {status : Int32} {j : ProcIx} (at_ : s.pc p = .reparent status j)
      (other : (s.slots j).parent ≠ some p) :
      Section s p mapped (s.goto p (.reparent status (j + 1)))
  | reparent {status : Int32} {j : ProcIx} (at_ : s.pc p = .reparent status j)
      (child : (s.slots j).parent = some p) :
      Section s p mapped ((s.setSlot j { s.slots j with parent := some Kernel.initproc }).goto p
        (.wakeup (some (.proc Kernel.initproc)) 0 (.reparent status (j + 1))))
  | reparentAll {status : Int32} {i : ℕ} (at_ : s.pc p = .reparent status i) (all : nProc ≤ i) :
      Section s p mapped
        (s.goto p (.wakeup ((s.slots p).parent.map .proc) 0 (.exitZombie status)))
  | exitZombie {status : Int32} (at_ : s.pc p = .exitZombie status) :
      Section s p mapped ((s.setSlot p { s.slots p with
        xstate := status, state := .zombie }).release.goto p .exited)
  | waitLock {addr : UInt64} (at_ : s.pc p = .waitLock addr) (lock : s.waitLock = none) :
      Section s p mapped ((s.acquire p).goto p (.waitScan addr 0 false))
  | waitNext {addr : UInt64} {j : ProcIx} {havekids : Bool}
      (at_ : s.pc p = .waitScan addr j havekids) (other : (s.slots j).parent ≠ some p) :
      Section s p mapped (s.goto p (.waitScan addr (j + 1) havekids))
  | waitAlive {addr : UInt64} {j : ProcIx} {havekids : Bool}
      (at_ : s.pc p = .waitScan addr j havekids) (child : (s.slots j).parent = some p)
      (alive : (s.slots j).state ≠ .zombie) :
      Section s p mapped (s.goto p (.waitScan addr (j + 1) true))
  | waitUnmapped {addr : UInt64} {j : ProcIx} {havekids : Bool}
      (at_ : s.pc p = .waitScan addr j havekids) (child : (s.slots j).parent = some p)
      (zombie : (s.slots j).state = .zombie) (bad : addr ≠ 0 ∧ mapped = false) :
      Section s p mapped (s.release.ret p (-1))
  | reap {addr : UInt64} {j : ProcIx} {havekids : Bool}
      (at_ : s.pc p = .waitScan addr j havekids) (child : (s.slots j).parent = some p)
      (zombie : (s.slots j).state = .zombie) :
      Section s p mapped
        (((s.note p j addr).setSlot j (s.slots j).freeproc).release.ret p (s.slots j).pid)
  | waitNone {addr : UInt64} {i : ℕ} {havekids : Bool} (at_ : s.pc p = .waitScan addr i havekids)
      (all : nProc ≤ i) (why : havekids = false ∨ (s.slots p).killed = true) :
      Section s p mapped (s.release.ret p (-1))
  | waitMore {addr : UInt64} {i : ℕ} {havekids : Bool} (at_ : s.pc p = .waitScan addr i havekids)
      (all : nProc ≤ i) (kids : havekids = true) : Section s p mapped (s.goto p (.waitSleep addr))
  | waitSleep {addr : UInt64} (at_ : s.pc p = .waitSleep addr) :
      Section s p mapped ((s.setSlot p { s.slots p with
        chan := some (.proc p), state := .sleeping }).release.goto p (.asleep (.waitLock addr)))
  | wakeNext {chan : Option SleepChan} {j : ProcIx} {k : Pc} (at_ : s.pc p = .wakeup chan j k)
      (not : ¬ (j ≠ p ∧ (s.slots j).state = .sleeping ∧ (s.slots j).chan = chan)) :
      Section s p mapped (s.goto p (.wakeup chan (j + 1) k))
  | wake {chan : Option SleepChan} {j : ProcIx} {k : Pc} (at_ : s.pc p = .wakeup chan j k)
      (ne : j ≠ p) (sleeping : (s.slots j).state = .sleeping) (same : (s.slots j).chan = chan) :
      Section s p mapped ((s.goto p (.wakeup chan (j + 1) k)).setSlot j
        { s.slots j with state := .runnable })
  | wakeAll {chan : Option SleepChan} {i : ℕ} {k : Pc} (at_ : s.pc p = .wakeup chan i k)
      (all : nProc ≤ i) :
      Section s p mapped (s.goto p k)

variable {s s' : ProcTable} {p : ProcIx} {memory mapped : Bool}

theorem section_of_advance (h : s.advance p memory mapped = some s') : Section s p mapped s' := by
  unfold advance at h
  cases hpc : s.pc p with
  | out => simp only [hpc, reduceCtorEq] at h
  | asleep k => simp only [hpc, reduceCtorEq] at h
  | exited => simp only [hpc, reduceCtorEq] at h
  | allocproc i =>
    simp only [hpc] at h
    split_ifs at h with hi hfree hmem
    all_goals obtain rfl := Option.some.inj h
    · exact @Section.alloc s p mapped ⟨i, hi⟩ hpc hfree
    · exact @Section.allocFail s p mapped ⟨i, hi⟩ hpc hfree
    · exact @Section.allocNext s p mapped ⟨i, hi⟩ hpc hfree
    · exact .allocNone hpc (Nat.le_of_not_lt hi)
  | forkParent np pid =>
    simp only [hpc] at h
    split_ifs at h with hlock
    cases h
    exact .forkParent hpc hlock
  | forkReady np pid =>
    simp only [hpc] at h
    cases h
    exact .forkReady hpc
  | kill pid i =>
    simp only [hpc] at h
    split_ifs at h with hi hfound
    all_goals obtain rfl := Option.some.inj h
    · exact .kill (j := ⟨i, hi⟩) hpc hfound
    · exact .killNext (j := ⟨i, hi⟩) hpc hfound
    · exact .killNone hpc (Nat.le_of_not_lt hi)
  | exitClose status fd =>
    simp only [hpc] at h
    split_ifs at h with hfd
    all_goals obtain rfl := Option.some.inj h
    · exact @Section.exitClose s p mapped status ⟨fd, hfd⟩ hpc
    · exact .exitCwd hpc (Nat.le_of_not_lt hfd)
  | exitLock status =>
    simp only [hpc] at h
    split_ifs at h with hlock
    cases h
    exact .exitLock hpc hlock
  | reparent status i =>
    simp only [hpc] at h
    split_ifs at h with hi hchild
    all_goals obtain rfl := Option.some.inj h
    · exact .reparent (j := ⟨i, hi⟩) hpc hchild
    · exact .reparentNext (j := ⟨i, hi⟩) hpc hchild
    · exact .reparentAll hpc (Nat.le_of_not_lt hi)
  | exitZombie status =>
    simp only [hpc] at h
    cases h
    exact .exitZombie hpc
  | waitLock addr =>
    simp only [hpc] at h
    split_ifs at h with hlock
    cases h
    exact .waitLock hpc hlock
  | waitScan addr i havekids =>
    simp only [hpc] at h
    split_ifs at h with hi hchild hzombie hbad hwhy
    all_goals obtain rfl := Option.some.inj h
    · exact .waitUnmapped (j := ⟨i, hi⟩) hpc hchild hzombie hbad
    · exact .reap (j := ⟨i, hi⟩) hpc hchild hzombie
    · exact .waitAlive (j := ⟨i, hi⟩) hpc hchild hzombie
    · exact .waitNext (j := ⟨i, hi⟩) hpc hchild
    · exact .waitNone hpc (Nat.le_of_not_lt hi) hwhy
    · exact .waitMore hpc (Nat.le_of_not_lt hi)
        (Bool.eq_true_of_not_eq_false fun hno => hwhy (.inl hno))
  | waitSleep addr =>
    simp only [hpc] at h
    cases h
    exact .waitSleep hpc
  | wakeup chan i k =>
    simp only [hpc] at h
    split_ifs at h with hi hwake
    all_goals obtain rfl := Option.some.inj h
    · exact .wake (j := ⟨i, hi⟩) hpc hwake.1 hwake.2.1 hwake.2.2
    · exact .wakeNext (j := ⟨i, hi⟩) hpc hwake
    · exact .wakeAll hpc (Nat.le_of_not_lt hi)

/-- The steps, one by one. -/
inductive Does (s : ProcTable) : Act → ProcTable → Prop
  | fork {p : ProcIx} (running : (s.slots p).state = .running) (out : s.pc p = .out) :
      Does s (.call p .fork) (s.goto p (.allocproc 0))
  | kill {p : ProcIx} {pid : Int32} (running : (s.slots p).state = .running)
      (out : s.pc p = .out) : Does s (.call p (.kill pid)) (s.goto p (.kill pid 0))
  | exit {p : ProcIx} {status : Int32} (running : (s.slots p).state = .running)
      (out : s.pc p = .out) (ne : p ≠ Kernel.initproc) :
      Does s (.call p (.exit status))
        ({ s with exits := s.exits ++ [(s.number p, status)] }.goto p (.exitClose status 0))
  | wait {p : ProcIx} {addr : UInt64} (running : (s.slots p).state = .running)
      (out : s.pc p = .out) : Does s (.call p (.wait addr)) (s.goto p (.waitLock addr))
  | advance {p : ProcIx} {memory mapped : Bool} {s' : ProcTable}
      (running : (s.slots p).state = .running) (sec : Section s p mapped s') :
      Does s (.advance p memory mapped) s'
  | resume {p : ProcIx} {k : Pc} (ready : (s.slots p).state = .runnable)
      (at_ : s.pc p = .asleep k) :
      Does s (.sched p)
        ((s.setSlot p { s.slots p with state := .running, chan := none }).goto p k)
  | dispatch {p : ProcIx} (ready : (s.slots p).state = .runnable)
      (awake : ∀ k, s.pc p ≠ .asleep k) :
      Does s (.sched p) (s.setSlot p { s.slots p with state := .running })
  | yield {p : ProcIx} (running : (s.slots p).state = .running) (lock : s.waitLock ≠ some p) :
      Does s (.yield p) (s.setSlot p { s.slots p with state := .runnable })
  | sleep {p : ProcIx} {n : ℕ} (running : (s.slots p).state = .running)
      (sleeps : (s.pc p).sleeps = true) :
      Does s (.sleep p n) ((s.setSlot p { s.slots p with
        state := .sleeping, chan := some (.other n) }).goto p (.asleep (s.pc p)))
  | wake {j : ProcIx} {n : ℕ} (sleeping : (s.slots j).state = .sleeping)
      (same : (s.slots j).chan = some (.other n)) :
      Does s (.wake j n) (s.setSlot j { s.slots j with state := .runnable })
  | fault {p : ProcIx} (running : (s.slots p).state = .running) (out : s.pc p = .out) :
      Does s (.fault p) (s.setSlot p { s.slots p with killed := true })
  | other {p : ProcIx} {sz top : ℕ} {ofile : Fd → Option FileIx} {cwd : Option ℕ} {owned : ℕ}
      (running : (s.slots p).state = .running) (out : s.pc p = .out) :
      Does s (.other p sz top ofile cwd owned) (s.setSlot p { s.slots p with
        sz := sz, topFreeUvmPg := top, ofile := ofile, cwd := cwd, ownedRingbufs := owned })

theorem does_of_step {a : Act} (h : Step s a s') : Does s a s' := by
  unfold Step next at h
  cases a with
  | call p c =>
    simp only at h
    split_ifs at h with hruns
    cases c with
    | fork =>
      cases h
      exact .fork hruns.1 hruns.2
    | kill pid =>
      cases h
      exact .kill hruns.1 hruns.2
    | exit status =>
      unfold start at h
      split_ifs at h with hinit
      cases h
      exact .exit hruns.1 hruns.2 hinit
    | wait addr =>
      cases h
      exact .wait hruns.1 hruns.2
  | advance p memory mapped =>
    simp only at h
    split_ifs at h with hruns
    exact .advance hruns (section_of_advance h)
  | sched p =>
    simp only at h
    split_ifs at h with hready
    split at h
    · cases h
      exact .resume hready ‹_›
    · cases h
      exact .dispatch hready ‹_›
  | yield p =>
    simp only at h
    split_ifs at h with hruns
    cases h
    exact .yield hruns.1 hruns.2
  | sleep p n =>
    simp only at h
    split_ifs at h with hruns
    cases h
    exact .sleep hruns.1 hruns.2
  | wake j n =>
    simp only at h
    split_ifs at h with hruns
    cases h
    exact .wake hruns.1 hruns.2
  | fault p =>
    simp only at h
    split_ifs at h with hruns
    cases h
    exact .fault hruns.1 hruns.2
  | other p sz top ofile cwd owned =>
    simp only at h
    split_ifs at h with hruns
    cases h
    exact .other hruns.1 hruns.2

theorem exists_run {γ : Type} {g : ProcTable → γ} {v : γ} (tr : List Act)
    (h : (tr.foldlM next initial).map g = some v) : ∃ s, Run Step initial tr s ∧ g s = v :=
  Run.of_foldlM_map (fun hnext => hnext) tr h

end ProcTable

end Xv6Zig
