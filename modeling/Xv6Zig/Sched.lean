/-
Xv6Zig/Sched.lean

The scheduler, `sleep`, `wakeup`, `kill` and `yield` (`kernel/proc.c`), for any
number of processes, CPUs, spinlocks and channels.

Granularity.  Taking a lock, giving it up, every store to `p->state` and
`p->chan` and every `swtch` is a step of its own, so that another CPU may come
in between any two of them.  A test of `p->state` and the store it guards are one
step; both stand between `acquire(&p->lock)` and `release(&p->lock)`.

A CPU is in `scheduler()` or runs the thread of a process; `c->proc` is that
process.  The thread of a process keeps its place while no CPU runs it.  In its
own code (`out`) a process takes and releases spinlocks as it likes.  `noff` is
the counter of `push_off`; interrupts are on while it is 0, and then the timer
may make the process `yield`.

A step that the code does not have is `none`: a lock that is taken, and the
`panic`s of `acquire`, `release` and `sched`.
-/
import Xv6Zig.ProcTable

namespace Xv6Zig

open Lib Function

/-- Where a CPU is: in the loop of `scheduler` or in the thread of a process. -/
inductive CpuAt (n : ℕ)
  /-- before `acquire(&p->lock)` -/
  | loop (i : Fin n)
  /-- before the test of `p->state` -/
  | check (i : Fin n)
  /-- before `swtch(&c->context, &p->context)` -/
  | swtch (i : Fin n)
  /-- in the thread of the process -/
  | run (i : Fin n)
  /-- before `release(&p->lock)` -/
  | back (i : Fin n)
  deriving DecidableEq, Repr

/-- Places where a process has no lock of a process, in code that the timer may
interrupt. -/
inductive Calm (n : ℕ) (L : Type*)
  /-- in user code, or in a call that is not modelled -/
  | out
  /-- `sleep`: before `acquire(lk)` -/
  | sleepLock (lk : L)
  /-- `kill`: at the head of the loop, whose counter runs up to `NPROC` -/
  | kill (pid : Int32) (i : ℕ)
  deriving DecidableEq, Repr

/-- Where the thread of a process is. -/
inductive At (n : ℕ) (L K : Type*)
  | calm (x : Calm n L)
  /-- `forkret`: before `release(&p->lock)` -/
  | forkret
  /-- `sleep`: before `release(lk)` -/
  | sleepRelease (chan : K) (lk : L)
  /-- `sleep`: before `p->chan = chan` -/
  | sleepChan (chan : K) (lk : L)
  /-- `sleep`: before `p->state = SLEEPING` -/
  | sleepState (chan : K) (lk : L)
  /-- `sleep`: before the `swtch` of `sched` -/
  | sleepSched (chan : K) (lk : L)
  /-- `sleep`: before `p->chan = 0` -/
  | slept (lk : L)
  /-- `sleep`: before `release(&p->lock)` -/
  | sleepUnlock (lk : L)
  /-- `wakeup`: at the head of the loop, whose counter runs up to `NPROC` -/
  | wakeup (chan : K) (i : ℕ)
  /-- `wakeup`: before the test of `p->state` and `p->chan` -/
  | wakeupCheck (chan : K) (i : Fin n)
  /-- `wakeup`: before `release(&p->lock)` -/
  | wakeupUnlock (chan : K) (i : Fin n)
  /-- `kill`: before the test of `p->pid` -/
  | killCheck (pid : Int32) (i : Fin n)
  /-- `kill`: before `release(&p->lock)` -/
  | killUnlock (pid : Int32) (i : Fin n) (found : Bool)
  /-- `yield`: before `p->state = RUNNABLE` -/
  | yieldState (x : Calm n L)
  /-- `yield`: before the `swtch` of `sched` -/
  | yieldSched (x : Calm n L)
  /-- `yield`: before `release(&p->lock)` -/
  | yielded (x : Calm n L)
  deriving DecidableEq, Repr

/-- What the locks of the processes are about. -/
structure Procs (n : ℕ) (C L K : Type*) where
  state : Fin n → Procstate
  chan : Fin n → Option K
  /-- the CPU that has `p->lock` -/
  plock : Fin n → Option C
  cpu : C → CpuAt n
  pos : Fin n → At n L K

/-- The processes, the other spinlocks and the CPUs. -/
structure Sched (n : ℕ) (C L K : Type*) extends Procs n C L K where
  killed : Fin n → Bool
  pid : Fin n → Int32
  /-- the CPU that has the spinlock -/
  lock : L → Option C
  noff : C → ℕ

/-- What happens. -/
inductive SchedEv (n : ℕ) (C L K : Type*)
  /-- the next step of `scheduler` -/
  | sched (c : C)
  /-- `acquire(lk)` by a process, in its own code or at the end of `sleep` -/
  | acquire (c : C) (p : Fin n) (lk : L)
  /-- `release(lk)` by a process in its own code -/
  | release (c : C) (p : Fin n) (lk : L)
  /-- a call of `sleep`, up to `acquire(&p->lock)` -/
  | sleep (c : C) (p : Fin n) (chan : K) (lk : L)
  /-- `release(lk)` in `sleep` -/
  | sleepRelease (c : C) (p : Fin n) (chan : K) (lk : L)
  /-- a call of `wakeup` by a process that has `lk` -/
  | wakeup (c : C) (p : Fin n) (chan : K) (lk : L)
  /-- the return of `wakeup` -/
  | wakeupDone (c : C) (p : Fin n) (chan : K)
  /-- a call of `kill` -/
  | kill (c : C) (p : Fin n) (pid : Int32)
  /-- a call of `yield`, up to `acquire(&p->lock)` -/
  | yield (c : C) (p : Fin n)
  /-- any other step of a process -/
  | go (c : C) (p : Fin n)
  deriving DecidableEq

/-- The slot after `i` in the loop of `scheduler`, which starts again at the end. -/
def CpuAt.after {n : ℕ} (i : Fin n) : Fin n := ⟨(i + 1) % n, Nat.mod_lt _ i.pos⟩

/-- The place as one where the timer may come in. -/
def At.calm? {n : ℕ} {L K : Type*} : At n L K → Option (Calm n L)
  | .calm x => some x
  | _ => none

namespace Procs

variable {n : ℕ} {C L K : Type*} [DecidableEq C] [DecidableEq K]

@[simps] def goto (s : Procs n C L K) (p : Fin n) (x : At n L K) : Procs n C L K :=
  { s with pos := update s.pos p x }

@[simps] def setCpu (s : Procs n C L K) (c : C) (x : CpuAt n) : Procs n C L K :=
  { s with cpu := update s.cpu c x }

@[simps] def setState (s : Procs n C L K) (i : Fin n) (x : Procstate) : Procs n C L K :=
  { s with state := update s.state i x }

@[simps] def setChan (s : Procs n C L K) (i : Fin n) (x : Option K) : Procs n C L K :=
  { s with chan := update s.chan i x }

@[simps] def setLock (s : Procs n C L K) (i : Fin n) (x : Option C) : Procs n C L K :=
  { s with plock := update s.plock i x }

/-- The test of `wakeup`. -/
def wakeIf (s : Procs n C L K) (i : Fin n) (chan : K) : Procs n C L K :=
  if s.state i = .sleeping ∧ s.chan i = some chan then s.setState i .runnable else s

/-- What `kill` does to the state of the process it finds. -/
def rouse (s : Procs n C L K) (i : Fin n) : Procs n C L K :=
  if s.state i = .sleeping then s.setState i .runnable else s

end Procs

namespace Sched

variable {n : ℕ} {C L K : Type*} [DecidableEq C] [DecidableEq L] [DecidableEq K]

/-! ### Steps -/

/-- A step that touches neither another spinlock nor `noff`. -/
def put (s : Sched n C L K) (x : Procs n C L K) : Sched n C L K := { s with toProcs := x }

/-- `push_off`. -/
def pushOff (s : Sched n C L K) (c : C) : Sched n C L K :=
  { s with noff := update s.noff c (s.noff c + 1) }

/-- `pop_off`. -/
def popOff (s : Sched n C L K) (c : C) : Sched n C L K :=
  { s with noff := update s.noff c (s.noff c - 1) }

/-- `acquire(&proc[i].lock)`. -/
def acquireProc (s : Sched n C L K) (c : C) (i : Fin n) : Sched n C L K :=
  (s.pushOff c).put (s.toProcs.setLock i (some c))

/-- `release(&proc[i].lock)`. -/
def releaseProc (s : Sched n C L K) (c : C) (i : Fin n) : Sched n C L K :=
  (s.popOff c).put (s.toProcs.setLock i none)

/-- `acquire(lk)`. -/
def acquireLock (s : Sched n C L K) (c : C) (lk : L) : Sched n C L K :=
  { s.pushOff c with lock := update s.lock lk (some c) }

/-- `release(lk)`. -/
def releaseLock (s : Sched n C L K) (c : C) (lk : L) : Sched n C L K :=
  { s.popOff c with lock := update s.lock lk none }

/-- The thread of `p` goes on at `x`. -/
def goto (s : Sched n C L K) (p : Fin n) (x : At n L K) : Sched n C L K :=
  s.put (s.toProcs.goto p x)

/-- What `kill` does to the process it finds. -/
def killAt (s : Sched n C L K) (i : Fin n) : Sched n C L K :=
  { s.put (s.toProcs.rouse i) with killed := update s.killed i true }

/-- The next step of `scheduler` on CPU `c`. -/
def scheduler (s : Sched n C L K) (c : C) : Option (Sched n C L K) :=
  match s.cpu c with
  | .loop i =>
    if s.plock i = none then
      let s := s.acquireProc c i
      some (s.put (s.toProcs.setCpu c (.check i)))
    else none
  | .check i =>
    if s.state i = .runnable then
      some (s.put ((s.toProcs.setState i .running).setCpu c (.swtch i)))
    else some (s.put (s.toProcs.setCpu c (.back i)))
  | .swtch i => some (s.put (s.toProcs.setCpu c (.run i)))
  | .run _ => none
  | .back i =>
    let s := s.releaseProc c i
    some (s.put (s.toProcs.setCpu c (.loop (CpuAt.after i))))

/-- The `swtch` of `sched`, which panics unless only `p->lock` is held and the
state is no longer `RUNNING`. -/
def sched (s : Sched n C L K) (c : C) (p : Fin n) (x : At n L K) : Option (Sched n C L K) :=
  if s.plock p = some c ∧ s.noff c = 1 ∧ s.state p ≠ .running then
    some (s.put ((s.toProcs.goto p x).setCpu c (.back p)))
  else none

/-- The next step of the thread of `p`, where it is not one of the other events. -/
def advance (s : Sched n C L K) (c : C) (p : Fin n) : Option (Sched n C L K) :=
  match s.pos p with
  | .forkret => some ((s.releaseProc c p).goto p (.calm .out))
  | .sleepChan chan lk =>
    some (s.put ((s.toProcs.setChan p (some chan)).goto p (.sleepState chan lk)))
  | .sleepState chan lk =>
    some (s.put ((s.toProcs.setState p .sleeping).goto p (.sleepSched chan lk)))
  | .sleepSched _ lk => s.sched c p (.slept lk)
  | .slept lk => some (s.put ((s.toProcs.setChan p none).goto p (.sleepUnlock lk)))
  | .sleepUnlock lk => some ((s.releaseProc c p).goto p (.calm (.sleepLock lk)))
  | .wakeup chan i =>
    if h : i < n then
      if ⟨i, h⟩ = p then some (s.goto p (.wakeup chan (i + 1)))
      else if s.plock ⟨i, h⟩ = none then
        some ((s.acquireProc c ⟨i, h⟩).goto p (.wakeupCheck chan ⟨i, h⟩))
      else none
    else none
  | .wakeupCheck chan i =>
    some (s.put ((s.toProcs.wakeIf i chan).goto p (.wakeupUnlock chan i)))
  | .wakeupUnlock chan i => some ((s.releaseProc c i).goto p (.wakeup chan (i + 1)))
  | .calm (.kill pid i) =>
    if h : i < n then
      if s.plock ⟨i, h⟩ = none then
        some ((s.acquireProc c ⟨i, h⟩).goto p (.killCheck pid ⟨i, h⟩))
      else none
    else some (s.goto p (.calm .out))
  | .killCheck pid i =>
    if s.pid i = pid then some ((s.killAt i).goto p (.killUnlock pid i true))
    else some (s.goto p (.killUnlock pid i false))
  | .killUnlock pid i found =>
    some ((s.releaseProc c i).goto p (.calm (if found then .out else .kill pid (i + 1))))
  | .yieldState x => some (s.put ((s.toProcs.setState p .runnable).goto p (.yieldSched x)))
  | .yieldSched x => s.sched c p (.yielded x)
  | .yielded x => some ((s.releaseProc c p).goto p (.calm x))
  | .calm .out | .calm (.sleepLock _) | .sleepRelease _ _ => none

/-- One step. -/
def next (s : Sched n C L K) : SchedEv n C L K → Option (Sched n C L K)
  | .sched c => s.scheduler c
  | .acquire c p lk =>
    if s.cpu c = .run p ∧ (s.pos p = .calm .out ∨ s.pos p = .calm (.sleepLock lk)) ∧
        s.lock lk = none then
      some ((s.acquireLock c lk).goto p (.calm .out))
    else none
  | .release c p lk =>
    if s.cpu c = .run p ∧ s.pos p = .calm .out ∧ s.lock lk = some c then
      some (s.releaseLock c lk)
    else none
  | .sleep c p chan lk =>
    if s.cpu c = .run p ∧ s.pos p = .calm .out ∧ s.lock lk = some c ∧ s.plock p = none then
      some ((s.acquireProc c p).goto p (.sleepRelease chan lk))
    else none
  | .sleepRelease c p chan lk =>
    if s.cpu c = .run p ∧ s.pos p = .sleepRelease chan lk ∧ s.lock lk = some c then
      some ((s.releaseLock c lk).goto p (.sleepChan chan lk))
    else none
  | .wakeup c p chan lk =>
    if s.cpu c = .run p ∧ s.pos p = .calm .out ∧ s.lock lk = some c then
      some (s.goto p (.wakeup chan 0))
    else none
  | .wakeupDone c p chan =>
    if s.cpu c = .run p ∧ s.pos p = .wakeup chan n then some (s.goto p (.calm .out)) else none
  | .kill c p pid =>
    if s.cpu c = .run p ∧ s.pos p = .calm .out then some (s.goto p (.calm (.kill pid 0)))
    else none
  | .yield c p =>
    match (s.pos p).calm? with
    | some x =>
      if s.cpu c = .run p ∧ s.noff c = 0 ∧ s.plock p = none then
        some ((s.acquireProc c p).goto p (.yieldState x))
      else none
    | none => none
  | .go c p => if s.cpu c = .run p then s.advance c p else none

/-- `s.Step e s'`: `e` leads from `s` to `s'`. -/
def Step (s : Sched n C L K) (e : SchedEv n C L K) (s' : Sched n C L K) : Prop :=
  s.next e = some s'

/-- All CPUs are in `scheduler`, no lock is taken, and the processes there are
wait to run `forkret`. -/
structure Initial (s : Sched n C L K) : Prop where
  cpu : ∀ c, ∃ i, s.cpu c = .loop i
  plock : ∀ i, s.plock i = none
  lock : ∀ lk, s.lock lk = none
  noff : ∀ c, s.noff c = 0
  state : ∀ i, s.state i ≠ .running ∧ s.state i ≠ .sleeping
  pos : ∀ i, s.pos i = .forkret

end Sched

/-! ### What a step does to the processes -/

/-- `Passes p e x y`: at `e` the thread of `p` goes from `x` to `y` and neither a
process nor the lock of one changes. -/
inductive Passes {n : ℕ} {C L K : Type*} (p : Fin n) :
    SchedEv n C L K → At n L K → At n L K → Prop
  | calm (e : SchedEv n C L K) (x y : Calm n L) : Passes p e (.calm x) (.calm y)
  | sleepRelease (c : C) (chan : K) (lk : L) :
      Passes p (.sleepRelease c p chan lk) (.sleepRelease chan lk) (.sleepChan chan lk)
  | wakeup (c : C) (chan : K) (lk : L) :
      Passes p (.wakeup c p chan lk) (.calm .out) (.wakeup chan 0)
  | self (c : C) (chan : K) : Passes p (.go c p) (.wakeup chan p) (.wakeup chan (p + 1))
  | wakeupDone (c : C) (chan : K) :
      Passes p (.wakeupDone c p chan) (.wakeup chan n) (.calm .out)
  | killCheck (c : C) (pid : Int32) (i : Fin n) (found : Bool) :
      Passes p (.go c p) (.killCheck pid i) (.killUnlock pid i found)

/-- `Takes p x i y`: `acquire(&proc[i].lock)` brings the thread of `p` from `x` to `y`. -/
inductive Takes {n : ℕ} {L K : Type*} (p : Fin n) : At n L K → Fin n → At n L K → Prop
  | sleep (chan : K) (lk : L) : Takes p (.calm .out) p (.sleepRelease chan lk)
  | wakeup (chan : K) {i : Fin n} (h : i ≠ p) : Takes p (.wakeup chan i) i (.wakeupCheck chan i)
  | kill (pid : Int32) (i : Fin n) : Takes p (.calm (.kill pid i)) i (.killCheck pid i)
  | yield (x : Calm n L) : Takes p (.calm x) p (.yieldState x)

/-- `Gives p x i y`: `release(&proc[i].lock)` brings the thread of `p` from `x` to `y`. -/
inductive Gives {n : ℕ} {L K : Type*} (p : Fin n) : At n L K → Fin n → At n L K → Prop
  | forkret : Gives p .forkret p (.calm .out)
  | sleep (lk : L) : Gives p (.sleepUnlock lk) p (.calm (.sleepLock lk))
  | wakeup (chan : K) (i : Fin n) : Gives p (.wakeupUnlock chan i) i (.wakeup chan (i + 1))
  | kill (pid : Int32) (i : Fin n) (found : Bool) (x : Calm n L) :
      Gives p (.killUnlock pid i found) i (.calm x)
  | yield (x : Calm n L) : Gives p (.yielded x) p (.calm x)

/-- `Leaves x y`: the `swtch` of `sched` leaves the thread at `y`. -/
inductive Leaves {n : ℕ} {L K : Type*} : At n L K → At n L K → Prop
  | sleep (chan : K) (lk : L) : Leaves (.sleepSched chan lk) (.slept lk)
  | yield (x : Calm n L) : Leaves (.yieldSched x) (.yielded x)

/-- `Rouses x i y`: the thread may make `proc[i]` `RUNNABLE` on its way from `x` to
`y`. -/
inductive Rouses {n : ℕ} {L K : Type*} : At n L K → Fin n → At n L K → Prop
  | wakeup (chan : K) (i : Fin n) : Rouses (.wakeupCheck chan i) i (.wakeupUnlock chan i)
  | kill (pid : Int32) (i : Fin n) : Rouses (.killCheck pid i) i (.killUnlock pid i true)

namespace Procs

variable {n : ℕ} {C L K : Type*} [DecidableEq C] [DecidableEq K]

/-- What a step of `scheduler` on CPU `c` can do to the processes. -/
inductive Schedules (s : Procs n C L K) (c : C) : Procs n C L K → Prop
  | lock {i : Fin n} : s.cpu c = .loop i → s.plock i = none →
      Schedules s c ((s.setLock i (some c)).setCpu c (.check i))
  | pick {i : Fin n} : s.cpu c = .check i → s.state i = .runnable →
      Schedules s c ((s.setState i .running).setCpu c (.swtch i))
  | skip {i : Fin n} : s.cpu c = .check i → s.state i ≠ .runnable →
      Schedules s c (s.setCpu c (.back i))
  | enter {i : Fin n} : s.cpu c = .swtch i → Schedules s c (s.setCpu c (.run i))
  | unlock {i : Fin n} : s.cpu c = .back i →
      Schedules s c ((s.setLock i none).setCpu c (.loop (CpuAt.after i)))

/-- What a step of the thread of `p` on CPU `c` can do to the processes. -/
inductive Thread (s : Procs n C L K) (c : C) (p : Fin n) (e : SchedEv n C L K) :
    Procs n C L K → Prop
  | pass {y : At n L K} : Passes p e (s.pos p) y → Thread s c p e (s.goto p y)
  | take {i : Fin n} {y : At n L K} : Takes p (s.pos p) i y → s.plock i = none →
      Thread s c p e ((s.setLock i (some c)).goto p y)
  | give {i : Fin n} {y : At n L K} : Gives p (s.pos p) i y →
      Thread s c p e ((s.setLock i none).goto p y)
  | chan {chan : K} {lk : L} : s.pos p = .sleepChan chan lk →
      Thread s c p e ((s.setChan p (some chan)).goto p (.sleepState chan lk))
  | asleep {chan : K} {lk : L} : s.pos p = .sleepState chan lk →
      Thread s c p e ((s.setState p .sleeping).goto p (.sleepSched chan lk))
  | tidy {lk : L} : s.pos p = .slept lk →
      Thread s c p e ((s.setChan p none).goto p (.sleepUnlock lk))
  | yield {x : Calm n L} : s.pos p = .yieldState x →
      Thread s c p e ((s.setState p .runnable).goto p (.yieldSched x))
  | leave {y : At n L K} : Leaves (s.pos p) y → s.state p ≠ .running →
      Thread s c p e ((s.goto p y).setCpu c (.back p))
  | rouse {i : Fin n} {y : At n L K} : Rouses (s.pos p) i y → s.state i = .sleeping →
      Thread s c p e ((s.setState i .runnable).goto p y)
  | miss {i : Fin n} {chan : K} : s.pos p = .wakeupCheck chan i →
      ¬ (s.state i = .sleeping ∧ s.chan i = some chan) →
      Thread s c p e (s.goto p (.wakeupUnlock chan i))

/-- Everything a step of CPU `c` can do to the processes. -/
inductive Does (s : Procs n C L K) (c : C) (e : SchedEv n C L K) (s' : Procs n C L K) : Prop
  | sched : s.Schedules c s' → Does s c e s'
  | thread {p : Fin n} : s.cpu c = .run p → s.Thread c p e s' → Does s c e s'

end Procs

namespace Sched

variable {n : ℕ} {C L K : Type*} [DecidableEq C] [DecidableEq L] [DecidableEq K]
variable {s s' : Sched n C L K} {e : SchedEv n C L K} {c : C} {p : Fin n}

omit [DecidableEq L] [DecidableEq K] in
theorem scheduler_schedules (h : s.scheduler c = some s') : s.toProcs.Schedules c s'.toProcs := by
  unfold scheduler at h
  split at h
  case h_1 i hcpu =>
    split_ifs at h with hfree
    cases h
    exact .lock hcpu hfree
  case h_2 i hcpu =>
    split_ifs at h with hready
    · cases h
      exact .pick hcpu hready
    · cases h
      exact .skip hcpu hready
  case h_3 i hcpu =>
    cases h
    exact .enter hcpu
  case h_4 => cases h
  case h_5 i hcpu =>
    cases h
    exact .unlock hcpu

omit [DecidableEq L] [DecidableEq K] in
theorem sched_thread {y : At n L K} (hy : Leaves (s.pos p) y)
    (h : s.sched c p y = some s') : s.toProcs.Thread c p e s'.toProcs := by
  unfold sched at h
  split_ifs at h with hpanic
  cases h
  exact .leave hy hpanic.2.2

omit [DecidableEq L] in
theorem advance_thread (h : s.advance c p = some s') :
    s.toProcs.Thread c p (.go c p) s'.toProcs := by
  unfold advance at h
  split at h
  case h_1 hx =>
    cases h
    exact .give (hx ▸ .forkret)
  case h_2 hx =>
    cases h
    exact .chan hx
  case h_3 hx =>
    cases h
    exact .asleep hx
  case h_4 hx => exact sched_thread (hx ▸ .sleep _ _) h
  case h_5 hx =>
    cases h
    exact .tidy hx
  case h_6 hx =>
    cases h
    exact .give (hx ▸ .sleep _)
  case h_7 chan i hx =>
    split_ifs at h with hi hself hfree
    · subst hself
      cases h
      exact .pass (hx ▸ .self c chan)
    · cases h
      exact .take (hx ▸ .wakeup chan hself) hfree
  case h_8 chan i hx =>
    cases h
    show s.toProcs.Thread c p (.go c p) ((s.toProcs.wakeIf i chan).goto p (.wakeupUnlock chan i))
    unfold Procs.wakeIf
    split_ifs with hhit
    · exact .rouse (hx ▸ .wakeup chan i) hhit.1
    · exact .miss hx hhit
  case h_9 hx =>
    cases h
    exact .give (hx ▸ .wakeup _ _)
  case h_10 pid i hx =>
    split_ifs at h with hi hfree
    · cases h
      exact .take (hx ▸ .kill pid ⟨i, hi⟩) hfree
    · cases h
      exact .pass (hx ▸ .calm _ _ _)
  case h_11 pid i hx =>
    split_ifs at h with hpid
    · cases h
      show s.toProcs.Thread c p (.go c p) ((s.toProcs.rouse i).goto p (.killUnlock pid i true))
      unfold Procs.rouse
      split_ifs with hsleep
      · exact .rouse (hx ▸ .kill pid i) hsleep
      · exact .pass (hx ▸ .killCheck c pid i true)
    · cases h
      exact .pass (hx ▸ .killCheck c pid i false)
  case h_12 hx =>
    cases h
    exact .give (hx ▸ .kill _ _ _ _)
  case h_13 hx =>
    cases h
    exact .yield hx
  case h_14 hx => exact sched_thread (hx ▸ .yield _) h
  case h_15 hx =>
    cases h
    exact .give (hx ▸ .yield _)
  all_goals cases h

theorem Step.does (h : s.Step e s') : ∃ c, s.toProcs.Does c e s'.toProcs := by
  unfold Step next at h
  cases e with
  | sched c => exact ⟨c, .sched (scheduler_schedules h)⟩
  | go c p =>
    dsimp only at h
    split_ifs at h with hcpu
    exact ⟨c, .thread hcpu (advance_thread h)⟩
  | yield c p =>
    dsimp only at h
    cases hx : s.pos p with
    | calm x =>
      simp only [hx, At.calm?] at h
      split_ifs at h with hguard
      cases h
      exact ⟨c, .thread hguard.1 (.take (hx ▸ .yield x) hguard.2.2)⟩
    | _ => simp [hx, At.calm?] at h
  | acquire c p lk =>
    dsimp only at h
    split_ifs at h with hguard
    cases h
    have hpass : Passes p (.acquire c p lk) (s.pos p) (.calm .out) := by
      rcases hguard.2.1 with hx | hx
      · rw [hx]
        exact .calm _ _ _
      · rw [hx]
        exact .calm _ _ _
    exact ⟨c, .thread hguard.1 (.pass hpass)⟩
  | release c p lk =>
    dsimp only at h
    split_ifs at h with hguard
    cases h
    have hstay : s.toProcs.goto p (.calm .out) = s.toProcs := by
      simp [Procs.goto, ← hguard.2.1]
    have hpass : Passes p (.release c p lk) (s.pos p) (.calm .out) := by
      rw [hguard.2.1]
      exact .calm _ _ _
    have hdoes := Procs.Thread.pass (c := c) hpass
    rw [hstay] at hdoes
    exact ⟨c, .thread hguard.1 hdoes⟩
  | sleep c p chan lk =>
    dsimp only at h
    split_ifs at h with hguard
    cases h
    exact ⟨c, .thread hguard.1 (.take (hguard.2.1 ▸ .sleep chan lk) hguard.2.2.2)⟩
  | sleepRelease c p chan lk =>
    dsimp only at h
    split_ifs at h with hguard
    cases h
    exact ⟨c, .thread hguard.1 (.pass (hguard.2.1 ▸ .sleepRelease c chan lk))⟩
  | wakeup c p chan lk =>
    dsimp only at h
    split_ifs at h with hguard
    cases h
    exact ⟨c, .thread hguard.1 (.pass (hguard.2.1 ▸ .wakeup c chan lk))⟩
  | wakeupDone c p chan =>
    dsimp only at h
    split_ifs at h with hguard
    cases h
    exact ⟨c, .thread hguard.1 (.pass (hguard.2 ▸ .wakeupDone c chan))⟩
  | kill c p pid =>
    dsimp only at h
    split_ifs at h with hguard
    cases h
    exact ⟨c, .thread hguard.1 (.pass (hguard.2 ▸ .calm _ _ _))⟩

end Sched

end Xv6Zig
