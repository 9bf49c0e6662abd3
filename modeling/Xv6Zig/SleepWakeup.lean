/-
Xv6Zig/SleepWakeup.lean

`sleep` and `wakeup` lose no wakeup (`kernel/proc.c`).

A process that goes to sleep takes `p->lock` before it gives up `lk`, and its CPU
keeps `p->lock` through `sched` until the scheduler has switched away from the
process.  Whoever calls `wakeup` after that takes every `p->lock` in turn.  So when
the waker gets to the sleeper's slot the sleeper is asleep, with its channel in
place, or has been woken since.

The argument has two parts.  `Procs.Inv` says who has which `p->lock`, and that a
process runs on one CPU at most; the second part needs the first, since it is the
lock that keeps another CPU from running a process that is still being switched
out.  `Dozing` and `Scanned` then follow one sleep and one call of `wakeup`.

Main result: `sleep_wakeup`.
-/
import Xv6Zig.Sched

namespace Xv6Zig

open Lib Function

/-- The event is not the `release(lk)` of a `sleep` of `p`. -/
def SchedEv.NotSleep {n : ℕ} {C L K : Type*} (p : Fin n) (e : SchedEv n C L K) : Prop :=
  ∀ c chan lk, e ≠ .sleepRelease c p chan lk

/-! ### Places -/

namespace At

variable {n : ℕ} {L K : Type*}

/-- Where the thread of a process stands that no CPU runs. -/
def Parked : At n L K → Prop
  | forkret | slept _ | yielded _ => True
  | _ => False

/-- In `sched` with the state changed, the `swtch` still to come. -/
def Leaving : At n L K → Prop
  | sleepSched _ _ | yieldSched _ => True
  | _ => False

/-- In `sleep`, between `release(lk)` and the `swtch` of `sched`. -/
def Dozes : At n L K → Prop
  | sleepChan _ _ | sleepState _ _ | sleepSched _ _ => True
  | _ => False

/-- On the way into `sched`: the next step is the next store or the `swtch`. -/
def Departs : At n L K → Prop
  | sleepChan _ _ | sleepState _ _ | sleepSched _ _ | yieldSched _ => True
  | _ => False

/-- `x.Locks p i`: at `x` the thread of `p` has `proc[i].lock`. -/
def Locks (p i : Fin n) : At n L K → Prop
  | calm _ | wakeup _ _ => False
  | wakeupCheck _ j | wakeupUnlock _ j | killCheck _ j | killUnlock _ j _ => i = j
  | _ => i = p

theorem Leaving.locks {x : At n L K} (h : x.Leaving) (p : Fin n) : x.Locks p p := by
  cases x <;> first | exact h.elim | exact rfl

theorem Parked.locks {x : At n L K} (h : x.Parked) {p i : Fin n} : x.Locks p i ↔ i = p := by
  cases x <;> first | exact h.elim | exact Iff.rfl

theorem Leaving.departs {x : At n L K} (h : x.Leaving) : x.Departs := by
  cases x <;> first | exact h.elim | trivial

theorem Dozes.departs {x : At n L K} (h : x.Dozes) : x.Departs := by
  cases x <;> first | exact h.elim | trivial

theorem Dozes.locks {x : At n L K} (h : x.Dozes) (p : Fin n) : x.Locks p p := by
  cases x <;> first | exact h.elim | exact rfl

theorem Dozes.not_parked {x : At n L K} (h : x.Dozes) : ¬ x.Parked := by
  cases x <;> first | exact h.elim | exact id

theorem Leaving.not_parked {x : At n L K} (h : x.Leaving) : ¬ x.Parked := by
  cases x <;> first | exact h.elim | exact id

end At

section Places

variable {n : ℕ} {C L K : Type*} {p i : Fin n} {x y : At n L K}

theorem Passes.locks {e : SchedEv n C L K} (h : Passes p e x y) (j : Fin n) :
    y.Locks p j ↔ x.Locks p j := by
  cases h <;> exact Iff.rfl

theorem Passes.not_departs {e : SchedEv n C L K} (h : Passes p e x y) : ¬ x.Departs := by
  cases h <;> exact id

theorem Passes.not_leaving {e : SchedEv n C L K} (h : Passes p e x y) : ¬ y.Leaving := by
  cases h <;> exact id

theorem Passes.not_dozes {e : SchedEv n C L K} (h : Passes p e x y) (he : e.NotSleep p) :
    ¬ y.Dozes := by
  cases h with
  | sleepRelease c chan lk => exact absurd rfl (he c chan lk)
  | _ => exact id

theorem Takes.locks (h : Takes p x i y) (j : Fin n) : y.Locks p j ↔ j = i := by
  cases h <;> exact Iff.rfl

theorem Takes.not_departs (h : Takes p x i y) : ¬ x.Departs := by
  cases h <;> exact id

theorem Takes.not_leaving (h : Takes p x i y) : ¬ y.Leaving := by
  cases h <;> exact id

theorem Takes.not_dozes (h : Takes p x i y) : ¬ y.Dozes := by
  cases h <;> exact id

theorem Gives.locks_left (h : Gives p x i y) : x.Locks p i := by
  cases h <;> exact rfl

theorem Gives.locks (h : Gives p x i y) (j : Fin n) : ¬ y.Locks p j := by
  cases h <;> exact id

theorem Gives.not_departs (h : Gives p x i y) : ¬ x.Departs := by
  cases h <;> exact id

theorem Gives.not_leaving (h : Gives p x i y) : ¬ y.Leaving := by
  cases h <;> exact id

theorem Gives.not_dozes (h : Gives p x i y) : ¬ y.Dozes := by
  cases h <;> exact id

theorem Leaves.leaving (h : Leaves x y) : x.Leaving := by
  cases h <;> exact trivial

theorem Leaves.parked (h : Leaves x y) : y.Parked := by
  cases h <;> exact trivial

theorem Rouses.locks_left (h : Rouses x i y) (p j : Fin n) : x.Locks p j ↔ j = i := by
  cases h <;> exact Iff.rfl

theorem Rouses.locks (h : Rouses x i y) (p j : Fin n) : y.Locks p j ↔ j = i := by
  cases h <;> exact Iff.rfl

theorem Rouses.not_departs (h : Rouses x i y) : ¬ x.Departs := by
  cases h <;> exact id

theorem Rouses.not_leaving (h : Rouses x i y) : ¬ y.Leaving := by
  cases h <;> exact id

theorem Rouses.not_dozes (h : Rouses x i y) : ¬ y.Dozes := by
  cases h <;> exact id

end Places

namespace Procs

variable {n : ℕ} {C L K : Type*}

/-- CPU `c` has `proc[i].lock`, by where it stands. -/
def Holds (s : Procs n C L K) (c : C) (i : Fin n) : Prop :=
  match s.cpu c with
  | .loop _ => False
  | .check j | .swtch j | .back j => i = j
  | .run q => (s.pos q).Locks q i

/-- CPU `c` runs the process, or is about to. -/
def On (s : Procs n C L K) (c : C) (p : Fin n) : Prop :=
  s.cpu c = .swtch p ∨ s.cpu c = .run p

/-- Who has which lock and who runs where. -/
structure Inv (s : Procs n C L K) : Prop where
  /-- a CPU that stands between `acquire` and `release` has the lock -/
  plock : ∀ {c i}, s.Holds c i → s.plock i = some c
  /-- a process that no CPU runs is in `sched` or has never run -/
  parked : ∀ {p}, (∀ c, s.cpu c ≠ .run p) → (s.pos p).Parked
  /-- a process on a CPU is `RUNNING` until just before it switches away -/
  running : ∀ {c p}, s.On c p → s.state p = .running ∨ (s.pos p).Leaving
  /-- what `sched` asserts -/
  leaving : ∀ {p}, (s.pos p).Leaving → s.state p ≠ .running
  /-- a process is on one CPU at most -/
  unique : ∀ {c c' p}, s.On c p → s.On c' p → c = c'
  /-- a `RUNNING` process is on a CPU -/
  placed : ∀ {p}, s.state p = .running → ∃ c, s.On c p

section Facts

variable {s : Procs n C L K} {c c' : C} {p i : Fin n}

theorem holds_run (h : s.cpu c = .run p) : s.Holds c i ↔ (s.pos p).Locks p i := by
  rw [Holds, h]

theorem holds_check (h : s.cpu c = .check i) : s.Holds c i := by
  rw [Holds, h]

theorem holds_back (h : s.cpu c = .back i) : s.Holds c i := by
  rw [Holds, h]

namespace Inv

/-- Two CPUs do not stand in the critical sections of one process. -/
theorem holds_unique (hi : s.Inv) (h : s.Holds c i) (h' : s.Holds c' i) : c = c' :=
  Option.some.inj ((hi.plock h).symm.trans (hi.plock h'))

theorem run_unique (hi : s.Inv) (h : s.cpu c = .run p) (h' : s.cpu c' = .run p) : c = c' :=
  hi.unique (.inr h) (.inr h')

/-- A process that is being switched out is on the CPU that has its lock. -/
theorem run_of_leaving (hi : s.Inv) (h : (s.pos p).Leaving) : ∃ c, s.cpu c = .run p := by
  by_contra hnone
  exact h.not_parked (hi.parked fun c hc => hnone ⟨c, hc⟩)

/-- Nobody else has the lock of a process that is being switched out. -/
theorem not_leaving_of_holds (hi : s.Inv) (h : s.Holds c p) (hc : s.cpu c ≠ .run p) :
    ¬ (s.pos p).Leaving := by
  intro hleave
  obtain ⟨c', hc'⟩ := hi.run_of_leaving hleave
  have hsame : c = c' := hi.holds_unique h ((holds_run hc').mpr (hleave.locks p))
  exact hc (hsame ▸ hc')

end Inv

end Facts

/-! ### What one step changes -/

section Frame

variable [DecidableEq C]
variable {s s' : Procs n C L K} {c c' : C} {e : SchedEv n C L K} {p q i : Fin n}

theorem Schedules.not_run (h : s.Schedules c s') (hc : s.cpu c = .run p) : False := by
  cases h with
  | lock hx | pick hx | skip hx | enter hx | unlock hx =>
    rw [hx] at hc
    cases hc

namespace Does

/-- A CPU that runs a process takes a step of its thread. -/
theorem of_run (h : s.Does c e s') (hc : s.cpu c = .run p) : s.Thread c p e s' := by
  cases h with
  | sched hs => exact (hs.not_run hc).elim
  | @thread q hq ht =>
    obtain rfl : q = p := by simpa [hq] using hc
    exact ht

theorem cpu_of_ne (h : s.Does c e s') (hne : c' ≠ c) : s'.cpu c' = s.cpu c' := by
  cases h with
  | sched hs => cases hs <;> simp [hne]
  | thread hc ht => cases ht <;> simp [hne]

/-- A step moves the thread of no process but the one that the CPU runs. -/
theorem pos_of_ne (h : s.Does c e s') (hq : s.cpu c ≠ .run q) : s'.pos q = s.pos q := by
  cases h with
  | sched hs => cases hs <;> rfl
  | @thread p hc ht =>
    have hne : q ≠ p := fun heq => hq (heq ▸ hc)
    cases ht <;> simp [hne]

/-- A process sets its own channel only. -/
theorem chan_of_ne (h : s.Does c e s') (hq : s.cpu c ≠ .run q) : s'.chan q = s.chan q := by
  cases h with
  | sched hs => cases hs <;> rfl
  | @thread p hc ht =>
    have hne : q ≠ p := fun heq => hq (heq ▸ hc)
    cases ht <;> simp [hne]

theorem holds_of_ne (hi : s.Inv) (h : s.Does c e s') (hne : c' ≠ c) :
    s'.Holds c' i ↔ s.Holds c' i := by
  unfold Holds
  rw [h.cpu_of_ne hne]
  cases hc' : s.cpu c' with
  | run q =>
    have hq : s.cpu c ≠ .run q := fun hc => hne (hi.run_unique hc' hc)
    dsimp only
    rw [h.pos_of_ne hq]
  | _ => rfl

end Does

/-- The CPU has the locks that go with its new place: it has just taken the lock, or
it had it before. -/
theorem Schedules.holds (hi : s.Inv) (h : s.Schedules c s') (hh : s'.Holds c i) :
    s'.plock i = some c ∨ (s.Holds c i ∧ s'.plock i = s.plock i) := by
  cases h with
  | lock hc hfree =>
    obtain rfl : i = _ := by simpa [Holds] using hh
    exact .inl (by simp)
  | pick hc | skip hc =>
    obtain rfl : i = _ := by simpa [Holds] using hh
    exact .inr ⟨holds_check hc, by simp⟩
  | @enter j hc =>
    -- nobody else runs the process, so its thread is parked and has its own lock
    have hpark : (s.pos j).Parked := by
      refine hi.parked fun c' hc' => ?_
      obtain rfl : c = c' := hi.unique (.inl hc) (.inr hc')
      rw [hc] at hc'
      cases hc'
    have hloc : (s.pos j).Locks j i := by simpa [Holds] using hh
    obtain rfl := hpark.locks.mp hloc
    refine .inr ⟨?_, by simp⟩
    rw [Holds, hc]
  | unlock hc => simp [Holds] at hh

theorem Thread.holds (hc : s.cpu c = .run p) (h : s.Thread c p e s') (hh : s'.Holds c i) :
    s'.plock i = some c ∨ (s.Holds c i ∧ s'.plock i = s.plock i) := by
  cases h with
  | @pass y hxy =>
    have hloc : y.Locks p i := by simpa [Holds, hc] using hh
    exact .inr ⟨(holds_run hc).mpr ((hxy.locks i).mp hloc), by simp⟩
  | @take _ y hxy hfree =>
    have hloc : y.Locks p i := by simpa [Holds, hc] using hh
    obtain rfl := (hxy.locks i).mp hloc
    exact .inl (by simp)
  | @give _ y hxy =>
    have hloc : y.Locks p i := by simpa [Holds, hc] using hh
    exact absurd hloc (hxy.locks i)
  | chan hx | asleep hx | tidy hx | yield hx =>
    have hloc : i = p := by simpa [Holds, hc, At.Locks] using hh
    refine .inr ⟨(holds_run hc).mpr ?_, by simp⟩
    rw [hx]
    exact hloc
  | leave hxy =>
    obtain rfl : i = p := by simpa [Holds] using hh
    exact .inr ⟨(holds_run hc).mpr (hxy.leaving.locks i), by simp⟩
  | @rouse _ y hxy =>
    have hloc : y.Locks p i := by simpa [Holds, hc] using hh
    refine .inr ⟨(holds_run hc).mpr ?_, by simp⟩
    exact (hxy.locks_left p i).mpr ((hxy.locks p i).mp hloc)
  | @miss j _ hx =>
    have hloc : i = j := by simpa [Holds, hc, At.Locks] using hh
    refine .inr ⟨(holds_run hc).mpr ?_, by simp⟩
    rw [hx]
    exact hloc

/-- A step does not touch a lock that another CPU has. -/
theorem Does.plock_of_ne (hi : s.Inv) (h : s.Does c e s') (hne : c' ≠ c)
    (hl : s.plock i = some c') : s'.plock i = some c' := by
  have hkeep : ∀ {j : Fin n} {x : Option C}, s.plock j = none ∨ s.Holds c j →
      update s.plock j x i = some c' := by
    intro j x hj
    have hij : i ≠ j := by
      rintro rfl
      rcases hj with hfree | hh
      · rw [hfree] at hl
        cases hl
      · rw [hi.plock hh] at hl
        exact hne (Option.some.inj hl).symm
    rw [update_of_ne hij]
    exact hl
  cases h with
  | sched hs =>
    cases hs with
    | lock hc hfree => exact hkeep (.inl hfree)
    | unlock hc => exact hkeep (.inr (holds_back hc))
    | _ => exact hl
  | thread hc ht =>
    cases ht with
    | take hxy hfree => exact hkeep (.inl hfree)
    | give hxy => exact hkeep (.inr ((holds_run hc).mpr hxy.locks_left))
    | _ => exact hl

/-- What a step of CPU `c` can do to the state of process `i`. -/
inductive StateStep (s : Procs n C L K) (c : C) (s' : Procs n C L K) (i : Fin n) : Prop
  | same : s'.state i = s.state i → StateStep s c s' i
  | picked : s.cpu c = .check i → s.state i = .runnable → s'.state i = .running →
      s'.cpu c = .swtch i → StateStep s c s' i
  | left : s.cpu c = .run i → (s'.pos i).Leaving → s'.state i ≠ .running → StateStep s c s' i
  | roused : s.Holds c i → s.state i = .sleeping → s'.state i = .runnable → StateStep s c s' i

theorem Does.stateStep (h : s.Does c e s') (i : Fin n) : StateStep s c s' i := by
  cases h with
  | sched hs =>
    cases hs with
    | @pick j hc hready =>
      rcases eq_or_ne i j with rfl | hij
      · exact .picked hc hready (by simp) (by simp)
      · exact .same (by simp [hij])
    | _ => exact .same rfl
  | @thread p hc ht =>
    cases ht with
    | asleep hx | yield hx =>
      rcases eq_or_ne i p with rfl | hip
      · exact .left hc (by simp [At.Leaving]) (by simp)
      · exact .same (by simp [hip])
    | @rouse j y hxy hsleep =>
      rcases eq_or_ne i j with rfl | hij
      · exact .roused ((holds_run hc).mpr ((hxy.locks_left p i).mpr rfl)) hsleep (by simp)
      · exact .same (by simp [hij])
    | _ => exact .same rfl

/-- A thread stays on its CPU until it is parked, which is its way from `sched`. -/
theorem Thread.stays (hc : s.cpu c = .run p) (h : s.Thread c p e s') :
    (s'.cpu c = .run p ∧ ¬ (s.pos p).Leaving) ∨
      (s'.cpu c = .back p ∧ (s'.pos p).Parked ∧ s'.state p ≠ .running) := by
  cases h with
  | pass hxy => exact .inl ⟨hc, fun hleave => hxy.not_departs hleave.departs⟩
  | take hxy => exact .inl ⟨hc, fun hleave => hxy.not_departs hleave.departs⟩
  | give hxy => exact .inl ⟨hc, fun hleave => hxy.not_departs hleave.departs⟩
  | rouse hxy => exact .inl ⟨hc, fun hleave => hxy.not_departs hleave.departs⟩
  | chan hx | asleep hx | tidy hx | yield hx | miss hx =>
    refine .inl ⟨hc, ?_⟩
    rw [hx]
    exact id
  | leave hxy hstate => exact .inr ⟨by simp, by simpa using hxy.parked, by simpa using hstate⟩

/-- The places from which a process is switched out are entered with the state
changed. -/
theorem Thread.state_of_leaving (h : s.Thread c p e s') (hleave : (s'.pos p).Leaving) :
    s'.state p ≠ .running := by
  cases h with
  | pass hxy => exact absurd (by simpa using hleave) hxy.not_leaving
  | take hxy => exact absurd (by simpa using hleave) hxy.not_leaving
  | give hxy => exact absurd (by simpa using hleave) hxy.not_leaving
  | chan | tidy | miss => simp [At.Leaving] at hleave
  | asleep | yield => simp
  | leave hxy => exact absurd hxy.parked (At.Leaving.not_parked (by simpa using hleave))
  | rouse hxy => exact absurd (by simpa using hleave) hxy.not_leaving

theorem Schedules.on (h : s.Schedules c s') (hon : s'.On c p) :
    s.On c p ∨ (s.cpu c = .check p ∧ s.state p = .runnable ∧ s'.state p = .running) := by
  cases h with
  | @pick j hc hready =>
    obtain rfl : j = p := by simpa [On] using hon
    exact .inr ⟨hc, hready, by simp⟩
  | @enter j hc =>
    obtain rfl : j = p := by simpa [On] using hon
    exact .inl (.inl hc)
  | lock | skip | unlock => simp [On] at hon

/-- A process gets onto a CPU when the scheduler finds it `RUNNABLE`. -/
theorem Does.on (h : s.Does c e s') (hon : s'.On c p) :
    s.On c p ∨ (s.cpu c = .check p ∧ s.state p = .runnable ∧ s'.state p = .running) := by
  cases h with
  | sched hs => exact hs.on hon
  | @thread q hc ht =>
    rcases ht.stays hc with ⟨hc', -⟩ | ⟨hc', -⟩
    · obtain rfl : q = p := by simpa [On, hc'] using hon
      exact .inl (.inr hc)
    · simp [On, hc'] at hon

/-- A process that is on a CPU is still there after a step of it, or has changed its
state. -/
theorem Does.on_or (h : s.Does c e s') (hon : s.On c p) : s'.On c p ∨ s'.state p ≠ .running := by
  cases h with
  | sched hs =>
    cases hs with
    | enter hc =>
      obtain rfl : _ = p := by simpa [On, hc] using hon
      exact .inl (.inr (by simp))
    | lock hc | pick hc | skip hc | unlock hc => simp [On, hc] at hon
  | @thread q hc ht =>
    obtain rfl : q = p := by simpa [On, hc] using hon
    rcases ht.stays hc with ⟨hc', -⟩ | ⟨-, -, hstate⟩
    · exact .inl (.inr hc')
    · exact .inr hstate

theorem Does.on_of_ne (h : s.Does c e s') (hne : c' ≠ c) : s'.On c' p ↔ s.On c' p := by
  unfold On
  rw [h.cpu_of_ne hne]

end Frame

/-! ### The invariant -/

namespace Inv

variable [DecidableEq C]
variable {s s' : Procs n C L K} {c c' : C} {e : SchedEv n C L K} {p : Fin n}

omit [DecidableEq C] in
/-- A process that the scheduler may pick is on no CPU. -/
theorem not_on_of_check (hi : s.Inv) (hc : s.cpu c = .check p) (hready : s.state p = .runnable) :
    ¬ s.On c' p := by
  intro hon
  rcases hi.running hon with hrun | hleave
  · rw [hready] at hrun
    cases hrun
  · refine hi.not_leaving_of_holds (holds_check hc) ?_ hleave
    rw [hc]
    exact nofun

theorem parked_step (hi : s.Inv) (h : s.Does c e s') (hoff : ∀ c', s'.cpu c' ≠ .run p) :
    (s'.pos p).Parked := by
  by_cases hc : s.cpu c = .run p
  · rcases (h.of_run hc).stays hc with ⟨hc', -⟩ | ⟨-, hpark, -⟩
    · exact absurd hc' (hoff c)
    · exact hpark
  · rw [h.pos_of_ne hc]
    refine hi.parked fun c' hc' => ?_
    have hne : c' ≠ c := fun heq => hc (heq ▸ hc')
    exact hoff c' ((h.cpu_of_ne hne).trans hc')

theorem leaving_step (hi : s.Inv) (h : s.Does c e s') (hleave : (s'.pos p).Leaving) :
    s'.state p ≠ .running := by
  by_cases hc : s.cpu c = .run p
  · exact (h.of_run hc).state_of_leaving hleave
  · rw [h.pos_of_ne hc] at hleave
    cases h.stateStep p with
    | same hsame =>
      rw [hsame]
      exact hi.leaving hleave
    | picked hcheck => exact absurd hleave (hi.not_leaving_of_holds (holds_check hcheck) hc)
    | left _ _ hstate => exact hstate
    | roused _ _ hready =>
      rw [hready]
      exact nofun

theorem running_step (hi : s.Inv) (h : s.Does c e s') (hon : s'.On c' p) :
    s'.state p = .running ∨ (s'.pos p).Leaving := by
  have hbefore : s.On c' p ∨ s'.state p = .running := by
    rcases eq_or_ne c' c with rfl | hne
    · exact (h.on hon).imp_right fun hpick => hpick.2.2
    · exact .inl ((h.on_of_ne hne).mp hon)
  rcases hbefore with hbefore | hrun
  · rcases hi.running hbefore with hrun | hleave
    · cases h.stateStep p with
      | same hsame => exact .inl (hsame.trans hrun)
      | picked _ _ hrun' => exact .inl hrun'
      | left _ hleave => exact .inr hleave
      | roused _ hsleep =>
        rw [hrun] at hsleep
        cases hsleep
    · by_cases hc : s.cpu c = .run p
      · -- from there the thread can only switch away
        obtain rfl : c' = c := hi.unique hbefore (.inr hc)
        rcases (h.of_run hc).stays hc with ⟨-, hstay⟩ | ⟨hback, -⟩
        · exact absurd hleave hstay
        · simp [On, hback] at hon
      · rw [h.pos_of_ne hc]
        exact .inr hleave
  · exact .inl hrun

theorem unique_step (hi : s.Inv) (h : s.Does c e s') {c₁ c₂ : C} (h₁ : s'.On c₁ p)
    (h₂ : s'.On c₂ p) : c₁ = c₂ := by
  -- of two CPUs one has not moved
  have hone : ∀ {c'}, c' ≠ c → s'.On c p → ¬ s'.On c' p := by
    intro c' hne hon hon'
    rw [h.on_of_ne hne] at hon'
    rcases h.on hon with hbefore | ⟨hc, hready, -⟩
    · exact hne (hi.unique hon' hbefore)
    · exact hi.not_on_of_check hc hready hon'
  rcases eq_or_ne c₁ c with rfl | hne₁
  · rcases eq_or_ne c₂ c₁ with rfl | hne₂
    · rfl
    · exact absurd h₂ (hone hne₂ h₁)
  · rcases eq_or_ne c₂ c with rfl | hne₂
    · exact absurd h₁ (hone hne₁ h₂)
    · exact hi.unique ((h.on_of_ne hne₁).mp h₁) ((h.on_of_ne hne₂).mp h₂)

theorem placed_step (hi : s.Inv) (h : s.Does c e s') (hrun : s'.state p = .running) :
    ∃ c', s'.On c' p := by
  cases h.stateStep p with
  | same hsame =>
    obtain ⟨c', hon⟩ := hi.placed (hsame.symm.trans hrun)
    rcases eq_or_ne c' c with rfl | hne
    · rcases h.on_or hon with hon' | hstate
      · exact ⟨c', hon'⟩
      · exact absurd hrun hstate
    · exact ⟨c', (h.on_of_ne hne).mpr hon⟩
  | picked _ _ _ hc => exact ⟨c, .inl hc⟩
  | left _ _ hstate => exact absurd hrun hstate
  | roused _ _ hready =>
    rw [hready] at hrun
    cases hrun

theorem plock_step (hi : s.Inv) (h : s.Does c e s') {i : Fin n} (hh : s'.Holds c' i) :
    s'.plock i = some c' := by
  rcases eq_or_ne c' c with rfl | hne
  · have hself : s'.plock i = some c' ∨ (s.Holds c' i ∧ s'.plock i = s.plock i) := by
      cases h with
      | sched hs => exact hs.holds hi hh
      | thread hc ht => exact ht.holds hc hh
    rcases hself with htaken | ⟨hbefore, hsame⟩
    · exact htaken
    · rw [hsame]
      exact hi.plock hbefore
  · exact h.plock_of_ne hi hne (hi.plock ((h.holds_of_ne hi hne).mp hh))

theorem step (hi : s.Inv) (h : s.Does c e s') : s'.Inv where
  plock := hi.plock_step h
  parked := hi.parked_step h
  running := hi.running_step h
  leaving := hi.leaving_step h
  unique := hi.unique_step h
  placed := hi.placed_step h

end Inv

/-! ### One sleep

From its `release(lk)` on, a process is on its way to sleep, asleep on its channel,
or through with it. -/

section Sleep

variable [DecidableEq C]
variable {s s' : Procs n C L K} {c : C} {e : SchedEv n C L K} {p q : Fin n} {chan : K}

/-- Between `release(lk)` and the `swtch` of `sched`. -/
inductive Dozing (s : Procs n C L K) (p : Fin n) (chan : K) : Prop
  | released {lk : L} : s.pos p = .sleepChan chan lk → Dozing s p chan
  | channel {lk : L} : s.pos p = .sleepState chan lk → s.chan p = some chan → Dozing s p chan
  | state {lk : L} : s.pos p = .sleepSched chan lk → s.chan p = some chan →
      s.state p = .sleeping → Dozing s p chan

/-- Switched out and `SLEEPING`. -/
structure Asleep (s : Procs n C L K) (p : Fin n) (chan : K) : Prop where
  pos : ∃ lk, s.pos p = .slept lk
  chan : s.chan p = some chan
  state : s.state p = .sleeping

/-- Not asleep, and not to be so before the next `release(lk)` of a `sleep`. -/
structure Awake (s : Procs n C L K) (p : Fin n) : Prop where
  pos : ¬ (s.pos p).Dozes
  state : s.state p ≠ .sleeping

omit [DecidableEq C] in
theorem Dozing.dozes (h : s.Dozing p chan) : (s.pos p).Dozes := by
  cases h with
  | released hx | channel hx | state hx =>
    rw [hx]
    trivial

theorem Thread.awake (h : s.Thread c p e s') (he : e.NotSleep p) (ha : s.Awake p) :
    s'.Awake p := by
  cases h with
  | pass hxy => exact ⟨by simpa using hxy.not_dozes he, ha.state⟩
  | take hxy => exact ⟨by simpa using hxy.not_dozes, ha.state⟩
  | give hxy => exact ⟨by simpa using hxy.not_dozes, ha.state⟩
  | chan hx | asleep hx =>
    refine absurd ?_ ha.pos
    rw [hx]
    trivial
  | tidy | miss => exact ⟨by simp [At.Dozes], ha.state⟩
  | yield => exact ⟨by simp [At.Dozes], by simp⟩
  | leave hxy =>
    exact ⟨fun hdoze => hdoze.not_parked (by simpa using hxy.parked), ha.state⟩
  | @rouse i y hxy =>
    refine ⟨by simpa using hxy.not_dozes, ?_⟩
    rcases eq_or_ne p i with rfl | hne
    · simp
    · simpa [hne] using ha.state

/-- A process stays awake until it gives up a lock in `sleep`. -/
theorem Awake.step (ha : s.Awake p) (h : s.Does c e s') (he : e.NotSleep p) : s'.Awake p := by
  by_cases hc : s.cpu c = .run p
  · exact (h.of_run hc).awake he ha
  · refine ⟨h.pos_of_ne hc ▸ ha.pos, ?_⟩
    cases h.stateStep p with
    | same hsame => exact hsame ▸ ha.state
    | left hrun => exact absurd hrun hc
    | picked _ _ hrun =>
      rw [hrun]
      exact nofun
    | roused _ _ hready =>
      rw [hready]
      exact nofun

omit [DecidableEq C] in
/-- Nobody else has the lock of a process that is on its way to sleep. -/
theorem Dozing.run_of_holds (hd : s.Dozing p chan) (hi : s.Inv) (h : s.Holds c p) :
    s.cpu c = .run p := by
  have hon : ∃ c', s.cpu c' = .run p := by
    by_contra hnone
    exact hd.dozes.not_parked (hi.parked fun c' hc' => hnone ⟨c', hc'⟩)
  obtain ⟨c', hc'⟩ := hon
  have hsame : c = c' := hi.holds_unique h ((holds_run hc').mpr (hd.dozes.locks p))
  exact hsame ▸ hc'

/-- The next store, or the `swtch` with everything in place. -/
theorem Thread.dozing (h : s.Thread c p e s') (hd : s.Dozing p chan) :
    s'.Dozing p chan ∨ s'.Asleep p chan := by
  cases h with
  | pass hxy => exact absurd hd.dozes.departs hxy.not_departs
  | take hxy => exact absurd hd.dozes.departs hxy.not_departs
  | give hxy => exact absurd hd.dozes.departs hxy.not_departs
  | rouse hxy => exact absurd hd.dozes.departs hxy.not_departs
  | tidy hx | yield hx | miss hx =>
    have hdoze := hd.dozes
    rw [hx] at hdoze
    exact hdoze.elim
  | @chan chan' lk hx =>
    cases hd with
    | released hx' =>
      obtain rfl : chan' = chan := by
        rw [hx] at hx'
        exact (At.sleepChan.inj hx').1
      exact .inl (.channel (update_self p _ _) (update_self p _ _))
    | channel hx' | state hx' =>
      rw [hx] at hx'
      cases hx'
  | @asleep chan' lk hx =>
    cases hd with
    | channel hx' hch =>
      obtain rfl : chan' = chan := by
        rw [hx] at hx'
        exact (At.sleepState.inj hx').1
      exact .inl (.state (update_self p _ _) hch (update_self p _ _))
    | released hx' | state hx' =>
      rw [hx] at hx'
      cases hx'
  | @leave y hxy =>
    cases hd with
    | state hx hch hst =>
      rw [hx] at hxy
      cases hxy
      exact .inr ⟨⟨_, update_self p _ _⟩, hch, hst⟩
    | released hx | channel hx =>
      rw [hx] at hxy
      cases hxy

/-- On the way to sleep: a step of another CPU changes nothing, since the process
has its own lock. -/
theorem Dozing.step (hd : s.Dozing p chan) (hi : s.Inv) (h : s.Does c e s') :
    s'.Dozing p chan ∨ s'.Asleep p chan := by
  by_cases hc : s.cpu c = .run p
  · exact (h.of_run hc).dozing hd
  · have hpos := h.pos_of_ne hc
    have hchan := h.chan_of_ne hc
    have hstate : s'.state p = s.state p := by
      cases h.stateStep p with
      | same hsame => exact hsame
      | picked hcheck => exact absurd (hd.run_of_holds hi (holds_check hcheck)) hc
      | left hrun => exact absurd hrun hc
      | roused hh => exact absurd (hd.run_of_holds hi hh) hc
    refine .inl ?_
    cases hd with
    | released hx => exact .released (hpos.trans hx)
    | channel hx hch => exact .channel (hpos.trans hx) (hchan.trans hch)
    | state hx hch hst => exact .state (hpos.trans hx) (hchan.trans hch) (hstate.trans hst)

/-- Asleep: the process runs nowhere, and stays as it is until somebody makes it
`RUNNABLE`. -/
theorem Asleep.step (ha : s.Asleep p chan) (hi : s.Inv) (h : s.Does c e s') :
    s'.Asleep p chan ∨ s'.Awake p := by
  obtain ⟨lk, hx⟩ := ha.pos
  have hc : s.cpu c ≠ .run p := by
    intro hc
    rcases hi.running (.inr hc) with hrun | hleave
    · rw [ha.state] at hrun
      cases hrun
    · rw [hx] at hleave
      exact hleave
  have hpos : s'.pos p = .slept lk := (h.pos_of_ne hc).trans hx
  cases h.stateStep p with
  | same hsame =>
    exact .inl ⟨⟨lk, hpos⟩, (h.chan_of_ne hc).trans ha.chan, hsame.trans ha.state⟩
  | picked _ hready =>
    rw [ha.state] at hready
    cases hready
  | left hrun => exact absurd hrun hc
  | roused _ _ hready =>
    refine .inr ⟨?_, ?_⟩
    · rw [hpos]
      exact id
    · rw [hready]
      exact nofun

/-- From its `release(lk)` to the next one a process is on its way to sleep, asleep or
awake. -/
def Slept (s : Procs n C L K) (p : Fin n) (chan : K) : Prop :=
  s.Dozing p chan ∨ s.Asleep p chan ∨ s.Awake p

theorem Slept.step (hs : s.Slept p chan) (hi : s.Inv) (h : s.Does c e s') (he : e.NotSleep p) :
    s'.Slept p chan := by
  rcases hs with hd | ha | ha
  · rcases hd.step hi h with hd' | ha'
    · exact .inl hd'
    · exact .inr (.inl ha')
  · exact .inr (ha.step hi h)
  · exact .inr (.inr (ha.step h he))

end Sleep

/-! ### One call of `wakeup` -/

section Wakeup

variable [DecidableEq C]
variable {s s' : Procs n C L K} {c : C} {e : SchedEv n C L K} {p q : Fin n} {chan : K}

/-- The loop of `wakeup` has not got to slot `p` yet, or stands at its test. -/
inductive Before (p : Fin n) (chan : K) : At n L K → Prop
  | head {i : ℕ} : i ≤ p → Before p chan (.wakeup chan i)
  | check {i : Fin n} : i ≤ p → Before p chan (.wakeupCheck chan i)
  | unlock {i : Fin n} : i < p → Before p chan (.wakeupUnlock chan i)

/-- A call of `wakeup(chan)` by `q`: it has still to come to the sleeper, or the
sleeper is awake. -/
def Scanned (s : Procs n C L K) (p q : Fin n) (chan : K) : Prop :=
  s.Awake p ∨ (q ≠ p ∧ Before p chan (s.pos q))

omit [DecidableEq C] in
/-- The test of `wakeup` at the sleeper's slot succeeds: the waker has the sleeper's
lock, so the sleeper is not on its way to sleep any more. -/
theorem Asleep.of_holds (hs : s.Dozing p chan ∨ s.Asleep p chan) (hi : s.Inv) (hq : q ≠ p)
    (hc : s.cpu c = .run q) (hh : s.Holds c p) : s.Asleep p chan := by
  rcases hs with hd | ha
  · have hrun := hd.run_of_holds hi hh
    rw [hc] at hrun
    exact absurd (CpuAt.run.inj hrun) hq
  · exact ha

theorem Thread.scanned (h : s.Thread c q e s') (hi : s.Inv) (hc : s.cpu c = .run q)
    (hs : s.Dozing p chan ∨ s.Asleep p chan) (hq : q ≠ p) (hb : Before p chan (s.pos q))
    (hdone : ∀ c, e ≠ .wakeupDone c q chan) : s'.Awake p ∨ Before p chan (s'.pos q) := by
  generalize hx : s.pos q = x at hb
  cases hb with
  | @head i hle =>
    refine .inr ?_
    cases h with
    | pass hxy =>
      rw [hx] at hxy
      cases hxy with
      | self c =>
        have hlt : q.val < p.val := lt_of_le_of_ne hle fun heq => hq (Fin.ext heq)
        simpa using Before.head hlt
      | wakeupDone c => exact absurd rfl (hdone c)
    | take hxy =>
      rw [hx] at hxy
      cases hxy
      simpa using Before.check hle
    | give hxy | leave hxy | rouse hxy =>
      rw [hx] at hxy
      cases hxy
    | chan hx' | asleep hx' | tidy hx' | yield hx' | miss hx' =>
      rw [hx] at hx'
      cases hx'
  | @check i hle =>
    have hholds : i = p → s.Asleep p chan := by
      rintro rfl
      refine Asleep.of_holds hs hi hq hc ((holds_run hc).mpr ?_)
      rw [hx]
      rfl
    cases h with
    | rouse hxy hsleep =>
      rw [hx] at hxy
      cases hxy
      rcases hle.lt_or_eq with hlt | rfl
      · exact .inr (by simpa using Before.unlock hlt)
      · obtain ⟨lk, hpos⟩ := (hholds rfl).pos
        exact .inl ⟨by simp [hq.symm, hpos, At.Dozes], by simp⟩
    | miss hx' hmiss =>
      rw [hx] at hx'
      cases hx'
      rcases hle.lt_or_eq with hlt | rfl
      · exact .inr (by simpa using Before.unlock hlt)
      · exact absurd ⟨(hholds rfl).state, (hholds rfl).chan⟩ hmiss
    | pass hxy | take hxy | give hxy | leave hxy =>
      rw [hx] at hxy
      cases hxy
    | chan hx' | asleep hx' | tidy hx' | yield hx' =>
      rw [hx] at hx'
      cases hx'
  | @unlock i hlt =>
    refine .inr ?_
    cases h with
    | give hxy =>
      rw [hx] at hxy
      cases hxy
      simpa using Before.head (Nat.succ_le_of_lt hlt)
    | pass hxy | take hxy | leave hxy | rouse hxy =>
      rw [hx] at hxy
      cases hxy
    | chan hx' | asleep hx' | tidy hx' | yield hx' | miss hx' =>
      rw [hx] at hx'
      cases hx'

theorem Scanned.step (hb : s.Scanned p q chan) (hi : s.Inv) (hs : s.Slept p chan)
    (h : s.Does c e s') (he : e.NotSleep p) (hdone : ∀ c, e ≠ .wakeupDone c q chan) :
    s'.Scanned p q chan := by
  rcases hb with ha | ⟨hq, hb⟩
  · exact .inl (ha.step h he)
  by_cases hc : s.cpu c = .run q
  · rw [Slept, ← or_assoc] at hs
    rcases hs with hs | ha
    · exact ((h.of_run hc).scanned hi hc hs hq hb hdone).imp_right fun hb' => ⟨hq, hb'⟩
    · exact .inl (ha.step h he)
  · refine .inr ⟨hq, ?_⟩
    rw [h.pos_of_ne hc]
    exact hb

end Wakeup

end Procs

/-! ### Runs -/

namespace Sched

variable {n : ℕ} {C L K : Type*} [DecidableEq C] [DecidableEq L] [DecidableEq K]
variable {s s' : Sched n C L K} {c : C} {p q : Fin n} {chan : K} {lk : L}
variable {tr : List (SchedEv n C L K)}

omit [DecidableEq C] [DecidableEq L] [DecidableEq K] in
theorem Initial.inv (h : s.Initial) : s.toProcs.Inv := by
  have hidle : ∀ {c i}, ¬ s.toProcs.On c i := by
    intro c i hon
    obtain ⟨j, hc⟩ := h.cpu c
    simp [Procs.On, hc] at hon
  refine
    { plock := ?_
      parked := ?_
      running := fun hon => absurd hon hidle
      leaving := ?_
      unique := fun hon => absurd hon hidle
      placed := fun {p} hrun => absurd hrun (h.state p).1 }
  · intro c i hh
    obtain ⟨j, hc⟩ := h.cpu c
    simp [Procs.Holds, hc] at hh
  · intro p _
    rw [h.pos p]
    trivial
  · intro p hleave
    rw [h.pos p] at hleave
    exact hleave.elim

theorem inv_run (hi : s.toProcs.Inv) (hrun : Run Step s tr s') : s'.toProcs.Inv := by
  refine hrun.invariant (I := fun s => s.toProcs.Inv) hi ?_
  intro t e u ht hstep
  obtain ⟨c, hdoes⟩ := hstep.does
  exact ht.step hdoes

theorem slept_of_sleepRelease (h : s.Step (.sleepRelease c p chan lk) s') :
    s'.toProcs.Slept p chan := by
  unfold Step next at h
  dsimp only at h
  split_ifs at h
  cases h
  exact .inl (.released (update_self p _ _))

theorem slept_run (hi : s.toProcs.Inv) (hs : s.toProcs.Slept p chan) (hrun : Run Step s tr s')
    (hall : ∀ e ∈ tr, e.NotSleep p) : s'.toProcs.Inv ∧ s'.toProcs.Slept p chan := by
  refine hrun.invariant_of_forall (I := fun s => s.toProcs.Inv ∧ s.toProcs.Slept p chan)
    ⟨hi, hs⟩ hall ?_
  rintro t e u ⟨ht, hsleep⟩ he hstep
  obtain ⟨c, hdoes⟩ := hstep.does
  exact ⟨ht.step hdoes, hsleep.step ht hdoes he⟩

/-- When `wakeup` is called it has every slot before it; a process that calls it is
not asleep itself. -/
theorem scanned_of_wakeup (hi : s.toProcs.Inv) (h : s.Step (.wakeup c q chan lk) s') :
    s'.toProcs.Scanned p q chan := by
  unfold Step next at h
  dsimp only at h
  split_ifs at h with hguard
  cases h
  obtain ⟨hc, hout, -⟩ := hguard
  have hpos : (s.goto q (.wakeup chan 0)).pos q = .wakeup chan 0 := update_self q _ _
  rcases eq_or_ne q p with rfl | hq
  · have hrun : s.state q = .running := by
      refine (hi.running (.inr hc)).resolve_right fun hleave => ?_
      rw [hout] at hleave
      exact hleave
    refine .inl ⟨?_, ?_⟩
    · rw [hpos]
      exact id
    · show s.state q ≠ .sleeping
      rw [hrun]
      exact nofun
  · refine .inr ⟨hq, ?_⟩
    rw [hpos]
    exact .head (Nat.zero_le p)

theorem scanned_run (hi : s.toProcs.Inv) (hs : s.toProcs.Slept p chan)
    (hb : s.toProcs.Scanned p q chan) (hrun : Run Step s tr s') (hall : ∀ e ∈ tr, e.NotSleep p)
    (hdone : ∀ e ∈ tr, ∀ c, e ≠ .wakeupDone c q chan) :
    s'.toProcs.Scanned p q chan := by
  have hboth : ∀ e ∈ tr, e.NotSleep p ∧ ∀ c, e ≠ .wakeupDone c q chan :=
    fun e he => ⟨hall e he, hdone e he⟩
  have hkeep := hrun.invariant_of_forall
    (I := fun s => s.toProcs.Inv ∧ s.toProcs.Slept p chan ∧ s.toProcs.Scanned p q chan)
    ⟨hi, hs, hb⟩ hboth
  refine (hkeep ?_).2.2
  rintro t e u ⟨ht, hsleep, hscan⟩ ⟨he, hd⟩ hstep
  obtain ⟨c, hdoes⟩ := hstep.does
  exact ⟨ht.step hdoes, hsleep.step ht hdoes he, hscan.step ht hsleep hdoes he hd⟩

/-- When `wakeup` returns it has been at every slot. -/
theorem awake_of_wakeupDone (hb : s.toProcs.Scanned p q chan)
    (h : s.Step (.wakeupDone c q chan) s') : s'.toProcs.Awake p := by
  obtain ⟨c', hdoes⟩ := h.does
  have hawake : s.toProcs.Awake p := by
    rcases hb with ha | ⟨-, hbefore⟩
    · exact ha
    · unfold Step next at h
      dsimp only at h
      split_ifs at h with hguard
      rw [hguard.2] at hbefore
      cases hbefore with
      | head hle => exact absurd hle (Nat.not_le.mpr p.isLt)
  exact hawake.step hdoes fun c chan lk => nofun

theorem awake_run (ha : s.toProcs.Awake p) (hrun : Run Step s tr s')
    (hall : ∀ e ∈ tr, e.NotSleep p) : s'.toProcs.Awake p := by
  refine hrun.invariant_of_forall (I := fun s => s.toProcs.Awake p) ha hall ?_
  intro t e u ht he hstep
  obtain ⟨c, hdoes⟩ := hstep.does
  exact ht.step hdoes he

/-- The state `RUNNING` is only entered from `RUNNABLE`. -/
theorem running_of_step {e : SchedEv n C L K} (h : s.Step e s') (hrun : s'.state p = .running) :
    s.state p = .running ∨ s.state p = .runnable := by
  obtain ⟨c, hdoes⟩ := h.does
  cases hdoes.stateStep p with
  | same hsame => exact .inl (hsame.symm.trans hrun)
  | picked _ hready => exact .inr hready
  | left _ _ hstate => exact absurd hrun hstate
  | roused _ _ hready =>
    rw [hrun] at hready
    cases hready

/-- **No wakeup is lost.**  In every run a process is on one CPU at most, and becomes
`RUNNING` only when it was `RUNNABLE`.  If process `p` gave up `lk` in
`sleep(chan, lk)`, another process took `lk` after that and called `wakeup(chan)`, and
the call has returned, then `p` is not `SLEEPING`, unless it has gone to sleep again. -/
theorem sleep_wakeup {s₀ s : Sched n C L K} {tr : List (SchedEv n C L K)} (h₀ : s₀.Initial)
    (hrun : Run Step s₀ tr s) :
    (∀ p c c', s.toProcs.On c p → s.toProcs.On c' p → c = c') ∧
    (∀ e s', s.Step e s' → ∀ p, s'.state p = .running →
      s.state p = .running ∨ s.state p = .runnable) ∧
    ∀ t₁ t₂ t₃ t₄ t₅ c p chan lk q c₁ c₂ c₃,
      tr = t₁ ++ [.sleepRelease c p chan lk] ++ t₂ ++ [.acquire c₁ q lk] ++ t₃ ++
        [.wakeup c₂ q chan lk] ++ t₄ ++ [.wakeupDone c₃ q chan] ++ t₅ →
      (∀ e ∈ t₂ ++ t₃ ++ t₄ ++ t₅, e.NotSleep p) →
      (∀ e ∈ t₄, ∀ c, e ≠ .wakeupDone c q chan) →
      s.state p ≠ .sleeping := by
  have hi := inv_run h₀.inv hrun
  refine ⟨fun p c c' => hi.unique, fun e s' hstep p => running_of_step hstep, ?_⟩
  rintro t₁ t₂ t₃ t₄ t₅ c p chan lk q c₁ c₂ c₃ rfl hsleep hdone
  simp only [List.mem_append, or_imp, forall_and] at hsleep
  obtain ⟨⟨⟨h₂, h₃⟩, h₄⟩, h₅⟩ := hsleep
  -- the parts of the run, from the last to the first
  obtain ⟨s₅, hrun, hrun₅⟩ := hrun.of_append
  obtain ⟨s₄, hrun, hreturn⟩ := hrun.of_snoc
  obtain ⟨s₃, hrun, hrun₄⟩ := hrun.of_append
  obtain ⟨s₂, hrun, hcall⟩ := hrun.of_snoc
  have hi₂ := inv_run h₀.inv hrun
  have hi₃ := inv_run hi₂ (.single hcall)
  obtain ⟨u₂, hrun, hrun₃⟩ := hrun.of_append
  obtain ⟨u₁, hrun, hacquire⟩ := hrun.of_snoc
  obtain ⟨u₀, hrun, hrun₂⟩ := hrun.of_append
  obtain ⟨v, hrun, hrelease⟩ := hrun.of_snoc
  have hiu := inv_run (inv_run h₀.inv hrun) (.single hrelease)
  have hbetween : Run Step u₀ (t₂ ++ [.acquire c₁ q lk] ++ t₃ ++ [.wakeup c₂ q chan lk]) s₃ :=
    (((hrun₂.snoc hacquire).append hrun₃).snoc hcall)
  have hslept := (slept_run hiu (slept_of_sleepRelease hrelease) hbetween (by
    intro e he
    simp only [List.mem_append, List.mem_singleton] at he
    rcases he with ((he | rfl) | he) | rfl
    · exact h₂ e he
    · exact fun c chan lk => nofun
    · exact h₃ e he
    · exact fun c chan lk => nofun)).2
  have hscan := scanned_run hi₃ hslept (scanned_of_wakeup hi₂ hcall) hrun₄ h₄ hdone
  exact (awake_run (awake_of_wakeupDone hscan hreturn) hrun₅ h₅).state

/-! ### A waker that comes too early -/

/-- Two processes that are ready to run, two CPUs, one lock and one channel. -/
def two : Sched 2 Bool Unit Unit where
  state := fun _ => .runnable
  chan := fun _ => none
  plock := fun _ => none
  cpu := fun c => .loop (if c then 1 else 0)
  pos := fun _ => .forkret
  killed := fun _ => false
  pid := fun i => if i = 0 then 1 else 2
  lock := fun _ => none
  noff := fun _ => 0

theorem two_initial : two.Initial where
  cpu := fun _ => ⟨_, rfl⟩
  plock := fun _ => rfl
  lock := fun _ => rfl
  noff := fun _ => rfl
  state := fun _ => ⟨nofun, nofun⟩
  pos := fun _ => rfl

/-- Both processes get to run, and the first calls `sleep`. -/
def upToSleep : List (SchedEv 2 Bool Unit Unit) :=
  [.sched false, .sched false, .sched false, .go false 0, .sched true, .sched true, .sched true,
    .go true 1, .acquire false 0 (), .sleep false 0 () ()]

/-- The waker has called `wakeup` before the sleeper has set its state; it waits for
the sleeper's lock. -/
def whileScanning : List (SchedEv 2 Bool Unit Unit) :=
  [.go false 0, .go false 0, .go false 0, .sched false, .go true 1, .go true 1, .go true 1,
    .go true 1]

/-- The waker takes the lock as soon as the sleeper has given it up. -/
def earlyWaker : List (SchedEv 2 Bool Unit Unit) :=
  upToSleep ++ [.sleepRelease false 0 () ()] ++ [] ++ [.acquire true 1 ()] ++ [] ++
    [.wakeup true 1 () ()] ++ whileScanning ++ [.wakeupDone true 1 ()] ++ []

theorem sleep_wakeup_early : ∃ s, Run Step two earlyWaker s ∧ s.state 0 ≠ .sleeping := by
  obtain ⟨s, hrun, -⟩ : ∃ s, Run Step two earlyWaker s ∧ s.state 0 = .runnable :=
    Run.of_foldlM_map (fun h => h) earlyWaker (by decide)
  refine ⟨s, hrun, (sleep_wakeup two_initial hrun).2.2 _ _ _ _ _ _ _ _ _ _ _ _ _ rfl ?_ ?_⟩
  · rintro e he c chan lk rfl
    simp [whileScanning] at he
  · rintro e he c rfl
    simp [whileScanning] at he

end Sched

end Xv6Zig
