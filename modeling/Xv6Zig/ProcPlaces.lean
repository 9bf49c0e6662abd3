/-
Xv6Zig/ProcPlaces.lean

What a step of the process table does to one slot, and how the state of a
process and the place it is at go together.

`SlotMove` is the list of what can happen to the state and the parent in a slot,
with the place of the process that does it.  The invariants about the table are
proved from this list and from where the acting process goes; no other proof goes
through all the steps.
-/
import Xv6Zig.ProcTable

namespace Xv6Zig

open Function

/-- SLEEPING, RUNNABLE or RUNNING. -/
def Procstate.alive : Procstate → Bool
  | .sleeping | .runnable | .running => true
  | _ => false

namespace Pc

/-- The process holds `wait_lock`. -/
def locked : Pc → Bool
  | .reparent _ _ | .exitZombie _ | .waitScan _ _ _ | .waitSleep _ => true
  | .wakeup _ _ k => k.locked
  | _ => false

/-- `exit`, with `wait_lock`. -/
def leaves : Pc → Bool
  | .reparent _ _ | .exitZombie _ => true
  | _ => false

/-- The process can run from here; of the modelled calls it is `exit` that calls
`wakeup`. -/
def active : Pc → Bool
  | .asleep _ | .exited => false
  | .wakeup _ _ k => k.leaves
  | _ => true

/-- Where a `sleep` can return to. -/
def rests : Pc → Bool
  | .out | .exitClose _ _ | .waitLock _ => true
  | _ => false

/-- The child that `fork` has not finished. -/
def forking : Pc → Option ProcIx
  | .forkParent np _ | .forkReady np _ => some np
  | .wakeup _ _ k | .asleep k => k.forking
  | _ => none

theorem active_of_rests {k : Pc} (h : k.rests = true) : k.active = true := by
  cases k <;> first | rfl | cases h

theorem locked_of_rests {k : Pc} (h : k.rests = true) : k.locked = false := by
  cases k <;> first | rfl | cases h

theorem active_of_leaves {k : Pc} (h : k.leaves = true) : k.active = true := by
  cases k <;> first | rfl | cases h

theorem rests_of_sleeps {k : Pc} (h : k.sleeps = true) : k.rests = true := by
  cases k <;> first | rfl | cases h

end Pc

namespace ProcTable

/-- Who does it; a `wakeup` of another call comes from anywhere. -/
def Act.actor : Act → Option ProcIx
  | .call p _ | .advance p _ _ | .sched p | .yield p | .sleep p _ | .fault p
  | .other p _ _ _ _ _ => some p
  | .wake _ _ => none

variable {s s' : ProcTable} {a : Act} {p q j : ProcIx}

theorem ne_of_actor (hp : a.actor = some p) (hq : a.actor ≠ some q) : q ≠ p := by
  rintro rfl
  exact hq hp

/-- The others stay where they are; a new one starts. -/
theorem Does.pc_of_ne (h : Does s a s') (hq : a.actor ≠ some q) :
    s'.pc q = s.pc q ∨ (s.slots q).state = .unused ∧ s'.pc q = .out := by
  cases h with
  | @advance p _ _ _ _ sec =>
    have hp := ne_of_actor rfl hq
    cases sec with
    | @alloc np at_ free =>
      by_cases hnp : q = np
      · subst hnp
        right
        simp [free, update_of_ne hp]
      · left
        simp [update_of_ne hp, update_of_ne hnp]
    | _ => exact .inl (update_of_ne hp _ _)
  | fork | kill | exit | wait | resume | sleep =>
    exact .inl (update_of_ne (ne_of_actor rfl hq) _ _)
  | dispatch | yield | wake | fault | other => exact .inl rfl

/-! ### What happens to a slot -/

/-- What a step can do to the state and the parent in a slot. -/
inductive SlotMove (s : ProcTable) (a : Act) (s' : ProcTable) (j : ProcIx) : Prop
  | same (state : (s'.slots j).state = (s.slots j).state)
      (parent : (s'.slots j).parent = (s.slots j).parent)
      (chan : (s'.slots j).chan = (s.slots j).chan)
  | wake (sleeping : (s.slots j).state = .sleeping) (state : (s'.slots j).state = .runnable)
      (parent : (s'.slots j).parent = (s.slots j).parent)
  | own (actor : a.actor = some j) (alive : (s.slots j).state.alive = true)
      (state : (s'.slots j).state.alive = true)
      (parent : (s'.slots j).parent = (s.slots j).parent)
  | alloc {p : ProcIx} (actor : a.actor = some p) (at_ : s.pc p = .allocproc j)
      (free : (s.slots j).state = .unused) (ne : j ≠ p) (state : (s'.slots j).state = .used)
      (parent : (s'.slots j).parent = (s.slots j).parent) (start : s'.pc j = .out)
      (killed : (s'.slots j).killed = (s.slots j).killed)
  | fail (free : (s.slots j).state = .unused) (state : (s'.slots j).state = .unused)
      (parent : (s'.slots j).parent = none)
  | adopt {p : ProcIx} {pid : Int32} (actor : a.actor = some p) (at_ : s.pc p = .forkParent j pid)
      (running : (s.slots p).state = .running) (lock : s.waitLock = none) (state : (s'.slots j).state = (s.slots j).state)
      (parent : (s'.slots j).parent = some p)
  | ready {p : ProcIx} {pid : Int32} (actor : a.actor = some p) (at_ : s.pc p = .forkReady j pid)
      (running : (s.slots p).state = .running) (state : (s'.slots j).state = .runnable)
      (parent : (s'.slots j).parent = (s.slots j).parent) (done : s'.pc p = .out)
  | give {p : ProcIx} {status : Int32} (actor : a.actor = some p) (at_ : s.pc p = .reparent status j)
      (child : (s.slots j).parent = some p) (state : (s'.slots j).state = (s.slots j).state)
      (parent : (s'.slots j).parent = some Kernel.initproc)
      (chan : (s'.slots j).chan = (s.slots j).chan)
      (next : s'.pc p = .wakeup (some (.proc Kernel.initproc)) 0 (.reparent status (j + 1)))
  | die {status : Int32} (actor : a.actor = some j) (at_ : s.pc j = .exitZombie status)
      (running : (s.slots j).state = .running) (state : (s'.slots j).state = .zombie)
      (parent : (s'.slots j).parent = (s.slots j).parent)
  | reap {p : ProcIx} {addr : UInt64} {havekids : Bool} (actor : a.actor = some p)
      (at_ : s.pc p = .waitScan addr j havekids) (child : (s.slots j).parent = some p)
      (zombie : (s.slots j).state = .zombie) (state : (s'.slots j).state = .unused)
      (parent : (s'.slots j).parent = none)

/-- A process that is running is not in any other state. -/
theorem ne_of_state (hrun : (s.slots p).state = .running) {x : Procstate}
    (hj : (s.slots j).state = x) (hx : x ≠ .running) : j ≠ p := by
  rintro rfl
  exact hx (hj.symm.trans hrun)

theorem SlotMove.of_eq (h : s'.slots j = s.slots j) : SlotMove s a s' j :=
  .same (by rw [h]) (by rw [h]) (by rw [h])

theorem SlotMove.of_update {i : ProcIx} {x : ProcSlot} (h : s'.slots = update s.slots i x)
    (hi : s'.slots i = x → SlotMove s a s' i) : SlotMove s a s' j := by
  by_cases hj : j = i
  · subst hj
    exact hi (by rw [h, update_self])
  · exact .of_eq (by rw [h, update_of_ne hj])

theorem Section.slotMove {mapped : Bool} (h : Section s p mapped s') (hp : a.actor = some p)
    (hrun : (s.slots p).state = .running) (j : ProcIx) : SlotMove s a s' j := by
  cases h with
  | allocNext | allocNone | killNext | killNone | exitLock | reparentNext | reparentAll | waitLock
  | waitNext | waitAlive | waitUnmapped | waitNone | waitMore | wakeNext | wakeAll =>
    exact .of_eq rfl
  | allocFail at_ free =>
    exact .of_update rfl fun heq => .fail free (by rw [heq]; rfl) (by rw [heq]; rfl)
  | alloc at_ free =>
    have hne := ne_of_state hrun free (by decide)
    exact .of_update rfl fun heq => .alloc hp at_ free hne (by rw [heq]; rfl) (by rw [heq]; rfl)
      (by simp [update_of_ne hne]) (by rw [heq]; rfl)
  | forkParent at_ lock =>
    exact .of_update rfl fun heq => .adopt hp at_ hrun lock (by rw [heq]) (by rw [heq])
  | forkReady at_ =>
    exact .of_update rfl fun heq => .ready hp at_ hrun (by rw [heq]) (by rw [heq]) (by simp)
  | @kill pid i at_ found =>
    refine .of_update rfl fun heq => ?_
    by_cases hsleep : (s.slots i).state = .sleeping
    · exact .wake hsleep (by rw [heq]; exact if_pos hsleep) (by rw [heq]; rfl)
    · exact .same (by rw [heq]; exact if_neg hsleep) (by rw [heq]; rfl) (by rw [heq]; rfl)
  | exitClose at_ => exact .of_update rfl fun heq => .same (by rw [heq]) (by rw [heq]) (by rw [heq])
  | exitCwd at_ => exact .of_update rfl fun heq => .same (by rw [heq]) (by rw [heq]) (by rw [heq])
  | reparent at_ child =>
    exact .of_update rfl fun heq => .give hp at_ child (by rw [heq]) (by rw [heq]) (by rw [heq])
      (by simp)
  | exitZombie at_ =>
    exact .of_update rfl fun heq => .die hp at_ hrun (by rw [heq]) (by rw [heq])
  | reap at_ child zombie =>
    exact .of_update rfl fun heq => .reap hp at_ child zombie (by rw [heq]; rfl) (by rw [heq]; rfl)
  | waitSleep at_ =>
    exact .of_update rfl fun heq => .own hp (by rw [hrun]; rfl) (by rw [heq]; rfl) (by rw [heq])
  | wake at_ ne sleeping same =>
    exact .of_update rfl fun heq => .wake sleeping (by rw [heq]) (by rw [heq])

/-- **What a step does to a slot.** -/
theorem Does.slotMove (h : Does s a s') (j : ProcIx) : SlotMove s a s' j := by
  cases h with
  | fork | kill | exit | wait => exact .of_eq rfl
  | advance running sec => exact sec.slotMove rfl running j
  | resume ready at_ =>
    exact .of_update rfl fun heq => .own rfl (by rw [ready]; rfl) (by rw [heq]; rfl) (by rw [heq])
  | dispatch ready awake =>
    exact .of_update rfl fun heq => .own rfl (by rw [ready]; rfl) (by rw [heq]; rfl) (by rw [heq])
  | yield running lock =>
    exact .of_update rfl fun heq => .own rfl (by rw [running]; rfl) (by rw [heq]; rfl) (by rw [heq])
  | sleep running sleeps =>
    exact .of_update rfl fun heq => .own rfl (by rw [running]; rfl) (by rw [heq]; rfl) (by rw [heq])
  | wake sleeping same =>
    exact .of_update rfl fun heq => .wake sleeping (by rw [heq]) (by rw [heq])
  | fault running out =>
    exact .of_update rfl fun heq => .same (by rw [heq]) (by rw [heq]) (by rw [heq])
  | other running out =>
    exact .of_update rfl fun heq => .same (by rw [heq]) (by rw [heq]) (by rw [heq])

/-! ### What happens to `wait_lock` and to a `fork` -/

theorem Section.lock {mapped : Bool} (h : Section s p mapped s') :
    (s'.waitLock = s.waitLock ∧ (s'.pc p).locked = (s.pc p).locked) ∨
    (s.waitLock = none ∧ s'.waitLock = some p ∧ (s'.pc p).locked = true) ∨
    ((s.pc p).locked = true ∧ s'.waitLock = none ∧ (s'.pc p).locked = false) := by
  cases h with
  | exitLock at_ lock | waitLock at_ lock =>
    refine .inr (.inl ⟨lock, ?_⟩)
    simp [Pc.locked]
  | exitZombie at_ | waitUnmapped at_ | reap at_ | waitNone at_ | waitSleep at_ =>
    refine .inr (.inr ?_)
    simp [at_, Pc.locked]
  | allocNext at_ | allocNone at_ | allocFail at_ | alloc at_ | forkParent at_ | forkReady at_
  | killNext at_ | killNone at_ | kill at_ | exitClose at_ | exitCwd at_ | reparentNext at_
  | reparent at_ | reparentAll at_ | waitNext at_ | waitAlive at_ | waitMore at_ | wakeNext at_
  | wake at_ | wakeAll at_ =>
    refine .inl ?_
    simp [at_, Pc.locked]

theorem Section.forking {mapped : Bool} (h : Section s p mapped s') {np : ProcIx}
    (hnp : (s'.pc p).forking = some np) :
    (s.pc p).forking = some np ∨ (s.slots np).state = .unused ∧ (s'.slots np).state = .used := by
  cases h with
  | @alloc np' at_ free =>
    obtain rfl : np' = np := by simpa [Pc.forking] using hnp
    refine .inr ?_
    simp [free, ProcSlot.inherit]
  | forkParent at_ | wakeNext at_ | wake at_ | wakeAll at_ =>
    refine .inl ?_
    rw [at_]
    simpa [Pc.forking] using hnp
  | _ => simp [Pc.forking] at hnp

/-! ### Places -/

/-- The state of a process and where it is. -/
def PlaceOk : Procstate → Pc → Prop
  | .unused, k => k = .out ∨ k = .exited
  | .used, k => k = .out
  | .sleeping, k => ∃ k', k = .asleep k' ∧ k'.rests = true
  | .runnable, k => (k.active = true ∧ k.locked = false) ∨ ∃ k', k = .asleep k' ∧ k'.rests = true
  | .running, k => k.active = true
  | .zombie, k => k = .exited

/-- Processes are where their states say, the one that is past an acquisition of
`wait_lock` holds it, and the child of a `fork` belongs to it alone. -/
structure Placed (s : ProcTable) : Prop where
  place : ∀ q, PlaceOk (s.slots q).state (s.pc q)
  lock : ∀ q, s.waitLock = some q ↔ (s.pc q).locked = true
  used : ∀ {q np}, (s.pc q).forking = some np → (s.slots np).state = .used
  unique : ∀ {q q' np}, (s.pc q).forking = some np → (s.pc q').forking = some np → q = q'

namespace Placed

variable (h : Placed s)

include h

theorem rests_of_asleep {k : Pc} (hpc : s.pc q = .asleep k) : k.rests = true := by
  have hplace := h.place q
  rw [hpc] at hplace
  cases hstate : (s.slots q).state with
  | unused =>
    rw [hstate] at hplace
    rcases hplace with hno | hno <;> cases hno
  | used | zombie | running =>
    rw [hstate] at hplace
    cases hplace
  | sleeping =>
    rw [hstate] at hplace
    obtain ⟨k', heq, hrests⟩ := hplace
    cases heq
    exact hrests
  | runnable =>
    rw [hstate] at hplace
    rcases hplace with ⟨hactive, -⟩ | ⟨k', heq, hrests⟩
    · cases hactive
    · cases heq
      exact hrests

theorem leaves_of_wakeup {chan : Option SleepChan} {i : ℕ} {k : Pc}
    (hpc : s.pc q = .wakeup chan i k) : k.leaves = true := by
  have hplace := h.place q
  rw [hpc] at hplace
  cases hstate : (s.slots q).state with
  | unused =>
    rw [hstate] at hplace
    rcases hplace with hno | hno <;> cases hno
  | used | zombie =>
    rw [hstate] at hplace
    cases hplace
  | sleeping =>
    rw [hstate] at hplace
    obtain ⟨k', heq, -⟩ := hplace
    cases heq
  | runnable =>
    rw [hstate] at hplace
    rcases hplace with ⟨hactive, -⟩ | ⟨k', heq, -⟩
    · exact hactive
    · cases heq
  | running =>
    rw [hstate] at hplace
    exact hplace

/-- A critical section leaves the process running, or it ends it, or the process
goes to sleep. -/
theorem state_of_section {mapped : Bool} (hsec : Section s p mapped s')
    (hrun : (s.slots p).state = .running) :
    (s'.slots p).state = .running ∨ (s'.slots p).state = .zombie ∧ s'.pc p = .exited ∨
      ∃ addr, s.pc p = .waitSleep addr ∧ s'.pc p = .asleep (.waitLock addr) ∧
        s'.slots = update s.slots p { s.slots p with
          chan := some (.proc p), state := .sleeping } := by
  cases hsec with
  | exitZombie at_ =>
    refine .inr (.inl ?_)
    simp
  | waitSleep at_ => exact .inr (.inr ⟨_, at_, by simp, rfl⟩)
  | allocFail at_ free =>
    have hne := ne_of_state hrun free (by decide)
    left
    simpa [update_of_ne hne.symm] using hrun
  | alloc at_ free =>
    have hne := ne_of_state hrun free (by decide)
    left
    simpa [update_of_ne hne.symm] using hrun
  | forkReady at_ =>
    have hne := ne_of_state hrun (h.used (q := p) (by rw [at_]; rfl)) (by decide)
    left
    simpa [update_of_ne hne.symm] using hrun
  | reap at_ child zombie =>
    have hne := ne_of_state hrun zombie (by decide)
    left
    simpa [update_of_ne hne.symm] using hrun
  | wake at_ ne sleeping same =>
    left
    simpa [update_of_ne ne.symm] using hrun
  | @forkParent np pid at_ lock =>
    have hne := ne_of_state hrun (h.used (q := p) (by rw [at_]; rfl)) (by decide)
    left
    simpa [update_of_ne hne.symm] using hrun
  | @kill pid i at_ found =>
    left
    by_cases hi : i = p
    · subst hi
      simp [ProcSlot.kill, hrun]
    · simpa [update_of_ne (Ne.symm hi)] using hrun
  | @reparent status i at_ child =>
    left
    by_cases hi : i = p
    · subst hi
      simpa using hrun
    · simpa [update_of_ne (Ne.symm hi)] using hrun
  | exitClose at_ =>
    left
    simpa using hrun
  | exitCwd at_ =>
    left
    simpa using hrun
  | allocNext | allocNone | killNext | killNone | exitLock | reparentNext | reparentAll | waitLock
  | waitNext | waitAlive | waitUnmapped | waitNone | waitMore | wakeNext | wakeAll =>
    exact .inl hrun

theorem active_of_section {mapped : Bool} (hsec : Section s p mapped s')
    (hrun : (s.slots p).state = .running) (hrun' : (s'.slots p).state = .running) :
    (s'.pc p).active = true := by
  have hplace := h.place p
  rw [hrun] at hplace
  cases hsec with
  | exitZombie at_ =>
    simp at hrun'
  | waitSleep at_ => simp at hrun'
  | wakeNext at_ | wake at_ =>
    change (s.pc p).active = true at hplace
    rw [at_] at hplace
    simp only [goto_pc, setSlot_pc, update_self]
    exact hplace
  | wakeAll at_ =>
    change (s.pc p).active = true at hplace
    rw [at_] at hplace
    simp only [goto_pc, update_self]
    exact Pc.active_of_leaves hplace
  | _ => simp [Pc.active, Pc.leaves]

/-- **Every step leaves the processes where their states say.** -/
theorem place_step (hdoes : Does s a s') (q : ProcIx) :
    PlaceOk (s'.slots q).state (s'.pc q) := by
  have hplace := h.place q
  by_cases hq : a.actor = some q
  · cases hdoes with
    | fork running out | kill running out | exit running out | wait running out =>
      cases hq
      simp [running, PlaceOk, Pc.active]
    | advance running sec =>
      cases hq
      rcases h.state_of_section sec running with hrun | ⟨hz, hpc⟩ | ⟨addr, -, hpc, hslots⟩
      · rw [hrun]
        exact h.active_of_section sec running hrun
      · rw [hz]
        exact hpc
      · rw [hslots, update_self]
        exact ⟨_, hpc, rfl⟩
    | resume ready at_ =>
      cases hq
      simpa [PlaceOk] using Pc.active_of_rests (h.rests_of_asleep at_)
    | dispatch ready awake =>
      cases hq
      rw [ready] at hplace
      rcases hplace with ⟨hactive, -⟩ | ⟨k, hk, -⟩
      · simpa [PlaceOk] using hactive
      · exact absurd hk (awake k)
    | yield running lock =>
      cases hq
      rw [running] at hplace
      have hunlocked := Bool.eq_false_of_not_eq_true fun hno => lock ((h.lock _).mpr hno)
      simp only [setSlot_slots, setSlot_pc, update_self]
      exact .inl ⟨hplace, hunlocked⟩
    | sleep running sleeps =>
      cases hq
      simpa [PlaceOk] using Pc.rests_of_sleeps sleeps
    | wake => cases hq
    | fault running out | other running out =>
      cases hq
      simpa [PlaceOk, running] using hplace
  · rcases hdoes.pc_of_ne hq with hpc | ⟨hunused, hpc⟩
    · rw [hpc]
      cases hdoes.slotMove q with
      | same state => rwa [state]
      | wake sleeping state =>
        rw [sleeping] at hplace
        rw [state]
        exact .inr hplace
      | own actor | die actor => exact absurd actor hq
      | alloc actor at_ free ne state parent start =>
        rw [state]
        exact hpc.symm.trans start
      | fail free state =>
        rw [free] at hplace
        rwa [state]
      | adopt actor at_ running lock state | give actor at_ child state => rwa [state]
      | @ready p' pid actor at_ running state =>
        rw [h.used (q := p') (by rw [at_]; rfl)] at hplace
        rw [state, show s.pc q = .out from hplace]
        exact .inl ⟨rfl, rfl⟩
      | reap actor at_ child zombie state =>
        rw [zombie] at hplace
        rw [state]
        exact .inr hplace
    · -- a slot that was free
      rw [hpc]
      cases hdoes.slotMove q with
      | same state =>
        rw [state, hunused]
        exact .inl rfl
      | wake sleeping => rw [hunused] at sleeping; cases sleeping
      | own actor | die actor => exact absurd actor hq
      | alloc actor at_ free ne state => rw [state]; rfl
      | fail free state =>
        rw [state]
        exact .inl rfl
      | adopt actor at_ running lock state | give actor at_ child state =>
        rw [state, hunused]
        exact .inl rfl
      | @ready p' pid actor at_ running state =>
        rw [state]
        exact .inl ⟨rfl, rfl⟩
      | reap actor at_ child zombie state =>
        rw [state]
        exact .inl rfl

omit h in
theorem PlaceOk.unlocked {k : Pc} (hplace : PlaceOk .unused k) : k.locked = false := by
  rcases hplace with rfl | rfl <;> rfl

theorem locked_of_ne (hdoes : Does s a s') (hq : a.actor ≠ some q) :
    (s'.pc q).locked = (s.pc q).locked := by
  rcases hdoes.pc_of_ne hq with hpc | ⟨hunused, hpc⟩
  · rw [hpc]
  · have hplace := h.place q
    rw [hunused] at hplace
    rw [hpc, PlaceOk.unlocked hplace]
    rfl

theorem lock_step (hdoes : Does s a s') (q : ProcIx) :
    s'.waitLock = some q ↔ (s'.pc q).locked = true := by
  by_cases hq : a.actor = some q
  swap
  · rw [h.locked_of_ne hdoes hq, ← h.lock q]
    cases hdoes with
    | @advance p _ _ _ _ sec =>
      have hne := ne_of_actor rfl hq
      rcases sec.lock with ⟨hsame, -⟩ | ⟨hnone, hsome, -⟩ | ⟨hlocked, hnone, -⟩
      · rw [hsame]
      · simp [hnone, hsome, hne.symm]
      · simp [hnone, (h.lock p).mpr hlocked, hne.symm]
    | _ => rfl
  · have hlock := h.lock q
    cases hdoes with
    | fork running out | kill running out | exit running out | wait running out =>
      cases hq
      simpa [out, Pc.locked] using hlock
    | advance running sec =>
      cases hq
      rcases sec.lock with ⟨hsame, hpc⟩ | ⟨-, hsome, hpc⟩ | ⟨-, hnone, hpc⟩
      · rw [hsame, hpc, hlock]
      · simp [hsome, hpc]
      · simp [hnone, hpc]
    | resume ready at_ =>
      cases hq
      rw [at_] at hlock
      simpa [Pc.locked_of_rests (h.rests_of_asleep at_), Pc.locked] using hlock
    | sleep running sleeps =>
      cases hq
      rw [Pc.locked_of_rests (Pc.rests_of_sleeps sleeps)] at hlock
      simpa [Pc.locked] using hlock
    | dispatch | yield | fault | other => exact hlock
    | wake => cases hq

omit h in
/-- A `fork` that is under way was so before, or it has just found its slot. -/
theorem forking_of_step (hdoes : Does s a s') {np : ProcIx} (hnp : (s'.pc q).forking = some np) :
    (s.pc q).forking = some np ∨
      (a.actor = some q ∧ (s.slots np).state = .unused ∧ (s'.slots np).state = .used) := by
  by_cases hq : a.actor = some q
  swap
  · rcases hdoes.pc_of_ne hq with hpc | ⟨-, hpc⟩
    · rw [hpc] at hnp
      exact .inl hnp
    · rw [hpc] at hnp
      cases hnp
  · cases hdoes with
    | fork running out | kill running out | exit running out | wait running out =>
      cases hq
      simp [Pc.forking] at hnp
    | advance running sec =>
      cases hq
      rcases sec.forking hnp with hold | hnew
      · exact .inl hold
      · exact .inr ⟨rfl, hnew⟩
    | resume ready at_ =>
      cases hq
      refine .inl ?_
      rw [at_]
      simpa [Pc.forking] using hnp
    | sleep running sleeps =>
      cases hq
      refine .inl ?_
      simpa [Pc.forking] using hnp
    | dispatch | yield | fault | other => exact .inl hnp
    | wake => cases hq

theorem used_step (hdoes : Does s a s') {np : ProcIx} (hnp : (s'.pc q).forking = some np) :
    (s'.slots np).state = .used := by
  rcases forking_of_step hdoes hnp with hold | ⟨-, -, hused⟩
  swap
  · exact hused
  have hstate := h.used hold
  cases hdoes.slotMove np with
  | same state | adopt actor at_ running lock state | give actor at_ child state => rwa [state]
  | wake sleeping => rw [hstate] at sleeping; cases sleeping
  | own actor alive => rw [hstate] at alive; cases alive
  | alloc actor at_ free | fail free => rw [hstate] at free; cases free
  | @ready p pid actor at_ running state parent done =>
    -- the `fork` that ends here is another one
    obtain rfl : q = p := h.unique hold (by rw [at_]; rfl)
    rw [done] at hnp
    cases hnp
  | die actor at_ running => rw [hstate] at running; cases running
  | reap actor at_ child zombie => rw [hstate] at zombie; cases zombie

theorem unique_step (hdoes : Does s a s') {q' np : ProcIx} (hq : (s'.pc q).forking = some np)
    (hq' : (s'.pc q').forking = some np) : q = q' := by
  rcases forking_of_step hdoes hq with hold | ⟨hact, hunused, -⟩
  · rcases forking_of_step hdoes hq' with hold' | ⟨-, hunused, -⟩
    · exact h.unique hold hold'
    · rw [h.used hold] at hunused
      cases hunused
  · rcases forking_of_step hdoes hq' with hold' | ⟨hact', -, -⟩
    · rw [h.used hold'] at hunused
      cases hunused
    · exact Option.some.inj (hact.symm.trans hact')

theorem step (hdoes : Does s a s') : Placed s' :=
  ⟨h.place_step hdoes, h.lock_step hdoes, h.used_step hdoes, h.unique_step hdoes⟩

end Placed

theorem placed_initial : Placed initial where
  place q := by
    unfold initial
    by_cases hq : q = Kernel.initproc
    · subst hq
      simp [PlaceOk, Pc.active, Pc.locked]
    · simp [update_of_ne hq, ProcSlot.empty, PlaceOk]
  lock q := by simp [initial, Pc.locked]
  used h := by simp [initial, Pc.forking] at h
  unique h := by simp [initial, Pc.forking] at h

end ProcTable

end Xv6Zig
