/-
Xv6Zig/Family.lean

Parents and children in the process table.

`Family` is what holds at every step of every interleaving.  Each process that
`fork` has finished has a parent that can still call `wait`; it is `exit` that sees
to it, since it gives the children away before it becomes a zombie, all with
`wait_lock` held.  A parent does not sleep in `wait` while it has a zombie, unless
an `exit` holds `wait_lock` and its `wakeup` has not come to the parent's slot yet.

Each process knows something about its children where it is (`Knows`).  The others
cannot make that wrong: who holds `wait_lock` is the only one to change parents and
zombies (`Family.frame`), and the child of a `fork` belongs to the `fork`.
-/
import Xv6Zig.ProcPlaces

namespace Xv6Zig

open Lib Function

namespace ProcTable

variable {s s' : ProcTable} {a : Act} {p q j np : ProcIx}

theorem forall_lt_succ {P : ProcIx → Prop} {i : ProcIx} (h : ∀ j : ProcIx, (j : ℕ) < i → P j)
    (hi : P i) (j : ProcIx) (hj : (j : ℕ) < i + 1) : P j := by
  rcases Nat.lt_succ_iff_lt_or_eq.mp hj with hlt | heq
  · exact h j hlt
  · rwa [Fin.ext heq]

theorem exists_lt_succ {P : ProcIx → Prop} {i : ProcIx} :
    (∃ j : ProcIx, (j : ℕ) < i + 1 ∧ P j) ↔ (∃ j : ProcIx, (j : ℕ) < i ∧ P j) ∨ P i := by
  constructor
  · rintro ⟨j, hj, hP⟩
    rcases Nat.lt_succ_iff_lt_or_eq.mp hj with hlt | heq
    · exact .inl ⟨j, hlt, hP⟩
    · rw [Fin.ext heq] at hP
      exact .inr hP
  · rintro (⟨j, hj, hP⟩ | hP)
    · exact ⟨j, Nat.lt_succ_of_lt hj, hP⟩
    · exact ⟨i, Nat.lt_succ_self _, hP⟩

/-- The process is asleep in `wait`. -/
def Waiting (s : ProcTable) (q : ProcIx) : Prop :=
  (s.slots q).state = .sleeping ∧ ∃ addr, s.pc q = .asleep (.waitLock addr)

/-- What a process knows about its children where it is. -/
def Knows (s : ProcTable) (p : ProcIx) : Pc → Prop
  | .forkParent np _ => (s.slots np).parent = none
  | .forkReady np _ => (s.slots np).parent = some p
  | .exitClose _ _ | .exitLock _ => p ≠ Kernel.initproc
  | .reparent _ i =>
      p ≠ Kernel.initproc ∧ ∀ j : ProcIx, (j : ℕ) < i → (s.slots j).parent ≠ some p
  | .exitZombie _ => p ≠ Kernel.initproc ∧ ∀ j, (s.slots j).parent ≠ some p
  | .waitScan _ i havekids =>
      (∀ j : ProcIx, (j : ℕ) < i → (s.slots j).parent = some p → (s.slots j).state ≠ .zombie) ∧
      (havekids = true ↔ ∃ j : ProcIx, (j : ℕ) < i ∧ (s.slots j).parent = some p)
  | .waitSleep _ => ∀ j, (s.slots j).parent = some p → (s.slots j).state ≠ .zombie
  | .wakeup _ _ k | .asleep k => s.Knows p k
  | _ => True

/-- How far the last `wakeup` of an `exit` has come. -/
def Told (s : ProcTable) (p : ProcIx) : Pc → Prop
  | .exitZombie _ => ∀ q, (s.slots p).parent = some q → ¬ s.Waiting q
  | .wakeup chan i (.exitZombie _) =>
      chan = (s.slots p).parent.map .proc ∧
      ∀ q : ProcIx, (q : ℕ) < i → (s.slots p).parent = some q → ¬ s.Waiting q
  | _ => True

/-- An `exit` is about to wake the process. -/
def BeingWoken (s : ProcTable) (q : ProcIx) : Prop :=
  ∃ p i k, s.waitLock = some p ∧ s.pc p = .wakeup (some (.proc q)) i k ∧ i ≤ (q : ℕ)

/-- **What holds of parents and children.** -/
structure Family (s : ProcTable) : Prop where
  placed : Placed s
  knows : ∀ p, s.Knows p (s.pc p)
  unborn : ∀ {j}, (s.slots j).state = .unused → (s.slots j).parent = none
  parent : ∀ {j}, (s.slots j).state.alive = true ∨ (s.slots j).state = .zombie →
    j ≠ Kernel.initproc → ∃ q, (s.slots j).parent = some q
  alive : ∀ {j q}, (s.slots j).parent = some q → (s.slots q).state.alive = true
  init : (s.slots Kernel.initproc).state.alive = true
  chan : ∀ {q}, s.Waiting q → (s.slots q).chan = some (.proc q)
  told : ∀ p, s.Told p (s.pc p)
  noLost : ∀ {q z}, s.Waiting q → (s.slots z).parent = some q → (s.slots z).state = .zombie →
    s.BeingWoken q

namespace Family

variable (h : Family s)

include h

/-! ### What others do -/

/-- Who holds `wait_lock` can rely on parents and zombies. -/
theorem frame (hdoes : Does s a s') (hlock : s.waitLock = some q) (hq : a.actor ≠ some q)
    (j : ProcIx) : (s'.slots j).parent = (s.slots j).parent ∧
      ((s'.slots j).state = .zombie ↔ (s.slots j).state = .zombie) := by
  have hholds : ∀ {p}, a.actor = some p → (s.pc p).locked = true → False := by
    intro p hp hlocked
    have hp' := (h.placed.lock p).mpr hlocked
    rw [hlock] at hp'
    exact hq (hp.trans hp'.symm)
  cases hdoes.slotMove j with
  | same state parent => rw [state, parent]; exact ⟨rfl, Iff.rfl⟩
  | wake sleeping state parent => simp [sleeping, state, parent]
  | own actor alive state parent =>
    refine ⟨parent, ⟨fun hz => ?_, fun hz => ?_⟩⟩
    · rw [hz] at state
      cases state
    · rw [hz] at alive
      cases alive
  | alloc actor at_ free ne state parent => simp [free, state, parent]
  | fail free state parent => simp [free, state, parent, h.unborn free]
  | adopt actor at_ running lock =>
    rw [hlock] at lock
    cases lock
  | @ready p pid actor at_ running state parent =>
    have hused : (s.slots j).state = .used := h.placed.used (q := p) (by rw [at_]; rfl)
    simp [hused, state, parent]
  | give actor at_ => exact (hholds actor (by rw [at_]; rfl)).elim
  | die actor at_ => exact (hholds actor (by rw [at_]; rfl)).elim
  | reap actor at_ => exact (hholds actor (by rw [at_]; rfl)).elim

omit h in
/-- A step that writes to a slot, but neither the parent nor ZOMBIE. -/
theorem frame_of_update {i : ProcIx} {x : ProcSlot} (hslots : s'.slots = update s.slots i x)
    (hparent : x.parent = (s.slots i).parent) (hx : x.state ≠ .zombie)
    (hi : (s.slots i).state ≠ .zombie) (j : ProcIx) :
    (s'.slots j).parent = (s.slots j).parent ∧
      ((s'.slots j).state = .zombie ↔ (s.slots j).state = .zombie) := by
  rw [hslots]
  by_cases hji : j = i
  · subst hji
    simp [hparent, hx, hi]
  · simp [update_of_ne hji]

omit h in
/-- Nothing is known but parents and zombies. -/
theorem knows_congr {k : Pc} (hk : s.Knows q k)
    (hsame : ∀ j, (s'.slots j).parent = (s.slots j).parent ∧
      ((s'.slots j).state = .zombie ↔ (s.slots j).state = .zombie)) : s'.Knows q k := by
  have hp : ∀ j, (s'.slots j).parent = (s.slots j).parent := fun j => (hsame j).1
  have hz : ∀ j, (s'.slots j).state ≠ .zombie ↔ (s.slots j).state ≠ .zombie :=
    fun j => not_congr (hsame j).2
  induction k with
  | wakeup _ _ k ih => exact ih hk
  | asleep k ih => exact ih hk
  | forkParent | forkReady | exitClose | exitLock | reparent | exitZombie | waitScan | waitSleep =>
    simpa only [Knows, hp, hz] using hk
  | _ => trivial

/-- The others leave the parent of the child alone that a process forks. -/
theorem parent_of_forking {np : ProcIx} (hdoes : Does s a s') (hq : a.actor ≠ some q)
    (hfork : (s.pc q).forking = some np)
    (hparent : ∀ p, (s.slots np).parent = some p → p = q) :
    (s'.slots np).parent = (s.slots np).parent := by
  have hused := h.placed.used hfork
  cases hdoes.slotMove np with
  | same state parent | wake sleeping state parent | own actor alive state parent
  | alloc actor at_ free ne state parent | ready actor at_ running state parent
  | die actor at_ running state parent => exact parent
  | fail free => cases hused.symm.trans free
  | @adopt p pid actor at_ =>
    obtain rfl : p = q := h.placed.unique (by rw [at_]; rfl) hfork
    exact absurd actor hq
  | give actor at_ child => exact absurd (hparent _ child ▸ actor) hq
  | reap actor at_ child zombie => cases hused.symm.trans zombie

/-- What a process knows stays true whatever the others do. -/
theorem knows_other (hdoes : Does s a s') (hq : a.actor ≠ some q) : s'.Knows q (s.pc q) := by
  have hk := h.knows q
  have hframe := fun hlocked => h.frame hdoes ((h.placed.lock q).mpr hlocked) hq
  cases hpc : s.pc q with
  | asleep k =>
    rw [hpc] at hk
    have hrests := h.placed.rests_of_asleep hpc
    cases k with
    | exitClose => exact hk
    | out | waitLock => trivial
    | _ => cases hrests
  | wakeup chan i k =>
    have hleaves := h.placed.leaves_of_wakeup hpc
    rw [hpc] at hk hframe
    cases k with
    | reparent | exitZombie => exact knows_congr hk (hframe rfl)
    | _ => cases hleaves
  | reparent | exitZombie | waitScan | waitSleep =>
    rw [hpc] at hk hframe
    exact knows_congr hk (hframe rfl)
  | exitClose | exitLock =>
    rw [hpc] at hk
    exact hk
  | forkParent np pid =>
    rw [hpc] at hk
    refine (h.parent_of_forking hdoes hq (by rw [hpc]; rfl) fun p hp => ?_).trans hk
    cases hp.symm.trans hk
  | forkReady np pid =>
    rw [hpc] at hk
    refine (h.parent_of_forking hdoes hq (by rw [hpc]; rfl) fun p hp => ?_).trans hk
    exact Option.some.inj (hp.symm.trans hk)
  | _ => trivial

/-! ### What a process does itself -/

theorem knows_section {mapped : Bool} (hsec : Section s p mapped s') :
    s'.Knows p (s'.pc p) := by
  have hk := h.knows p
  cases hsec with
  | allocNext | allocNone | allocFail | forkReady | killNext | killNone | kill | waitUnmapped | reap
  | waitNone | exitZombie | waitSleep => simp [Knows]
  | @alloc np at_ free =>
    simp [Knows, ProcSlot.inherit, h.unborn free]
  | forkParent at_ => simp [Knows]
  | exitClose at_ | exitCwd at_ =>
    rw [at_] at hk
    simpa [Knows] using hk
  | exitLock at_ =>
    rw [at_] at hk
    simpa [Knows] using hk
  | @reparentNext status i at_ other =>
    rw [at_] at hk
    simp only [goto_pc, update_self]
    exact ⟨hk.1, forall_lt_succ hk.2 other⟩
  | @reparent status i at_ child =>
    rw [at_] at hk
    simp only [goto_pc, setSlot_pc, update_self]
    refine ⟨hk.1, forall_lt_succ (fun j hj => ?_) ?_⟩
    · have hji : j ≠ i := Fin.ne_of_val_ne hj.ne
      simpa [update_of_ne hji] using hk.2 j hj
    · simpa using hk.1.symm
  | reparentAll at_ all =>
    rw [at_] at hk
    simp only [goto_pc, update_self]
    exact ⟨hk.1, fun j => hk.2 j (lt_of_lt_of_le j.isLt all)⟩
  | waitLock at_ =>
    simp [Knows]
  | @waitNext addr i havekids at_ other =>
    rw [at_] at hk
    simp only [goto_pc, update_self]
    refine ⟨forall_lt_succ hk.1 fun hchild => absurd hchild other, ?_⟩
    rw [exists_lt_succ, hk.2]
    exact ⟨.inl, fun hsome => hsome.resolve_right other⟩
  | @waitAlive addr i havekids at_ child alive =>
    rw [at_] at hk
    simp only [goto_pc, update_self]
    refine ⟨forall_lt_succ hk.1 fun _ => alive, ?_⟩
    rw [exists_lt_succ]
    exact ⟨fun _ => .inr child, fun _ => rfl⟩
  | waitMore at_ all kids =>
    rw [at_] at hk
    simp only [goto_pc, update_self]
    exact fun j => hk.1 j (lt_of_lt_of_le j.isLt all)
  | wakeNext at_ | wakeAll at_ =>
    rw [at_] at hk
    simp only [goto_pc, update_self]
    exact knows_congr hk fun _ => ⟨rfl, Iff.rfl⟩
  | @wake chan i k at_ ne sleeping same =>
    rw [at_] at hk
    simp only [goto_pc, setSlot_pc, update_self]
    exact knows_congr hk (frame_of_update rfl rfl (by simp) (by simp [sleeping]))

theorem knows_step (hdoes : Does s a s') (q : ProcIx) : s'.Knows q (s'.pc q) := by
  by_cases hq : a.actor = some q
  swap
  · rcases hdoes.pc_of_ne hq with hpc | ⟨-, hpc⟩
    · rw [hpc]
      exact h.knows_other hdoes hq
    · rw [hpc]
      trivial
  · have hk := h.knows q
    cases hdoes with
    | fork | kill | wait =>
      cases hq
      simp [Knows]
    | exit running out ne =>
      cases hq
      simpa [Knows] using ne
    | advance running sec =>
      cases hq
      exact h.knows_section sec
    | resume ready at_ =>
      cases hq
      rw [at_] at hk
      simp only [goto_pc, update_self]
      exact knows_congr hk (frame_of_update rfl rfl (by simp) (by simp [ready]))
    | sleep running sleeps =>
      cases hq
      simp only [goto_pc, update_self]
      exact knows_congr hk (frame_of_update rfl rfl (by simp) (by simp [running]))
    | dispatch ready =>
      cases hq
      exact knows_congr hk (frame_of_update rfl rfl (by simp) (by simp [ready]))
    | yield running | fault running | other running =>
      cases hq
      exact knows_congr hk (frame_of_update rfl rfl (by simp [running]) (by simp [running]))
    | wake => cases hq

/-! ### Parents -/

theorem unborn_step (hdoes : Does s a s') (hunused : (s'.slots j).state = .unused) :
    (s'.slots j).parent = none := by
  have hne : ∀ {x : Procstate}, (s'.slots j).state = x → x = .unused :=
    fun hx => hx.symm.trans hunused
  cases hdoes.slotMove j with
  | same state parent => exact parent.trans (h.unborn (hne state))
  | wake sleeping state => cases hne state
  | own actor alive state =>
    rw [hunused] at state
    cases state
  | alloc actor at_ free ne state => cases hne state
  | fail free state parent => exact parent
  | @adopt p pid actor at_ running lock state =>
    cases (h.placed.used (q := p) (by rw [at_]; rfl)).symm.trans (hne state)
  | ready actor at_ running state => cases hne state
  | give actor at_ child state => cases child.symm.trans (h.unborn (hne state))
  | die actor at_ running state => cases hne state
  | reap actor at_ child zombie state parent => exact parent

omit h in
/-- A process stays alive until the end of its `exit`. -/
theorem alive_step (hdoes : Does s a s') (halive : (s.slots q).state.alive = true) :
    (s'.slots q).state.alive = true ∨ a.actor = some q ∧ ∃ status, s.pc q = .exitZombie status := by
  have hne : ∀ {x : Procstate}, (s.slots q).state = x → x.alive = true := fun hx => hx ▸ halive
  cases hdoes.slotMove q with
  | same state | adopt actor at_ running lock state | give actor at_ child state =>
    left
    rwa [state]
  | wake sleeping state =>
    left
    rw [state]
    rfl
  | own actor alive state => exact .inl state
  | alloc actor at_ free | fail free => cases hne free
  | ready actor at_ running state =>
    left
    rw [state]
    rfl
  | die actor at_ => exact .inr ⟨actor, _, at_⟩
  | reap actor at_ child zombie => cases hne zombie

/-- A parent stays alive. -/
theorem parent_alive_step (hdoes : Does s a s') (hparent : (s.slots j).parent = some q)
    (halive : (s.slots q).state.alive = true) : (s'.slots q).state.alive = true := by
  rcases alive_step hdoes halive with hok | ⟨-, status, hpc⟩
  · exact hok
  · have hk := h.knows q
    rw [hpc] at hk
    exact absurd hparent (hk.2 j)

theorem init_step (hdoes : Does s a s') : (s'.slots Kernel.initproc).state.alive = true := by
  rcases alive_step hdoes h.init with hok | ⟨-, status, hpc⟩
  · exact hok
  · have hk := h.knows Kernel.initproc
    rw [hpc] at hk
    exact absurd rfl hk.1

theorem alive_parent_step (hdoes : Does s a s') (hparent : (s'.slots j).parent = some q) :
    (s'.slots q).state.alive = true := by
  have hkeep : (s'.slots j).parent = (s.slots j).parent → (s'.slots q).state.alive = true := by
    intro hsame
    have hold := hsame.symm.trans hparent
    exact h.parent_alive_step hdoes hold (h.alive hold)
  cases hdoes.slotMove j with
  | same state parent | wake sleeping state parent | own actor alive state parent
  | alloc actor at_ free ne state parent | ready actor at_ running state parent
  | die actor at_ running state parent => exact hkeep parent
  | fail free state parent | reap actor at_ child zombie state parent =>
    cases parent.symm.trans hparent
  | @adopt p pid actor at_ running lock state parent =>
    obtain rfl := Option.some.inj (parent.symm.trans hparent)
    rcases alive_step hdoes (q := p) (by rw [running]; rfl) with hok | ⟨-, status, hpc⟩
    · exact hok
    · cases at_.symm.trans hpc
  | give actor at_ child state parent =>
    cases parent.symm.trans hparent
    exact h.init_step hdoes

theorem parent_step (hdoes : Does s a s')
    (hj : (s'.slots j).state.alive = true ∨ (s'.slots j).state = .zombie)
    (hinit : j ≠ Kernel.initproc) : ∃ q, (s'.slots j).parent = some q := by
  have hne : ∀ {x : Procstate}, (s'.slots j).state = x → x.alive = true ∨ x = .zombie :=
    fun hx => hx ▸ hj
  have hkeep : (s'.slots j).parent = (s.slots j).parent →
      ((s.slots j).state.alive = true ∨ (s.slots j).state = .zombie) →
      ∃ q, (s'.slots j).parent = some q := by
    intro hparent hold
    obtain ⟨q, hq⟩ := h.parent hold hinit
    exact ⟨q, hparent.trans hq⟩
  cases hdoes.slotMove j with
  | same state parent => exact hkeep parent (hne state)
  | wake sleeping state parent => exact hkeep parent (.inl (by rw [sleeping]; rfl))
  | own actor alive state parent => exact hkeep parent (.inl alive)
  | alloc actor at_ free ne state | fail free state =>
    rcases hne state with hno | hno <;> cases hno
  | adopt actor at_ running lock state parent => exact ⟨_, parent⟩
  | @ready p pid actor at_ running state parent done =>
    have hk := h.knows p
    rw [at_] at hk
    exact ⟨p, parent.trans hk⟩
  | give actor at_ child state parent => exact ⟨_, parent⟩
  | die actor at_ running state parent => exact hkeep parent (.inl (by rw [running]; rfl))
  | reap actor at_ child zombie state =>
    rcases hne state with hno | hno <;> cases hno

/-! ### Sleeping in `wait` -/

/-- Nobody else sends a process to sleep. -/
theorem waiting_step (hdoes : Does s a s') (hw : s'.Waiting q) :
    (s.Waiting q ∧ (s'.slots q).chan = (s.slots q).chan) ∨
      (a.actor = some q ∧ (∃ addr, s.pc q = .waitSleep addr) ∧
        s'.slots = update s.slots q { s.slots q with
          chan := some (.proc q), state := .sleeping }) := by
  obtain ⟨hstate, addr, hpc'⟩ := hw
  by_cases hq : a.actor = some q
  swap
  · rcases hdoes.pc_of_ne hq with hpc | ⟨-, hpc⟩
    swap
    · cases hpc'.symm.trans hpc
    have hne : ∀ {x : Procstate}, (s'.slots q).state = x → x = .sleeping :=
      fun hx => hx.symm.trans hstate
    have hstay : (s'.slots q).state = (s.slots q).state →
        (s'.slots q).chan = (s.slots q).chan → s.Waiting q ∧ (s'.slots q).chan = (s.slots q).chan :=
      fun hsame hchan => ⟨⟨hne hsame, addr, hpc.symm.trans hpc'⟩, hchan⟩
    left
    cases hdoes.slotMove q with
    | same state parent chan => exact hstay state chan
    | give actor at_ child state parent chan => exact hstay state chan
    | @adopt p pid actor at_ running lock state =>
      cases (h.placed.used (q := p) (by rw [at_]; rfl)).symm.trans (hne state)
    | wake sleeping state | fail free state => cases hne state
    | own actor | die actor => exact absurd actor hq
    | alloc actor at_ free ne state => cases hne state
    | ready actor at_ running state => cases hne state
    | reap actor at_ child zombie state => cases hne state
  · cases hdoes with
    | fork running | kill running | exit running | wait running =>
      cases hq
      cases running.symm.trans hstate
    | advance running sec =>
      cases hq
      rcases h.placed.state_of_section sec running with hno | ⟨hno, -⟩ | ⟨addr, hat, -, hslots⟩
      · cases hno.symm.trans hstate
      · cases hno.symm.trans hstate
      · exact .inr ⟨rfl, ⟨addr, hat⟩, hslots⟩
    | resume ready at_ =>
      cases hq
      simp at hstate
    | dispatch ready =>
      cases hq
      simp at hstate
    | yield running =>
      cases hq
      simp at hstate
    | sleep running sleeps =>
      cases hq
      simp only [goto_pc, update_self] at hpc'
      rw [(Pc.asleep.inj hpc')] at sleeps
      cases sleeps
    | fault running | other running =>
      cases hq
      simp [running] at hstate
    | wake => cases hq

theorem chan_step (hdoes : Does s a s') (hw : s'.Waiting q) :
    (s'.slots q).chan = some (.proc q) := by
  rcases h.waiting_step hdoes hw with ⟨hold, hchan⟩ | ⟨-, -, hslots⟩
  · exact hchan.trans (h.chan hold)
  · rw [hslots, update_self]

/-- Nobody goes to sleep in `wait` while another process holds `wait_lock`. -/
theorem waiting_of_locked (hdoes : Does s a s') (hlock : s.waitLock = some p)
    (hp : a.actor ≠ some p) (hw : s'.Waiting q) : s.Waiting q := by
  rcases h.waiting_step hdoes hw with ⟨hold, -⟩ | ⟨hact, ⟨addr, hpc⟩, -⟩
  · exact hold
  · have hq := (h.placed.lock q).mpr (by rw [hpc]; rfl)
    rw [hact, ← hq] at hp
    exact absurd hlock hp

/-- A process that is asleep does not hold `wait_lock`. -/
theorem ne_of_waiting (hlock : s.waitLock = some p) (hw : s.Waiting q) : q ≠ p := by
  rintro rfl
  obtain ⟨-, addr, hpc⟩ := hw
  have hlocked := (h.placed.lock q).mp hlock
  rw [hpc] at hlocked
  cases hlocked

omit h in
theorem told_of_unlocked {k : Pc} (hk : k.locked = false) : s.Told p k := by
  cases k with
  | exitZombie => cases hk
  | wakeup chan i k =>
    cases k with
    | exitZombie => cases hk
    | _ => trivial
  | _ => trivial

omit h in
theorem told_congr {k : Pc} (hk : s.Told p k)
    (hparent : (s'.slots p).parent = (s.slots p).parent) (hw : ∀ q, s'.Waiting q → s.Waiting q) :
    s'.Told p k := by
  have hnot : ∀ q, ¬ s.Waiting q → ¬ s'.Waiting q := fun q => mt (hw q)
  cases k with
  | exitZombie =>
    intro q hq
    rw [hparent] at hq
    exact hnot q (hk q hq)
  | wakeup chan i k =>
    cases k with
    | exitZombie =>
      refine ⟨by rw [hparent]; exact hk.1, fun q hi hq => ?_⟩
      rw [hparent] at hq
      exact hnot q (hk.2 q hi hq)
    | _ => trivial
  | _ => trivial

/-- Nobody that the `wakeup` of an `exit` has passed is asleep. -/
theorem told_section {mapped : Bool} (hsec : Section s p mapped s')
    (hrun : (s.slots p).state = .running) : s'.Told p (s'.pc p) := by
  have htold := h.told p
  have hlock := (h.placed.lock p).mpr
  have hwait : (∀ addr, s.pc p ≠ .waitSleep addr) → ∀ q, s'.Waiting q → s.Waiting q := by
    intro hnot q hw
    rcases h.waiting_step (@Does.advance s p true mapped s' hrun hsec) hw with
      ⟨hold, -⟩ | ⟨hact, ⟨addr, hpc⟩, -⟩
    · exact hold
    · cases hact
      exact absurd hpc (hnot addr)
  cases hsec with
  | reparentAll at_ all =>
    simp only [goto_pc, update_self]
    exact ⟨rfl, fun q hq => absurd hq (Nat.not_lt_zero _)⟩
  | @wakeNext chan i k at_ not =>
    replace hwait := hwait fun addr hno => nomatch at_.symm.trans hno
    rw [at_] at htold hlock
    simp only [goto_pc, update_self]
    cases k with
    | exitZombie status =>
      refine ⟨htold.1, forall_lt_succ (fun q hq hparent hw => htold.2 q hq hparent (hwait q hw)) ?_⟩
      -- the one it looks at now is the parent: it would have been woken
      intro hparent hw
      have hold := hwait i hw
      refine not ⟨h.ne_of_waiting (hlock rfl) hold, hold.1, (h.chan hold).trans ?_⟩
      have hchan := htold.1
      rw [show (s.slots p).parent = some i from hparent] at hchan
      exact hchan.symm
    | _ => trivial
  | @wake chan i k at_ ne sleeping same =>
    replace hwait := hwait fun addr hno => nomatch at_.symm.trans hno
    rw [at_] at htold
    simp only [goto_pc, setSlot_pc, update_self]
    cases k with
    | exitZombie status =>
      have hparent : ∀ q, (s.slots q).parent
          = (update s.slots i { s.slots i with state := .runnable } q).parent := by
        intro q
        by_cases hq : q = i
        · subst hq
          simp
        · simp [update_of_ne hq]
      refine ⟨(congrArg _ (hparent p)).subst htold.1, forall_lt_succ (fun q hq hpar hw => ?_) ?_⟩
      · exact htold.2 q hq ((hparent p).trans hpar) (hwait q hw)
      · rintro - ⟨hstate, -⟩
        simp at hstate
    | _ => trivial
  | @wakeAll chan i k at_ all =>
    have hleaves := h.placed.leaves_of_wakeup at_
    replace hwait := hwait fun addr hno => nomatch at_.symm.trans hno
    rw [at_] at htold
    simp only [goto_pc, update_self]
    cases k with
    | exitZombie status =>
      exact fun q hparent hw => htold.2 q (lt_of_lt_of_le q.isLt all) hparent (hwait q hw)
    | reparent => trivial
    | _ => cases hleaves
  | _ => simp [Told]

theorem told_step (hdoes : Does s a s') (p : ProcIx) : s'.Told p (s'.pc p) := by
  by_cases hp : a.actor = some p
  swap
  · rcases hdoes.pc_of_ne hp with hpc | ⟨-, hpc⟩
    · rw [hpc]
      cases hlocked : (s.pc p).locked with
      | false => exact told_of_unlocked hlocked
      | true =>
        have hlock := (h.placed.lock p).mpr hlocked
        exact told_congr (h.told p) (h.frame hdoes hlock hp p).1
          fun q => h.waiting_of_locked hdoes hlock hp
    · rw [hpc]
      trivial
  · cases hdoes with
    | fork | kill | wait | exit =>
      cases hp
      simp [Told]
    | advance running sec =>
      cases hp
      exact h.told_section sec running
    | resume ready at_ =>
      cases hp
      simp only [goto_pc, update_self]
      exact told_of_unlocked (Pc.locked_of_rests (h.placed.rests_of_asleep at_))
    | sleep running sleeps =>
      cases hp
      simp [Told]
    | dispatch ready awake =>
      have hplace := h.placed.place p
      cases hp
      rw [ready] at hplace
      rcases hplace with ⟨-, hunlocked⟩ | ⟨k, hk, -⟩
      · exact told_of_unlocked hunlocked
      · exact absurd hk (awake k)
    | yield running lock =>
      cases hp
      exact told_of_unlocked (Bool.eq_false_of_not_eq_true fun hno => lock ((h.placed.lock _).mpr hno))
    | fault running out | other running out =>
      cases hp
      simp [out, Told]
    | wake => cases hp

/-! ### No `wakeup` is lost -/

/-- A `wakeup` that is under way is still so, or it has woken the process. -/
theorem beingWoken_step (hdoes : Does s a s') (hwoken : s.BeingWoken q) (hw : s.Waiting q)
    (hw' : s'.Waiting q) : s'.BeingWoken q := by
  obtain ⟨p, i, k, hlock, hpc, hi⟩ := hwoken
  have hlocked := (h.placed.lock p).mp hlock
  by_cases hp : a.actor = some p
  swap
  · rcases hdoes.pc_of_ne hp with hsame | ⟨hunused, -⟩
    · refine ⟨p, i, k, ((h.placed.step hdoes).lock p).mpr ?_, hsame.trans hpc, hi⟩
      rwa [hsame]
    · have hplace := h.placed.place p
      rw [hunused] at hplace
      rw [Placed.PlaceOk.unlocked hplace] at hlocked
      cases hlocked
  · have hplace := h.placed.place p
    have hne := h.ne_of_waiting hlock hw
    cases hdoes with
    | fork running out | kill running out | exit running out | wait running out
    | fault running out | other running out =>
      cases hp
      cases hpc.symm.trans out
    | advance running sec =>
      cases hp
      cases sec with
      | @wakeNext chan j k' at_ not =>
        obtain ⟨rfl, rfl, rfl⟩ := Pc.wakeup.inj (hpc.symm.trans at_)
        have hj : j ≠ q := by
          rintro rfl
          exact not ⟨hne, hw.1, h.chan hw⟩
        refine ⟨_, _, _, hlock, update_self .., ?_⟩
        have := Fin.val_ne_of_ne hj
        omega
      | @wake chan j k' at_ ne sleeping same =>
        obtain ⟨rfl, rfl, rfl⟩ := Pc.wakeup.inj (hpc.symm.trans at_)
        have hj : j ≠ q := by
          rintro rfl
          have hstate := hw'.1
          simp at hstate
        refine ⟨_, _, _, hlock, update_self .., ?_⟩
        have := Fin.val_ne_of_ne hj
        omega
      | wakeAll at_ all =>
        obtain ⟨rfl, rfl, rfl⟩ := Pc.wakeup.inj (hpc.symm.trans at_)
        exact absurd q.isLt (Nat.not_lt.mpr (all.trans hi))
      | _ at_ => cases hpc.symm.trans at_
    | resume ready at_ =>
      cases hp
      cases hpc.symm.trans at_
    | dispatch ready awake =>
      cases hp
      rw [ready] at hplace
      rcases hplace with ⟨-, hunlocked⟩ | ⟨k', hk, -⟩
      · rw [hlocked] at hunlocked
        cases hunlocked
      · exact absurd hk (awake k')
    | yield running lock =>
      cases hp
      exact absurd hlock lock
    | sleep running sleeps =>
      cases hp
      rw [hpc] at sleeps
      cases sleeps
    | wake => cases hp

theorem noLost_step (hdoes : Does s a s') {z : ProcIx} (hw' : s'.Waiting q)
    (hparent : (s'.slots z).parent = some q) (hzombie : (s'.slots z).state = .zombie) :
    s'.BeingWoken q := by
  have hne : ∀ {x : Procstate}, (s'.slots z).state = x → x = .zombie :=
    fun hx => hx.symm.trans hzombie
  rcases h.waiting_step hdoes hw' with ⟨hw, -⟩ | ⟨-, ⟨addr, hpc⟩, hslots⟩
  swap
  · -- it looked at all its children before it went to sleep
    have hk := h.knows q
    rw [hpc] at hk
    by_cases hz : z = q
    · subst hz
      rw [hslots, update_self] at hzombie
      cases hzombie
    · rw [hslots, update_of_ne hz] at hparent hzombie
      exact absurd hzombie (hk z hparent)
  cases hdoes.slotMove z with
  | same state parent =>
    exact h.beingWoken_step hdoes
      (h.noLost hw (parent.symm.trans hparent) (hne state)) hw hw'
  | wake sleeping state | fail free state => cases hne state
  | own actor alive state =>
    rw [hzombie] at state
    cases state
  | alloc actor at_ free ne state => cases hne state
  | @adopt p pid actor at_ running lock state =>
    cases (h.placed.used (q := p) (by rw [at_]; rfl)).symm.trans (hne state)
  | ready actor at_ running state => cases hne state
  | @give p status actor at_ child state parent chan next =>
    cases parent.symm.trans hparent
    refine ⟨p, 0, _, ((h.placed.step hdoes).lock p).mpr ?_, next, Nat.zero_le _⟩
    rw [next]
    rfl
  | die actor at_ running state parent =>
    have htold := h.told z
    rw [at_] at htold
    exact absurd hw (htold q (parent.symm.trans hparent))
  | reap actor at_ child zombie state => cases hne state

/-- **Every step keeps it.** -/
theorem step (hdoes : Does s a s') : Family s' :=
  ⟨h.placed.step hdoes, h.knows_step hdoes, h.unborn_step hdoes, h.parent_step hdoes,
    h.alive_parent_step hdoes, h.init_step hdoes, h.chan_step hdoes, h.told_step hdoes, h.noLost_step hdoes⟩

end Family

theorem family_initial : Family initial where
  placed := placed_initial
  knows _ := trivial
  unborn := by
    intro j hj
    by_cases hinit : j = Kernel.initproc
    · subst hinit
      simp [initial] at hj
    · simp [initial, update_of_ne hinit, ProcSlot.empty]
  parent := by
    intro j hj hinit
    simp [initial, update_of_ne hinit, ProcSlot.empty, Procstate.alive] at hj
  alive := by
    intro j q hq
    by_cases hinit : j = Kernel.initproc
    · subst hinit
      simp [initial, ProcSlot.empty] at hq
    · simp [initial, update_of_ne hinit, ProcSlot.empty] at hq
  init := by simp [initial, Procstate.alive]
  chan := by
    rintro q ⟨-, addr, hpc⟩
    cases hpc
  told _ := trivial
  noLost := by
    rintro q z ⟨-, addr, hpc⟩
    cases hpc

end ProcTable

end Xv6Zig
