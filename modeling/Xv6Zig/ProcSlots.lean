/-
Xv6Zig/ProcSlots.lean

Slots of the process table that are not in use, and what the next process in
them starts with.

`allocproc` resets nothing but the pid and the state; it relies on `freeproc`,
which in turn relies on `exit` for the open files and the current directory.
`kill` writes to whatever slot has the pid.  A slot that is not in use has the
pid 0, so `kill(0)` marks one as killed, and returns 0; the next `fork` that takes
the slot makes a process that is killed from the start.  A zombie has its pid still.

So slots are recycled clean, and `kill` has an effect on live processes only, in
the runs in which no `kill` finds a slot that is UNUSED or ZOMBIE, and in no other.
-/
import Xv6Zig.ProcPlaces

namespace Xv6Zig

open Lib Function

/-- Neither UNUSED nor ZOMBIE. -/
def Procstate.live (x : Procstate) : Prop := x ≠ .unused ∧ x ≠ .zombie

namespace ProcSlot

/-- Nothing is left of the last process. -/
structure Clean (x : ProcSlot) : Prop where
  killed : x.killed = false
  chan : x.chan = none
  xstate : x.xstate = 0
  sz : x.sz = 0
  ownedRingbufs : x.ownedRingbufs = 0
  topFreeUvmPg : x.topFreeUvmPg = trapframeVA - 2 * pgSize
  ofile : ∀ fd, x.ofile fd = none
  cwd : x.cwd = none

/-- No open files and no current directory. -/
structure Closed (x : ProcSlot) : Prop where
  ofile : ∀ fd, x.ofile fd = none
  cwd : x.cwd = none

theorem clean_empty : Clean empty :=
  ⟨rfl, rfl, rfl, rfl, rfl, rfl, fun _ => rfl, rfl⟩

/-- `freeproc` cleans the slot, the files apart. -/
theorem Closed.clean {x : ProcSlot} (h : Closed x) : Clean x.freeproc :=
  ⟨rfl, rfl, rfl, rfl, rfl, rfl, h.ofile, h.cwd⟩

end ProcSlot

/-- How far `exit` has come with the files of the process. -/
def Pc.Closing (x : ProcSlot) : Pc → Prop
  | .exitClose _ fd => ∀ i : Fd, (i : ℕ) < fd → x.ofile i = none
  | .exitLock _ | .reparent _ _ | .exitZombie _ | .exited => x.Closed
  | .wakeup _ _ k | .asleep k => k.Closing x
  | _ => True

theorem Pc.Closing.congr {k : Pc} {x y : ProcSlot} (h : k.Closing x) (hofile : y.ofile = x.ofile)
    (hcwd : y.cwd = x.cwd) : k.Closing y := by
  have hclosed : x.Closed → y.Closed := fun hx => ⟨by rw [hofile]; exact hx.ofile, hcwd.trans hx.cwd⟩
  induction k with
  | exitClose status fd =>
    intro i hi
    rw [hofile]
    exact h i hi
  | exitLock | reparent | exitZombie | exited => exact hclosed h
  | wakeup chan i k ih => exact ih h
  | asleep k ih => exact ih h
  | _ => trivial

namespace ProcTable

/-- Slots that are not in use are clean. -/
def CleanSlots (s : ProcTable) : Prop :=
  ∀ j, (s.slots j).state = .unused → (s.slots j).Clean

/-- Processes that exit close their files. -/
def ClosingOk (s : ProcTable) : Prop :=
  ∀ j, (s.pc j).Closing (s.slots j)

/-- A step of `kill` changes nothing but the slot of a live process with the pid,
and then it returns 0; if it returns anything else it is -1. -/
structure KillOk (s : ProcTable) (p : ProcIx) (pid : Int32) (i : ℕ) (s' : ProcTable) : Prop where
  effect : ∀ j, s'.slots j ≠ s.slots j → (s.slots j).state.live ∧ (s.slots j).pid = pid
  success : s'.pc p = .out → s'.a0 p = 0 →
    ∃ j : ProcIx, (j : ℕ) = i ∧ (s.slots j).state.live ∧ (s.slots j).pid = pid
  failure : s'.pc p = .out → s'.a0 p ≠ 0 → s'.a0 p = -1 ∧ s'.slots = s.slots

/-- A step that recycles slots clean and kills nobody but the process meant. -/
structure Tidy (s : ProcTable) (a : Act) (s' : ProcTable) : Prop where
  step : Step s a s'
  clean : s'.CleanSlots
  born : ∀ j, (s.slots j).state = .unused → (s'.slots j).state = .used →
    (s'.slots j).killed = false
  kill : ∀ p memory mapped pid i, a = .advance p memory mapped → s.pc p = .kill pid i →
    KillOk s p pid i s'

/-- A step in which no `kill` finds a slot that is UNUSED or ZOMBIE. -/
structure KillsLive (s : ProcTable) (a : Act) (s' : ProcTable) : Prop where
  step : Step s a s'
  live : ∀ p memory mapped pid (j : ProcIx), a = .advance p memory mapped → s.pc p = .kill pid j →
    (s.slots j).pid = pid → (s.slots j).state.live

variable {s s' : ProcTable} {a : Act} {p q j : ProcIx}

/-! ### Files -/

theorem ClosingOk.of_update {i : ProcIx} {x : ProcSlot} (h : ClosingOk s)
    (hslots : s'.slots = update s.slots i x) (hpc : ∀ q ≠ i, s'.pc q = s.pc q)
    (hi : (s'.pc i).Closing x) : ClosingOk s' := by
  intro q
  by_cases hq : q = i
  · subst hq
    rw [hslots, update_self]
    exact hi
  · rw [hslots, update_of_ne hq, hpc q hq]
    exact h q

/-- A step that writes something else to a slot. -/
theorem ClosingOk.of_moved {i : ProcIx} {x : ProcSlot} (h : ClosingOk s)
    (hslots : s'.slots = update s.slots i x) (hofile : x.ofile = (s.slots i).ofile)
    (hcwd : x.cwd = (s.slots i).cwd) (hpc : ∀ q ≠ p, s'.pc q = s.pc q) {k : Pc}
    (hk : s'.pc p = k) (hp : k.Closing (s.slots p)) : ClosingOk s' := by
  have hfiles : ∀ q, (s'.slots q).ofile = (s.slots q).ofile ∧ (s'.slots q).cwd = (s.slots q).cwd := by
    intro q
    by_cases hq : q = i
    · subst hq
      rw [hslots, update_self]
      exact ⟨hofile, hcwd⟩
    · rw [hslots, update_of_ne hq]
      exact ⟨rfl, rfl⟩
  intro q
  by_cases hq : q = p
  · subst hq
    rw [hk]
    exact hp.congr (hfiles q).1 (hfiles q).2
  · rw [hpc q hq]
    exact (h q).congr (hfiles q).1 (hfiles q).2

theorem ClosingOk.of_goto (h : ClosingOk s) (hslots : s'.slots = s.slots)
    (hpc : ∀ q ≠ p, s'.pc q = s.pc q) {k : Pc} (hk : s'.pc p = k)
    (hp : k.Closing (s.slots p)) : ClosingOk s' :=
  h.of_moved (hslots.trans (update_eq_self p s.slots).symm) rfl rfl hpc hk hp

theorem Section.closing {mapped : Bool} (hsec : Section s p mapped s') (h : ClosingOk s) :
    ClosingOk s' := by
  have hp := h p
  have hne : ∀ {k : Pc}, ∀ q ≠ p, update s.pc p k q = s.pc q :=
    fun q hq => update_of_ne hq _ _
  cases hsec with
  | allocNext | allocNone | killNext | killNone | waitLock | waitNext | waitAlive | waitUnmapped
  | waitNone | waitMore =>
    exact h.of_goto rfl hne (update_self ..) trivial
  | exitLock at_ | reparentNext at_ | reparentAll at_ | wakeNext at_ | wakeAll at_ =>
    rw [at_] at hp
    exact h.of_goto rfl hne (update_self ..) hp
  | allocFail | forkParent | forkReady | kill | reap | waitSleep =>
    exact h.of_moved rfl rfl rfl hne (update_self ..) trivial
  | reparent at_ | wake at_ | exitZombie at_ =>
    rw [at_] at hp
    exact h.of_moved rfl rfl rfl hne (update_self ..) hp
  | @alloc np at_ free =>
    -- the child has the files of its parent, and does not exit
    intro q
    by_cases hq : q = p
    · subst hq
      rw [goto_pc, update_self]
      trivial
    by_cases hnp : q = np
    · subst hnp
      rw [goto_pc, update_of_ne hq, setSlot_pc, bear_pc, update_self]
      trivial
    · simpa [update_of_ne hq, update_of_ne hnp] using h q
  | @exitClose status fd at_ =>
    refine h.of_update rfl hne ?_
    rw [at_] at hp
    simp only [goto_pc, setSlot_pc, update_self]
    intro i hi
    by_cases hfd : i = fd
    · subst hfd
      exact update_self ..
    · have hlt : (i : ℕ) < fd := by
        have := Fin.val_ne_of_ne hfd
        omega
      exact (update_of_ne hfd ..).trans (hp i hlt)
  | @exitCwd status fd at_ all =>
    refine h.of_update rfl hne ?_
    rw [at_] at hp
    simp only [goto_pc, setSlot_pc, update_self]
    exact ⟨fun i => hp i (lt_of_lt_of_le i.isLt all), rfl⟩

theorem closing_step (h : ClosingOk s) (hdoes : Does s a s') : ClosingOk s' := by
  cases hdoes with
  | @fork p | @kill p | @wait p =>
    exact h.of_goto (p := p) rfl (fun q hq => update_of_ne hq _ _)
      (update_self ..) trivial
  | @exit p =>
    exact h.of_goto (p := p) rfl (fun q hq => update_of_ne hq _ _)
      (update_self ..) fun _ hi => absurd hi (Nat.not_lt_zero _)
  | advance running sec => exact sec.closing h
  | @resume p k ready at_ =>
    have hp := h p
    rw [at_] at hp
    exact h.of_moved (p := p) rfl rfl rfl (fun q hq => update_of_ne hq _ _)
      (update_self ..) hp
  | @sleep p =>
    exact h.of_moved (p := p) rfl rfl rfl (fun q hq => update_of_ne hq _ _)
      (update_self ..) (h p)
  | @dispatch p | @yield p | @fault p => exact h.of_moved (p := p) rfl rfl rfl (fun _ _ => rfl) rfl (h p)
  | @wake j => exact h.of_moved (p := j) rfl rfl rfl (fun _ _ => rfl) rfl (h j)
  | @other p sz top ofile cwd owned running out =>
    refine h.of_update rfl (fun _ _ => rfl) ?_
    rw [setSlot_pc, out]
    trivial

/-! ### Slots that are not in use -/

theorem CleanSlots.of_update {i : ProcIx} {x : ProcSlot} (h : CleanSlots s)
    (hslots : s'.slots = update s.slots i x) (hi : x.state = .unused → x.Clean) :
    CleanSlots s' := by
  intro j hj
  by_cases hji : j = i
  · subst hji
    rw [hslots, update_self] at hj ⊢
    exact hi hj
  · rw [hslots, update_of_ne hji] at hj ⊢
    exact h j hj

/-- Slots stay clean unless a `kill` finds one that is not in use. -/
theorem Section.clean {mapped : Bool} (hsec : Section s p mapped s') (h : CleanSlots s)
    (hclosing : ClosingOk s) (hplaced : Placed s) (hrun : (s.slots p).state = .running)
    (hlive : ∀ pid (j : ProcIx), s.pc p = .kill pid j → (s.slots j).pid = pid →
      (s.slots j).state.live) : CleanSlots s' := by
  have hnot : ∀ {x y : Procstate}, x = y → y ≠ .unused → x = .unused → False := by
    rintro x y rfl hy rfl
    exact hy rfl
  cases hsec with
  | allocNext | allocNone | killNext | killNone | waitLock | waitNext | waitAlive | waitUnmapped
  | waitNone | waitMore | exitLock | reparentNext | reparentAll | wakeNext | wakeAll => exact h
  | allocFail at_ free =>
    exact h.of_update rfl fun _ => ProcSlot.Closed.clean ⟨(h _ free).ofile, (h _ free).cwd⟩
  | alloc => exact h.of_update rfl fun hno => nomatch hno
  | forkReady | wake => exact h.of_update rfl fun hno => nomatch hno
  | exitZombie | waitSleep => exact h.of_update rfl fun hno => nomatch hno
  | forkParent at_ lock =>
    have hused := hplaced.used (q := p) (by rw [at_]; rfl)
    exact h.of_update rfl fun hno => (hnot hused (by decide) hno).elim
  | @kill pid i at_ found =>
    refine h.of_update rfl fun hno => ?_
    have hlive := hlive pid i at_ found
    simp only [ProcSlot.kill] at hno
    split_ifs at hno
    exact absurd hno hlive.1
  | exitClose | exitCwd =>
    exact h.of_update rfl fun hno => (hnot hrun (by decide) hno).elim
  | @reparent status i at_ child =>
    refine h.of_update rfl fun hunused => ?_
    obtain ⟨h₁, h₂, h₃, h₄, h₅, h₆, h₇, h₈⟩ := h i hunused
    exact ⟨h₁, h₂, h₃, h₄, h₅, h₆, h₇, h₈⟩
  | @reap addr i havekids at_ child zombie =>
    have hexited : s.pc i = .exited := by
      have hplace := hplaced.place i
      rwa [zombie] at hplace
    have hclosed := hclosing i
    rw [hexited] at hclosed
    exact h.of_update rfl fun _ => ProcSlot.Closed.clean hclosed

theorem clean_step (h : CleanSlots s) (hclosing : ClosingOk s) (hplaced : Placed s)
    (hstep : KillsLive s a s') : CleanSlots s' := by
  have hnot : ∀ {x y : Procstate}, x = y → y ≠ .unused → x = .unused → False := by
    rintro x y rfl hy rfl
    exact hy rfl
  cases does_of_step hstep.step with
  | fork | kill | exit | wait => exact h
  | @advance p memory mapped _ running sec =>
    exact sec.clean h hclosing hplaced running fun pid j => hstep.live p memory mapped pid j rfl
  | resume | dispatch | yield | sleep | wake => exact h.of_update rfl fun hno => nomatch hno
  | fault running | other running =>
    exact h.of_update rfl fun hno => (hnot running (by decide) hno).elim

/-- The slot a `fork` takes is as it was left. -/
theorem killed_of_born (h : CleanSlots s) (hdoes : Does s a s')
    (hunused : (s.slots j).state = .unused) (hused : (s'.slots j).state = .used) :
    (s'.slots j).killed = false := by
  have hne : ∀ {x : Procstate}, (s'.slots j).state = x → x = .used := fun hx => hx.symm.trans hused
  cases hdoes.slotMove j with
  | alloc actor at_ free ne state parent start killed => exact killed.trans (h j hunused).killed
  | same state | adopt actor at_ running lock state | give actor at_ child state =>
    cases hunused.symm.trans (hne state)
  | wake sleeping => cases hunused.symm.trans sleeping
  | own actor alive =>
    rw [hunused] at alive
    cases alive
  | fail free state | ready actor at_ running state | die actor at_ running state
  | reap actor at_ child zombie state => cases hne state

/-! ### `kill` -/

theorem killOk_of_live {memory mapped : Bool} {pid : Int32} {i : ℕ}
    (hstep : KillsLive s (.advance p memory mapped) s') (hpc : s.pc p = .kill pid i) :
    KillOk s p pid i s' := by
  cases does_of_step hstep.step with
  | advance running sec =>
    cases sec with
    | @killNext pid' j at_ other =>
      refine ⟨fun _ hne => absurd rfl hne, fun hout => ?_, fun hout => ?_⟩
      · simp at hout
      · simp at hout
    | killNone at_ =>
      refine ⟨fun _ hne => absurd rfl hne, fun _ hzero => ?_, fun _ _ => ⟨?_, rfl⟩⟩
      · simp [ret] at hzero
      · simp [ret]
    | @kill pid' j at_ found =>
      obtain ⟨rfl, rfl⟩ := Pc.kill.inj (hpc.symm.trans at_)
      have hlive := hstep.live p memory mapped _ j rfl at_ found
      refine ⟨fun j' hne => ?_, fun _ _ => ⟨j, rfl, hlive, found⟩, fun _ hno => ?_⟩
      · by_cases hj : j' = j
        · subst hj
          exact ⟨hlive, found⟩
        · exact absurd (update_of_ne hj _ _) hne
      · simp [ret] at hno
    | _ at_ => cases hpc.symm.trans at_

theorem live_of_killOk {memory mapped : Bool} {pid : Int32}
    (hstep : Step s (.advance p memory mapped) s') (hpc : s.pc p = .kill pid j)
    (hfound : (s.slots j).pid = pid) (hok : KillOk s p pid j s') : (s.slots j).state.live := by
  cases does_of_step hstep with
  | advance running sec =>
    cases sec with
    | @killNext pid' j' at_ other =>
      obtain ⟨rfl, hj⟩ := Pc.kill.inj (hpc.symm.trans at_)
      obtain rfl := Fin.ext hj
      exact absurd hfound other
    | killNone at_ all =>
      obtain ⟨rfl, rfl⟩ := Pc.kill.inj (hpc.symm.trans at_)
      exact absurd j.isLt (Nat.not_lt.mpr all)
    | @kill pid' j' at_ found =>
      obtain ⟨i, hi, hlive, -⟩ := hok.success (by simp) (by simp [ret])
      obtain rfl := Fin.ext hi
      exact hlive
    | _ at_ => cases hpc.symm.trans at_

/-! ### Runs -/

theorem cleanSlots_initial : CleanSlots initial := by
  intro j hj
  by_cases hinit : j = Kernel.initproc
  · subst hinit
    simp [initial] at hj
  · simpa [initial, update_of_ne hinit] using ProcSlot.clean_empty

theorem closingOk_initial : ClosingOk initial := fun _ => trivial

theorem slotsOk_of_run {tr : List Act} (h : Run KillsLive initial tr s) :
    Placed s ∧ ClosingOk s ∧ CleanSlots s := by
  refine h.invariant (I := fun s => Placed s ∧ ClosingOk s ∧ CleanSlots s)
    ⟨placed_initial, closingOk_initial, cleanSlots_initial⟩ ?_
  rintro s a s' ⟨hplaced, hclosing, hclean⟩ hstep
  have hdoes := does_of_step hstep.step
  exact ⟨hplaced.step hdoes, closing_step hclosing hdoes,
    clean_step hclean hclosing hplaced hstep⟩

/-- **Slots are recycled clean in the runs in which `kill` finds live processes
only.** -/
theorem run_tidy_iff {tr : List Act} {s : ProcTable} :
    Run Tidy initial tr s ↔ Run KillsLive initial tr s := by
  constructor
  · intro h
    refine h.mono fun {s a s'} htidy => ⟨htidy.step, ?_⟩
    rintro p memory mapped pid j rfl hpc hfound
    exact live_of_killOk htidy.step hpc hfound (htidy.kill p memory mapped pid j rfl hpc)
  · intro h
    induction h with
    | nil => exact .nil _
    | snoc hrun hlast ih =>
      obtain ⟨hplaced, hclosing, hclean⟩ := slotsOk_of_run hrun
      refine ih.snoc ⟨hlast.step, clean_step hclean hclosing hplaced hlast, fun j => ?_, ?_⟩
      · exact killed_of_born hclean (does_of_step hlast.step)
      · rintro p memory mapped pid i rfl hpc
        exact killOk_of_live hlast hpc

/-- **`kill(0)` marks a slot that is not in use**, and the next process in it is
killed before it has run. -/
theorem kill_zero_marks_slot :
    (∃ s, Run Step initial [.sched 0, .call 0 (.kill 0), .advance 0 true true,
        .advance 0 true true] s ∧
      (s.slots 1).state = .unused ∧ (s.slots 1).killed = true ∧ s.a0 0 = 0) ∧
    ∃ s, Run Step initial [.sched 0, .call 0 (.kill 0), .advance 0 true true,
        .advance 0 true true, .call 0 .fork, .advance 0 true true, .advance 0 true true,
        .advance 0 true true, .advance 0 true true] s ∧
      (s.slots 1).state = .runnable ∧ (s.slots 1).pid = 2 ∧ (s.slots 1).killed = true := by
  constructor
  · obtain ⟨s, hrun, hv⟩ := exists_run
      (g := fun s => ((s.slots 1).state, (s.slots 1).killed, s.a0 0)) (v := (.unused, true, 0))
      [.sched 0, .call 0 (.kill 0), .advance 0 true true, .advance 0 true true]
      (by decide +kernel)
    obtain ⟨hstate, hv⟩ := Prod.mk.inj hv
    exact ⟨s, hrun, hstate, Prod.mk.inj hv⟩
  · obtain ⟨s, hrun, hv⟩ := exists_run
      (g := fun s => ((s.slots 1).state, (s.slots 1).pid, (s.slots 1).killed))
      (v := (.runnable, 2, true))
      [.sched 0, .call 0 (.kill 0), .advance 0 true true, .advance 0 true true, .call 0 .fork,
        .advance 0 true true, .advance 0 true true, .advance 0 true true, .advance 0 true true]
      (by decide +kernel)
    obtain ⟨hstate, hv⟩ := Prod.mk.inj hv
    exact ⟨s, hrun, hstate, Prod.mk.inj hv⟩

end ProcTable

end Xv6Zig
