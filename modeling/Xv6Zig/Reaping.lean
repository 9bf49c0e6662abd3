/-
Xv6Zig/Reaping.lean

Every process that has exited is returned by one `wait`.

`History` relates the table to what has happened so far: who was born to whom, who
called `exit` with which status, and what `wait` returned.  Most steps are quiet,
they touch nothing of this; the six that do not are `fork` when it takes a slot and
when it enters the parent, the call of `exit`, `reparent`, the end of `exit` and the
`wait` that frees the slot.
-/
import Xv6Zig.Family

namespace Xv6Zig

open Lib Function

/-- The argument of the `exit` the process is in. -/
def Pc.status : Pc → Option Int32
  | .exitClose status _ | .exitLock status | .reparent status _ | .exitZombie status => some status
  | .wakeup _ _ k | .asleep k => k.status
  | _ => none

namespace ProcTable

variable {s s' : ProcTable} {a : Act} {p q j : ProcIx}

/-- The process with this number has called `exit`. -/
def Exited (s : ProcTable) (n : ℕ) : Prop := ∃ status, (n, status) ∈ s.exits

/-- **The table and what has happened.** -/
structure History (s : ProcTable) : Prop where
  init : s.number Kernel.initproc = 0
  lt : ∀ {j}, (s.slots j).state ≠ .unused → s.number j < s.forks
  inj : ∀ {i j}, (s.slots i).state ≠ .unused → (s.slots j).state ≠ .unused →
    s.number i = s.number j → i = j
  births_nodup : (s.births.map Birth.child).Nodup
  births_lt : ∀ b ∈ s.births, b.child < s.forks
  born : ∀ {j}, (s.slots j).state ≠ .unused → j ≠ Kernel.initproc →
    ∃ b ∈ s.births, b.child = s.number j ∧ b.pid = (s.slots j).pid ∧
      (∀ q, (s.slots j).parent = some q →
        b.forker = s.number q ∨ q = Kernel.initproc ∧ s.Exited b.forker) ∧
      (∀ p pid, s.pc p = .forkParent j pid → b.forker = s.number p)
  exits_nodup : (s.exits.map Prod.fst).Nodup
  exits_lt : ∀ e ∈ s.exits, e.1 < s.forks
  exiting : ∀ {j status}, (s.slots j).state ≠ .unused → (s.pc j).status = some status →
    (s.number j, status) ∈ s.exits
  zombie : ∀ {j}, (s.slots j).state = .zombie → (s.number j, (s.slots j).xstate) ∈ s.exits
  staying : ∀ {j}, (s.slots j).state ≠ .unused → (s.slots j).state ≠ .zombie →
    (s.pc j).status = none → ¬ s.Exited (s.number j)
  accounted : ∀ e ∈ s.exits, (∃ r ∈ s.reaps, r.child = e.1) ∨
    ∃ j, (s.slots j).state ≠ .unused ∧ s.number j = e.1
  once : (s.reaps.map Reap.child).Nodup
  gone : ∀ r ∈ s.reaps, ∀ {j}, (s.slots j).state ≠ .unused → s.number j ≠ r.child
  status : ∀ r ∈ s.reaps, ∃ status, (r.child, status) ∈ s.exits ∧ ∀ x ∈ r.status, x = status
  toParent : ∀ r ∈ s.reaps, ∃ b ∈ s.births, b.child = r.child ∧ b.pid = r.pid ∧
    (r.reaper = b.forker ∨ r.reaper = 0 ∧ s.Exited b.forker)

/-- What is not in the source. -/
structure SameGhost (s s' : ProcTable) : Prop where
  number : s'.number = s.number
  forks : s'.forks = s.forks
  births : s'.births = s.births
  exits : s'.exits = s.exits
  reaps : s'.reaps = s.reaps

/-- A step after which the same is known: it may give a process a new parent, as
`fork` and `reparent` do, and turn a process that exits into a zombie. -/
structure Quiet (s s' : ProcTable) : Prop extends SameGhost s s' where
  unused : ∀ j, (s'.slots j).state = .unused ↔ (s.slots j).state = .unused
  pid : ∀ j, (s.slots j).state ≠ .unused → (s'.slots j).pid = (s.slots j).pid
  parent : ∀ {j q}, (s.slots j).state ≠ .unused → (s'.slots j).parent = some q →
    (s.slots j).parent = some q ∨ (∃ pid, s.pc q = .forkParent j pid) ∨
      (∃ p, (s.slots j).parent = some p ∧ q = Kernel.initproc ∧ s.Exited (s.number p))
  zombie : ∀ {j}, (s'.slots j).state = .zombie →
    ((s.slots j).state = .zombie ∧ (s'.slots j).xstate = (s.slots j).xstate) ∨
      (s.pc j).status = some (s'.slots j).xstate
  exiting : ∀ {j status}, (s'.pc j).status = some status → (s.pc j).status = some status
  staying : ∀ {j}, (s'.slots j).state ≠ .zombie → (s'.pc j).status = none →
    (s.slots j).state ≠ .zombie ∧ (s.pc j).status = none
  forkParent : ∀ {p j pid}, s'.pc p = .forkParent j pid → s.pc p = .forkParent j pid

theorem History.quiet (h : History s) (hq : Quiet s s') : History s' := by
  have hused : ∀ {j}, (s'.slots j).state ≠ .unused → (s.slots j).state ≠ .unused :=
    fun {j} => mt (hq.unused j).mpr
  -- the new state is the old one but for the slots and the places
  obtain ⟨slots, nextpid, lock, pc, a0, number, forks, births, exits, reaps⟩ := s'
  obtain ⟨rfl, rfl, rfl, rfl, rfl⟩ := hq.toSameGhost
  refine { h with
    lt := fun hj => h.lt (hused hj), inj := fun hi hj => h.inj (hused hi) (hused hj)
    born := ?born, exiting := fun hj hstatus => h.exiting (hused hj) (hq.exiting hstatus)
    zombie := ?zombie, staying := ?staying, accounted := ?accounted
    gone := fun r hr _ hj => h.gone r hr (hused hj) }
  case born =>
    intro j hj hinit
    obtain ⟨b, hb, hchild, hpid, hparent, hfork⟩ := h.born (hused hj) hinit
    refine ⟨b, hb, hchild, hpid.trans (hq.pid j (hused hj)).symm, fun q hparent' => ?_,
      fun p pid hpc => hfork p pid (hq.forkParent hpc)⟩
    · rcases hq.parent (hused hj) hparent' with hold | ⟨pid, hpc⟩ | ⟨p, hold, rfl, hexit⟩
      · exact hparent q hold
      · exact .inl (hfork q pid hpc)
      · rcases hparent p hold with heq | ⟨-, hforker⟩
        · exact .inr ⟨rfl, by rwa [heq]⟩
        · exact .inr ⟨rfl, hforker⟩
  case zombie =>
    intro j hj
    rcases hq.zombie hj with ⟨hold, hxstate⟩ | hstatus
    · rw [hxstate]
      exact h.zombie hold
    · exact h.exiting (hused (by rw [hj]; decide)) hstatus
  case staying =>
    intro j hj hz hstatus
    obtain ⟨hz', hstatus'⟩ := hq.staying hz hstatus
    exact h.staying (hused hj) hz' hstatus'
  case accounted =>
    intro e he
    rcases h.accounted e he with hr | ⟨j, hj, hn⟩
    · exact .inl hr
    · exact .inr ⟨j, mt (hq.unused j).mp hj, hn⟩

/-! ### Quiet steps -/

/-- A step that writes one slot and moves one process. -/
theorem Quiet.of_update {i : ProcIx} {x : ProcSlot} {k : Pc} (hghost : SameGhost s s')
    (hslots : s'.slots = update s.slots i x) (hpc : s'.pc = update s.pc p k)
    (hunused : x.state = .unused ↔ (s.slots i).state = .unused)
    (hpid : (s.slots i).state ≠ .unused → x.pid = (s.slots i).pid)
    (hparent : ∀ q, (s.slots i).state ≠ .unused → x.parent = some q →
      (s.slots i).parent = some q ∨ (∃ pid, s.pc q = .forkParent i pid) ∨
        (∃ p, (s.slots i).parent = some p ∧ q = Kernel.initproc ∧ s.Exited (s.number p)))
    (hzombie : x.state = .zombie ↔ (s.slots i).state = .zombie)
    (hxstate : x.xstate = (s.slots i).xstate ∨ (s.slots i).state ≠ .zombie)
    (hstatus : k.status = (s.pc p).status)
    (hfork : ∀ j pid, k = .forkParent j pid → s.pc p = .forkParent j pid) : Quiet s s' := by
  have hslot : ∀ j, (j = i ∧ s'.slots j = x) ∨ s'.slots j = s.slots j := by
    intro j
    by_cases hj : j = i
    · subst hj
      exact .inl ⟨rfl, by rw [hslots, update_self]⟩
    · exact .inr (by rw [hslots, update_of_ne hj])
  have hplace : ∀ q, (q = p ∧ s'.pc q = k) ∨ s'.pc q = s.pc q := by
    intro q
    by_cases hq : q = p
    · subst hq
      exact .inl ⟨rfl, by rw [hpc, update_self]⟩
    · exact .inr (by rw [hpc, update_of_ne hq])
  have hsame : ∀ j, (s'.pc j).status = (s.pc j).status := by
    intro j
    rcases hplace j with ⟨rfl, heq⟩ | heq
    · rw [heq]; exact hstatus
    · rw [heq]
  have hzombies : ∀ j, (s'.slots j).state = .zombie ↔ (s.slots j).state = .zombie := by
    intro j
    rcases hslot j with ⟨rfl, heq⟩ | heq
    · rw [heq]; exact hzombie
    · rw [heq]
  constructor
  case toSameGhost => exact hghost
  case unused =>
    intro j
    rcases hslot j with ⟨rfl, heq⟩ | heq
    · rw [heq]; exact hunused
    · rw [heq]
  case pid =>
    intro j hj
    rcases hslot j with ⟨rfl, heq⟩ | heq
    · rw [heq]; exact hpid hj
    · rw [heq]
  case parent =>
    intro j q hj hq
    rcases hslot j with ⟨rfl, heq⟩ | heq
    · rw [heq] at hq; exact hparent q hj hq
    · rw [heq] at hq; exact .inl hq
  case zombie =>
    intro j hj
    have hold := (hzombies j).mp hj
    refine .inl ⟨hold, ?_⟩
    rcases hslot j with ⟨rfl, heq⟩ | heq
    · rw [heq]; exact hxstate.resolve_right fun hno => hno hold
    · rw [heq]
  case exiting =>
    intro j status hj
    exact (hsame j).symm.trans hj
  case staying =>
    intro j hj hnone
    exact ⟨mt (hzombies j).mpr hj, (hsame j).symm.trans hnone⟩
  case forkParent =>
    intro q j pid hq
    rcases hplace q with ⟨rfl, heq⟩ | heq
    · exact hfork j pid (heq.symm.trans hq)
    · exact heq.symm.trans hq

/-- A step that leaves states, parents and pids alone. -/
theorem Quiet.of_move {i : ProcIx} {x : ProcSlot} {k : Pc} (hghost : SameGhost s s')
    (hslots : s'.slots = update s.slots i x) (hpc : s'.pc = update s.pc p k)
    (hunused : x.state = .unused ↔ (s.slots i).state = .unused)
    (hzombie : x.state = .zombie ↔ (s.slots i).state = .zombie)
    (hpid : x.pid = (s.slots i).pid) (hparent : x.parent = (s.slots i).parent)
    (hxstate : x.xstate = (s.slots i).xstate) (hstatus : k.status = (s.pc p).status)
    (hfork : ∀ j pid, k = .forkParent j pid → s.pc p = .forkParent j pid) : Quiet s s' :=
  .of_update hghost hslots hpc hunused (fun _ => hpid) (fun _ _ hq => .inl (hparent.symm.trans hq))
    hzombie (.inl hxstate) hstatus hfork

theorem Quiet.of_goto {k : Pc} (hghost : SameGhost s s') (hslots : s'.slots = s.slots)
    (hpc : s'.pc = update s.pc p k) (hstatus : k.status = (s.pc p).status)
    (hfork : ∀ j pid, k = .forkParent j pid → s.pc p = .forkParent j pid) : Quiet s s' :=
  .of_move (i := p) hghost (hslots.trans (update_eq_self p s.slots).symm) hpc Iff.rfl
    Iff.rfl rfl rfl rfl hstatus hfork

/-! ### The other steps -/

theorem Quiet.exitZombie {status : Int32} (hrun : (s.slots p).state = .running)
    (hat : s.pc p = .exitZombie status) :
    Quiet s ((s.setSlot p { s.slots p with xstate := status, state := .zombie }).release.goto p
      .exited) := by
  constructor
  case toSameGhost => exact ⟨rfl, rfl, rfl, rfl, rfl⟩
  case unused =>
    intro j
    by_cases hj : j = p
    · subst hj
      simp [hrun]
    · simp [update_of_ne hj]
  case pid =>
    intro j _
    by_cases hj : j = p
    · subst hj
      simp
    · simp [update_of_ne hj]
  case parent =>
    intro j q _ hq
    by_cases hj : j = p
    · subst hj
      exact .inl (by simpa using hq)
    · exact .inl (by simpa [update_of_ne hj] using hq)
  case zombie =>
    intro j hz
    by_cases hj : j = p
    · subst hj
      exact .inr (by simp [hat, Pc.status])
    · exact .inl (by simpa [update_of_ne hj] using hz)
  case exiting =>
    intro j st hst
    by_cases hj : j = p
    · subst hj
      simp [Pc.status] at hst
    · simpa [update_of_ne hj] using hst
  case staying =>
    intro j hz hst
    by_cases hj : j = p
    · subst hj
      simp at hz
    · exact ⟨by simpa [update_of_ne hj] using hz, by simpa [update_of_ne hj] using hst⟩
  case forkParent =>
    intro q j pid hq
    by_cases hqp : q = p
    · subst hqp
      simp at hq
    · simpa [update_of_ne hqp] using hq

theorem nodup_map_concat {α β : Type*} {f : α → β} {l : List α} {x : α} (h : (l.map f).Nodup)
    (hx : ∀ y ∈ l, f y ≠ f x) : ((l ++ [x]).map f).Nodup := by
  rw [List.map_append, List.map_singleton, ← List.concat_eq_append]
  refine h.concat fun hmem => ?_
  obtain ⟨y, hy, heq⟩ := List.mem_map.mp hmem
  exact hx y hy heq

theorem History.alloc (h : History s) (hfam : Family s) (hrun : (s.slots p).state = .running)
    {np : ProcIx} (hat : s.pc p = .allocproc np) (hfree : (s.slots np).state = .unused) :
    History (((s.allocpid.bear p np s.nextpid).setSlot np
      (ProcSlot.inherit { s.slots np with pid := s.nextpid, state := .used } (s.slots p))).goto p
        (.forkParent np s.nextpid)) := by
  have hp : np ≠ p := ne_of_state hrun hfree (by decide)
  have hinit : np ≠ Kernel.initproc := by
    rintro rfl
    have halive := hfam.init
    rw [hfree] at halive
    cases halive
  generalize hx : ProcSlot.inherit { s.slots np with pid := s.nextpid, state := .used }
    (s.slots p) = x
  have hnumber : ∀ {j}, j ≠ np → update s.number np s.forks j = s.number j :=
    fun hj => update_of_ne hj _ _
  have hnew : update s.number np s.forks np = s.forks := update_self ..
  have hslot : ∀ {j}, j ≠ np → update s.slots np x j = s.slots j := fun hj => update_of_ne hj _ _
  have hused : ∀ {j}, (update s.slots np x j).state ≠ .unused → j ≠ np →
      (s.slots j).state ≠ .unused := fun hj hne => hslot hne ▸ hj
  have hpc : ∀ {j k}, update (update s.pc np .out) p (.forkParent np s.nextpid) j = k →
      (j = p ∧ k = .forkParent np s.nextpid) ∨ (j = np ∧ k = .out) ∨
        (j ≠ np ∧ j ≠ p ∧ s.pc j = k) := by
    rintro j k rfl
    by_cases hjp : j = p
    · exact .inl ⟨hjp, by rw [hjp, update_self]⟩
    · rw [update_of_ne hjp]
      by_cases hjn : j = np
      · exact .inr (.inl ⟨hjn, by rw [hjn, update_self]⟩)
      · exact .inr (.inr ⟨hjn, hjp, (update_of_ne hjn _ _).symm⟩)
  refine { h with
    init := (hnumber hinit.symm).trans h.init, lt := ?lt, inj := ?inj
    births_nodup := ?births_nodup, births_lt := ?births_lt, born := ?born
    exits_lt := fun e he => Nat.lt_succ_of_lt (h.exits_lt e he), exiting := ?exiting
    zombie := ?zombie, staying := ?staying, accounted := ?accounted, gone := ?gone
    toParent := ?toParent }
  case lt =>
    intro j hj
    show update s.number np s.forks j < s.forks + 1
    by_cases hne : j = np
    · rw [hne, hnew]
      exact Nat.lt_succ_self _
    · rw [hnumber hne]
      exact Nat.lt_succ_of_lt (h.lt (hused hj hne))
  case inj =>
    intro i j hi hj heq
    change update s.number np s.forks i = update s.number np s.forks j at heq
    by_cases hin : i = np
    · by_cases hjn : j = np
      · exact hin.trans hjn.symm
      · rw [hin, hnew, hnumber hjn] at heq
        exact absurd heq (h.lt (hused hj hjn)).ne'
    · by_cases hjn : j = np
      · rw [hjn, hnew, hnumber hin] at heq
        exact absurd heq (h.lt (hused hi hin)).ne
      · rw [hnumber hin, hnumber hjn] at heq
        exact h.inj (hused hi hin) (hused hj hjn) heq
  case births_nodup =>
    exact nodup_map_concat h.births_nodup fun b hb => (h.births_lt b hb).ne
  case births_lt =>
    refine List.forall_mem_append.mpr ⟨fun b hb => Nat.lt_succ_of_lt (h.births_lt b hb), ?_⟩
    exact List.forall_mem_singleton.mpr (Nat.lt_succ_self _)
  case born =>
    intro j hj hne
    by_cases hjn : j = np
    · subst hjn
      refine ⟨_, List.mem_append_right _ (List.mem_singleton_self _), hnew.symm,
        by simp [← hx, ProcSlot.inherit], fun q hq => ?_, fun q pid hq => ?_⟩
      · simp [← hx, ProcSlot.inherit, hfam.unborn hfree] at hq
      · rcases hpc hq with ⟨rfl, -⟩ | ⟨-, hout⟩ | ⟨-, -, hq⟩
        · exact (hnumber hp.symm).symm
        · cases hout
        · have hno : (s.slots j).state = .used := hfam.placed.used (q := q) (by rw [hq]; rfl)
          cases hfree.symm.trans hno
    · obtain ⟨b, hb, hchild, hpid, hparent, hfork⟩ := h.born (hused hj hjn) hne
      refine ⟨b, List.mem_append_left _ hb, hchild.trans (hnumber hjn).symm,
        by simpa [hjn] using hpid, fun q hq => ?_, fun q pid hq => ?_⟩
      · have hold : (s.slots j).parent = some q := by simpa [hjn] using hq
        have hqn : q ≠ np := by
          rintro rfl
          have halive := hfam.alive hold
          rw [hfree] at halive
          cases halive
        show b.forker = update s.number np s.forks q ∨ _
        rw [hnumber hqn]
        exact hparent q hold
      · rcases hpc hq with ⟨-, hfork⟩ | ⟨-, hout⟩ | ⟨hqn, -, hq⟩
        · exact absurd (Pc.forkParent.inj hfork).1 hjn
        · cases hout
        · exact (hfork q pid hq).trans (hnumber hqn).symm
  case exiting =>
    intro j status hj hst
    have hjp : j ≠ p := by
      rintro rfl
      simp [Pc.status] at hst
    have hjn : j ≠ np := by
      rintro rfl
      simp [hp, Pc.status] at hst
    show (update s.number np s.forks j, status) ∈ s.exits
    rw [hnumber hjn]
    exact h.exiting (hused hj hjn) (by simpa [hjp, hjn] using hst)
  case zombie =>
    intro j hz
    have hjn : j ≠ np := by
      rintro rfl
      simp [← hx, ProcSlot.inherit] at hz
    show (update s.number np s.forks j, (update s.slots np x j).xstate) ∈ s.exits
    rw [hnumber hjn, hslot hjn]
    exact h.zombie (hslot hjn ▸ hz)
  case staying =>
    intro j hj hz hst
    show ¬ s.Exited (update s.number np s.forks j)
    by_cases hjn : j = np
    · rw [hjn, hnew]
      rintro ⟨status, hmem⟩
      exact absurd (h.exits_lt _ hmem) (lt_irrefl _)
    · rw [hnumber hjn]
      refine h.staying (hused hj hjn) (hslot hjn ▸ hz) ?_
      by_cases hjp : j = p
      · rw [hjp, hat]
        rfl
      · simpa [hjp, hjn] using hst
  case accounted =>
    intro e he
    rcases h.accounted e he with hr | ⟨j, hj, hn⟩
    · exact .inl hr
    · have hjn : j ≠ np := by
        rintro rfl
        exact hj hfree
      exact .inr ⟨j, by simpa [hjn] using hj, (hnumber hjn).trans hn⟩
  case gone =>
    intro r hr j hj
    show update s.number np s.forks j ≠ r.child
    by_cases hjn : j = np
    · obtain ⟨status, hmem, -⟩ := h.status r hr
      rw [hjn, hnew]
      exact (h.exits_lt _ hmem).ne'
    · rw [hnumber hjn]
      exact h.gone r hr (hused hj hjn)
  case toParent =>
    intro r hr
    obtain ⟨b, hb, hrest⟩ := h.toParent r hr
    exact ⟨b, List.mem_append_left _ hb, hrest⟩

theorem History.exit (h : History s) (hrun : (s.slots p).state = .running) (hout : s.pc p = .out)
    (status : Int32) :
    History ({ s with exits := s.exits ++ [(s.number p, status)] }.goto p
      (.exitClose status 0)) := by
  have hp : (s.slots p).state ≠ .unused := by simp [hrun]
  have hnot : ¬ s.Exited (s.number p) :=
    h.staying hp (by simp [hrun]) (by rw [hout]; rfl)
  have hmem : ∀ {e}, e ∈ s.exits → e ∈ s.exits ++ [(s.number p, status)] :=
    List.mem_append_left _
  refine { h with
    born := ?born, exits_nodup := ?exits_nodup, exits_lt := ?exits_lt, exiting := ?exiting
    zombie := fun hz => hmem (h.zombie hz), staying := ?staying, accounted := ?accounted
    status := ?status, toParent := ?toParent }
  case born =>
    intro j hj hinit
    obtain ⟨b, hb, hchild, hpid, hparent, hfork⟩ := h.born hj hinit
    refine ⟨b, hb, hchild, hpid, fun q hq => ?_, fun q pid hq => ?_⟩
    · exact (hparent q hq).imp_right fun ⟨hinit, st, he⟩ => ⟨hinit, st, hmem he⟩
    · by_cases hqp : q = p
      · simp [hqp] at hq
      · exact hfork q pid (by simpa [hqp] using hq)
  case exits_nodup =>
    refine nodup_map_concat h.exits_nodup fun e he heq => hnot ⟨e.2, ?_⟩
    rw [← show e.1 = s.number p from heq]
    exact he
  case exits_lt =>
    exact List.forall_mem_append.mpr ⟨h.exits_lt, List.forall_mem_singleton.mpr (h.lt hp)⟩
  case exiting =>
    intro j st hj hst
    by_cases hjp : j = p
    · subst hjp
      obtain rfl : status = st := by simpa [Pc.status] using hst
      exact List.mem_append_right _ (List.mem_singleton_self _)
    · exact hmem (h.exiting hj (by simpa [hjp] using hst))
  case staying =>
    intro j hj hz hst
    have hjp : j ≠ p := by
      rintro rfl
      simp [Pc.status] at hst
    rintro ⟨st, he⟩
    rcases List.mem_append.mp he with hold | hnew
    · exact h.staying hj hz (by simpa [hjp] using hst) ⟨st, hold⟩
    · exact hjp (h.inj hj hp (Prod.mk.inj (List.mem_singleton.mp hnew)).1)
  case accounted =>
    refine List.forall_mem_append.mpr ⟨h.accounted, List.forall_mem_singleton.mpr ?_⟩
    exact .inr ⟨p, hp, rfl⟩
  case status =>
    intro r hr
    obtain ⟨st, he, hx⟩ := h.status r hr
    exact ⟨st, hmem he, hx⟩
  case toParent =>
    intro r hr
    obtain ⟨b, hb, hchild, hpid, hwho⟩ := h.toParent r hr
    exact ⟨b, hb, hchild, hpid, hwho.imp_right fun ⟨hinit, st, he⟩ => ⟨hinit, st, hmem he⟩⟩

theorem History.reap (h : History s) (hfam : Family s) (hrun : (s.slots p).state = .running)
    {addr : UInt64} {havekids : Bool} {v : Int32} (hat : s.pc p = .waitScan addr j havekids)
    (hchild : (s.slots j).parent = some p) (hzombie : (s.slots j).state = .zombie) :
    History (((s.note p j addr).setSlot j (s.slots j).freeproc).release.ret p v) := by
  have hj : (s.slots j).state ≠ .unused := by simp [hzombie]
  have hinit : j ≠ Kernel.initproc := by
    rintro rfl
    have halive := hfam.init
    rw [hzombie] at halive
    cases halive
  have hslot : ∀ {i}, i ≠ j → update s.slots j (s.slots j).freeproc i = s.slots i :=
    fun hi => update_of_ne hi _ _
  have hne : ∀ {i}, (update s.slots j (s.slots j).freeproc i).state ≠ .unused → i ≠ j := by
    rintro i hi rfl
    simp [ProcSlot.freeproc] at hi
  have hused : ∀ {i}, (update s.slots j (s.slots j).freeproc i).state ≠ .unused →
      (s.slots i).state ≠ .unused := fun hi => hslot (hne hi) ▸ hi
  refine { h with
    lt := fun hi => h.lt (hused hi), inj := fun hi hk => h.inj (hused hi) (hused hk)
    born := ?born, exiting := ?exiting, zombie := ?zombie, staying := ?staying
    accounted := ?accounted, once := ?once, gone := ?gone, status := ?status
    toParent := ?toParent }
  case born =>
    intro i hi hi'
    obtain ⟨b, hb, hbc, hpid, hparent, hfork⟩ := h.born (hused hi) hi'
    simp only [ret_slots, release_slots, setSlot_slots, note_slots, hslot (hne hi)]
    refine ⟨b, hb, hbc, hpid, hparent, fun q pid hq => ?_⟩
    by_cases hqp : q = p
    · simp [hqp] at hq
    · exact hfork q pid (by simpa [hqp] using hq)
  case exiting =>
    intro i st hi hst
    by_cases hip : i = p
    · simp [hip, Pc.status] at hst
    · exact h.exiting (hused hi) (by simpa [hip] using hst)
  case zombie =>
    intro i hz
    have hi : i ≠ j := hne fun hu => absurd (hz.symm.trans hu) (by decide)
    simp only [ret_slots, release_slots, setSlot_slots, note_slots, hslot hi] at hz ⊢
    exact h.zombie hz
  case staying =>
    intro i hi hz hst
    simp only [ret_slots, release_slots, setSlot_slots, note_slots, hslot (hne hi)] at hz
    refine h.staying (hused hi) hz ?_
    by_cases hip : i = p
    · rw [hip, hat]
      rfl
    · simpa [hip] using hst
  case accounted =>
    intro e he
    rcases h.accounted e he with ⟨r, hr, hc⟩ | ⟨i, hi, hn⟩
    · exact .inl ⟨r, List.mem_append_left _ hr, hc⟩
    · by_cases hij : i = j
      · subst hij
        exact .inl ⟨_, List.mem_append_right _ (List.mem_singleton_self _), hn⟩
      · exact .inr ⟨i, by simpa [hij] using hi, hn⟩
  case once =>
    exact nodup_map_concat h.once fun r hr => (h.gone r hr hj).symm
  case gone =>
    intro r hr i hi
    rcases List.mem_append.mp hr with hold | hnew
    · exact h.gone r hold (hused hi)
    · rw [List.mem_singleton.mp hnew]
      exact fun heq => hne hi (h.inj (hused hi) hj heq)
  case status =>
    refine List.forall_mem_append.mpr ⟨h.status, List.forall_mem_singleton.mpr ?_⟩
    refine ⟨_, h.zombie hzombie, fun x hx => ?_⟩
    simp only at hx
    split_ifs at hx
    · exact (Option.some.inj hx).symm
    · cases hx
  case toParent =>
    refine List.forall_mem_append.mpr ⟨h.toParent, List.forall_mem_singleton.mpr ?_⟩
    obtain ⟨b, hb, hbc, hpid, hparent, -⟩ := h.born hj hinit
    refine ⟨b, hb, hbc, hpid, ?_⟩
    rcases hparent p hchild with heq | ⟨rfl, hexit⟩
    · exact .inl heq.symm
    · exact .inr ⟨h.init, hexit⟩

theorem history_section {mapped : Bool} (h : History s) (hfam : Family s)
    (hsec : Section s p mapped s') (hrun : (s.slots p).state = .running) : History s' := by
  cases hsec with
  | alloc at_ free => exact h.alloc hfam hrun at_ free
  | reap at_ child zombie => exact h.reap hfam hrun at_ child zombie
  | allocNext at_ | allocNone at_ | killNext at_ | killNone at_ | exitLock at_ | reparentNext at_
  | reparentAll at_ | waitLock at_ | waitNext at_ | waitAlive at_ | waitUnmapped at_ | waitNone at_
  | waitMore at_ | wakeNext at_ =>
    exact h.quiet (.of_goto ⟨rfl, rfl, rfl, rfl, rfl⟩ rfl rfl (by rw [at_]; rfl) (by simp))
  | @wakeAll chan i k at_ =>
    refine h.quiet (.of_goto ⟨rfl, rfl, rfl, rfl, rfl⟩ rfl rfl (by rw [at_]; rfl) ?_)
    rintro j pid rfl
    cases hfam.placed.leaves_of_wakeup at_
  | allocFail at_ free =>
    exact h.quiet (.of_update ⟨rfl, rfl, rfl, rfl, rfl⟩ rfl rfl (by simp [free, ProcSlot.freeproc])
      (fun hno => absurd free hno) (fun _ hno => absurd free hno)
      (by simp [free, ProcSlot.freeproc]) (.inr (by simp [free])) (by rw [at_]; rfl) (by simp))
  | forkParent at_ lock =>
    exact h.quiet (.of_update ⟨rfl, rfl, rfl, rfl, rfl⟩ rfl rfl Iff.rfl (fun _ => rfl)
      (fun q _ hq => .inr (.inl ⟨_, Option.some.inj hq ▸ at_⟩)) Iff.rfl (.inl rfl)
      (by rw [at_]; rfl) (by simp))
  | forkReady at_ =>
    have hused := hfam.placed.used (q := p) (by rw [at_]; rfl)
    exact h.quiet (.of_move ⟨rfl, rfl, rfl, rfl, rfl⟩ rfl rfl (by simp [hused]) (by simp [hused])
      rfl rfl rfl (by rw [at_]; rfl) (by simp))
  | @kill pid i at_ found =>
    have hstate : ∀ y : Procstate, y ≠ .sleeping → y ≠ .runnable →
        ((s.slots i).kill.state = y ↔ (s.slots i).state = y) := by
      intro y hy hy'
      unfold ProcSlot.kill
      split_ifs with hsleep
      · simp [hsleep, hy.symm, hy'.symm]
      · exact Iff.rfl
    exact h.quiet (.of_move ⟨rfl, rfl, rfl, rfl, rfl⟩ rfl rfl
      (hstate _ (by decide) (by decide)) (hstate _ (by decide) (by decide)) rfl rfl rfl
      (by rw [at_]; rfl) (by simp))
  | exitClose at_ | exitCwd at_ =>
    exact h.quiet (.of_move ⟨rfl, rfl, rfl, rfl, rfl⟩ rfl rfl Iff.rfl Iff.rfl rfl rfl rfl
      (by rw [at_]; rfl) (by simp))
  | @reparent status i at_ child =>
    -- the old parent is in `exit`
    have hexit : s.Exited (s.number p) := ⟨status, h.exiting (by simp [hrun]) (by rw [at_]; rfl)⟩
    exact h.quiet (.of_update ⟨rfl, rfl, rfl, rfl, rfl⟩ rfl rfl Iff.rfl (fun _ => rfl)
      (fun q _ hq => .inr (.inr ⟨p, child, (Option.some.inj hq).symm, hexit⟩)) Iff.rfl (.inl rfl)
      (by rw [at_]; rfl) (by simp))
  | exitZombie at_ => exact h.quiet (.exitZombie hrun at_)
  | waitSleep at_ =>
    exact h.quiet (.of_move ⟨rfl, rfl, rfl, rfl, rfl⟩ rfl rfl (by simp [hrun]) (by simp [hrun])
      rfl rfl rfl (by rw [at_]; rfl) (by simp))
  | wake at_ ne sleeping same =>
    exact h.quiet (.of_move ⟨rfl, rfl, rfl, rfl, rfl⟩ rfl rfl (by simp [sleeping])
      (by simp [sleeping]) rfl rfl rfl (by rw [at_]; rfl) (by simp))

theorem history_step (h : History s) (hfam : Family s) (hdoes : Does s a s') : History s' := by
  cases hdoes with
  | fork running out | kill running out | wait running out =>
    exact h.quiet (.of_goto ⟨rfl, rfl, rfl, rfl, rfl⟩ rfl rfl (by rw [out]; rfl) (by simp))
  | @exit p status running out ne => exact h.exit running out status
  | advance running sec => exact history_section h hfam sec running
  | @resume p k ready at_ =>
    refine h.quiet (.of_move ⟨rfl, rfl, rfl, rfl, rfl⟩ rfl rfl (by simp [ready]) (by simp [ready])
      rfl rfl rfl (by rw [at_]; rfl) ?_)
    rintro j pid rfl
    cases hfam.placed.rests_of_asleep at_
  | sleep running sleeps =>
    exact h.quiet (.of_move ⟨rfl, rfl, rfl, rfl, rfl⟩ rfl rfl (by simp [running])
      (by simp [running]) rfl rfl rfl rfl (by simp))
  | @dispatch p ready awake =>
    exact h.quiet (.of_move ⟨rfl, rfl, rfl, rfl, rfl⟩ rfl (update_eq_self p s.pc).symm
      (by simp [ready]) (by simp [ready]) rfl rfl rfl rfl (fun _ _ hpc => hpc))
  | @yield p running lock | @fault p running out | @other p _ _ _ _ _ running out =>
    exact h.quiet (.of_move ⟨rfl, rfl, rfl, rfl, rfl⟩ rfl (update_eq_self p s.pc).symm
      (by simp [running]) (by simp [running]) rfl rfl rfl rfl (fun _ _ hpc => hpc))
  | @wake j n sleeping same =>
    exact h.quiet (.of_move ⟨rfl, rfl, rfl, rfl, rfl⟩ rfl (update_eq_self j s.pc).symm
      (by simp [sleeping]) (by simp [sleeping]) rfl rfl rfl rfl (fun _ _ hpc => hpc))

theorem history_initial : History initial := by
  have hone : ∀ {j}, (initial.slots j).state ≠ .unused → j = Kernel.initproc := by
    intro j hj
    by_contra hne
    simp [initial, update_of_ne hne, ProcSlot.empty] at hj
  constructor
  case init => rfl
  case lt => exact fun _ => Nat.one_pos
  case inj => exact fun hi hj _ => (hone hi).trans (hone hj).symm
  case births_nodup => exact List.nodup_nil
  case births_lt => exact fun b hb => absurd hb (List.not_mem_nil)
  case born => exact fun hj hne => absurd (hone hj) hne
  case exits_nodup => exact List.nodup_nil
  case exits_lt => exact fun e he => absurd he (List.not_mem_nil)
  case exiting => rintro _ _ _ ⟨⟩
  case zombie =>
    intro j hz
    obtain rfl := hone (j := j) (by simp [hz])
    simp [initial] at hz
  case staying =>
    rintro _ _ _ _ ⟨_, he⟩
    exact absurd he List.not_mem_nil
  case accounted => exact fun e he => absurd he (List.not_mem_nil)
  case once => exact List.nodup_nil
  case gone => exact fun r hr => absurd hr (List.not_mem_nil)
  case status => exact fun r hr => absurd hr (List.not_mem_nil)
  case toParent => exact fun r hr => absurd hr (List.not_mem_nil)

theorem Reachable.history (h : Reachable s) : Family s ∧ History s := by
  obtain ⟨tr, hrun⟩ := h
  refine hrun.invariant (I := fun s => Family s ∧ History s) ⟨family_initial, history_initial⟩ ?_
  rintro s a s' ⟨hfam, hhist⟩ hstep
  have hdoes := does_of_step hstep
  exact ⟨hfam.step hdoes, history_step hhist hfam hdoes⟩

/-! ### What `wait` returns -/

/-- Each process that has called `exit` is in the table still, or one `wait` has
returned it, with its pid and its status, to the process that forked it or to the
first one. -/
structure ReapedOnce (s : ProcTable) : Prop where
  births : (s.births.map Birth.child).Nodup
  exits : (s.exits.map Prod.fst).Nodup
  once : (s.reaps.map Reap.child).Nodup
  gone : ∀ r ∈ s.reaps, ∀ j, (s.slots j).state ≠ .unused → s.number j ≠ r.child
  status : ∀ r ∈ s.reaps, ∃ status, (r.child, status) ∈ s.exits ∧ ∀ x ∈ r.status, x = status
  toParent : ∀ r ∈ s.reaps, ∃ b ∈ s.births, b.child = r.child ∧ b.pid = r.pid ∧
    (r.reaper = b.forker ∨ r.reaper = s.number Kernel.initproc ∧ s.Exited b.forker)
  kept : ∀ e ∈ s.exits, (∃ r ∈ s.reaps, r.child = e.1) ∨
    ∃ j, s.number j = e.1 ∧ (((s.slots j).state = .zombie ∧ (s.slots j).xstate = e.2) ∨
      ((s.slots j).state.alive = true ∧ (s.pc j).status = some e.2))

theorem History.reapedOnce (h : History s) (hplaced : Placed s) : ReapedOnce s := by
  refine ⟨h.births_nodup, h.exits_nodup, h.once, fun r hr j => h.gone r hr, h.status, ?_, ?_⟩
  · intro r hr
    rw [h.init]
    exact h.toParent r hr
  · intro e he
    refine (h.accounted e he).imp_right ?_
    rintro ⟨j, hj, hn⟩
    have hkey : ∀ {st}, (s.number j, st) ∈ s.exits → st = e.2 := by
      intro st hst
      have heq := List.inj_on_of_nodup_map h.exits_nodup hst he hn
      rw [← heq]
    have hexit : s.Exited (s.number j) := ⟨e.2, by rw [hn]; exact he⟩
    refine ⟨j, hn, ?_⟩
    by_cases hz : (s.slots j).state = .zombie
    · exact .inl ⟨hz, hkey (h.zombie hz)⟩
    · right
      have hsome : ∃ st, (s.pc j).status = some st :=
        Option.ne_none_iff_exists'.mp fun hnone => h.staying hj hz hnone hexit
      obtain ⟨st, hst⟩ := hsome
      refine ⟨?_, by rw [hst, hkey (h.exiting hj hst)]⟩
      cases hstate : (s.slots j).state with
      | sleeping | runnable | running => rfl
      | unused => exact absurd hstate hj
      | zombie => exact absurd hstate hz
      | used =>
        have hplace := hplaced.place j
        rw [hstate] at hplace
        rw [show s.pc j = .out from hplace] at hst
        cases hst

/-- What a critical section of `wait` does: it returns a process, or -1 for one of
three reasons, or it goes on; it does not go to sleep while there is a zombie. -/
structure WaitOk (s : ProcTable) (p : ProcIx) (mapped : Bool) (s' : ProcTable) : Prop where
  grows : s'.reaps = s.reaps ∨ ∃ r, s'.reaps = s.reaps ++ [r] ∧ r.reaper = s.number p ∧
    s'.pc p = .out ∧ s'.a0 p = r.pid
  fails : ∀ addr i havekids, s.pc p = .waitScan addr i havekids → s'.pc p = .out →
    s'.reaps = s.reaps → s'.a0 p = -1 ∧
      ((∀ j, (s.slots j).parent ≠ some p) ∨ (s.slots p).killed = true ∨
        (addr ≠ 0 ∧ mapped = false ∧ s'.slots = s.slots ∧
          ∃ z, (s.slots z).parent = some p ∧ (s.slots z).state = .zombie))
  sleeps : ∀ addr, s'.pc p = .waitSleep addr →
    ∀ j, (s.slots j).parent = some p → (s.slots j).state ≠ .zombie

theorem Section.waitOk {mapped : Bool} (hsec : Section s p mapped s') (hfam : Family s) :
    WaitOk s p mapped s' := by
  have hk := hfam.knows p
  cases hsec with
  | @waitUnmapped addr j havekids at_ child zombie bad =>
    refine ⟨.inl rfl, fun addr' i' havekids' hpc _ _ => ⟨by simp [ret], ?_⟩, fun _ hno => ?_⟩
    · obtain ⟨rfl, -, -⟩ := Pc.waitScan.inj (at_.symm.trans hpc)
      exact .inr (.inr ⟨bad.1, bad.2, rfl, j, child, zombie⟩)
    · simp at hno
  | reap at_ child zombie =>
    refine ⟨.inr ⟨_, rfl, rfl, by simp, by simp [ret]⟩, fun _ _ _ _ _ hsame => ?_, fun _ hno => ?_⟩
    · exact absurd hsame (by simp [ret, release, setSlot, note])
    · simp at hno
  | @waitNone addr i havekids at_ all why =>
    rw [at_] at hk
    refine ⟨.inl rfl, fun _ _ _ _ _ _ => ⟨by simp [ret], ?_⟩, fun _ hno => ?_⟩
    · rcases why with hno | hkilled
      · refine .inl fun j hchild => ?_
        have hsome := hk.2.mpr ⟨j, lt_of_lt_of_le j.isLt all, hchild⟩
        rw [hno] at hsome
        cases hsome
      · exact .inr (.inl hkilled)
    · simp at hno
  | @waitMore addr i havekids at_ all kids =>
    rw [at_] at hk
    refine ⟨.inl rfl, fun _ _ _ _ hout => ?_, fun _ _ j hchild => ?_⟩
    · simp at hout
    · exact hk.1 j (lt_of_lt_of_le j.isLt all) hchild
  | waitNext at_ | waitAlive at_ =>
    refine ⟨.inl rfl, fun _ _ _ _ hout => ?_, fun _ hno => ?_⟩
    · simp at hout
    · simp at hno
  | @wakeAll chan i k at_ =>
    have hleaves := hfam.placed.leaves_of_wakeup at_
    refine ⟨.inl rfl, (fun _ _ _ hpc => nomatch at_.symm.trans hpc), fun addr hno => ?_⟩
    rw [goto_pc, update_self] at hno
    rw [hno] at hleaves
    cases hleaves
  | allocNext at_ | allocNone at_ | allocFail at_ | alloc at_ | forkParent at_ | forkReady at_
  | killNext at_ | killNone at_ | kill at_ | exitClose at_ | exitCwd at_ | exitLock at_
  | reparentNext at_ | reparent at_ | reparentAll at_ | exitZombie at_ | waitLock at_
  | waitSleep at_ | wakeNext at_ | wake at_ =>
    refine ⟨.inl rfl, (fun _ _ _ hpc => nomatch at_.symm.trans hpc), fun _ hno => ?_⟩
    simp at hno

theorem step_waitScan (hrun : (s.slots q).state = .running) {addr : UInt64} {j : ProcIx}
    {havekids : Bool} (hpc : s.pc q = .waitScan addr j havekids) :
    Step s (.advance q true true)
      (if (s.slots j).parent = some q then
        if (s.slots j).state = .zombie then
          ((s.note q j addr).setSlot j (s.slots j).freeproc).release.ret q (s.slots j).pid
        else s.goto q (.waitScan addr (j + 1) true)
      else s.goto q (.waitScan addr (j + 1) havekids)) := by
  unfold Step next
  simp only [hrun, if_true]
  unfold advance
  simp only [hpc, j.isLt, dite_true, Fin.eta, Bool.true_eq_false, and_false, if_false]
  split_ifs <;> rfl

/-- The loop of `wait` ends with a zombie, if there is one. -/
theorem scan_reaps (m : ℕ) (hfam : Family s) (hrun : (s.slots q).state = .running) {addr : UInt64}
    {i : ℕ} {havekids : Bool} (hpc : s.pc q = .waitScan addr i havekids) (hm : nProc ≤ i + m)
    {z : ProcIx} (hchild : (s.slots z).parent = some q) (hzombie : (s.slots z).state = .zombie) :
    ∃ n s' r, Run Step s (List.replicate n (.advance q true true)) s' ∧
      s'.reaps = s.reaps ++ [r] ∧ s'.pc q = .out := by
  -- by induction on the slots that are left
  induction m generalizing s i havekids with
  | zero =>
    have hk := hfam.knows q
    rw [hpc] at hk
    exact absurd hzombie (hk.1 z (lt_of_lt_of_le z.isLt hm) hchild)
  | succ m ih =>
    by_cases hi : i < nProc
    swap
    · have hk := hfam.knows q
      rw [hpc] at hk
      exact absurd hzombie (hk.1 z (lt_of_lt_of_le z.isLt (Nat.le_of_not_lt hi)) hchild)
    obtain ⟨j, rfl⟩ : ∃ j : ProcIx, (j : ℕ) = i := ⟨⟨i, hi⟩, rfl⟩
    have hstep := step_waitScan hrun hpc
    have hnext : ∀ hk', Step s (.advance q true true) (s.goto q (.waitScan addr (j + 1) hk')) →
        ∃ n s' r, Run Step s (List.replicate n (.advance q true true)) s' ∧
          s'.reaps = s.reaps ++ [r] ∧ s'.pc q = .out := by
      intro hk' hgo
      obtain ⟨n, s', r, hrest, hreaps, hout⟩ := ih (hfam.step (does_of_step hgo)) hrun
        (by rw [goto_pc, update_self]) (by omega) hchild hzombie
      exact ⟨n + 1, s', r, by
        simpa [List.replicate_succ] using (Run.single hgo).append hrest, hreaps, hout⟩
    split_ifs at hstep with hparent hz
    · refine ⟨1, _, _, Run.single hstep, rfl, ?_⟩
      simp
    · exact hnext _ hstep
    · exact hnext _ hstep

theorem wait_reaps (hfam : Family s) (hlock : s.waitLock = none)
    (hrun : (s.slots q).state = .running) {addr : UInt64} (hpc : s.pc q = .waitLock addr)
    {z : ProcIx} (hchild : (s.slots z).parent = some q) (hzombie : (s.slots z).state = .zombie) :
    ∃ n s' r, Run Step s (List.replicate n (.advance q true true)) s' ∧
      s'.reaps = s.reaps ++ [r] ∧ s'.pc q = .out := by
  have hgo : Step s (.advance q true true) ((s.acquire q).goto q (.waitScan addr 0 false)) := by
    unfold Step next
    simp only [hrun, if_true]
    unfold advance
    simp only [hpc, hlock, if_true]
  obtain ⟨n, s', r, hrest, hreaps, hout⟩ := scan_reaps 64 (hfam.step (does_of_step hgo)) hrun
    (by rw [goto_pc, update_self]) le_rfl hchild hzombie
  exact ⟨n + 1, s', r, by
    simpa [List.replicate_succ] using (Run.single hgo).append hrest, hreaps, hout⟩

/-- **Every process that exits is reaped once, by its parent or by the first
process.**  When `wait_lock` is free each process has a parent that can reap it and
does not sleep through it, and a `wait` returns a zombie if there is one. -/
theorem reaped_exactly_once (h : Reachable s) :
    (s.waitLock = none → ∀ j, (s.slots j).state ≠ .unused → (s.slots j).state ≠ .used →
      j ≠ Kernel.initproc → ∃ q, (s.slots j).parent = some q ∧ (s.slots q).state ≠ .unused ∧
        (s.slots q).state ≠ .zombie) ∧
    s.ReapedOnce ∧
    (∀ p memory mapped s', Step s (.advance p memory mapped) s' → WaitOk s p mapped s') ∧
    (s.waitLock = none → ∀ q z, (s.slots z).parent = some q → (s.slots z).state = .zombie →
      ¬ s.Waiting q ∧ ∀ addr, (s.slots q).state = .running → s.pc q = .waitLock addr →
        ∃ n s' r, Run Step s (List.replicate n (.advance q true true)) s' ∧
          s'.reaps = s.reaps ++ [r] ∧ s'.pc q = .out) := by
  obtain ⟨hfam, hhist⟩ := h.history
  refine ⟨fun _ j hunused hused hinit => ?_, hhist.reapedOnce hfam.placed, ?_, ?_⟩
  · have hj : (s.slots j).state.alive = true ∨ (s.slots j).state = .zombie := by
      cases hstate : (s.slots j).state with
      | unused => exact absurd hstate hunused
      | used => exact absurd hstate hused
      | zombie => exact .inr rfl
      | sleeping | runnable | running => exact .inl rfl
    obtain ⟨q, hq⟩ := hfam.parent hj hinit
    have halive := hfam.alive hq
    refine ⟨q, hq, fun hno => ?_, fun hno => ?_⟩
    · rw [hno] at halive
      cases halive
    · rw [hno] at halive
      cases halive
  · intro p memory mapped s' hstep
    cases does_of_step hstep with
    | advance running sec => exact sec.waitOk hfam
  · intro hlock q z hchild hzombie
    refine ⟨fun hw => ?_, fun addr hrun hpc => wait_reaps hfam hlock hrun hpc hchild hzombie⟩
    obtain ⟨p, i, k, hsome, -, -⟩ := hfam.noLost hw hchild hzombie
    rw [hlock] at hsome
    cases hsome

/-- The first process forks a child, which exits with 7, and waits for it. -/
def demoTrace : List Act :=
  [.sched 0, .call 0 .fork] ++ List.replicate 4 (.advance 0 true true) ++
  [.sched 1, .call 1 (.exit 7)] ++ List.replicate 149 (.advance 1 true true) ++
  [.call 0 (.wait 8)] ++ List.replicate 3 (.advance 0 true true)

theorem reaped_exactly_once_demo :
    ∃ s, Reachable s ∧ s.reaps = [⟨1, 0, 2, some 7⟩] ∧ s.ReapedOnce := by
  obtain ⟨s, hrun, hv⟩ := exists_run (g := fun s => s.reaps) (v := [⟨1, 0, 2, some 7⟩]) demoTrace
    (by decide +kernel)
  exact ⟨s, ⟨_, hrun⟩, hv, (reaped_exactly_once ⟨_, hrun⟩).2.1⟩

end ProcTable

end Xv6Zig
