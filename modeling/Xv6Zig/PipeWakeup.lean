/-
Xv6Zig/PipeWakeup.lean

Who sleeps on a pipe, and whether somebody will wake them.

`pipewrite` and `piperead` look at the counters and go to sleep under the
pipe's lock, so a process that sleeps had reason to when it fell asleep.  The
counters change in rounds of a process that has the lock, and such a process
wakes the other side before it gives the lock up: `Sound` allows readers to
sleep on a pipe with bytes in it only while a writer is in its loop, and writers
on a pipe with space only while a reader is in its second loop.

One way out of `pipewrite` has no `wakeup`: the return of -1 when the read end
is closed or the writer was killed.  If the writer has stored bytes since it
took the lock, the readers that slept on the empty pipe sleep on
(`wakeup_lost`).  Nothing else loses a wakeup (`no_lost_wakeup_iff`).
-/
import Xv6Zig.Pipe

namespace Xv6Zig

open Lib Function

/-- The process runs in one of the loops, with the lock. -/
def PipePc.InLoop : PipePc → Prop
  | .writing _ | .waiting _ | .reading _ => True
  | _ => False

namespace PipePc

instance (c : Chan) (pc : PipePc) : Decidable (pc.SleepsOn c) := by
  cases c <;> cases pc <;> first | exact isTrue trivial | exact isFalse id

theorem not_sleepsOn_wakeup (c : Chan) (pc : PipePc) : ¬ (pc.wakeup c).SleepsOn c := by
  cases c <;> cases pc <;> exact id

theorem sleepsOn_of_wakeup {c c' : Chan} {pc : PipePc} (h : (pc.wakeup c).SleepsOn c') :
    pc.SleepsOn c' := by
  cases c <;> cases c' <;> cases pc <;> first | exact h | exact h.elim

theorem sleepsOn_of_kill {c : Chan} {pc : PipePc} (h : pc.kill.SleepsOn c) : pc.SleepsOn c := by
  cases c <;> cases pc <;> first | exact h | exact h.elim

@[simp] theorem inLoop_wakeup (c : Chan) (pc : PipePc) : (pc.wakeup c).InLoop ↔ pc.InLoop := by
  cases c <;> cases pc <;> exact Iff.rfl

@[simp] theorem inLoop_kill (pc : PipePc) : pc.kill.InLoop ↔ pc.InLoop := by
  cases pc <;> exact Iff.rfl

end PipePc

/-- A full pipe has no free space. -/
theorem sub32_add32 (x : ℕ) : sub32 (add32 x pipeSize) x = pipeSize := by
  simp only [sub32, add32, pipeSize]
  omega

theorem asInt_sub32_self (x : ℕ) : asInt (sub32 x x) = 0 := by
  have hzero : sub32 x x = 0 := by
    simp only [sub32]
    omega
  rw [hzero]
  rfl

namespace PipeSys

variable {P : Type*} [DecidableEq P] {s s' : PipeSys P} {p q : P} {a : Act P}

/-- **No wakeup is lost**: while the lock is free nobody sleeps who has something
to do. -/
def NoLost (s : PipeSys P) : Prop :=
  s.lock = none → ∀ q,
    ((s.pc q).SleepsOn .nread → ¬ (s.pipe.nread ≠ s.pipe.nwrite ∨ s.pipe.writeopen = false)) ∧
    ((s.pc q).SleepsOn .nwrite →
      ¬ (sub32 s.pipe.nwrite s.pipe.nread < pipeSize ∨ s.pipe.readopen = false))

/-- Process `p`, at `pc`, does not return -1 from `pipewrite` while the pipe holds
bytes and a reader sleeps. -/
def FineRound (s : PipeSys P) (p : P) : PipePc → Prop
  | .writing w =>
      w.i < w.n.toInt ∧ (s.pipe.readopen = false ∨ s.killed p = true) →
        s.pipe.nread = s.pipe.nwrite ∨ ∀ q, ¬ (s.pc q).SleepsOn .nread
  | _ => True

/-- No writer returns -1 while the pipe holds bytes and a reader sleeps. -/
def Fine (s : PipeSys P) : Act P → Prop
  | .run p _ => FineRound s p (s.pc p)
  | _ => True

instance [Fintype P] (s : PipeSys P) (p : P) : (pc : PipePc) → Decidable (FineRound s p pc)
  | .writing _ => inferInstanceAs (Decidable (_ → _))
  | .out _ | .sleepWrite _ | .wakeWrite _ | .waiting _ | .reading _ | .sleepRead _ | .wakeRead _ =>
      isTrue trivial

instance [Fintype P] (s : PipeSys P) : (a : Act P) → Decidable (Fine s a)
  | .run p _ => inferInstanceAs (Decidable (FineRound s p (s.pc p)))
  | .write .. | .read .. | .resume _ | .close _ | .kill _ => isTrue trivial

/-! ### The invariant -/

/-- Readers sleep on an empty pipe. -/
def ReadersWait (s : PipeSys P) : Prop :=
  ∀ q, (s.pc q).SleepsOn .nread → s.pipe.nread = s.pipe.nwrite ∧ s.pipe.writeopen = true

/-- Writers sleep on a full pipe. -/
def WritersWait (s : PipeSys P) : Prop :=
  ∀ q, (s.pc q).SleepsOn .nwrite →
    s.pipe.nwrite = add32 s.pipe.nread pipeSize ∧ s.pipe.readopen = true

/-- **Whoever sleeps has reason to, or will be woken by the process that has the
lock.** -/
structure Sound (s : PipeSys P) : Prop where
  one : ∀ q, (s.pc q).InLoop → s.lock = some q
  readers : (∃ p w, s.pc p = .writing w) ∧ (∀ q, (s.pc q).SleepsOn .nread → s.pipe.writeopen = true) ∨
    ReadersWait s
  writers : (∃ p r, s.pc p = .reading r) ∧ (∀ q, (s.pc q).SleepsOn .nwrite → s.pipe.readopen = true) ∨
    WritersWait s

omit [DecidableEq P] in
/-- Without a writer in its loop readers have reason to sleep. -/
theorem Sound.readersWait (h : Sound s) (hnone : ∀ p w, s.pc p ≠ .writing w) : ReadersWait s := by
  rcases h.readers with ⟨⟨p, w, hw⟩, -⟩ | hwait
  · exact absurd hw (hnone p w)
  · exact hwait

omit [DecidableEq P] in
theorem Sound.writersWait (h : Sound s) (hnone : ∀ p r, s.pc p ≠ .reading r) : WritersWait s := by
  rcases h.writers with ⟨⟨p, r, hr⟩, -⟩ | hwait
  · exact absurd hr (hnone p r)
  · exact hwait

omit [DecidableEq P] in
/-- Nobody is in a loop while the lock is free. -/
theorem Sound.not_inLoop (h : Sound s) (hlock : s.lock = none) (q : P) : ¬ (s.pc q).InLoop := by
  intro hq
  have := h.one q hq
  rw [hlock] at this
  cases this

omit [DecidableEq P] in
theorem Sound.of_free (h : Sound s) (hlock : s.lock = none) : ReadersWait s ∧ WritersWait s := by
  refine ⟨h.readersWait fun p w hw => h.not_inLoop hlock p ?_,
    h.writersWait fun p r hr => h.not_inLoop hlock p ?_⟩
  · rw [hw]
    trivial
  · rw [hr]
    trivial

omit [DecidableEq P] in
/-- A process in a loop is the only one. -/
theorem Sound.eq_of_inLoop (h : Sound s) (hp : (s.pc p).InLoop) (hq : (s.pc q).InLoop) : q = p := by
  have heq := (h.one q hq).symm.trans (h.one p hp)
  exact Option.some.inj heq

omit [DecidableEq P] in
theorem noLost_of_wait (hr : ReadersWait s) (hw : WritersWait s) : NoLost s := by
  intro _ q
  refine ⟨fun hq hlost => ?_, fun hq hlost => ?_⟩
  · obtain ⟨hempty, hopen⟩ := hr q hq
    rcases hlost with hne | hclosed
    · exact hne hempty
    · rw [hopen] at hclosed
      cases hclosed
  · obtain ⟨hfull, hopen⟩ := hw q hq
    rcases hlost with hspace | hclosed
    · rw [hfull, sub32_add32] at hspace
      exact lt_irrefl _ hspace
    · rw [hopen] at hclosed
      cases hclosed

omit [DecidableEq P] in
theorem Sound.noLost (h : Sound s) : NoLost s := by
  intro hlock
  obtain ⟨hr, hw⟩ := h.of_free hlock
  exact noLost_of_wait hr hw hlock

/-! ### One process moves -/

/-- Only `p` is elsewhere, and perhaps some were woken. -/
structure Moves (pcs : P → PipePc) (p : P) (pc : PipePc) (pcs' : P → PipePc) : Prop where
  self : pcs' p = pc
  asleep : ∀ q ≠ p, ∀ c, (pcs' q).SleepsOn c → (pcs q).SleepsOn c
  inLoop : ∀ q ≠ p, (pcs' q).InLoop → (pcs q).InLoop

theorem moves_update (pcs : P → PipePc) (p : P) (pc : PipePc) :
    Moves pcs p pc (update pcs p pc) := by
  refine ⟨update_self p pc pcs, fun q hq c h => ?_, fun q hq h => ?_⟩
  · rwa [update_of_ne hq] at h
  · rwa [update_of_ne hq] at h

theorem moves_wakeup (pcs : P → PipePc) (c : Chan) (p : P) (pc : PipePc) :
    Moves pcs p pc (update (fun q => (pcs q).wakeup c) p pc) := by
  refine ⟨?_, fun q hq c' h => ?_, fun q hq h => ?_⟩
  · rw [update_self]
  · rw [update_of_ne hq] at h
    exact PipePc.sleepsOn_of_wakeup h
  · rw [update_of_ne hq] at h
    exact (PipePc.inLoop_wakeup c _).mp h

/-- After a `wakeup` only the process that moved can be asleep there. -/
theorem not_sleepsOn_update_wakeup (pcs : P → PipePc) {c : Chan} {pc : PipePc}
    (hpc : ¬ pc.SleepsOn c) (p q : P) :
    ¬ (update (fun q => (pcs q).wakeup c) p pc q).SleepsOn c := by
  by_cases hq : q = p
  · subst hq
    rwa [update_self]
  · rw [update_of_ne hq]
    exact PipePc.not_sleepsOn_wakeup c _

namespace Moves

variable {pc : PipePc}

omit [DecidableEq P] in
theorem one (h : Moves s.pc p pc s'.pc) (hothers : ∀ q ≠ p, ¬ (s.pc q).InLoop)
    (hlock : pc.InLoop → s'.lock = some p) (q : P) (hq : (s'.pc q).InLoop) : s'.lock = some q := by
  by_cases hqp : q = p
  · subst hqp
    rw [h.self] at hq
    exact hlock hq
  · exact absurd (h.inLoop q hqp hq) (hothers q hqp)

omit [DecidableEq P] in
theorem readersWait (h : Moves s.pc p pc s'.pc) (hwait : ReadersWait s)
    (hpipe : s'.pipe.nread = s.pipe.nread ∧ s'.pipe.nwrite = s.pipe.nwrite ∧
      s'.pipe.writeopen = s.pipe.writeopen)
    (hpc : pc.SleepsOn .nread → s.pipe.nread = s.pipe.nwrite ∧ s.pipe.writeopen = true) :
    ReadersWait s' := by
  intro q hq
  rw [hpipe.1, hpipe.2.1, hpipe.2.2]
  by_cases hqp : q = p
  · subst hqp
    rw [h.self] at hq
    exact hpc hq
  · exact hwait q (h.asleep q hqp _ hq)

omit [DecidableEq P] in
theorem writersWait (h : Moves s.pc p pc s'.pc) (hwait : WritersWait s)
    (hpipe : s'.pipe.nread = s.pipe.nread ∧ s'.pipe.nwrite = s.pipe.nwrite ∧
      s'.pipe.readopen = s.pipe.readopen)
    (hpc : pc.SleepsOn .nwrite →
      s.pipe.nwrite = add32 s.pipe.nread pipeSize ∧ s.pipe.readopen = true) :
    WritersWait s' := by
  intro q hq
  rw [hpipe.1, hpipe.2.1, hpipe.2.2]
  by_cases hqp : q = p
  · subst hqp
    rw [h.self] at hq
    exact hpc hq
  · exact hwait q (h.asleep q hqp _ hq)

end Moves

omit [DecidableEq P] in
theorem readersWait_of_awake (h : ∀ q, ¬ (s.pc q).SleepsOn .nread) : ReadersWait s :=
  fun q hq => absurd hq (h q)

omit [DecidableEq P] in
theorem writersWait_of_awake (h : ∀ q, ¬ (s.pc q).SleepsOn .nwrite) : WritersWait s :=
  fun q hq => absurd hq (h q)

/-! ### The rounds -/

omit [DecidableEq P] in
theorem Sound.others (h : Sound s) (hp : (s.pc p).InLoop) (q : P) (hq : q ≠ p) :
    ¬ (s.pc q).InLoop :=
  fun hloop => hq (h.eq_of_inLoop hp hloop)

omit [DecidableEq P] in
/-- While `p` is in a loop other than that of `pipewrite`, nobody writes. -/
theorem Sound.readersWait_of_pc (h : Sound s) (hp : (s.pc p).InLoop)
    (hne : ∀ w, s.pc p ≠ .writing w) : ReadersWait s := by
  refine h.readersWait fun q w hw => ?_
  have hq : q = p := h.eq_of_inLoop hp (by rw [hw]; trivial)
  subst hq
  exact hne w hw

omit [DecidableEq P] in
theorem Sound.writersWait_of_pc (h : Sound s) (hp : (s.pc p).InLoop)
    (hne : ∀ r, s.pc p ≠ .reading r) : WritersWait s := by
  refine h.writersWait fun q r hr => ?_
  have hq : q = p := h.eq_of_inLoop hp (by rw [hr]; trivial)
  subst hq
  exact hne r hr

/-- A round of `pipewrite` that is not cut short wakes the readers, or the
writer keeps the lock. -/
theorem sound_writeRound {w : PipeWrite} (h : Sound s) (hpc : s.pc p = .writing w)
    (hround : WriteRound s p w s')
    (hfine : FineRound s p (.writing w)) : Sound s' := by
  have hp : (s.pc p).InLoop := by rw [hpc]; trivial
  have hothers := h.others hp
  have hwriters : WritersWait s :=
    h.writersWait_of_pc hp fun r hr => nomatch hpc.symm.trans hr
  have hopen : ∀ q, (s.pc q).SleepsOn .nread → s.pipe.writeopen = true := by
    intro q hq
    rcases h.readers with ⟨-, hopen⟩ | hwait
    · exact hopen q hq
    · exact (hwait q hq).2
  cases hround with
  | done =>
    have hmoves : Moves s.pc p (.out w.i) (s.endWrite p w).pc := moves_wakeup ..
    refine ⟨hmoves.one hothers False.elim,
      .inr (readersWait_of_awake (not_sleepsOn_update_wakeup s.pc id p)),
      .inr (hmoves.writersWait hwriters ⟨rfl, rfl, rfl⟩ False.elim)⟩
  | abort more dead =>
    have hmoves : Moves s.pc p (.out (-1)) (s.release.setPc p (.out (-1))).pc := moves_update ..
    refine ⟨hmoves.one hothers False.elim, .inr ?_,
      .inr (hmoves.writersWait hwriters ⟨rfl, rfl, rfl⟩ False.elim)⟩
    apply hmoves.readersWait ?_ ⟨rfl, rfl, rfl⟩ False.elim
    intro q hq
    rcases hfine ⟨more, dead⟩ with hempty | hawake
    · exact ⟨hempty, hopen q hq⟩
    · exact absurd hq (hawake q)
  | full more alive full =>
    have hmoves : Moves s.pc p (.sleepWrite w)
        (((s.wakeup .nread).release).setPc p (.sleepWrite w)).pc := moves_wakeup ..
    have readopen : s.pipe.readopen = true :=
      Bool.eq_true_of_not_eq_false fun hclosed => alive (.inl hclosed)
    exact ⟨hmoves.one hothers False.elim,
      .inr (readersWait_of_awake (not_sleepsOn_update_wakeup s.pc id p)),
      .inr (hmoves.writersWait hwriters ⟨rfl, rfl, rfl⟩ fun _ => ⟨full, readopen⟩)⟩
  | failed =>
    have hmoves : Moves s.pc p (.out w.i)
        ({ s with pipe := s.pipe.fill (s.pipe.fetch w).1 }.endWrite p w).pc := moves_wakeup ..
    exact ⟨hmoves.one hothers False.elim,
      .inr (readersWait_of_awake (not_sleepsOn_update_wakeup s.pc id p)),
      .inr (hmoves.writersWait hwriters ⟨rfl, rfl, rfl⟩ False.elim)⟩
  | stored more alive space ok =>
    have hmoves := moves_update s.pc p (.writing { w with i := w.i + s.pipe.writeChunk w })
    refine ⟨hmoves.one hothers fun _ => h.one p hp,
      .inl ⟨⟨p, _, hmoves.self⟩, fun q hq => ?_⟩, .inr (writersWait_of_awake fun q hq => ?_)⟩
    · by_cases hqp : q = p
      · subst hqp
        rw [setPc_pc, update_self] at hq
        exact hq.elim
      · exact hopen q (hmoves.asleep q hqp _ hq)
    · -- writers sleep on a full pipe, and this one is not
      by_cases hqp : q = p
      · subst hqp
        rw [setPc_pc, update_self] at hq
        exact hq.elim
      · exact space (hwriters q (hmoves.asleep q hqp _ hq)).1

theorem sound_waitRound {r : PipeRead} (h : Sound s) (hpc : s.pc p = .waiting r)
    (hround : WaitRound s p r s') : Sound s' := by
  have hp : (s.pc p).InLoop := by rw [hpc]; trivial
  have hothers := h.others hp
  have hreaders := h.readersWait_of_pc hp fun w hw => nomatch hpc.symm.trans hw
  have hwriters := h.writersWait_of_pc hp fun r hr => nomatch hpc.symm.trans hr
  cases hround with
  | abort =>
    have hmoves : Moves s.pc p (.out (-1)) (s.release.setPc p (.out (-1))).pc := moves_update ..
    exact ⟨hmoves.one hothers False.elim,
      .inr (hmoves.readersWait hreaders ⟨rfl, rfl, rfl⟩ False.elim),
      .inr (hmoves.writersWait hwriters ⟨rfl, rfl, rfl⟩ False.elim)⟩
  | sleep empty writeopen =>
    have hmoves : Moves s.pc p (.sleepRead r) (s.release.setPc p (.sleepRead r)).pc :=
      moves_update ..
    exact ⟨hmoves.one hothers False.elim,
      .inr (hmoves.readersWait hreaders ⟨rfl, rfl, rfl⟩ fun _ => ⟨empty, writeopen⟩),
      .inr (hmoves.writersWait hwriters ⟨rfl, rfl, rfl⟩ False.elim)⟩
  | ready =>
    have hmoves : Moves s.pc p (.reading r) (s.setPc p (.reading r)).pc := moves_update ..
    exact ⟨hmoves.one hothers fun _ => h.one p hp,
      .inr (hmoves.readersWait hreaders ⟨rfl, rfl, rfl⟩ False.elim),
      .inr (hmoves.writersWait hwriters ⟨rfl, rfl, rfl⟩ False.elim)⟩

theorem sound_copyRound {r : PipeRead} (h : Sound s) (hpc : s.pc p = .reading r)
    (hround : CopyRound s p r s') : Sound s' := by
  have hp : (s.pc p).InLoop := by rw [hpc]; trivial
  have hothers := h.others hp
  have hreaders := h.readersWait_of_pc hp fun w hw => nomatch hpc.symm.trans hw
  have hend : Sound (s.endRead p r) := by
    have hmoves : Moves s.pc p (.out r.i) (s.endRead p r).pc := moves_wakeup ..
    exact ⟨hmoves.one hothers False.elim,
      .inr (hmoves.readersWait hreaders ⟨rfl, rfl, rfl⟩ False.elim),
      .inr (writersWait_of_awake (not_sleepsOn_update_wakeup s.pc id p))⟩
  cases hround with
  | done => exact hend
  | failed => exact hend
  | read more some ok =>
    have hmoves := moves_update s.pc p (.reading { r with i := r.i + s.pipe.readChunk r })
    refine ⟨hmoves.one hothers fun _ => h.one p hp,
      .inr (readersWait_of_awake fun q hq => ?_), .inl ⟨⟨p, _, hmoves.self⟩, fun q hq => ?_⟩⟩
    · -- readers sleep on an empty pipe, and this one is not
      by_cases hqp : q = p
      · subst hqp
        rw [setPc_pc, update_self] at hq
        exact hq.elim
      · apply some
        rw [(hreaders q (hmoves.asleep q hqp _ hq)).1]
        exact asInt_sub32_self _
    · by_cases hqp : q = p
      · subst hqp
        rw [setPc_pc, update_self] at hq
        exact hq.elim
      · have hq' := hmoves.asleep q hqp _ hq
        rcases h.writers with ⟨-, hopen⟩ | hwait
        · exact hopen q hq'
        · exact (hwait q hq').2

/-! ### Every step -/

omit [DecidableEq P] in
theorem Sound.killedLate [DecidableEq P] (h : Sound s) (p : P) (late : Bool) :
    Sound (s.killedLate p late) :=
  ⟨h.one, h.readers, h.writers⟩

/-- A call begins or a process has the lock again. -/
theorem sound_acquire {pc : PipePc} (h : Sound s) (hlock : s.lock = none)
    (hawake : ∀ c, ¬ pc.SleepsOn c) (hpipe : s'.pipe = s.pipe) (hlock' : s'.lock = some p)
    (hpcs : s'.pc = update s.pc p pc) : Sound s' := by
  obtain ⟨hreaders, hwriters⟩ := h.of_free hlock
  have hmoves := moves_update s.pc p pc
  rw [← hpcs] at hmoves
  refine ⟨hmoves.one (fun q _ => h.not_inLoop hlock q) fun _ => hlock', .inr ?_, .inr ?_⟩
  · exact hmoves.readersWait hreaders (by rw [hpipe]; exact ⟨rfl, rfl, rfl⟩)
      fun hq => absurd hq (hawake _)
  · exact hmoves.writersWait hwriters (by rw [hpipe]; exact ⟨rfl, rfl, rfl⟩)
      fun hq => absurd hq (hawake _)

omit [DecidableEq P] in
theorem sound_close (h : Sound s) (hlock : s.lock = none) (writable : Bool) :
    Sound (s.pipeclose writable) := by
  obtain ⟨hreaders, hwriters⟩ := h.of_free hlock
  have hone : ∀ c q, ((s.pc q).wakeup c).InLoop → s.lock = some q := by
    intro c q hq
    exact h.one q ((PipePc.inLoop_wakeup c _).mp hq)
  cases writable with
  | false =>
    refine ⟨hone .nwrite, .inr fun q hq => ?_, .inr fun q hq => ?_⟩
    · exact hreaders q (PipePc.sleepsOn_of_wakeup hq)
    · exact absurd hq (PipePc.not_sleepsOn_wakeup .nwrite _)
  | true =>
    refine ⟨hone .nread, .inr fun q hq => ?_, .inr fun q hq => ?_⟩
    · exact absurd hq (PipePc.not_sleepsOn_wakeup .nread _)
    · exact hwriters q (PipePc.sleepsOn_of_wakeup hq)

theorem sound_kill (h : Sound s) (p : P) : Sound (s.kill p) := by
  have hasleep : ∀ {q c}, ((s.kill p).pc q).SleepsOn c → (s.pc q).SleepsOn c := by
    intro q c hq
    by_cases hqp : q = p
    · subst hqp
      change (update s.pc q (s.pc q).kill q).SleepsOn c at hq
      rw [update_self] at hq
      exact PipePc.sleepsOn_of_kill hq
    · change (update s.pc p (s.pc p).kill q).SleepsOn c at hq
      rwa [update_of_ne hqp] at hq
  have hloop : ∀ q, (s.pc q).InLoop → (s.kill p).pc q = s.pc q := by
    intro q hq
    by_cases hqp : q = p
    · subst hqp
      change update s.pc q (s.pc q).kill q = _
      rw [update_self]
      cases hpc : s.pc q <;> rw [hpc] at hq <;> first | rfl | exact hq.elim
    · exact update_of_ne hqp _ _
  refine ⟨fun q hq => h.one q ?_, ?_, ?_⟩
  · by_cases hqp : q = p
    · subst hqp
      change (update s.pc q (s.pc q).kill q).InLoop at hq
      rw [update_self] at hq
      exact (PipePc.inLoop_kill _).mp hq
    · change (update s.pc p (s.pc p).kill q).InLoop at hq
      rwa [update_of_ne hqp] at hq
  · rcases h.readers with ⟨⟨q, w, hw⟩, hopen⟩ | hwait
    · refine .inl ⟨⟨q, w, ?_⟩, fun q' hq' => hopen q' (hasleep hq')⟩
      rw [hloop q (by rw [hw]; trivial), hw]
    · exact .inr fun q hq => hwait q (hasleep hq)
  · rcases h.writers with ⟨⟨q, r, hr⟩, hopen⟩ | hwait
    · refine .inl ⟨⟨q, r, ?_⟩, fun q' hq' => hopen q' (hasleep hq')⟩
      rw [hloop q (by rw [hr]; trivial), hr]
    · exact .inr fun q hq => hwait q (hasleep hq)

theorem sound_step (h : Sound s) (hstep : Step s a s') (hfine : Fine s a) : Sound s' := by
  cases a with
  | write p pagetable ram addr n =>
    obtain ⟨-, hlock, -, rfl⟩ := hstep
    exact sound_acquire h hlock (fun c => by cases c <;> exact id) rfl rfl rfl
  | read p pagetable addr n =>
    obtain ⟨-, hlock, -, rfl⟩ := hstep
    exact sound_acquire h hlock (fun c => by cases c <;> exact id) rfl rfl rfl
  | run p late =>
    obtain ⟨t, hrun, rfl⟩ := Option.map_eq_some_iff.mp hstep
    apply Sound.killedLate
    cases run_round hrun with
    | write hpc hround =>
      change FineRound s p (s.pc p) at hfine
      rw [hpc] at hfine
      exact sound_writeRound h hpc hround hfine
    | wait hpc hround => exact sound_waitRound h hpc hround
    | copy hpc hround => exact sound_copyRound h hpc hround
  | resume p =>
    obtain ⟨hlock, hstep⟩ := hstep
    unfold resume at hstep
    split at hstep
    · cases hstep
      exact sound_acquire h hlock (fun c => by cases c <;> exact id) rfl rfl rfl
    · cases hstep
      exact sound_acquire h hlock (fun c => by cases c <;> exact id) rfl rfl rfl
    · cases hstep
  | close writable =>
    obtain ⟨hlock, -, rfl, -⟩ := hstep
    exact sound_close h hlock writable
  | kill p =>
    obtain rfl : s' = s.kill p := hstep
    exact sound_kill h p

/-- The condition is necessary: a writer that returns -1 in spite of it leaves
the reader asleep. -/
theorem fine_of_noLost (hstep : Step s a s') (hlost : NoLost s') : Fine s a := by
  cases a with
  | run p late =>
    obtain ⟨t, hrun, rfl⟩ := Option.map_eq_some_iff.mp hstep
    show FineRound s p (s.pc p)
    cases run_round hrun with
    | wait hpc hround =>
      rw [hpc]
      trivial
    | copy hpc hround =>
      rw [hpc]
      trivial
    | @write w hpc hround =>
      rw [hpc]
      rintro ⟨more, dead⟩
      by_contra hbad
      push Not at hbad
      obtain ⟨hne, q, hq⟩ := hbad
      have hqp : q ≠ p := by
        rintro rfl
        rw [hpc] at hq
        exact hq
      cases hround with
      | abort =>
        have hasleep : (update s.pc p (.out (-1)) q).SleepsOn .nread := by
          rwa [update_of_ne hqp]
        exact (hlost rfl q).1 hasleep (.inl hne)
      | done all => exact all more
      | full _ alive => exact alive dead
      | failed _ alive => exact alive dead
      | stored _ alive => exact alive dead
  | _ => trivial

omit [DecidableEq P] in
theorem Fresh.sound (h : Fresh s) : Sound s := by
  have hout : ∀ q, ∃ ret, s.pc q = .out ret := h.pc
  refine ⟨fun q hq => ?_, .inr fun q hq => ?_, .inr fun q hq => ?_⟩
  · obtain ⟨ret, hret⟩ := hout q
    rw [hret] at hq
    exact hq.elim
  · obtain ⟨ret, hret⟩ := hout q
    rw [hret] at hq
    exact hq.elim
  · obtain ⟨ret, hret⟩ := hout q
    rw [hret] at hq
    exact hq.elim

/-- A step in which no writer returns -1 under a sleeping reader. -/
def FineStep (s : PipeSys P) (a : Act P) (s' : PipeSys P) : Prop :=
  Step s a s' ∧ Fine s a

/-- **No wakeup is lost as long as no writer returns -1 while the pipe holds
bytes and a reader sleeps**, and the first time one does a wakeup is lost. -/
theorem no_lost_wakeup_iff {s₀ : PipeSys P} {tr : List (Act P)} (h₀ : Fresh s₀)
    (h : Run FineStep s₀ tr s) :
    NoLost s ∧ ∀ a s', Step s a s' → (NoLost s' ↔ Fine s a) := by
  have hsound : Sound s :=
    h.invariant h₀.sound fun hsound hstep => sound_step hsound hstep.1 hstep.2
  exact ⟨hsound.noLost, fun a s' hstep =>
    ⟨fine_of_noLost hstep, fun hfine => (sound_step hsound hstep hfine).noLost⟩⟩

/-- The fine steps that are not `close`, as a function. -/
def nextFine [Fintype P] (s : PipeSys P) (a : Act P) : Option (PipeSys P) :=
  if Fine s a then s.next a else none

theorem fineStep_of_nextFine [Fintype P] (h : s.nextFine a = some s') : FineStep s a s' := by
  obtain ⟨hfine, h⟩ := Option.ite_none_right_eq_some.mp h
  exact ⟨step_of_next h, hfine⟩

theorem exists_fineRun [Fintype P] {γ : Type*} (g : PipeSys P → γ) (v : γ) (tr : List (Act P))
    (h : (tr.foldlM nextFine s).map g = some v) : ∃ s', Run FineStep s tr s' ∧ g s' = v :=
  Run.of_foldlM_map fineStep_of_nextFine tr h

/-- The process is asleep on the pipe. -/
def asleep : PipePc → Bool
  | .sleepRead _ | .sleepWrite _ => true
  | _ => false

/-- A reader sleeps on the empty pipe and is woken at the end of a write. -/
theorem no_lost_wakeup_woken : ∃ s tr, Run FineStep newPipe tr s ∧ s.lock = none ∧
    s.pipe.nwrite = 2 ∧ asleep (s.pc false) = false ∧
    (NoLost s ∧ ∀ a s', Step s a s' → (NoLost s' ↔ Fine s a)) := by
  obtain ⟨s, hs, hv⟩ := exists_fineRun (s := newPipe)
    (fun s => (s.lock, s.pipe.nwrite, asleep (s.pc false))) (none, 2, false)
    [.read false onePage 0 4, .run false false, .write true onePage (fun a => .ofNat a) 0 2,
      .run true false, .run true false] (by decide +kernel)
  simp only [Prod.mk.injEq] at hv
  exact ⟨s, _, hs, hv.1, hv.2.1, hv.2.2, no_lost_wakeup_iff newPipe_fresh hs⟩

/-- A reader sleeps on the empty pipe; a writer of 600 bytes fills it, is killed
and returns -1: the reader sleeps on. -/
theorem wakeup_lost : ∃ s tr, Run Step newPipe tr s ∧ ¬ NoLost s := by
  obtain ⟨s, hs, hv⟩ := exists_run (s := newPipe)
    (fun s => (s.lock, s.pipe.nread, s.pipe.nwrite, decide ((s.pc false).SleepsOn .nread)))
    (none, 0, 512, true)
    [.read false onePage 0 4, .run false false, .write true onePage (fun a => .ofNat a) 0 600,
      .run true false, .kill true, .run true false] (by decide +kernel)
  simp only [Prod.mk.injEq, decide_eq_true_eq] at hv
  obtain ⟨hlock, hnread, hnwrite, hasleep⟩ := hv
  refine ⟨s, _, hs, fun hlost => (hlost hlock false).1 hasleep (.inl ?_)⟩
  rw [hnread, hnwrite]
  decide

end PipeSys

end Xv6Zig
