/-
Xv6Zig/Log.lean

The admission side of the file-system log (`kernel/log.c`): `begin_op`
reserves room, `log_write` takes it, the last `end_op` commits and frees it.

Three places compute the log's capacity on their own.  `begin_op` admits an
operation while `lh.n + (outstanding + 1) * MAXOPBLOCKS <= LOGSIZE`;
`log_write` refuses (by a panic) once `lh.n >= log.size - 1`, and tests this
before it looks for the block among those already logged; the image builder
sets `log.size` to `LOGSIZE`, header included.  So the reservation admits
`LOGSIZE` blocks to a log that takes one less.

`log_write_safe_iff` says for every interleaving exactly when that shows:
whenever a `log_write` is issued with `LOGSIZE - 1` distinct blocks already
logged in its commit group.  `begin_op_waits` says for every interleaving
that whoever sleeps in `begin_op` waits for another process.

The blocks `lh.block[0 .. n)` are the list `lh`; `n` is its length.
-/
import Mathlib.Data.Finset.Card
import Mathlib.Data.Finset.Insert
import Xv6Zig.Lib.Monitor
import Xv6Zig.Param

namespace Xv6Zig

/-! ### The log in memory -/

/-- The panics of `log.c`. -/
inductive LogPanic
  /-- "too big a transaction" -/
  | tooBig
  /-- "log_write outside of trans" -/
  | outsideOfTrans
  /-- "log.committing" -/
  | committing
  deriving DecidableEq, Repr

/-- `struct log`, without the lock and the device number. -/
structure Log where
  start : ℕ
  size : ℕ
  outstanding : ℕ
  committing : Bool
  lh : List ℕ
  deriving DecidableEq, Repr

namespace Log

/-- `initlog`, after its recovery: the geometry comes from the superblock. -/
def initlog (sb : Superblock) : Log :=
  ⟨sb.logstart, sb.nlog, 0, false, []⟩

/-- One turn of the loop in `begin_op`; `none` when the caller has to sleep. -/
def beginOp (l : Log) : Option Log :=
  if l.committing then none
  else if l.lh.length + (l.outstanding + 1) * maxOpBlocks > logSize then none
  else some { l with outstanding := l.outstanding + 1 }

/-- `end_op` up to its first `release`: the second component is `do_commit`. -/
def endOp (l : Log) : Except LogPanic (Log × Bool) :=
  let l := { l with outstanding := l.outstanding - 1 }
  if l.committing then .error .committing
  else if l.outstanding = 0 then .ok ({ l with committing := true }, true)
  else .ok (l, false)

/-- `log_write`, without the pin of the buffer. -/
def logWrite (l : Log) (blockno : ℕ) : Except LogPanic Log :=
  if l.lh.length ≥ logSize ∨ l.lh.length ≥ l.size - 1 then .error .tooBig
  else if l.outstanding < 1 then .error .outsideOfTrans
  else if blockno ∈ l.lh then .ok l  -- log absorption
  else .ok { l with lh := l.lh ++ [blockno] }

/-- What is left of the log when `end_op` has run `commit` and has taken the
lock again. -/
def commitDone (l : Log) : Log :=
  { l with lh := [], committing := false }

/-! #### What each does when it returns -/

variable {l l' : Log}

theorem beginOp_some (h : l.beginOp = some l') :
    l.committing = false ∧ l' = { l with outstanding := l.outstanding + 1 } := by
  unfold beginOp at h
  split_ifs at h with h₁ h₂
  cases h
  exact ⟨by simpa using h₁, rfl⟩

theorem endOp_ok {c : Bool} (h : l.endOp = .ok (l', c)) :
    c = decide (l.outstanding - 1 = 0) ∧
      l' = { l with outstanding := l.outstanding - 1, committing := c } := by
  unfold endOp at h
  simp only at h
  split_ifs at h with h₁ h₂
  · cases h
    exact ⟨by simp [h₂], rfl⟩
  · cases h
    have h₁ : l.committing = false := by simpa using h₁
    exact ⟨by simp [h₂], by rw [← h₁]⟩

theorem logWrite_ok {b : ℕ} (h : l.logWrite b = .ok l') :
    l.lh.length < logSize ∧ l.lh.length < l.size - 1 ∧
      l' = { l with lh := if b ∈ l.lh then l.lh else l.lh ++ [b] } := by
  unfold logWrite at h
  split_ifs at h with h₁ h₂ h₃
  · cases h
    exact ⟨by omega, by omega, by simp [h₃]⟩
  · cases h
    exact ⟨by omega, by omega, by simp [h₃]⟩

end Log

/-! ### Interleavings of operations -/

namespace LogOps

open Lib

/-- The log, the operations ever begun, those outstanding, and the panic that
stopped the kernel, if one did. -/
structure State where
  log : Log
  begun : List ℕ
  active : List ℕ
  panicked : Option LogPanic

/-- Calls of operation `op`; `commitDone` ends the commit of the last one. -/
inductive Ev
  | beginOp (op : ℕ)
  | logWrite (op blockno : ℕ)
  | endOp (op : ℕ)
  | commitDone
  deriving DecidableEq, Repr

def init (sb : Superblock) : State :=
  ⟨Log.initlog sb, [], [], none⟩

/-- One call.  `none`: it cannot happen now (the operation sleeps in
`begin_op`, is not outstanding, or the kernel has stopped). -/
def step (s : State) : Ev → Option State
  | .beginOp op =>
      if s.panicked.isSome ∨ op ∈ s.begun then none
      else s.log.beginOp.map fun l =>
        { s with log := l, begun := op :: s.begun, active := op :: s.active }
  | .logWrite op b =>
      if s.panicked.isSome ∨ op ∉ s.active then none
      else match s.log.logWrite b with
        | .ok l => some { s with log := l }
        | .error p => some { s with panicked := some p }
  | .endOp op =>
      if s.panicked.isSome ∨ op ∉ s.active then none
      else match s.log.endOp with
        | .ok (l, _) => some { s with log := l, active := s.active.erase op }
        | .error p => some { s with panicked := some p }
  | .commitDone =>
      if s.panicked.isSome ∨ s.log.committing = false then none
      else some { s with log := s.log.commitDone }

def Steps (s : State) (e : Ev) (t : State) : Prop :=
  step s e = some t

/-- The distinct blocks log_written since the last commit. -/
def groupBlocks (tr : List Ev) : Finset ℕ :=
  tr.foldl (fun g e => match e with
    | .logWrite _ b => insert b g
    | .commitDone => ∅
    | _ => g) ∅

/-- The distinct blocks operation `op` log_writes. -/
def opBlocks (tr : List Ev) (op : ℕ) : Finset ℕ :=
  (tr.filterMap fun e => match e with
    | .logWrite o b => if o = op then some b else none
    | _ => none).toFinset

/-- Every operation keeps to its reservation. -/
def WithinBudget (tr : List Ev) : Prop :=
  ∀ op, (opBlocks tr op).card ≤ maxOpBlocks

/-! #### How one more call changes the group -/

@[simp] theorem groupBlocks_beginOp (tr : List Ev) (op : ℕ) :
    groupBlocks (tr ++ [.beginOp op]) = groupBlocks tr := by
  simp [groupBlocks]

@[simp] theorem groupBlocks_logWrite (tr : List Ev) (op b : ℕ) :
    groupBlocks (tr ++ [.logWrite op b]) = insert b (groupBlocks tr) := by
  simp [groupBlocks]

@[simp] theorem groupBlocks_endOp (tr : List Ev) (op : ℕ) :
    groupBlocks (tr ++ [.endOp op]) = groupBlocks tr := by
  simp [groupBlocks]

@[simp] theorem groupBlocks_commitDone (tr : List Ev) :
    groupBlocks (tr ++ [.commitDone]) = ∅ := by
  simp [groupBlocks]

/-! ### The invariant -/

/-- While the kernel runs, the logged blocks are the distinct blocks of the
group, and `outstanding` counts the outstanding operations. -/
structure Inv (tr : List Ev) (s : State) : Prop where
  size : s.log.size = logSize
  nodup : s.log.lh.Nodup
  group : s.panicked = none → s.log.lh.toFinset = groupBlocks tr
  bound : s.log.lh.length ≤ logSize - 1
  count : s.log.outstanding = s.active.length

/-- The number of logged blocks is the number of distinct blocks of the group. -/
theorem Inv.length_lh {tr : List Ev} {s : State} (h : Inv tr s) (hp : s.panicked = none) :
    s.log.lh.length = (groupBlocks tr).card := by
  rw [← h.group hp, List.toFinset_card_of_nodup h.nodup]

theorem inv_init : Inv [] (init mkfsSuperblock) where
  size := rfl
  nodup := List.nodup_nil
  group := fun _ => rfl
  bound := by decide
  count := rfl

variable {tr : List Ev} {s t : State}

theorem inv_beginOp {op : ℕ} (h : Inv tr s) (hst : step s (.beginOp op) = some t) :
    Inv (tr ++ [.beginOp op]) t := by
  simp only [step] at hst
  split_ifs at hst with hc
  obtain ⟨l, hl, rfl⟩ := Option.map_eq_some_iff.mp hst
  obtain ⟨-, rfl⟩ := Log.beginOp_some hl
  refine ⟨h.size, h.nodup, ?_, h.bound, ?_⟩
  · intro hp
    rw [groupBlocks_beginOp]
    exact h.group hp
  · show s.log.outstanding + 1 = (op :: s.active).length
    rw [h.count, List.length_cons]

theorem inv_logWrite {op b : ℕ} (h : Inv tr s) (hst : step s (.logWrite op b) = some t) :
    Inv (tr ++ [.logWrite op b]) t := by
  have hsize := h.size
  simp only [step] at hst
  split_ifs at hst with hc
  push Not at hc
  have hp : s.panicked = none := by simpa using hc.1
  rcases hw : s.log.logWrite b with p | l
  -- the kernel stops here; the log stays as it was
  · rw [hw] at hst
    cases hst
    exact ⟨h.size, h.nodup, fun hn => (nomatch hn), h.bound, h.count⟩
  · rw [hw] at hst
    cases hst
    obtain ⟨-, hlt, rfl⟩ := Log.logWrite_ok hw
    have hg := h.group hp
    by_cases hb : b ∈ s.log.lh
    · have hmem : b ∈ groupBlocks tr := by
        rw [← hg]
        exact List.mem_toFinset.mpr hb
      refine ⟨h.size, by simpa [hb] using h.nodup, fun _ => ?_, by simpa [hb] using h.bound,
        h.count⟩
      rw [groupBlocks_logWrite, Finset.insert_eq_of_mem hmem]
      simpa [hb] using hg
    · refine ⟨h.size, ?_, fun _ => ?_, ?_, h.count⟩
      · simpa [hb] using h.nodup.concat hb
      · rw [groupBlocks_logWrite, ← hg]
        ext x
        simp [hb]
      · simp only [if_neg hb, List.length_append, List.length_singleton]
        omega

theorem inv_endOp {op : ℕ} (h : Inv tr s) (hst : step s (.endOp op) = some t) :
    Inv (tr ++ [.endOp op]) t := by
  simp only [step] at hst
  split_ifs at hst with hc
  push Not at hc
  have hcount : s.log.outstanding - 1 = (s.active.erase op).length := by
    rw [List.length_erase_of_mem hc.2, h.count]
  have hg : s.panicked = none → s.log.lh.toFinset = groupBlocks (tr ++ [.endOp op]) := by
    rw [groupBlocks_endOp]
    exact h.group
  rcases hw : s.log.endOp with p | ⟨l, c⟩
  · rw [hw] at hst
    cases hst
    exact ⟨h.size, h.nodup, fun hn => by simp at hn, h.bound, h.count⟩
  · rw [hw] at hst
    cases hst
    obtain ⟨-, rfl⟩ := Log.endOp_ok hw
    exact ⟨h.size, h.nodup, hg, h.bound, hcount⟩

theorem inv_commitDone (h : Inv tr s) (hst : step s .commitDone = some t) :
    Inv (tr ++ [.commitDone]) t := by
  simp only [step] at hst
  split_ifs at hst with hc
  cases hst
  exact ⟨h.size, List.nodup_nil, fun _ => by simp [Log.commitDone], Nat.zero_le _, h.count⟩

theorem inv_run (h : Run Steps (init mkfsSuperblock) tr s) : Inv tr s := by
  induction h with
  | nil => exact inv_init
  | @snoc t u tr e _ hlast ih =>
    cases e with
    | beginOp op => exact inv_beginOp ih hlast
    | logWrite op b => exact inv_logWrite ih hlast
    | endOp op => exact inv_endOp ih hlast
    | commitDone => exact inv_commitDone ih hlast

/-! ### When `log_write` refuses -/

/-- `log_write` runs out of room exactly when `LOGSIZE - 1` distinct blocks
are logged: one less than `begin_op` hands out. -/
theorem logWrite_tooBig_iff {b : ℕ} (h : Inv tr s) (hp : s.panicked = none) :
    s.log.logWrite b = .error .tooBig ↔ logSize - 1 ≤ (groupBlocks tr).card := by
  have hsize := h.size
  rw [← h.length_lh hp]
  unfold Log.logWrite
  constructor
  · intro hw
    split_ifs at hw
    · omega
    · cases hw
  · intro hle
    rw [if_pos (by omega)]

/-- A call that takes place finds the kernel running. -/
theorem running_of_step {e : Ev} (hst : step s e = some t) : s.panicked = none := by
  cases e <;> simp only [step] at hst <;> split_ifs at hst with hc <;> push Not at hc <;>
    simpa using hc.1

/-- Only a `log_write` without room ends in "too big a transaction". -/
theorem panicked_of_step {e : Ev} (h : Inv tr s) (hst : step s e = some t) :
    t.panicked = some .tooBig ↔
      ∃ op b, e = .logWrite op b ∧ logSize - 1 ≤ (groupBlocks tr).card := by
  have hp := running_of_step hst
  cases e with
  | beginOp op =>
    simp only [step] at hst
    split_ifs at hst
    obtain ⟨l, -, rfl⟩ := Option.map_eq_some_iff.mp hst
    simp [hp]
  | logWrite op b =>
    have hbig := logWrite_tooBig_iff (b := b) h hp
    simp only [step] at hst
    split_ifs at hst
    rcases hw : s.log.logWrite b with p | l
    · rw [hw] at hst hbig
      cases hst
      simpa using hbig
    · rw [hw] at hst hbig
      cases hst
      simpa [hp] using hbig
  | endOp op =>
    simp only [step] at hst
    split_ifs at hst
    rcases hw : s.log.endOp with p | ⟨l, c⟩
    · rw [hw] at hst
      cases hst
      unfold Log.endOp at hw
      simp only at hw
      split_ifs at hw
      cases hw
      simp
    · rw [hw] at hst
      cases hst
      simp [hp]
  | commitDone =>
    simp only [step] at hst
    split_ifs at hst
    cases hst
    simp [hp]

theorem panicked_of_run (h : Run Steps (init mkfsSuperblock) tr s) :
    s.panicked = some .tooBig ↔
      ∃ pre op b, (pre ++ [.logWrite op b]) <+: tr ∧ logSize - 1 ≤ (groupBlocks pre).card := by
  induction h with
  | nil => simp [init]
  | @snoc t u tr e hrun hlast ih =>
    have hp : t.panicked = none := running_of_step hlast
    rw [panicked_of_step (inv_run hrun) hlast]
    constructor
    · rintro ⟨op, b, rfl, hcard⟩
      exact ⟨tr, op, b, List.prefix_rfl, hcard⟩
    · rintro ⟨pre, op, b, hpre, hcard⟩
      rcases List.prefix_concat_iff.mp hpre with heq | hold
      · obtain ⟨rfl, he⟩ := List.append_inj' heq rfl
        exact ⟨op, b, (List.singleton_inj.mp he).symm, hcard⟩
      · -- an earlier call had stopped the kernel, yet it takes one more
        have := ih.mpr ⟨pre, op, b, hold, hcard⟩
        rw [hp] at this
        cases this

/-- **When the reservation is enough.**  For every interleaving on an image of
the repository's own builder: `log_write` never panics with "too big a
transaction" and the logged blocks fit after the header, if and only if no
`log_write` is issued with `LOGSIZE - 1` distinct blocks already logged in
its commit group. -/
theorem log_write_safe_iff (tr : List Ev) (s : State)
    (h : Run Steps (init mkfsSuperblock) tr s) :
    (s.panicked ≠ some .tooBig ∧ s.log.lh.length ≤ s.log.size - 1) ↔
      ∀ pre op b, (pre ++ [.logWrite op b]) <+: tr →
        (groupBlocks pre).card < logSize - 1 := by
  have hinv := inv_run h
  have hbound : s.log.lh.length ≤ s.log.size - 1 := by
    rw [hinv.size]
    exact hinv.bound
  rw [Ne, panicked_of_run h]
  constructor
  · rintro ⟨hno, -⟩ pre op b hpre
    by_contra hcard
    exact hno ⟨pre, op, b, hpre, by omega⟩
  · intro hall
    refine ⟨?_, hbound⟩
    rintro ⟨pre, op, b, hpre, hcard⟩
    have := hall pre op b hpre
    omega

/-- One operation that logs one block twice, and its commit. -/
theorem log_write_safe_iff_one_op :
    ∃ tr s, Run Steps (init mkfsSuperblock) tr s ∧ s.log.lh = [] ∧
      ∀ pre op b, (pre ++ [.logWrite op b]) <+: tr → (groupBlocks pre).card < logSize - 1 := by
  let tr : List Ev := [.beginOp 0, .logWrite 0 45, .logWrite 0 45, .endOp 0, .commitDone]
  have hexec : (tr.foldlM step (init mkfsSuperblock)).map (fun s => (s.panicked, s.log))
      = some (none, Log.initlog mkfsSuperblock) := by rfl
  obtain ⟨s, hrun, hlog⟩ : ∃ s, Run Steps (init mkfsSuperblock) tr s ∧
      (s.panicked, s.log) = (none, Log.initlog mkfsSuperblock) := Run.of_foldlM_map id tr hexec
  obtain ⟨hp, hl⟩ := Prod.mk.inj hlog
  refine ⟨tr, s, hrun, by rw [hl]; rfl, (log_write_safe_iff tr s hrun).mp ⟨?_, ?_⟩⟩
  · simp [hp]
  · rw [hl]
    exact Nat.zero_le _

/-- Three operations begin, then each log_writes ten blocks of its own. -/
def threeOps : List Ev :=
  [.beginOp 0, .beginOp 1, .beginOp 2] ++
    (List.range 30).map fun i => .logWrite (i / 10) (100 + i)

theorem threeOps_withinBudget : WithinBudget threeOps := by
  intro op
  rcases op with _ | _ | _ | op
  · decide
  · decide
  · decide
  · have hnone : opBlocks threeOps (op + 3) = ∅ := by rfl
    rw [hnone]
    exact Nat.zero_le _

/-- **The reservation is one block short**: three operations that `begin_op`
admits together, each within its budget of `MAXOPBLOCKS` blocks, make
`log_write` panic at the thirtieth block. -/
theorem log_reservation_insufficient :
    ¬ ∀ tr s, Run Steps (init mkfsSuperblock) tr s → WithinBudget tr →
      s.panicked ≠ some .tooBig ∧ s.log.lh.length ≤ s.log.size - 1 := by
  intro hclaim
  have hexec : (threeOps.foldlM step (init mkfsSuperblock)).map (·.panicked)
      = some (some .tooBig) := by rfl
  obtain ⟨s, hrun, hp⟩ : ∃ s, Run Steps (init mkfsSuperblock) threeOps s ∧
      s.panicked = some .tooBig := Run.of_foldlM_map id threeOps hexec
  exact (hclaim threeOps s hrun threeOps_withinBudget).1 hp

end LogOps

/-! ### Sleeping in `begin_op`

An `end_op` that leaves others outstanding wakes the sleepers; the last one does
not, but starts a commit, at whose end they are woken. -/

open Lib

/-- The log, the processes between `begin_op` and `end_op`, and the one that
commits. -/
structure LogShared where
  log : Log
  ops : List ℕ
  committer : Option ℕ

namespace LogShared

/-- `commit` is the end of an `end_op` that commits.  What `commit` does without
the lock nobody sees, since `committing` is set.  A panic is no step. -/
inductive Call
  | beginOp
  | logWrite (blockno : ℕ)
  | endOp
  | commit

def body : Monitor.Body LogShared Call ℕ
  | p, .beginOp, s =>
      if p ∈ s.ops ∨ s.committer = some p then none
      else some (match s.log.beginOp with
        | none => .sleeps
        | some l => .returns { s with log := l, ops := p :: s.ops } false)
  | p, .logWrite b, s =>
      if p ∈ s.ops then
        (s.log.logWrite b).toOption.map fun l => .returns { s with log := l } false
      else none
  | p, .endOp, s =>
      if p ∈ s.ops then
        s.log.endOp.toOption.map fun (l, doCommit) =>
          .returns ⟨l, s.ops.erase p, if doCommit then some p else s.committer⟩ !doCommit
      else none
  | p, .commit, s =>
      if s.committer = some p then
        some (.returns { s with log := s.log.commitDone, committer := none } true)
      else none

/-- `q` is not inside and would sleep in `begin_op`. -/
def Waits (s : LogShared) (q : ℕ) : Prop :=
  q ∉ s.ops ∧ s.committer ≠ some q ∧ s.log.beginOp = none

/-- `outstanding` counts the operations, `committing` is set for the committer,
who is alone, and a log that nobody uses is empty. -/
structure Inv (s : LogShared) : Prop where
  count : s.log.outstanding = s.ops.length
  committing : s.log.committing = s.committer.isSome
  alone : s.committer ≠ none → s.ops = []
  idle : s.ops = [] → s.committer = none → s.log.lh = []

variable {p : ℕ} {e : Call} {s s' : LogShared} {w : Bool}

theorem beginOp_eq_none_iff {l : Log} : l.beginOp = none ↔
    l.committing = true ∨ logSize < l.lh.length + (l.outstanding + 1) * maxOpBlocks := by
  unfold Log.beginOp
  split_ifs <;> simp_all

theorem body_sleeps_iff : body p e s = some .sleeps ↔ e = .beginOp ∧ s.Waits p := by
  cases e with
  | beginOp =>
    simp only [body, Waits]
    split_ifs
    · simp only [false_iff]
      tauto
    · rcases s.log.beginOp <;> simp_all
  | logWrite b | endOp | commit => simp [body]

theorem Inv.committer_eq_none (h : s.Inv) (hp : p ∈ s.ops) : s.committer = none := by
  by_contra hc
  rw [h.alone hc] at hp
  cases hp

theorem Inv.returns (h : s.Inv) (hbody : body p e s = some (.returns s' w)) :
    s'.Inv ∧ (w = false → ∀ q, s.Waits q → s'.Waits q) := by
  cases e with
  | beginOp =>
    simp only [body] at hbody
    split_ifs at hbody
    rcases hl : s.log.beginOp with _ | l <;> rw [hl] at hbody <;> cases hbody
    obtain ⟨hfree, rfl⟩ := Log.beginOp_some hl
    have hnone : s.committer = none := by simpa [hfree] using h.committing
    refine ⟨⟨by simp [h.count], h.committing, fun hc => absurd hnone hc, ?_⟩, fun _ q hq => ?_⟩
    · rintro ⟨⟩
    -- `q` has the room that `p` has found
    · exact absurd (hl.symm.trans hq.2.2) (by simp)
  | logWrite b =>
    simp only [body] at hbody
    split_ifs at hbody with hp
    rcases hl : s.log.logWrite b with _ | l <;> rw [hl] at hbody <;> cases hbody
    obtain ⟨-, -, rfl⟩ := Log.logWrite_ok hl
    refine ⟨⟨h.count, h.committing, h.alone, ?_⟩, fun _ q hq => ?_⟩
    · exact fun hops => absurd hops (List.ne_nil_of_mem hp)
    refine ⟨hq.1, hq.2.1, beginOp_eq_none_iff.mpr ?_⟩
    refine (beginOp_eq_none_iff.mp hq.2.2).imp_right fun hfull => hfull.trans_le ?_
    dsimp only
    split_ifs <;> simp
  | endOp =>
    simp only [body] at hbody
    split_ifs at hbody with hp
    rcases hl : s.log.endOp with _ | ⟨l, c⟩ <;> rw [hl] at hbody <;> cases hbody
    obtain ⟨hc, rfl⟩ := Log.endOp_ok hl
    have hnone := h.committer_eq_none hp
    have hlen := List.length_erase_of_mem hp
    have hlast : c = true ↔ s.ops.erase p = [] := by
      rw [hc, h.count, ← List.length_eq_zero_iff, hlen, decide_eq_true_iff]
    constructor
    · refine ⟨by simp [h.count, hlen], ?_, ?_, ?_⟩ <;> rcases c with - | - <;> simp_all
    · intro hw q hq
      obtain rfl : c = true := by simpa using hw
      have hne : p ≠ q := fun heq => hq.1 (heq ▸ hp)
      exact ⟨fun hmem => hq.1 (List.mem_of_mem_erase hmem), by simpa using hne, rfl⟩
  | commit =>
    simp only [body] at hbody
    split_ifs at hbody with hp
    cases hbody
    exact ⟨⟨h.count, rfl, fun hc => absurd rfl hc, fun _ _ => rfl⟩, by rintro ⟨⟩⟩

theorem rules : Monitor.Rules body Inv := by
  intro p e s s' w h hbody
  obtain ⟨hinv, hwaits⟩ := h.returns hbody
  refine ⟨hinv, fun hw q e' hq => ?_⟩
  rw [body_sleeps_iff] at hq ⊢
  exact hq.imp_right (hwaits hw q)

end LogShared

/-- **Whoever sleeps in `begin_op` waits for another process**, and no `end_op`
panics. -/
theorem begin_op_waits {sb : Superblock} {tr : List (Monitor.Act LogShared.Call ℕ)}
    {m : Monitor LogShared LogShared.Call ℕ}
    (hrun : Run (Monitor.Step LogShared.body) (.start ⟨.initlog sb, [], none⟩) tr m) :
    (∀ p ∈ m.shared.ops, m.shared.log.endOp ≠ .error .committing) ∧
      ∀ p e, m.place p = .asleep e →
        ∃ q ≠ p, q ∈ m.shared.ops ∨ m.shared.committer = some q := by
  obtain ⟨hinv, hasleep⟩ := Monitor.sound_of_run LogShared.rules
    ⟨rfl, rfl, fun _ => rfl, fun _ _ => rfl⟩ hrun
  refine ⟨fun p hp => ?_, fun p e hp => ?_⟩
  · unfold Log.endOp
    simp only [hinv.committing, hinv.committer_eq_none hp]
    split_ifs <;> simp_all
  · obtain ⟨-, hops, hcom, hfull⟩ := LogShared.body_sleeps_iff.mp (hasleep hp)
    rcases hl : m.shared.ops with - | ⟨q, ops⟩
    · rcases hc : m.shared.committer with - | q
      -- a log nobody uses has room
      · rw [LogShared.beginOp_eq_none_iff, hinv.idle hl hc, hinv.count, hinv.committing] at hfull
        simp [hl, hc, logSize, maxOpBlocks] at hfull
      · exact ⟨q, fun heq => hcom (heq ▸ hc), .inr rfl⟩
    · exact ⟨q, fun heq => hops (by simp [hl, heq]), .inl List.mem_cons_self⟩

/-- Three operations fill the log, and the fourth waits. -/
theorem begin_op_waits_four :
    ∃ m : Monitor LogShared LogShared.Call ℕ, m.place 4 = .asleep .beginOp ∧
      ∃ q ≠ 4, q ∈ m.shared.ops ∨ m.shared.committer = some q := by
  obtain ⟨m, hrun, hm⟩ := Monitor.exists_run LogShared.body ⟨.initlog mkfsSuperblock, [], none⟩ 4
    [.call 1 .beginOp, .call 2 .beginOp, .call 3 .beginOp, .call 4 .beginOp] rfl
  exact ⟨m, hm, (begin_op_waits hrun).2 4 _ hm⟩

end Xv6Zig
