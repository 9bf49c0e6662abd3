/-
Xv6Zig/LogGroups.lean

Commit groups, and crash atomicity of the log.

`history` reads the commit groups off a trace: the updates log_written since
the last group, closed by the first `write_head` of a commit and dropped when
the machine goes down before it.  `Whole` follows operations through a run:
`commit` only runs while nobody is inside an operation, so a group that gets
committed has the whole of each of its operations.

Main result: `crash_atomicity`.
-/
import Xv6Zig.Lib.Run
import Xv6Zig.Lib.Updates
import Xv6Zig.LogRefines

namespace Xv6Zig.LogCrash

open Lib

variable {sb : Superblock} {s t : State}

/-! ### Commit groups -/

/-- One `log_write`. -/
structure Update where
  op : ℕ
  blockno : ℕ
  data : Block

/-- The committed groups, oldest first, and the group that is still open. -/
structure History where
  groups : List (List Update)
  pending : List Update

def History.record (h : History) : Ev → History
  | .logWrite op b d => { h with pending := h.pending ++ [⟨op, b, d⟩] }
  | .writeHead => ⟨h.groups ++ [h.pending], []⟩
  | .crash => { h with pending := [] }
  | _ => h

def history (tr : List Ev) : History :=
  tr.foldl History.record ⟨[], []⟩

/-- The updates of operation `op` in a trace. -/
def updatesOf (op : ℕ) (tr : List Ev) : List Update :=
  tr.filterMap fun e => match e with
    | .logWrite o b d => if o = op then some ⟨o, b, d⟩ else none
    | _ => none

/-- The disk after a list of updates. -/
def applyUpdates (disk : ℕ → Block) (us : List Update) : ℕ → Block :=
  Lib.applyUpdates disk (us.map fun u => (u.blockno, u.data))

/-- The disk after whole groups, in order. -/
def applyGroups (disk : ℕ → Block) (gs : List (List Update)) : ℕ → Block :=
  applyUpdates disk gs.flatten

@[simp] theorem history_concat (tr : List Ev) (e : Ev) :
    history (tr ++ [e]) = (history tr).record e := by
  simp [history]

theorem updatesOf_concat (op : ℕ) (tr : List Ev) (e : Ev) :
    updatesOf op (tr ++ [e]) = updatesOf op tr ++ updatesOf op [e] := by
  simp [updatesOf]

theorem applyUpdates_append (disk : ℕ → Block) (us vs : List Update) :
    applyUpdates disk (us ++ vs) = applyUpdates (applyUpdates disk us) vs := by
  unfold applyUpdates
  rw [List.map_append, Lib.applyUpdates_append]

/-- What the specification's disk holds after a trace. -/
def specAfter (disk : ℕ → Block) (tr : List Ev) : Spec where
  durable := applyGroups disk (history tr).groups
  current := applyUpdates (applyGroups disk (history tr).groups) (history tr).pending

theorem specAfter_concat (disk : ℕ → Block) (tr : List Ev) (e : Ev) :
    specAfter disk (tr ++ [e]) = (specAfter disk tr).step e := by
  unfold specAfter
  rw [history_concat]
  cases e with
  | logWrite op b d =>
    simp only [History.record, Spec.step, applyUpdates, List.map_append, List.map_cons,
      List.map_nil, Lib.applyUpdates_concat]
  | writeHead =>
    simp only [History.record, Spec.step, applyGroups, List.flatten_append, List.flatten_singleton,
      applyUpdates_append]
    rfl
  | crash => rfl
  | _ => rfl

theorem refines_init (hsb : 0 < sb.nlog) {disk : ℕ → Block}
    (hclean : readHead (disk sb.logstart) = []) :
    Refines sb (init sb disk) (specAfter disk []) := by
  refine ⟨rfl, rfl, hsb, fun b hb => absurd rfl hb, ⟨?_, ?_, ?_, ?_, ?_⟩, rfl, fun _ => rfl, fun _ => rfl⟩
  · exact hclean.symm ▸ List.nodup_nil
  · intro b hb
    exact absurd (hclean ▸ hb) List.not_mem_nil
  · exact hclean.symm ▸ hsb
  · intro i b hb
    exact nomatch (hclean ▸ hb)
  · exact fun b _ _ => rfl

/-- **The machine implements a disk with atomic groups**, over every run. -/
theorem refines_run (hsb : 0 < sb.nlog) {disk : ℕ → Block}
    (hclean : readHead (disk sb.logstart) = []) {tr : List Ev}
    (h : Run Steps (init sb disk) tr s) : Refines sb s (specAfter disk tr) := by
  induction h with
  | nil => exact refines_init hsb hclean
  | snoc _ hlast ih =>
    rw [specAfter_concat]
    exact refines_step ih hlast

/-! ### Groups hold whole operations -/

/-- A process is inside `commit`. -/
def Phase.committing : Phase → Bool
  | .writeLog _ | .install _ | .committed => true
  | _ => false

/-- Only `begin_op`, `end_op` and a crash change who is in an operation, and
`commit` starts in `end_op` only. -/
theorem step_frame {e : Ev} (hst : step s e = some t) (hbegin : ∀ op, e ≠ .beginOp op)
    (hend : ∀ op, e ≠ .endOp op) (hcrash : e ≠ .crash) :
    t.active = s.active ∧ t.begun = s.begun ∧ t.log.outstanding = s.log.outstanding ∧
      (t.phase.committing → s.phase.committing) := by
  cases e with
  | beginOp op => exact absurd rfl (hbegin op)
  | endOp op => exact absurd rfl (hend op)
  | crash => exact absurd rfl hcrash
  | bread op b | modify op b d | brelse op b | fill b | evict b =>
    simp only [step] at hst
    split_ifs at hst
    cases hst
    exact ⟨rfl, rfl, rfl, id⟩
  | logWrite op b d =>
    simp only [step] at hst
    split_ifs at hst
    rcases hw : s.log.logWrite b with p | l
    · rw [hw] at hst
      cases hst
    · rw [hw] at hst
      cases hst
      obtain ⟨-, -, rfl⟩ := Log.logWrite_ok hw
      exact ⟨rfl, rfl, rfl, id⟩
  | writeLog | installTrans =>
    simp only [step] at hst
    split at hst
    case h_2 => cases hst
    rename_i tail hp
    split at hst
    case h_2 => cases hst
    split_ifs at hst
    cases hst
    exact ⟨rfl, rfl, rfl, fun _ => by rw [hp]; rfl⟩
  | writeHead | clearHead =>
    simp only [step] at hst
    split at hst
    case h_2 => cases hst
    rename_i tail hp
    split_ifs at hst
    cases hst
    exact ⟨rfl, rfl, rfl, fun _ => by rw [hp]; rfl⟩
  | commitDone =>
    simp only [step] at hst
    split_ifs at hst with hp
    cases hst
    exact ⟨rfl, rfl, rfl, fun _ => by rw [hp]; rfl⟩
  | reboot =>
    simp only [step] at hst
    split_ifs at hst
    cases hst
    exact ⟨rfl, rfl, rfl, fun h => by cases h⟩
  | recoverTrans =>
    simp only [step] at hst
    split at hst
    case h_2 => cases hst
    split at hst
    case h_2 => cases hst
    cases hst
    exact ⟨rfl, rfl, rfl, fun h => by cases h⟩
  | recoverDone =>
    simp only [step] at hst
    split at hst
    case h_2 => cases hst
    split_ifs at hst
    cases hst
    exact ⟨rfl, rfl, rfl, fun h => by cases h⟩

/-- Every group committed so far holds operations that had ended, with all
their updates; none of them runs any more. -/
def Committed (tr : List Ev) (s : State) : Prop :=
  ∀ pre, (pre ++ [.writeHead]) <+: tr → ∀ u ∈ (history pre).pending,
    .endOp u.op ∈ pre ∧
    updatesOf u.op tr = (history pre).pending.filter (·.op = u.op) ∧
    u.op ∈ s.begun ∧ u.op ∉ s.active

structure Whole (tr : List Ev) (s : State) : Prop where
  count : s.log.outstanding = s.active.length
  idle : s.phase.committing → s.active = []
  begun : ∀ op ∈ s.active, op ∈ s.begun
  fresh : ∀ op, op ∉ s.begun → updatesOf op tr = []
  ended : ∀ u ∈ (history tr).pending, u.op ∈ s.active ∨ .endOp u.op ∈ tr
  /-- The operations of the open group have all their updates in it. -/
  whole : ∀ op, (op ∈ s.active ∨ ∃ u ∈ (history tr).pending, u.op = op) →
    updatesOf op tr = (history tr).pending.filter (·.op = op)
  committed : Committed tr s

theorem whole_init (sb : Superblock) (disk : ℕ → Block) : Whole [] (init sb disk) where
  count := rfl
  idle := fun _ => rfl
  begun := fun _ h => absurd h List.not_mem_nil
  fresh := fun _ _ => rfl
  ended := fun _ h => absurd h List.not_mem_nil
  whole := fun _ _ => rfl
  committed := fun pre hpre => by simp at hpre

variable {tr : List Ev}

theorem Whole.pending_begun (h : Whole tr s) {u : Update} (hu : u ∈ (history tr).pending) :
    u.op ∈ s.begun := by
  by_contra hnot
  have hall := h.whole u.op (.inr ⟨u, hu, rfl⟩)
  rw [h.fresh _ hnot] at hall
  have : u ∈ (history tr).pending.filter (·.op = u.op) := List.mem_filter.mpr ⟨hu, by simp⟩
  rw [← hall] at this
  exact List.not_mem_nil this

theorem updatesOf_concat_eq {op : ℕ} {e : Ev} (h : ∀ b d, e ≠ .logWrite op b d) :
    updatesOf op (tr ++ [e]) = updatesOf op tr := by
  rw [updatesOf_concat]
  cases e with
  | logWrite o b d =>
    have hne : o ≠ op := fun heq => h b d (heq ▸ rfl)
    simp [updatesOf, hne]
  | _ => simp [updatesOf]

/-- Committed groups stay as they are when the operations in them write no
more. -/
theorem Committed.concat {e : Ev} (h : Committed tr s) (hne : e ≠ .writeHead)
    (hupd : ∀ op, op ∉ s.active → updatesOf op (tr ++ [e]) = updatesOf op tr)
    (hbegun : ∀ op ∈ s.begun, op ∈ t.begun)
    (hactive : ∀ op ∈ s.begun, op ∉ s.active → op ∉ t.active) :
    Committed (tr ++ [e]) t := by
  intro pre hpre u hu
  rcases List.prefix_concat_iff.mp hpre with heq | hold
  · obtain ⟨-, he⟩ := List.append_inj' heq rfl
    exact absurd (List.singleton_inj.mp he).symm hne
  · obtain ⟨hend, hall, hb, ha⟩ := h pre hold u hu
    rw [hupd u.op ha]
    exact ⟨hend, hall, hbegun _ hb, hactive _ hb ha⟩

theorem whole_beginOp {op : ℕ} (h : Whole tr s) (hst : step s (.beginOp op) = some t) :
    Whole (tr ++ [.beginOp op]) t := by
  simp only [step] at hst
  split_ifs at hst with hc
  push Not at hc
  obtain ⟨hp, hnew⟩ := hc
  obtain ⟨l, hl, rfl⟩ := Option.map_eq_some_iff.mp hst
  obtain ⟨-, rfl⟩ := Log.beginOp_some hl
  have hupd : ∀ o, updatesOf o (tr ++ [.beginOp op]) = updatesOf o tr := fun o =>
    updatesOf_concat_eq (by rintro b d ⟨⟩)
  have hhist : history (tr ++ [.beginOp op]) = history tr := by
    rw [history_concat]
    rfl
  refine ⟨?_, ?_, ?_, ?_, ?_, ?_, ?_⟩
  · simpa using h.count
  · intro hcom
    rw [show ({ s with log := _, begun := _, active := _ } : State).phase = s.phase from rfl,
      hp] at hcom
    cases hcom
  · intro o ho
    rcases List.mem_cons.mp ho with rfl | ho
    · exact List.mem_cons_self
    · exact List.mem_cons_of_mem _ (h.begun o ho)
  · intro o ho
    rw [hupd]
    exact h.fresh o fun hin => ho (List.mem_cons_of_mem _ hin)
  · intro u hu
    rw [hhist] at hu
    rcases h.ended u hu with ha | he
    · exact .inl (List.mem_cons_of_mem _ ha)
    · exact .inr (List.mem_append_left _ he)
  · intro o ho
    rw [hupd, hhist]
    rw [hhist] at ho
    by_cases hoo : o = op
    · -- a new operation has no updates, and none of the open group's are its own
      subst hoo
      rw [h.fresh o hnew, eq_comm, List.filter_eq_nil_iff]
      intro u hu
      simp only [decide_eq_true_eq]
      exact fun heq => hnew (heq ▸ h.pending_begun hu)
    · apply h.whole o
      rcases ho with ha | hu
      · exact .inl ((List.mem_cons.mp ha).resolve_left hoo)
      · exact .inr hu
  · refine h.committed.concat (by rintro ⟨⟩) ?_ ?_ ?_
    · exact fun o _ => hupd o
    · exact fun o ho => List.mem_cons_of_mem _ ho
    · intro o hb ha hin
      rcases List.mem_cons.mp hin with rfl | hin
      · exact hnew hb
      · exact ha hin

theorem whole_logWrite {op b : ℕ} {d : Block} (h : Whole tr s)
    (hst : step s (.logWrite op b d) = some t) : Whole (tr ++ [.logWrite op b d]) t := by
  obtain ⟨hact, hbeg, hout, hcom⟩ := step_frame hst (by rintro _ ⟨⟩) (by rintro _ ⟨⟩) (by rintro ⟨⟩)
  have hop : op ∈ s.active := by
    simp only [step] at hst
    split_ifs at hst with hc
    exact hc.2.1
  have hother : ∀ o, o ≠ op → updatesOf o (tr ++ [.logWrite op b d]) = updatesOf o tr := by
    intro o ho
    apply updatesOf_concat_eq
    rintro b' d' heq
    cases heq
    exact ho rfl
  have hself : updatesOf op (tr ++ [.logWrite op b d]) = updatesOf op tr ++ [⟨op, b, d⟩] := by
    rw [updatesOf_concat]
    simp [updatesOf]
  have hhist : (history (tr ++ [.logWrite op b d])).pending
      = (history tr).pending ++ [⟨op, b, d⟩] := by
    rw [history_concat]
    rfl
  refine ⟨?_, ?_, ?_, ?_, ?_, ?_, ?_⟩
  · rw [hout, hact]
    exact h.count
  · intro hc
    rw [hact]
    exact h.idle (hcom hc)
  · rw [hact, hbeg]
    exact h.begun
  · intro o ho
    rw [hbeg] at ho
    rw [hother o fun heq => ho (heq ▸ h.begun op hop)]
    exact h.fresh o ho
  · intro u hu
    rw [hhist] at hu
    rw [hact]
    rcases List.mem_append.mp hu with hu | hu
    · exact (h.ended u hu).imp_right (List.mem_append_left _)
    · rw [List.mem_singleton.mp hu]
      exact .inl hop
  · intro o ho
    rw [hact, hhist] at ho
    rw [hhist, List.filter_append]
    by_cases hoo : o = op
    · subst hoo
      rw [hself, h.whole o (.inl hop)]
      simp
    · have hnone : ([⟨op, b, d⟩] : List Update).filter (·.op = o) = [] := by
        simp [Ne.symm hoo]
      rw [hother o hoo, hnone, List.append_nil]
      apply h.whole o
      refine ho.imp_right ?_
      rintro ⟨u, hu, rfl⟩
      rcases List.mem_append.mp hu with hu | hu
      · exact ⟨u, hu, rfl⟩
      · exact absurd (by rw [List.mem_singleton.mp hu]) hoo
  · refine h.committed.concat (by rintro ⟨⟩) ?_ ?_ ?_
    · intro o ho
      exact hother o fun heq => ho (heq ▸ hop)
    · rw [hbeg]
      exact fun _ => id
    · rw [hact]
      exact fun _ _ => id

/-- A step that leaves the open group as it is, and begins no operation. -/
theorem Whole.of_kept {e : Ev} (h : Whole tr s) (hlw : ∀ op b d, e ≠ .logWrite op b d)
    (hwh : e ≠ .writeHead) (hcrash : e ≠ .crash) (hbeg : t.begun = s.begun)
    (hact : ∀ op ∈ t.active, op ∈ s.active) (hcount : t.log.outstanding = t.active.length)
    (hidle : t.phase.committing → t.active = [])
    (hended : ∀ op ∈ s.active, op ∈ t.active ∨ .endOp op ∈ tr ++ [e]) : Whole (tr ++ [e]) t := by
  have hupd : ∀ o, updatesOf o (tr ++ [e]) = updatesOf o tr := fun o =>
    updatesOf_concat_eq (hlw o)
  have hhist : history (tr ++ [e]) = history tr := by
    rw [history_concat]
    cases e with
    | logWrite op b d => exact absurd rfl (hlw op b d)
    | writeHead => exact absurd rfl hwh
    | crash => exact absurd rfl hcrash
    | _ => rfl
  refine ⟨hcount, hidle, fun o ho => hbeg ▸ h.begun o (hact o ho), fun o ho => ?_, fun u hu => ?_,
    fun o ho => ?_, ?_⟩
  · rw [hupd]
    exact h.fresh o (hbeg ▸ ho)
  · rw [hhist] at hu
    exact (h.ended u hu).elim (hended _) fun he => .inr (List.mem_append_left _ he)
  · rw [hhist] at ho ⊢
    rw [hupd]
    exact h.whole o (ho.imp_left (hact o))
  · exact h.committed.concat hwh (fun o _ => hupd o) (fun o ho => hbeg ▸ ho)
      fun o _ ha hin => ha (hact o hin)

/-- A step after which nobody is in an operation and no group is open. -/
theorem Whole.of_emptied {e : Ev} (h : Whole tr s) (hlw : ∀ op b d, e ≠ .logWrite op b d)
    (hbeg : t.begun = s.begun) (hact : t.active = []) (hout : t.log.outstanding = 0)
    (hhist : (history (tr ++ [e])).pending = []) (hcommitted : Committed (tr ++ [e]) t) :
    Whole (tr ++ [e]) t := by
  refine ⟨by rw [hout, hact]; rfl, fun _ => hact, fun o ho => ?_, fun o ho => ?_, fun u hu => ?_,
    ?_, hcommitted⟩
  · exact absurd (hact ▸ ho) List.not_mem_nil
  · rw [updatesOf_concat_eq (hlw o)]
    exact h.fresh o (hbeg ▸ ho)
  · exact absurd (hhist ▸ hu) List.not_mem_nil
  · rintro o (ha | ⟨u, hu, -⟩)
    · exact absurd (hact ▸ ha) List.not_mem_nil
    · exact absurd (hhist ▸ hu) List.not_mem_nil

theorem whole_endOp {op : ℕ} (h : Whole tr s) (hst : step s (.endOp op) = some t) :
    Whole (tr ++ [.endOp op]) t := by
  have hinv : op ∈ s.active ∧ t.active = s.active.erase op ∧ t.begun = s.begun ∧
      t.log.outstanding = s.log.outstanding - 1 ∧
      (t.phase.committing → s.log.outstanding - 1 = 0) := by
    simp only [step] at hst
    split_ifs at hst with hc
    rcases hw : s.log.endOp with p | ⟨l, c⟩
    · rw [hw] at hst
      cases hst
    rw [hw] at hst
    obtain ⟨hcval, rfl⟩ := Log.endOp_ok hw
    rcases c with - | -
    · cases hst
      refine ⟨hc.2, rfl, rfl, rfl, ?_⟩
      intro hcom
      change s.phase.committing = true at hcom
      rw [hc.1] at hcom
      cases hcom
    · cases hst
      exact ⟨hc.2, rfl, rfl, rfl, fun _ => by simpa using hcval.symm⟩
  obtain ⟨hop, hact, hbeg, hout, hcom⟩ := hinv
  -- `commit` starts when the last one leaves
  have hlen : (s.active.erase op).length = s.log.outstanding - 1 := by
    rw [List.length_erase_of_mem hop, h.count]
  refine h.of_kept (by rintro _ _ _ ⟨⟩) (by rintro ⟨⟩) (by rintro ⟨⟩) hbeg
    (fun o ho => List.mem_of_mem_erase (hact ▸ ho)) (by rw [hout, hact, hlen]) ?_ ?_
  · intro hc
    rw [hact]
    exact List.length_eq_zero_iff.mp (hlen.trans (hcom hc))
  · intro o ho
    rw [hact]
    by_cases hoo : o = op
    · exact .inr (by simp [hoo])
    · exact .inl ((List.mem_erase_of_ne hoo).mpr ho)

theorem whole_writeHead (h : Whole tr s) (hst : step s .writeHead = some t) :
    Whole (tr ++ [.writeHead]) t := by
  obtain ⟨hact, hbeg, hout, hcom⟩ := step_frame hst (by rintro _ ⟨⟩) (by rintro _ ⟨⟩) (by rintro ⟨⟩)
  have hidle : s.active = [] := by
    apply h.idle
    simp only [step] at hst
    split at hst
    case h_2 => cases hst
    rename_i tail hp
    rw [hp]
    rfl
  refine h.of_emptied (by rintro _ _ _ ⟨⟩) hbeg (hact.trans hidle)
    (by rw [hout, h.count, hidle]; rfl) (by rw [history_concat]; rfl) ?_
  intro pre hpre u hu
  rw [updatesOf_concat_eq (by rintro b d ⟨⟩), hbeg, hact]
  rcases List.prefix_concat_iff.mp hpre with heq | hold
  · -- the group committed by this very step: nobody is inside an operation
    obtain ⟨rfl, -⟩ := List.append_inj' heq rfl
    have hnot : u.op ∉ s.active := hidle ▸ List.not_mem_nil
    exact ⟨(h.ended u hu).resolve_left hnot, h.whole _ (.inr ⟨u, hu, rfl⟩),
      h.pending_begun hu, hnot⟩
  · exact h.committed pre hold u hu

theorem whole_crash (h : Whole tr s) (hst : step s .crash = some t) :
    Whole (tr ++ [.crash]) t := by
  simp only [step] at hst
  cases hst
  refine h.of_emptied (by rintro _ _ _ ⟨⟩) rfl rfl rfl (by rw [history_concat]; rfl)
    (h.committed.concat (by rintro ⟨⟩) ?_ ?_ ?_)
  · exact fun o _ => updatesOf_concat_eq (by rintro b d ⟨⟩)
  · exact fun _ => id
  · exact fun _ _ _ => List.not_mem_nil

/-- The steps that neither write to a group nor close it. -/
theorem whole_other {e : Ev} (h : Whole tr s) (hst : step s e = some t)
    (hbegin : ∀ op, e ≠ .beginOp op) (hend : ∀ op, e ≠ .endOp op) (hcrash : e ≠ .crash)
    (hlw : ∀ op b d, e ≠ .logWrite op b d) (hwh : e ≠ .writeHead) : Whole (tr ++ [e]) t := by
  obtain ⟨hact, hbeg, hout, hcom⟩ := step_frame hst hbegin hend hcrash
  refine h.of_kept hlw hwh hcrash hbeg (fun o => hact ▸ id) (by rw [hout, hact, h.count]) ?_ ?_
  · rw [hact]
    exact fun hc => h.idle (hcom hc)
  · exact fun o ho => .inl (hact ▸ ho)

theorem whole_run {disk : ℕ → Block} (h : Run Steps (init sb disk) tr s) :
    Whole tr s := by
  induction h with
  | nil => exact whole_init sb disk
  | @snoc t u tr e _ hlast ih =>
    cases e with
    | beginOp op => exact whole_beginOp ih hlast
    | logWrite op b d => exact whole_logWrite ih hlast
    | endOp op => exact whole_endOp ih hlast
    | writeHead => exact whole_writeHead ih hlast
    | crash => exact whole_crash ih hlast
    | _ => exact whole_other ih hlast nofun nofun nofun nofun nofun

/-! ### Crash atomicity -/

/-- The group closed by a `write_head` of the trace is among the groups. -/
theorem pending_mem_groups {pre : List Ev} (h : (pre ++ [.writeHead]) <+: tr) :
    (history pre).pending ∈ (history tr).groups := by
  obtain ⟨post, rfl⟩ := h
  induction post using List.reverseRecOn with
  | nil => simp [History.record]
  | append_singleton post e ih =>
    rw [← List.append_assoc, history_concat]
    cases e with
    | writeHead => exact List.mem_append_left _ ih
    | _ => exact ih

/-- **Crash atomicity.**  Whenever a recovery completes, whatever crashes and
half-done recoveries came before, every home block holds what the groups
committed so far make of the original disk, one whole group after the other.
A group whose first `write_head` was done is among them, each of its
operations had ended, and it has every update those operations ever make. -/
theorem crash_atomicity (sb : Superblock) (hsb : 0 < sb.nlog) (disk : ℕ → Block)
    (hclean : readHead (disk sb.logstart) = []) (tr : List Ev) (s : State)
    (h : Run Steps (init sb disk) (tr ++ [.recoverDone]) s) :
    (∀ b, b < sb.logstart ∨ sb.logstart + sb.nlog ≤ b →
      s.disk b = applyGroups disk (history tr).groups b) ∧
    ∀ pre, (pre ++ [.writeHead]) <+: tr →
      (history pre).pending ∈ (history tr).groups ∧
      ∀ u ∈ (history pre).pending,
        .endOp u.op ∈ pre ∧
        updatesOf u.op tr = (history pre).pending.filter (·.op = u.op) := by
  obtain ⟨t, hrun, hlast⟩ := h.of_snoc
  constructor
  · intro b hb
    have href := refines_run hsb hclean h
    have hp : s.phase = .running := by
      simp only [Steps, step] at hlast
      split at hlast
      case h_2 => cases hlast
      split_ifs at hlast
      cases hlast
      rfl
    have hhome : Home s.log b := by
      unfold Home
      rw [href.start, href.nlog]
      exact hb
    have hdurable := href.disk.rest b hhome (by
      rw [(href.opened hp).head]
      exact List.not_mem_nil)
    rw [specAfter_concat] at hdurable
    exact hdurable
  · intro pre hpre
    refine ⟨pending_mem_groups hpre, ?_⟩
    intro u hu
    obtain ⟨hend, hall, -, -⟩ := (whole_run hrun).committed pre hpre u hu
    exact ⟨hend, hall⟩

/-- Operation 1 is cut off after its commit point, and once more while it is
recovered; operation 2 is cut off before its commit point. -/
def twoCrashes : List Ev :=
  [.reboot, .recoverDone,
    .beginOp 1, .bread 1 100, .modify 1 100 (fun _ => 7), .logWrite 1 100 (fun _ => 7),
    .brelse 1 100, .endOp 1, .writeLog, .writeHead, .crash,
    .reboot, .recoverTrans, .crash, .reboot, .recoverTrans, .recoverDone,
    .beginOp 2, .bread 2 101, .modify 2 101 (fun _ => 8), .logWrite 2 101 (fun _ => 8),
    .brelse 2 101, .endOp 2, .writeLog, .crash, .reboot]

theorem crash_atomicity_two_crashes :
    ∃ s, Run Steps (init mkfsSuperblock fun _ _ => 0) (twoCrashes ++ [.recoverDone]) s ∧
      s.disk 100 0 = 7 ∧ s.disk 101 0 = 0 ∧
      applyGroups (fun _ _ => 0) (history twoCrashes).groups 100 0 = 7 ∧
      applyGroups (fun _ _ => 0) (history twoCrashes).groups 101 0 = 0 := by
  have hexec : ((twoCrashes ++ [Ev.recoverDone]).foldlM step
      (init mkfsSuperblock fun _ _ => 0)).map (fun s => (s.disk 100 0, s.disk 101 0))
        = some (7, 0) := by decide +kernel
  obtain ⟨s, hrun, hdisk⟩ : ∃ s, Run Steps (init mkfsSuperblock fun _ _ => 0)
      (twoCrashes ++ [Ev.recoverDone]) s ∧ (s.disk 100 0, s.disk 101 0) = (7, 0) :=
    Run.of_foldlM_map id _ hexec
  obtain ⟨h100, h101⟩ := Prod.mk.inj hdisk
  have hatomic := (crash_atomicity mkfsSuperblock (Nat.succ_pos 29) (fun _ _ => 0) rfl twoCrashes
    s hrun).1
  refine ⟨s, hrun, h100, h101, ?_, ?_⟩
  · rw [← hatomic 100 (.inr (by decide)), h100]
  · rw [← hatomic 101 (.inr (by decide)), h101]

end Xv6Zig.LogCrash
