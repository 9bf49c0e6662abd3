/-
Xv6Zig/LogCrash.lean

Crash recovery of the file-system log (`kernel/log.c` over `kernel/bio.c`).

The disk is an array of blocks, written one block at a time in program order:
every `bwrite` of `write_log`, `write_head`, `install_trans` and
`recover_from_log` is a step of its own, and the machine may go down between
any two of them, during recovery too.  A home block is a block outside the
log area.

In memory there is the buffer cache: a block is cached or not, a buffer may
be locked by an operation, which can then change its data, and a buffer that
is neither locked nor pinned may be evicted at any time.  `log_write` pins,
`install_trans` unpins.  Readers outside of any operation only fill the
cache.  A kernel panic stops all writes, so it is a run that takes no further
step before the machine goes down.

`Spec` says what all this is for: a disk whose updates survive in whole groups.
-/
import Mathlib.Data.Fintype.Pi
import Xv6Zig.Log

namespace Xv6Zig.LogCrash

open Function

/-! ### Blocks and the log header -/

/-- A disk block: `BSIZE / 4` words of 32 bits. -/
abbrev Block := Fin 256 → ℕ

/-- The `struct logheader` in a block: word 0 is `n`, word `i + 1` is
`block[i]`.  `read_head` copies it to memory. -/
def readHead (blk : Block) : List ℕ :=
  (List.range (blk 0)).map fun i => blk (Fin.ofNat 256 (i + 1))

/-- `write_head`: store `n` and the first `n` block numbers, keep the rest. -/
def writeHead (blk : Block) (lh : List ℕ) : Block := fun w =>
  if w.val = 0 then lh.length
  else if w.val ≤ lh.length then lh.getD (w.val - 1) 0
  else blk w

/-- What `write_head` wrote is what `read_head` reads. -/
theorem readHead_writeHead (blk : Block) (lh : List ℕ) (hlen : lh.length ≤ logSize) :
    readHead (writeHead blk lh) = lh := by
  apply List.ext_getElem
  · simp [readHead, writeHead]
  · intro i h₁ h₂
    have hw : (i + 1) % 256 = i + 1 := Nat.mod_eq_of_lt (by simp only [logSize, maxOpBlocks] at hlen; omega)
    simp only [readHead, writeHead, List.getElem_map, List.getElem_range, Fin.ofNat, hw]
    rw [if_neg (Nat.succ_ne_zero i), if_pos (Nat.succ_le_of_lt h₂), Nat.add_sub_cancel,
      List.getD_eq_getElem?_getD, List.getElem?_eq_getElem h₂]
    rfl

/-! ### The machine -/

/-- Where the process that commits or recovers is. -/
inductive Phase
  /-- The machine is down. -/
  | down
  /-- `recover_from_log`: `install_trans(1)` is about to copy log block `tail`. -/
  | recovering (tail : ℕ)
  | running
  /-- `commit`: `write_log` is about to write log block `tail`. -/
  | writeLog (tail : ℕ)
  /-- `commit`: `install_trans(0)` is about to install log block `tail`. -/
  | install (tail : ℕ)
  /-- `commit` has returned to `end_op`. -/
  | committed
  deriving DecidableEq, Repr

structure State where
  disk : ℕ → Block
  /-- The data of the valid buffers. -/
  cache : ℕ → Option Block
  /-- Who holds a buffer's lock, and whether its data was changed since it was
  last log_written. -/
  holder : ℕ → Option (ℕ × Bool)
  log : Log
  begun : List ℕ
  active : List ℕ
  phase : Phase

/-- The machine is switched on with this disk in it. -/
def init (sb : Superblock) (disk : ℕ → Block) : State where
  disk := disk
  cache := fun _ => none
  holder := fun _ => none
  log := Log.initlog sb
  begun := []
  active := []
  phase := .down

/-- What `bread` returns for a block. -/
def contents (s : State) (b : ℕ) : Block :=
  (s.cache b).getD (s.disk b)

/-- `bread`, as far as it changes the cache. -/
def bread (s : State) (b : ℕ) : State :=
  { s with cache := update s.cache b (some (contents s b)) }

/-- `bwrite` of a buffer with this data. -/
def bwrite (s : State) (b : ℕ) (d : Block) : State :=
  { s with
    disk := update s.disk b d
    cache := update s.cache b (some d) }

/-- The buffers `log_write` has pinned and `install_trans` has not unpinned. -/
def pinned (l : Log) : Phase → List ℕ
  | .running | .writeLog _ => l.lh
  | .install tail => l.lh.drop tail
  | _ => []

/-- A block outside the log area. -/
def Home (l : Log) (b : ℕ) : Prop :=
  b < l.start ∨ l.start + l.size ≤ b

instance (l : Log) (b : ℕ) : Decidable (Home l b) :=
  inferInstanceAs (Decidable (_ ∨ _))

/-! ### Steps -/

inductive Ev
  | beginOp (op : ℕ)
  /-- Operation `op` locks the buffer of home block `b`. -/
  | bread (op b : ℕ)
  /-- It changes the data of a buffer it holds. -/
  | modify (op b : ℕ) (d : Block)
  /-- It log_writes one, whose data is `d`. -/
  | logWrite (op b : ℕ) (d : Block)
  | brelse (op b : ℕ)
  | endOp (op : ℕ)
  /-- One `bwrite` of `write_log`. -/
  | writeLog
  /-- The first `write_head` of `commit`: the commit point. -/
  | writeHead
  /-- One `bwrite` of `install_trans`. -/
  | installTrans
  /-- The second `write_head` of `commit`. -/
  | clearHead
  /-- `end_op` clears `committing`. -/
  | commitDone
  | crash
  /-- Power on, and `read_head`. -/
  | reboot
  /-- One `bwrite` of `install_trans` in `recover_from_log`. -/
  | recoverTrans
  /-- The `write_head` that ends `recover_from_log`. -/
  | recoverDone
  /-- A reader outside of any operation. -/
  | fill (b : ℕ)
  /-- `bget` recycles an unused buffer. -/
  | evict (b : ℕ)

/-- One step.  `none`: it cannot happen now. -/
def step (s : State) : Ev → Option State
  | .beginOp op =>
      if s.phase ≠ .running ∨ op ∈ s.begun then none
      else s.log.beginOp.map fun l =>
        { s with log := l, begun := op :: s.begun, active := op :: s.active }
  | .bread op b =>
      if s.phase = .running ∧ op ∈ s.active ∧ s.holder b = none ∧ Home s.log b then
        some { bread s b with holder := update s.holder b (some (op, false)) }
      else none
  | .modify op b d =>
      if s.phase = .running ∧ op ∈ s.active ∧ (s.holder b).map Prod.fst = some op then
        some { s with
          cache := update s.cache b (some d)
          holder := update s.holder b (some (op, true)) }
      else none
  | .logWrite op b d =>
      if s.phase = .running ∧ op ∈ s.active ∧ (s.holder b).map Prod.fst = some op ∧
          s.cache b = some d then
        match s.log.logWrite b with
        | .ok l => some { s with
            log := l
            holder := update s.holder b (some (op, false)) }
        | .error _ => none
      else none
  | .brelse op b =>
      if s.holder b = some (op, false) then
        some { s with holder := update s.holder b none }
      else none
  | .endOp op =>
      if s.phase = .running ∧ op ∈ s.active then
        match s.log.endOp with
        | .ok (l, false) => some { s with log := l, active := s.active.erase op }
        | .ok (l, true) => some { s with
            log := l
            active := s.active.erase op
            phase := if l.lh = [] then .committed else .writeLog 0 }
        | .error _ => none
      else none
  | .writeLog =>
      match s.phase with
      | .writeLog tail =>
          match s.log.lh[tail]? with
          | some b =>
              if s.holder b = none then
                some { bwrite s (s.log.start + tail + 1) (contents s b) with
                  phase := .writeLog (tail + 1) }
              else none
          | none => none
      | _ => none
  | .writeHead =>
      match s.phase with
      | .writeLog tail =>
          if tail = s.log.lh.length then
            some { bwrite s s.log.start (writeHead (contents s s.log.start) s.log.lh) with
              phase := .install 0 }
          else none
      | _ => none
  | .installTrans =>
      match s.phase with
      | .install tail =>
          match s.log.lh[tail]? with
          | some b =>
              if s.holder b = none then
                some { bwrite s b (contents s (s.log.start + tail + 1)) with
                  phase := .install (tail + 1) }
              else none
          | none => none
      | _ => none
  | .clearHead =>
      match s.phase with
      | .install tail =>
          if tail = s.log.lh.length then
            some { bwrite s s.log.start (writeHead (contents s s.log.start) []) with
              log := { s.log with lh := [] }
              phase := .committed }
          else none
      | _ => none
  | .commitDone =>
      if s.phase = .committed then some { s with log := s.log.commitDone, phase := .running }
      else none
  | .crash =>
      some { s with
        cache := fun _ => none
        holder := fun _ => none
        log := { s.log with outstanding := 0, committing := false, lh := [] }
        active := []
        phase := .down }
  | .reboot =>
      if s.phase = .down then
        some { bread s s.log.start with
          log := { s.log with lh := readHead (contents s s.log.start) }
          phase := .recovering 0 }
      else none
  | .recoverTrans =>
      match s.phase with
      | .recovering tail =>
          match s.log.lh[tail]? with
          | some b =>
              some { bwrite s b (contents s (s.log.start + tail + 1)) with
                phase := .recovering (tail + 1) }
          | none => none
      | _ => none
  | .recoverDone =>
      match s.phase with
      | .recovering tail =>
          if tail = s.log.lh.length then
            some { bwrite s s.log.start (writeHead (contents s s.log.start) []) with
              log := { s.log with lh := [] }
              phase := .running }
          else none
      | _ => none
  | .fill b =>
      if s.phase = .down then none else some (bread s b)
  | .evict b =>
      if s.holder b = none ∧ b ∉ pinned s.log s.phase then
        some { s with cache := update s.cache b none }
      else none

def Steps (s : State) (e : Ev) (t : State) : Prop :=
  step s e = some t

/-! ### What the log is for -/

/-- A disk with atomic groups of updates: the contents that survive the
machine going down, and the contents that running operations see. -/
structure Spec where
  durable : ℕ → Block
  current : ℕ → Block

/-- An update is seen at once and becomes durable with its group. -/
def Spec.step (a : Spec) : Ev → Spec
  | .logWrite _ b d => { a with current := update a.current b d }
  | .writeHead => { a with durable := a.current }
  | .crash => { a with current := a.durable }
  | _ => a

end Xv6Zig.LogCrash
