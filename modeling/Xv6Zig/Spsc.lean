/-
Xv6Zig/Spsc.lean

The user-space side of a ring buffer (`user/ulib/uringbuf.zig`): one process
runs `startWrite` / stores / `finishWrite`, another `startRead` / loads /
`finishRead`, on one shared buffer and one shared book page.

Granularity.  Every load and every `fetchAdd` of `read_done` and `write_done`
is a step of its own, and so is every byte stored to or loaded from a slice;
the two processes interleave freely between them.  The library is built
ReleaseSafe, so a checked `+` or `-` that leaves `u64`, a slice past the
`2 * BUF_CAPACITY` bytes of the double mapping and a failed
`std.debug.assert` all trap: they are the `Fault`s of `step`.

The double mapping makes the offsets `x` and `x + BUF_CAPACITY` the same
byte, so a byte at slice offset `x` is the cell `x % BUF_CAPACITY` of `mem`.

`committed` and `consumed` are history variables: the bytes of all finished
writes, and the bytes the reader loaded and then gave back with `finishRead`.

Main result: `spsc_stream_correct`.
-/
import Mathlib.Data.List.GetD
import Xv6Zig.Lib.Run
import Xv6Zig.Lib.Circular
import Xv6Zig.Param

namespace Xv6Zig.Spsc

open Lib Function

/-! ### Checked arithmetic and slices -/

/-- What a ReleaseSafe build traps on. -/
inductive Fault
  | underflow
  | overflow
  | outOfBounds
  | assertion
  deriving DecidableEq, Repr

/-- A slice of the double-mapped buffer: offset and length. -/
structure Slice where
  off : ℕ
  len : ℕ
  deriving DecidableEq, Repr

/-- Checked `a - b` on `u64`. -/
def subU64 (a b : ℕ) : Except Fault ℕ :=
  if b ≤ a then .ok (a - b) else .error .underflow

/-- Checked `a + b` on `u64`. -/
def addU64 (a b : ℕ) : Except Fault ℕ :=
  if a + b < 2 ^ 64 then .ok (a + b) else .error .overflow

/-- `self.buf[off ..][0 .. len]`, with both bounds checks. -/
def sliceBuf (off len : ℕ) : Except Fault Slice :=
  if off ≤ 2 * bufCapacity ∧ len ≤ 2 * bufCapacity - off then .ok ⟨off, len⟩
  else .error .outOfBounds

/-- The slice `startRead` returns for the counters it loaded. -/
def startReadSlice (readDone writeDone : ℕ) : Except Fault Slice := do
  let n ← subU64 writeDone readDone
  sliceBuf (readDone % bufCapacity) n

/-- The slice `startWrite` returns for the counters it loaded. -/
def startWriteSlice (readDone writeDone : ℕ) : Except Fault Slice := do
  let used ← subU64 writeDone readDone
  let n ← subU64 bufCapacity used
  sliceBuf (writeDone % bufCapacity) n

/-! ### The two processes and the shared memory -/

/-- Where the writer is. -/
inductive Writer
  | idle
  /-- `startWrite` has loaded `read_done`. -/
  | starting (readDone : ℕ)
  /-- `startWrite` has returned this slice. -/
  | holding (buf : Slice)
  /-- `finishWrite(k)` has loaded `write_done`; `sum` is `write_done + k`. -/
  | finishing (buf : Slice) (k sum : ℕ)
  /-- The assertion of `finishWrite(k)` has passed; the `fetchAdd` is due. -/
  | checked (buf : Slice) (k : ℕ)

/-- Where the reader is.  `got i` is the byte it loaded from offset `i`. -/
inductive Reader
  | idle
  /-- `startRead` has loaded `read_done`. -/
  | starting (readDone : ℕ)
  /-- `startRead` has returned this slice. -/
  | holding (buf : Slice) (got : ℕ → Option UInt8)
  /-- `finishRead(k)` has loaded `write_done`. -/
  | finishing (buf : Slice) (got : ℕ → Option UInt8) (k writeDone : ℕ)
  /-- The assertion of `finishRead(k)` has passed; the `fetchAdd` is due. -/
  | checked (buf : Slice) (got : ℕ → Option UInt8) (k : ℕ)

structure State where
  mem : ℕ → UInt8
  readDone : ℕ
  writeDone : ℕ
  w : Writer
  r : Reader
  committed : List UInt8
  consumed : List UInt8

/-- A ring buffer just activated: `Book` is `.{}`, the pages hold anything. -/
def init (mem : ℕ → UInt8) : State :=
  ⟨mem, 0, 0, .idle, .idle, [], []⟩

/-- The atomic steps of the two processes. -/
inductive Act
  | startWrite
  | startWriteEnd
  | store (i : ℕ) (b : UInt8)
  | finishWrite (k : ℕ)
  | finishWriteAssert
  | finishWriteAdd
  | startRead
  | startReadEnd
  | load (i : ℕ)
  | finishRead (k : ℕ)
  | finishReadAssert
  | finishReadAdd
  deriving DecidableEq, Repr

/-- The bytes `[0, k)` of a slice as they stand in memory. -/
def bytesOf (mem : ℕ → UInt8) (buf : Slice) (k : ℕ) : List UInt8 :=
  (List.range k).map fun i => mem ((buf.off + i) % bufCapacity)

/-- One atomic step.  `none`: the process is not at a point where it could
take it (a byte outside the slice, a `k` above the slice's length, a `k` that
would bring the bytes ever written to `2^64`, a byte given back unread). -/
def step (s : State) : Act → Option (Except Fault State)
  | .startWrite =>
      match s.w with
      | .idle | .holding _ => some (.ok { s with w := .starting s.readDone })
      | _ => none
  | .startWriteEnd =>
      match s.w with
      | .starting r =>
          some ((startWriteSlice r s.writeDone).map fun buf => { s with w := .holding buf })
      | _ => none
  | .store i b =>
      match s.w with
      | .holding buf =>
          if i < buf.len then
            some (.ok { s with mem := update s.mem ((buf.off + i) % bufCapacity) b })
          else none
      | _ => none
  | .finishWrite k =>
      match s.w with
      | .holding buf =>
          if k ≤ buf.len ∧ s.committed.length + k < 2 ^ 64 then
            some ((addU64 s.writeDone k).map fun sum => { s with w := .finishing buf k sum })
          else none
      | _ => none
  | .finishWriteAssert =>
      match s.w with
      | .finishing buf k sum =>
          some (do
            let d ← subU64 sum s.readDone
            if d ≤ bufCapacity then pure { s with w := .checked buf k }
            else throw .assertion)
      | _ => none
  | .finishWriteAdd =>
      match s.w with
      | .checked buf k =>
          some (.ok { s with
            writeDone := (s.writeDone + k) % 2 ^ 64
            w := .idle
            committed := s.committed ++ bytesOf s.mem buf k })
      | _ => none
  | .startRead =>
      match s.r with
      | .idle | .holding _ _ => some (.ok { s with r := .starting s.readDone })
      | _ => none
  | .startReadEnd =>
      match s.r with
      | .starting r =>
          some ((startReadSlice r s.writeDone).map fun buf =>
            { s with r := .holding buf fun _ => none })
      | _ => none
  | .load i =>
      match s.r with
      | .holding buf got =>
          if i < buf.len then
            some (.ok { s with
              r := .holding buf
                (update got i (some (s.mem ((buf.off + i) % bufCapacity)))) })
          else none
      | _ => none
  | .finishRead k =>
      match s.r with
      | .holding buf got =>
          if k ≤ buf.len ∧ ∀ i ∈ List.range k, (got i).isSome then
            some (.ok { s with r := .finishing buf got k s.writeDone })
          else none
      | _ => none
  | .finishReadAssert =>
      match s.r with
      | .finishing buf got k writeDone =>
          some (do
            let d ← subU64 writeDone s.readDone
            if k ≤ d then pure { s with r := .checked buf got k }
            else throw .assertion)
      | _ => none
  | .finishReadAdd =>
      match s.r with
      | .checked _ got k =>
          some (.ok { s with
            readDone := (s.readDone + k) % 2 ^ 64
            r := .idle
            consumed := s.consumed ++ (List.range k).filterMap got })
      | _ => none

/-- Runs of the two processes over one ring buffer. -/
def Steps (s : State) (a : Act) (t : State) : Prop :=
  step s a = some (.ok t)

/-- `step` where it is enabled and does not fault. -/
def next (s : State) (a : Act) : Option State :=
  (step s a).bind Except.toOption

theorem steps_of_next {s t : State} {a : Act} (h : next s a = some t) : Steps s a t := by
  obtain ⟨res, hres, ht⟩ := Option.bind_eq_some_iff.mp h
  rcases res with f | u
  · cases ht
  · cases ht
    exact hres

/-! ### The invariant -/

/-- The stream of committed bytes, as a function of the position. -/
def stream (s : State) (x : ℕ) : UInt8 :=
  s.committed.getD x 0

/-- What the writer's local state promises.  `read_done` only grows while the
writer is under way, so a bound taken with an old value stays a bound. -/
def WriterOk (s : State) : Prop :=
  match s.w with
  | .idle => True
  | .starting r => r ≤ s.readDone ∧ s.writeDone ≤ r + bufCapacity
  | .holding buf =>
      buf.off = s.writeDone % bufCapacity ∧ s.writeDone + buf.len ≤ s.readDone + bufCapacity
  | .finishing buf k sum =>
      buf.off = s.writeDone % bufCapacity ∧ s.writeDone + k ≤ s.readDone + bufCapacity ∧
        s.writeDone + k < 2 ^ 64 ∧ sum = s.writeDone + k
  | .checked buf k =>
      buf.off = s.writeDone % bufCapacity ∧ s.writeDone + k ≤ s.readDone + bufCapacity ∧
        s.writeDone + k < 2 ^ 64

/-- Every byte the reader has loaded is the committed byte of its position. -/
def GotOk (s : State) (buf : Slice) (got : ℕ → Option UInt8) : Prop :=
  ∀ i < buf.len, ∀ b, got i = some b → b = stream s (s.readDone + i)

/-- The first `k` bytes have been loaded. -/
def Loaded (got : ℕ → Option UInt8) (k : ℕ) : Prop :=
  ∀ i < k, (got i).isSome

/-- What the reader's local state promises. -/
def ReaderOk (s : State) : Prop :=
  match s.r with
  | .idle => True
  | .starting r => r = s.readDone
  | .holding buf got =>
      buf.off = s.readDone % bufCapacity ∧ s.readDone + buf.len ≤ s.writeDone ∧ GotOk s buf got
  | .finishing buf got k writeDone =>
      s.readDone + buf.len ≤ s.writeDone ∧ GotOk s buf got ∧ k ≤ buf.len ∧ Loaded got k ∧
        s.readDone + k ≤ writeDone
  | .checked buf got k =>
      s.readDone + buf.len ≤ s.writeDone ∧ GotOk s buf got ∧ k ≤ buf.len ∧ Loaded got k

structure Inv (s : State) : Prop where
  written : s.committed.length = s.writeDone
  small : s.writeDone < 2 ^ 64
  ordered : s.readDone ≤ s.writeDone
  fits : s.writeDone ≤ s.readDone + bufCapacity
  holds : Holds s.mem bufCapacity (stream s) s.readDone s.writeDone
  taken : s.consumed = s.committed.take s.readDone
  writer : WriterOk s
  reader : ReaderOk s

/-! ### Facts about the checked operations -/

theorem startWriteSlice_ok {r w : ℕ} (h₁ : r ≤ w) (h₂ : w ≤ r + bufCapacity) :
    startWriteSlice r w = .ok ⟨w % bufCapacity, bufCapacity - (w - r)⟩ := by
  have hmod : w % bufCapacity < bufCapacity := Nat.mod_lt _ (by decide)
  have hused : w - r ≤ bufCapacity := by omega
  have hslice : w % bufCapacity ≤ 2 * bufCapacity ∧
      bufCapacity - (w - r) ≤ 2 * bufCapacity - w % bufCapacity := by omega
  simp [startWriteSlice, subU64, sliceBuf, h₁, hused, hslice, bind, Except.bind]

theorem startReadSlice_ok {r w : ℕ} (h₁ : r ≤ w) (h₂ : w ≤ r + bufCapacity) :
    startReadSlice r w = .ok ⟨r % bufCapacity, w - r⟩ := by
  have hmod : r % bufCapacity < bufCapacity := Nat.mod_lt _ (by decide)
  have hslice : r % bufCapacity ≤ 2 * bufCapacity ∧
      w - r ≤ 2 * bufCapacity - r % bufCapacity := by omega
  simp [startReadSlice, subU64, sliceBuf, h₁, hslice, bind, Except.bind]

/-- Byte `i` of a slice that starts at stream position `x` is the cell of
stream position `x + i`. -/
theorem slice_cell {buf : Slice} {x : ℕ} (h : buf.off = x % bufCapacity) (i : ℕ) :
    (buf.off + i) % bufCapacity = (x + i) % bufCapacity := by
  rw [h, Nat.mod_add_mod]

theorem length_bytesOf (mem : ℕ → UInt8) (buf : Slice) (k : ℕ) :
    (bytesOf mem buf k).length = k := by
  simp [bytesOf]

theorem getD_bytesOf (mem : ℕ → UInt8) (buf : Slice) {k j : ℕ} (h : j < k) :
    (bytesOf mem buf k).getD j 0 = mem ((buf.off + j) % bufCapacity) := by
  simp [bytesOf, List.getD, h]

/-! ### Step lemmas, writer -/

section

variable {s : State} {res : Except Fault State}

/-- What a step must do: return without a fault, in a state that satisfies
the invariant again. -/
def Good (res : Except Fault State) : Prop :=
  ∃ t, res = .ok t ∧ Inv t

theorem good_startWrite (h : Inv s) (hst : step s .startWrite = some res) : Good res := by
  have hw : WriterOk { s with w := .starting s.readDone } := ⟨le_rfl, h.fits⟩
  have hres : res = .ok { s with w := .starting s.readDone } := by
    simp only [step] at hst
    split at hst
    all_goals simp_all
  exact ⟨_, hres, { h with writer := hw }⟩

theorem good_startWriteEnd (h : Inv s) (hst : step s .startWriteEnd = some res) :
    Good res := by
  have hw := h.writer
  simp only [step] at hst
  split at hst
  · rename_i r hpc
    simp only [WriterOk, hpc] at hw
    obtain ⟨hr, hcap⟩ := hw
    have hord := h.ordered
    rw [startWriteSlice_ok (by omega) hcap] at hst
    cases hst
    refine ⟨_, rfl, { h with writer := ⟨rfl, ?_⟩ }⟩
    show s.writeDone + (bufCapacity - (s.writeDone - r)) ≤ s.readDone + bufCapacity
    omega
  · cases hst

/-- A store lands past the window of unread bytes and less than one turn past
its start, so the window is left alone. -/
theorem good_store {i : ℕ} {b : UInt8} (h : Inv s) (hst : step s (.store i b) = some res) :
    Good res := by
  have hw := h.writer
  simp only [step] at hst
  split at hst
  · rename_i buf hpc
    simp only [WriterOk, hpc] at hw
    obtain ⟨hoff, hlen⟩ := hw
    split_ifs at hst with hi
    cases hst
    refine ⟨_, rfl, { h with holds := ?_, writer := ?_ }⟩
    · show Holds (update s.mem ((buf.off + i) % bufCapacity) b) _ _ _ _
      rw [slice_cell hoff]
      exact h.holds.store b (by omega) (by omega)
    · show WriterOk { s with mem := _ }
      simpa only [WriterOk, hpc] using ⟨hoff, hlen⟩
  · cases hst

theorem good_finishWrite {k : ℕ} (h : Inv s) (hst : step s (.finishWrite k) = some res) :
    Good res := by
  have hw := h.writer
  have hlen := h.written
  simp only [step] at hst
  split at hst
  · rename_i buf hpc
    simp only [WriterOk, hpc] at hw
    obtain ⟨hoff, hbuf⟩ := hw
    split_ifs at hst with hk
    have hsmall : s.writeDone + k < 2 ^ 64 := by omega
    rw [addU64, if_pos hsmall] at hst
    cases hst
    refine ⟨_, rfl, { h with writer := ⟨hoff, ?_, hsmall, rfl⟩ }⟩
    show s.writeDone + k ≤ s.readDone + bufCapacity
    omega
  · cases hst

theorem good_finishWriteAssert (h : Inv s) (hst : step s .finishWriteAssert = some res) :
    Good res := by
  have hw := h.writer
  have hord := h.ordered
  simp only [step] at hst
  split at hst
  · rename_i buf k sum hpc
    simp only [WriterOk, hpc] at hw
    obtain ⟨hoff, hroom, hsmall, rfl⟩ := hw
    have hle : s.readDone ≤ s.writeDone + k := by omega
    have hcap : s.writeDone + k - s.readDone ≤ bufCapacity := by omega
    simp only [subU64, if_pos hle, bind, Except.bind, if_pos hcap] at hst
    cases hst
    exact ⟨_, rfl, { h with writer := ⟨hoff, hroom, hsmall⟩ }⟩
  · cases hst

/-- Appending to the committed bytes changes no byte already committed. -/
theorem getD_committed_append {cs bs : List UInt8} {x : ℕ} (h : x < cs.length) :
    (cs ++ bs).getD x 0 = cs.getD x 0 := by
  rw [List.getD_append _ _ _ _ h]

/-- The reader's promises only mention committed bytes below `write_done`, so
they survive a commit. -/
theorem ReaderOk.commit {t : State} {bs : List UInt8} (h : ReaderOk s)
    (hlen : s.committed.length = s.writeDone) (hr : t.r = s.r) (hrd : t.readDone = s.readDone)
    (hwd : s.writeDone ≤ t.writeDone) (hcs : t.committed = s.committed ++ bs) :
    ReaderOk t := by
  have hgot : ∀ {buf : Slice} {got : ℕ → Option UInt8},
      s.readDone + buf.len ≤ s.writeDone → GotOk s buf got → GotOk t buf got := by
    intro buf got hbuf hg i hi b hb
    rw [hg i hi b hb, stream, stream, hcs, hrd, getD_committed_append (by omega)]
  rcases hpc : s.r with _ | r | ⟨buf, got⟩ | ⟨buf, got, k, w⟩ | ⟨buf, got, k⟩ <;>
    simp only [ReaderOk, hpc, hr, hrd] at h ⊢
  · exact h
  · exact ⟨h.1, by omega, hgot h.2.1 h.2.2⟩
  · exact ⟨by omega, hgot h.1 h.2.1, h.2.2.1, h.2.2.2.1, h.2.2.2.2⟩
  · exact ⟨by omega, hgot h.1 h.2.1, h.2.2.1, h.2.2.2⟩

theorem good_finishWriteAdd (h : Inv s) (hst : step s .finishWriteAdd = some res) :
    Good res := by
  have hw := h.writer
  have hlen := h.written
  have hord := h.ordered
  simp only [step] at hst
  split at hst
  · rename_i buf k hpc
    simp only [WriterOk, hpc] at hw
    obtain ⟨hoff, hroom, hsmall⟩ := hw
    rw [Nat.mod_eq_of_lt hsmall] at hst
    cases hst
    refine ⟨_, rfl, ?_, hsmall, ?_, hroom, ?_, ?_, trivial, ?_⟩
    · simp [length_bytesOf, hlen]
    · show s.readDone ≤ s.writeDone + k
      omega
    · -- the new bytes are the cells right after the old window
      refine h.holds.extend (fun x hx => ?_) (fun x hx hx' => ?_)
      · exact getD_committed_append (by omega)
      · replace hx' : x < s.writeDone + k := hx'
        show (s.committed ++ bytesOf s.mem buf k).getD x 0 = s.mem (x % bufCapacity)
        rw [List.getD_append_right _ _ _ _ (by omega), getD_bytesOf _ _ (by omega),
          slice_cell hoff, hlen, Nat.add_sub_cancel' hx]
    · show s.consumed = (s.committed ++ bytesOf s.mem buf k).take s.readDone
      rw [List.take_append_of_le_length (by omega)]
      exact h.taken
    · exact h.reader.commit hlen rfl rfl (Nat.le_add_right _ _) rfl
  · cases hst

/-! ### Step lemmas, reader -/

theorem good_startRead (h : Inv s) (hst : step s .startRead = some res) : Good res := by
  have hr : ReaderOk { s with r := .starting s.readDone } := rfl
  have hres : res = .ok { s with r := .starting s.readDone } := by
    simp only [step] at hst
    split at hst
    all_goals simp_all
  exact ⟨_, hres, { h with reader := hr }⟩

theorem good_startReadEnd (h : Inv s) (hst : step s .startReadEnd = some res) :
    Good res := by
  have hr := h.reader
  have hord := h.ordered
  simp only [step] at hst
  split at hst
  · rename_i r hpc
    simp only [ReaderOk, hpc] at hr
    subst hr
    rw [startReadSlice_ok hord h.fits] at hst
    cases hst
    refine ⟨_, rfl, { h with reader := ⟨rfl, ?_, ?_⟩ }⟩
    · show s.readDone + (s.writeDone - s.readDone) ≤ s.writeDone
      omega
    · intro i _ b hb
      cases hb
  · cases hst

/-- A load sees the committed byte: its cell lies in the window of unread
bytes, which no store of the writer touches. -/
theorem good_load {i : ℕ} (h : Inv s) (hst : step s (.load i) = some res) : Good res := by
  have hr := h.reader
  simp only [step] at hst
  split at hst
  · rename_i buf got hpc
    simp only [ReaderOk, hpc] at hr
    obtain ⟨hoff, hlen, hgot⟩ := hr
    split_ifs at hst with hi
    cases hst
    refine ⟨_, rfl, { h with reader := ⟨hoff, hlen, ?_⟩ }⟩
    intro j hj b hb
    by_cases hji : j = i
    · subst hji
      rw [update_self] at hb
      rw [← Option.some.inj hb, slice_cell hoff]
      exact h.holds _ (by omega) (by omega)
    · rw [update_of_ne hji] at hb
      exact hgot j hj b hb
  · cases hst

theorem good_finishRead {k : ℕ} (h : Inv s) (hst : step s (.finishRead k) = some res) :
    Good res := by
  have hr := h.reader
  simp only [step] at hst
  split at hst
  · rename_i buf got hpc
    simp only [ReaderOk, hpc] at hr
    obtain ⟨-, hlen, hgot⟩ := hr
    split_ifs at hst with hk
    obtain ⟨hk, hall⟩ := hk
    cases hst
    have hloaded : Loaded got k := fun i hi => hall i (List.mem_range.mpr hi)
    refine ⟨_, rfl, { h with reader := ⟨hlen, hgot, hk, hloaded, ?_⟩ }⟩
    show s.readDone + k ≤ s.writeDone
    omega
  · cases hst

theorem good_finishReadAssert (h : Inv s) (hst : step s .finishReadAssert = some res) :
    Good res := by
  have hr := h.reader
  simp only [step] at hst
  split at hst
  · rename_i buf got k wd hpc
    simp only [ReaderOk, hpc] at hr
    obtain ⟨hlen, hgot, hk, hloaded, hwd⟩ := hr
    have hle : s.readDone ≤ wd := by omega
    have hd : k ≤ wd - s.readDone := by omega
    simp only [subU64, if_pos hle, bind, Except.bind, if_pos hd] at hst
    cases hst
    exact ⟨_, rfl, { h with reader := ⟨hlen, hgot, hk, hloaded⟩ }⟩
  · cases hst

/-- Loaded bytes that agree with a list at the positions from `x` on are the
slice of that list at `x`. -/
theorem filterMap_got {got : ℕ → Option UInt8} {cs : List UInt8} {x k : ℕ}
    (hk : x + k ≤ cs.length) (hgot : ∀ i < k, got i = some (cs.getD (x + i) 0)) :
    (List.range k).filterMap got = (cs.drop x).take k := by
  induction k with
  | zero => simp
  | succ k ih =>
    have hx : x + k < cs.length := by omega
    have hd : k < (cs.drop x).length := by rw [List.length_drop]; omega
    rw [List.range_succ, List.filterMap_append, ih (by omega) fun i hi => hgot i (by omega),
      List.take_succ_eq_append_getElem hd]
    simp [hgot k (by omega), hx]

/-- The writer's promises only need a lower bound on `read_done`. -/
theorem WriterOk.release (h : WriterOk s) {rd : ℕ} {pc : Reader} {bs : List UInt8}
    (hrd : s.readDone ≤ rd) : WriterOk { s with readDone := rd, r := pc, consumed := bs } := by
  rcases hw : s.w with _ | r | buf | ⟨buf, k, sum⟩ | ⟨buf, k⟩ <;>
    simp only [WriterOk, hw] at h ⊢
  · exact ⟨by omega, h.2⟩
  · exact ⟨h.1, by omega⟩
  · exact ⟨h.1, by omega, h.2.2⟩
  · exact ⟨h.1, by omega, h.2.2⟩

theorem good_finishReadAdd (h : Inv s) (hst : step s .finishReadAdd = some res) :
    Good res := by
  have hr := h.reader
  have hlen := h.written
  have hsmall := h.small
  have hfits := h.fits
  simp only [step] at hst
  split at hst
  · rename_i buf got k hpc
    simp only [ReaderOk, hpc] at hr
    obtain ⟨hbuf, hgot, hk, hloaded⟩ := hr
    rw [Nat.mod_eq_of_lt (show s.readDone + k < 2 ^ 64 by omega)] at hst
    cases hst
    have hbytes : ∀ i < k, got i = some (s.committed.getD (s.readDone + i) 0) := by
      intro i hi
      obtain ⟨b, hb⟩ := Option.isSome_iff_exists.mp (hloaded i hi)
      rw [hb, hgot i (by omega) b hb]
      rfl
    refine ⟨_, rfl, h.written, h.small, ?_, ?_, ?_, ?_, ?_, trivial⟩
    · show s.readDone + k ≤ s.writeDone
      omega
    · show s.writeDone ≤ s.readDone + k + bufCapacity
      omega
    · exact h.holds.drop (Nat.le_add_right _ _)
    · show s.consumed ++ (List.range k).filterMap got = s.committed.take (s.readDone + k)
      rw [filterMap_got (by omega) hbytes, h.taken, List.take_add]
    · exact h.writer.release (Nat.le_add_right _ _)
  · cases hst

/-- **One step**: from a state that satisfies the invariant no enabled step of
either process faults, and it leads to such a state again. -/
theorem good_step {a : Act} (h : Inv s) (hst : step s a = some res) : Good res := by
  cases a with
  | startWrite => exact good_startWrite h hst
  | startWriteEnd => exact good_startWriteEnd h hst
  | store i b => exact good_store h hst
  | finishWrite k => exact good_finishWrite h hst
  | finishWriteAssert => exact good_finishWriteAssert h hst
  | finishWriteAdd => exact good_finishWriteAdd h hst
  | startRead => exact good_startRead h hst
  | startReadEnd => exact good_startReadEnd h hst
  | load i => exact good_load h hst
  | finishRead k => exact good_finishRead h hst
  | finishReadAssert => exact good_finishReadAssert h hst
  | finishReadAdd => exact good_finishReadAdd h hst

end

/-! ### Whole runs -/

theorem inv_init (mem : ℕ → UInt8) : Inv (init mem) where
  written := rfl
  small := by simp [init]
  ordered := le_rfl
  fits := Nat.zero_le _
  holds := Holds.empty _ _ _ _
  taken := rfl
  writer := trivial
  reader := trivial

theorem inv_run {mem : ℕ → UInt8} {tr : List Act} {s : State}
    (h : Run Steps (init mem) tr s) : Inv s := by
  refine h.invariant (inv_init mem) ?_
  intro t a u ht hstep
  obtain ⟨u', hu, hinv⟩ := good_step ht hstep
  cases hu
  exact hinv

/-- **Single-producer single-consumer correctness.**  In every state of every
interleaving the reader is behind the writer by at most the capacity, no
enabled step traps (no subtraction underflows, no slice leaves the double
mapping, no assertion fires), and the bytes consumed so far are a prefix of
the bytes committed so far. -/
theorem spsc_stream_correct (mem : ℕ → UInt8) (tr : List Act) (s : State)
    (h : Run Steps (init mem) tr s) :
    s.readDone ≤ s.writeDone ∧ s.writeDone - s.readDone ≤ bufCapacity ∧
      (∀ a f, step s a ≠ some (.error f)) ∧ s.consumed <+: s.committed := by
  have hinv := inv_run h
  have hfits := hinv.fits
  refine ⟨hinv.ordered, by omega, ?_, ?_⟩
  · intro a f hf
    obtain ⟨t, ht, -⟩ := good_step hinv hf
    cases ht
  · rw [hinv.taken]
    exact List.take_prefix _ _

/-- A run in which the reader starts before the writer commits two bytes, and
then takes one of them. -/
theorem spsc_stream_correct_two_bytes :
    ∃ tr s, Run Steps (init fun _ => 5) tr s ∧ s.consumed = [7] ∧ s.committed = [7, 8] ∧
      s.consumed <+: s.committed := by
  let tr : List Act := [.startWrite, .startWriteEnd, .store 0 7, .startRead, .store 1 8,
    .finishWrite 2, .finishWriteAssert, .finishWriteAdd, .startReadEnd, .load 0,
    .finishRead 1, .finishReadAssert, .finishReadAdd]
  have hexec : (tr.foldlM next (init fun _ => 5)).map (fun s => (s.consumed, s.committed))
      = some ([7], [7, 8]) := by rfl
  obtain ⟨s, hrun, hbytes⟩ : ∃ s, Run Steps (init fun _ => 5) tr s ∧
      (s.consumed, s.committed) = ([7], [7, 8]) := Run.of_foldlM_map steps_of_next tr hexec
  obtain ⟨hconsumed, hcommitted⟩ := Prod.mk.inj hbytes
  exact ⟨tr, s, hrun, hconsumed, hcommitted, (spsc_stream_correct _ _ _ hrun).2.2.2⟩

end Xv6Zig.Spsc
