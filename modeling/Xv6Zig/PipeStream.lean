/-
Xv6Zig/PipeStream.lean

A pipe is a bounded stream of bytes.

What the writes stored, in the order in which they had the lock, is what the
reads were given followed by what is in the ring.  The counters are the lengths
of the two streams modulo 2^32, which is a multiple of `PIPESIZE`, so that they
may wrap around.

`StreamStep` says what a step does to the streams: nothing, a write begins, a
chunk is stored, a chunk is read.  A copy that fails is nothing: what it left in
the ring lies past the bytes that are in it.
-/
import Xv6Zig.Pipe

namespace Xv6Zig

open Lib Function

/-! ### Counters -/

/-- The counters of a pipe of which `d` bytes were read and `a` were written. -/
structure Pipe.Counted (pi : Pipe) (d a : ℕ) : Prop where
  nread : pi.nread = d % 2 ^ 32
  nwrite : pi.nwrite = a % 2 ^ 32
  le : d ≤ a
  room : a ≤ d + pipeSize

namespace Pipe.Counted

variable {pi : Pipe} {d a : ℕ}

theorem count (h : pi.Counted d a) : sub32 pi.nwrite pi.nread = a - d := by
  have hle := h.le
  have hroom := h.room
  rw [h.nread, h.nwrite]
  simp only [sub32, pipeSize] at hroom ⊢
  omega

theorem read_pos (h : pi.Counted d a) : pi.nread % pipeSize = d % pipeSize := by
  rw [h.nread, pipeSize]
  exact Nat.mod_mod_of_dvd d (by decide)

theorem write_pos (h : pi.Counted d a) : pi.nwrite % pipeSize = a % pipeSize := by
  rw [h.nwrite, pipeSize]
  exact Nat.mod_mod_of_dvd a (by decide)

theorem writeChunk_le (h : pi.Counted d a) (w : PipeWrite) :
    a % pipeSize + pi.writeChunk w ≤ pipeSize ∧ a + pi.writeChunk w ≤ d + pipeSize := by
  have hroom := h.room
  have hspace : asInt (sub32 pipeSize (sub32 pi.nwrite pi.nread)) = d + pipeSize - a := by
    rw [h.count]
    have hle := h.le
    simp only [asInt, sub32, pipeSize] at hroom ⊢
    split_ifs
    · omega
    · omega
  unfold writeChunk
  simp only [hspace, h.write_pos]
  simp only [pipeSize] at hroom ⊢
  omega

theorem readChunk_le (h : pi.Counted d a) (r : PipeRead) :
    d % pipeSize + pi.readChunk r ≤ pipeSize ∧ d + pi.readChunk r ≤ a := by
  have hroom := h.room
  have hremaining : asInt (sub32 pi.nwrite pi.nread) = a - d := by
    rw [h.count]
    have hle := h.le
    simp only [asInt, pipeSize] at hroom ⊢
    split_ifs
    · omega
    · omega
  have hle := h.le
  unfold readChunk
  simp only [hremaining, h.read_pos]
  simp only [pipeSize] at hroom ⊢
  omega

end Pipe.Counted

/-! ### The streams -/

/-- The first `len` bytes of the buffer of a write. -/
def PipeWrite.buffer (w : PipeWrite) (len : ℕ) : List (Option UInt8) :=
  (List.range len).map fun j => readAt w.pagetable w.ram (add64 w.addr j)

/-- What a chunk brings are the next bytes of the buffer. -/
theorem Pipe.fetch_eq (pi : Pipe) (w : PipeWrite) : (pi.fetch w).1.map some
    = (List.range (pi.fetch w).1.length).map fun j =>
        readAt w.pagetable w.ram (add64 w.addr (w.i + j)) := by
  have heq := copyinBytes_eq w.pagetable w.ram (add64 w.addr w.i) (pi.writeChunk w)
  change (pi.fetch w).1.map some = (List.range (pi.fetch w).1.length).map _ at heq
  rw [heq]
  apply List.map_congr_left
  intro j hj
  -- it has been read, so its address is legal and there was no overflow
  have hlegal : add64 w.addr w.i + j < maxVA := by
    apply @lt_of_translate w.pagetable
    have hsome := congrArg (·[j]?) heq
    simp only [List.getElem?_map, List.getElem?_range (List.mem_range.mp hj), Option.map_some] at hsome
    rw [List.getElem?_eq_getElem (List.mem_range.mp hj)] at hsome
    intro hnone
    simp [readAt, hnone] at hsome
  have hadd : add64 w.addr (w.i + j) = add64 w.addr w.i + j := by
    simp only [add64, maxVA] at hlegal ⊢
    omega
  rw [hadd]

namespace PipeSys

variable {P : Type*} [DecidableEq P] {s s' : PipeSys P} {p q : P} {a : Act P}

/-- What was written, in lock order. -/
def accepted (s : PipeSys P) : List UInt8 :=
  s.pieces.flatMap Prod.snd

/-- What one of the writes stored. -/
def acceptedFrom (s : PipeSys P) (c : ℕ) : List UInt8 :=
  (s.pieces.filter fun piece => piece.1 = c).flatMap Prod.snd

/-- **What a step does to the streams.** -/
inductive StreamStep (s s' : PipeSys P) : Prop
  | quiet (bs : List UInt8) (w : PipeWrite) (short : bs.length ≤ s.pipe.writeChunk w)
      (data : s'.pipe.data = storeAt s.pipe.data (s.pipe.nwrite % pipeSize) bs)
      (nread : s'.pipe.nread = s.pipe.nread) (nwrite : s'.pipe.nwrite = s.pipe.nwrite)
      (started : s'.started = s.started) (pieces : s'.pieces = s.pieces)
      (delivered : s'.delivered = s.delivered)
      (frames : ∀ q, (s'.pc q).write? = (s.pc q).write? ∨ (s'.pc q).write? = none)
  | began (p : P) (w : PipeWrite) (call : w.call = s.started.length) (i : w.i = 0)
      (pipe : s'.pipe = s.pipe) (started : s'.started = s.started ++ [w])
      (pieces : s'.pieces = s.pieces) (delivered : s'.delivered = s.delivered)
      (frame : (s'.pc p).write? = some w) (frames : ∀ q ≠ p, (s'.pc q).write? = (s.pc q).write?)
  | stored (p : P) (w : PipeWrite) (frame : (s.pc p).write? = some w)
      (ok : (s.pipe.fetch w).2 = true)
      (data : s'.pipe.data =
        storeAt s.pipe.data (s.pipe.nwrite % pipeSize) (s.pipe.fetch w).1)
      (nread : s'.pipe.nread = s.pipe.nread)
      (nwrite : s'.pipe.nwrite = add32 s.pipe.nwrite (s.pipe.writeChunk w))
      (started : s'.started = s.started)
      (pieces : s'.pieces = s.pieces ++ [(w.call, (s.pipe.fetch w).1)])
      (delivered : s'.delivered = s.delivered)
      (frame' : (s'.pc p).write? = some { w with i := w.i + s.pipe.writeChunk w })
      (frames : ∀ q ≠ p, (s'.pc q).write? = (s.pc q).write?)
  | read (r : PipeRead) (data : s'.pipe.data = s.pipe.data)
      (nread : s'.pipe.nread = add32 s.pipe.nread (s.pipe.readChunk r))
      (nwrite : s'.pipe.nwrite = s.pipe.nwrite) (started : s'.started = s.started)
      (pieces : s'.pieces = s.pieces) (delivered : s'.delivered = s.delivered ++ s.pipe.chunk r)
      (frames : ∀ q, (s'.pc q).write? = (s.pc q).write?)

omit [DecidableEq P] in
theorem StreamStep.of_pc (hpipe : s'.pipe.data = s.pipe.data ∧ s'.pipe.nread = s.pipe.nread ∧
    s'.pipe.nwrite = s.pipe.nwrite) (hstarted : s'.started = s.started)
    (hpieces : s'.pieces = s.pieces) (hdelivered : s'.delivered = s.delivered)
    (hframes : ∀ q, (s'.pc q).write? = (s.pc q).write? ∨ (s'.pc q).write? = none) :
    StreamStep s s' :=
  .quiet [] ⟨0, .absent, fun _ => 0, 0, 0, 0⟩ (Nat.zero_le _)
    (by rw [storeAt_nil, hpipe.1]) hpipe.2.1 hpipe.2.2 hstarted hpieces hdelivered hframes

theorem write?_update (pc : P → PipePc) (p : P) (x : PipePc)
    (hx : x.write? = (pc p).write? ∨ x.write? = none) (q : P) :
    (update pc p x q).write? = (pc q).write? ∨ (update pc p x q).write? = none := by
  by_cases hq : q = p
  · subst hq
    rw [update_self]
    exact hx
  · rw [update_of_ne hq]
    exact .inl rfl

theorem StreamStep.of_writeRound {w : PipeWrite} (hpc : s.pc p = .writing w)
    (h : WriteRound s p w s') : StreamStep s s' := by
  have hframe : (s.pc p).write? = some w := by rw [hpc]; rfl
  have hend : ∀ (x : PipePc), x.write? = (s.pc p).write? ∨ x.write? = none → ∀ q,
      (update (fun q => (s.pc q).wakeup .nread) p x q).write? = (s.pc q).write? ∨
        (update (fun q => (s.pc q).wakeup .nread) p x q).write? = none := by
    intro x hx q
    have hq := write?_update (fun q => (s.pc q).wakeup .nread) p x (by simpa using hx) q
    simpa using hq
  cases h with
  | done => exact .of_pc ⟨rfl, rfl, rfl⟩ rfl rfl rfl (hend _ (.inr rfl))
  | abort => exact .of_pc ⟨rfl, rfl, rfl⟩ rfl rfl rfl (write?_update _ _ _ (.inr rfl))
  | full => exact .of_pc ⟨rfl, rfl, rfl⟩ rfl rfl rfl (hend _ (.inl hframe.symm))
  | failed =>
    exact .quiet (s.pipe.fetch w).1 w (length_copyinBytes_le _ _ _ _) rfl rfl rfl rfl rfl rfl
      (hend _ (.inr rfl))
  | stored _ _ _ hok =>
    refine .stored p w hframe hok rfl rfl rfl rfl rfl rfl ?_ fun q hq => ?_
    · rw [setPc_pc, update_self]
      rfl
    · rw [setPc_pc, update_of_ne hq]

theorem StreamStep.of_waitRound {r : PipeRead} (h : WaitRound s p r s') : StreamStep s s' := by
  cases h with
  | abort => exact .of_pc ⟨rfl, rfl, rfl⟩ rfl rfl rfl (write?_update _ _ _ (.inr rfl))
  | sleep => exact .of_pc ⟨rfl, rfl, rfl⟩ rfl rfl rfl (write?_update _ _ _ (.inr rfl))
  | ready => exact .of_pc ⟨rfl, rfl, rfl⟩ rfl rfl rfl (write?_update _ _ _ (.inr rfl))

theorem StreamStep.of_copyRound {r : PipeRead} (hpc : s.pc p = .reading r)
    (h : CopyRound s p r s') : StreamStep s s' := by
  have hend : ∀ q, ((s.endRead p r).pc q).write? = (s.pc q).write? ∨
      ((s.endRead p r).pc q).write? = none := by
    intro q
    have hq := write?_update (fun q => (s.pc q).wakeup .nwrite) p (.out r.i) (.inr rfl) q
    rw [PipePc.write?_wakeup] at hq
    exact hq
  cases h with
  | done => exact .of_pc ⟨rfl, rfl, rfl⟩ rfl rfl rfl hend
  | failed => exact .of_pc ⟨rfl, rfl, rfl⟩ rfl rfl rfl hend
  | read =>
    refine .read r rfl rfl rfl rfl rfl rfl fun q => ?_
    by_cases hq : q = p
    · subst hq
      rw [setPc_pc, update_self, hpc]
      rfl
    · rw [setPc_pc, update_of_ne hq]

theorem StreamStep.killedLate (h : StreamStep s s') (p : P) (late : Bool) :
    StreamStep s (s'.killedLate p late) := by
  cases h with
  | quiet bs w h₁ h₂ h₃ h₄ h₅ h₆ h₇ h₈ => exact .quiet bs w h₁ h₂ h₃ h₄ h₅ h₆ h₇ h₈
  | began q w h₁ h₂ h₃ h₄ h₅ h₆ h₇ h₈ => exact .began q w h₁ h₂ h₃ h₄ h₅ h₆ h₇ h₈
  | stored q w h₁ h₂ h₃ h₄ h₅ h₆ h₇ h₈ h₉ h₁₀ => exact .stored q w h₁ h₂ h₃ h₄ h₅ h₆ h₇ h₈ h₉ h₁₀
  | read r h₁ h₂ h₃ h₄ h₅ h₆ h₇ => exact .read r h₁ h₂ h₃ h₄ h₅ h₆ h₇

/-- **Every step is one of these.** -/
theorem step_stream (h : Step s a s') : StreamStep s s' := by
  cases a with
  | write p pt ram addr n =>
    obtain ⟨-, -, -, rfl⟩ := h
    refine .began p ⟨s.started.length, pt, ram, addr, n, 0⟩ rfl rfl rfl rfl rfl rfl ?_ fun q hq => ?_
    · show (update s.pc p _ p).write? = _
      rw [update_self]
      rfl
    · show (update s.pc p _ q).write? = _
      rw [update_of_ne hq]
  | read p pt addr n =>
    obtain ⟨-, -, -, rfl⟩ := h
    exact .of_pc ⟨rfl, rfl, rfl⟩ rfl rfl rfl (write?_update _ _ _ (.inr rfl))
  | run p late =>
    obtain ⟨t, hrun, rfl⟩ := Option.map_eq_some_iff.mp h
    apply StreamStep.killedLate
    cases run_round hrun with
    | write hpc hround => exact .of_writeRound hpc hround
    | wait hpc hround => exact .of_waitRound hround
    | copy hpc hround => exact .of_copyRound hpc hround
  | resume p =>
    obtain ⟨-, h⟩ := h
    unfold resume at h
    split at h
    · rename_i w hpc
      cases h
      refine .of_pc ⟨rfl, rfl, rfl⟩ rfl rfl rfl (write?_update _ _ _ (.inl ?_))
      rw [hpc]
      rfl
    · cases h
      exact .of_pc ⟨rfl, rfl, rfl⟩ rfl rfl rfl (write?_update _ _ _ (.inr rfl))
    · cases h
  | close writable =>
    obtain ⟨-, -, rfl, -⟩ := h
    cases writable with
    | false => exact .of_pc ⟨rfl, rfl, rfl⟩ rfl rfl rfl fun q => .inl (PipePc.write?_wakeup _ _)
    | true => exact .of_pc ⟨rfl, rfl, rfl⟩ rfl rfl rfl fun q => .inl (PipePc.write?_wakeup _ _)
  | kill p =>
    obtain rfl : s' = s.kill p := h
    exact .of_pc ⟨rfl, rfl, rfl⟩ rfl rfl rfl
      (write?_update _ _ _ (.inl (PipePc.write?_kill _)))

/-! ### The invariant -/

/-- **The streams, the ring and the writes in progress agree.** -/
structure Good (s : PipeSys P) : Prop where
  counted : s.pipe.Counted s.delivered.length s.accepted.length
  taken : s.delivered = s.accepted.take s.delivered.length
  held : Holds s.pipe.data pipeSize (fun x => s.accepted.getD x 0) s.delivered.length
    s.accepted.length
  frame : ∀ p w, (s.pc p).write? = some w →
    s.started[w.call]? = some { w with i := 0 } ∧ w.i = (s.acceptedFrom w.call).length
  distinct : ∀ p q w w', (s.pc p).write? = some w → (s.pc q).write? = some w' →
    w.call = w'.call → p = q
  calls : ∀ c w, s.started[c]? = some w →
    (s.acceptedFrom c).map some = w.buffer (s.acceptedFrom c).length
  known : ∀ piece ∈ s.pieces, piece.1 < s.started.length

omit [DecidableEq P] in
theorem accepted_of_pieces (h : s'.pieces = s.pieces) : s'.accepted = s.accepted := by
  unfold accepted
  rw [h]

omit [DecidableEq P] in
theorem acceptedFrom_of_pieces (h : s'.pieces = s.pieces) (c : ℕ) :
    s'.acceptedFrom c = s.acceptedFrom c := by
  unfold acceptedFrom
  rw [h]

omit [DecidableEq P] in
theorem acceptedFrom_append {c : ℕ} {bs : List UInt8} (h : s'.pieces = s.pieces ++ [(c, bs)])
    (d : ℕ) : s'.acceptedFrom d = s.acceptedFrom d ++ if c = d then bs else [] := by
  unfold acceptedFrom
  rw [h, List.filter_append, List.flatMap_append]
  by_cases hcd : c = d
  · simp [hcd]
  · simp [hcd]

omit [DecidableEq P] in
/-- Nothing was stored by a write that has not begun. -/
theorem Good.acceptedFrom_eq_nil (h : Good s) : s.acceptedFrom s.started.length = [] := by
  unfold acceptedFrom
  rw [List.flatMap_eq_nil_iff]
  intro piece hpiece
  obtain ⟨hmem, hc⟩ := List.mem_filter.mp hpiece
  have hlt := h.known piece hmem
  simp only [decide_eq_true_eq] at hc
  omega

omit [DecidableEq P] in
/-- Nothing is stored and no write begins: only the ring has to be looked at. -/
theorem Good.of_ring (h : Good s) (hstarted : s'.started = s.started)
    (hpieces : s'.pieces = s.pieces)
    (hframes : ∀ q, (s'.pc q).write? = (s.pc q).write? ∨ (s'.pc q).write? = none)
    (hcounted : s'.pipe.Counted s'.delivered.length s.accepted.length)
    (htaken : s'.delivered = s.accepted.take s'.delivered.length)
    (hheld : Holds s'.pipe.data pipeSize (fun x => s.accepted.getD x 0) s'.delivered.length
      s.accepted.length) : Good s' := by
  have hacc := accepted_of_pieces hpieces
  have hold : ∀ {p w}, (s'.pc p).write? = some w → (s.pc p).write? = some w := by
    intro p w hw
    rcases hframes p with hsame | hnone
    · rwa [hsame] at hw
    · rw [hnone] at hw
      cases hw
  refine ⟨hacc ▸ hcounted, hacc ▸ htaken, hacc ▸ hheld, fun p w hw => ?_,
    fun p q w w' hw hw' => h.distinct p q w w' (hold hw) (hold hw'), ?_, ?_⟩
  · rw [hstarted, acceptedFrom_of_pieces hpieces]
    exact h.frame p w (hold hw)
  · rw [hstarted]
    intro c w hw
    rw [acceptedFrom_of_pieces hpieces]
    exact h.calls c w hw
  · rw [hpieces, hstarted]
    exact h.known

omit [DecidableEq P] in
theorem take_append_of_getD (l : List UInt8) {d k : ℕ} (h : d + k ≤ l.length) :
    (l.take d ++ (List.range k).map fun j => l.getD (d + j) 0) = l.take (d + k) := by
  rw [List.take_add]
  congr 1
  apply List.ext_getElem
  · simp only [List.length_map, List.length_range, List.length_take, List.length_drop]
    omega
  · intro j h₁ h₂
    have hj : j < k := by simpa using h₁
    have hlt : d + j < l.length := by omega
    simp [List.getD_eq_getElem?_getD, hlt]

theorem good_stream (h : Good s) (hstep : StreamStep s s') : Good s' := by
  cases hstep with
  | quiet bs w hshort hdata hnread hnwrite hstarted hpieces hdelivered hframes =>
    obtain ⟨hwrap, hroom⟩ := h.counted.writeChunk_le w
    refine h.of_ring hstarted hpieces hframes ?_ ?_ ?_
    · rw [hdelivered]
      exact ⟨hnread.trans h.counted.nread, hnwrite.trans h.counted.nwrite, h.counted.le,
        h.counted.room⟩
    · rw [hdelivered]
      exact h.taken
    · -- what was left there lies past the bytes in the ring
      rw [hdelivered, hdata, h.counted.write_pos]
      exact h.held.storeAt_past (by omega) (by omega)
  | began p w hcall hi hpipe hstarted hpieces hdelivered hframe hframes =>
    have hacc := accepted_of_pieces hpieces
    -- the writes in progress have lower numbers
    have hlt : ∀ {q w'}, (s.pc q).write? = some w' → w'.call < s.started.length := by
      intro q w' hw'
      obtain ⟨hget, -⟩ := h.frame q w' hw'
      exact (List.getElem?_eq_some_iff.mp hget).1
    have hwrites : ∀ {q w'}, (s'.pc q).write? = some w' →
        q = p ∧ w' = w ∨ (s.pc q).write? = some w' := by
      intro q w' hw'
      by_cases hq : q = p
      · subst hq
        exact .inl ⟨rfl, Option.some.inj (hw'.symm.trans hframe)⟩
      · exact .inr ((hframes q hq).symm.trans hw')
    refine ⟨?_, ?_, ?_, ?_, ?_, ?_, ?_⟩
    · rw [hacc, hdelivered, hpipe]
      exact h.counted
    · rw [hacc, hdelivered]
      exact h.taken
    · rw [hacc, hdelivered, hpipe]
      exact h.held
    · intro q w' hw'
      rw [hstarted, acceptedFrom_of_pieces hpieces]
      rcases hwrites hw' with ⟨rfl, rfl⟩ | hold
      · rw [hcall, List.getElem?_concat_length, h.acceptedFrom_eq_nil, ← hcall, ← hi]
        exact ⟨rfl, hi⟩
      · rw [List.getElem?_append_left (hlt hold)]
        exact h.frame q w' hold
    · intro q q' w₁ w₂ h₁ h₂ heq
      rcases hwrites h₁ with ⟨rfl, rfl⟩ | h₁
      · rcases hwrites h₂ with ⟨rfl, rfl⟩ | h₂
        · rfl
        · have := hlt h₂
          omega
      · rcases hwrites h₂ with ⟨rfl, rfl⟩ | h₂
        · have := hlt h₁
          omega
        · exact h.distinct q q' w₁ w₂ h₁ h₂ heq
    · intro c w' hw'
      rw [acceptedFrom_of_pieces hpieces]
      rw [hstarted] at hw'
      by_cases hc : c < s.started.length
      · rw [List.getElem?_append_left hc] at hw'
        exact h.calls c w' hw'
      · have hlen := (List.getElem?_eq_some_iff.mp hw').1
        rw [List.length_append, List.length_singleton] at hlen
        obtain rfl : c = s.started.length := by omega
        rw [h.acceptedFrom_eq_nil]
        rfl
    · rw [hpieces, hstarted, List.length_append]
      exact fun piece hpiece => Nat.lt_add_right _ (h.known piece hpiece)
  | stored p w hw hok hdata hnread hnwrite hstarted hpieces hdelivered hframe hframes =>
    have hlen : (s.pipe.fetch w).1.length = s.pipe.writeChunk w := length_copyinBytes hok
    have hacc : s'.accepted = s.accepted ++ (s.pipe.fetch w).1 := by
      unfold accepted
      rw [hpieces, List.flatMap_append]
      simp
    obtain ⟨hwrap, hroom⟩ := h.counted.writeChunk_le w
    have hfrom := acceptedFrom_append hpieces
    have hother : ∀ {q w'}, q ≠ p → (s'.pc q).write? = some w' → (s.pc q).write? = some w' := by
      intro q w' hq hw'
      rwa [hframes q hq] at hw'
    obtain ⟨hget, hi⟩ := h.frame p w hw
    refine ⟨?_, ?_, ?_, ?_, ?_, ?_, ?_⟩
    · rw [hacc, hdelivered, List.length_append, hlen]
      refine ⟨hnread.trans h.counted.nread, ?_, Nat.le_add_right_of_le h.counted.le, hroom⟩
      rw [hnwrite, h.counted.nwrite, add32]
      omega
    · rw [hacc, hdelivered, List.take_append_of_le_length h.counted.le]
      exact h.taken
    · rw [hacc, hdelivered, hdata, h.counted.write_pos]
      exact h.held.storeAt_append (by rw [hlen]; exact hwrap) (by rw [hlen]; exact hroom)
    · intro q w' hw'
      rw [hstarted, hfrom]
      by_cases hq : q = p
      · subst hq
        cases hframe.symm.trans hw'
        refine ⟨hget, ?_⟩
        rw [if_pos rfl, List.length_append, ← hi, hlen]
      · have hold := hother hq hw'
        have hne : w.call ≠ w'.call := fun heq => hq (h.distinct p q w w' hw hold heq).symm
        rw [if_neg hne, List.append_nil]
        exact h.frame q w' hold
    · intro q q' w₁ w₂ h₁ h₂ heq
      have hsame : ∀ {q w'}, (s'.pc q).write? = some w' →
          ∃ w₀, (s.pc q).write? = some w₀ ∧ w₀.call = w'.call := by
        intro q w' hw'
        by_cases hq : q = p
        · subst hq
          cases hframe.symm.trans hw'
          exact ⟨w, hw, rfl⟩
        · exact ⟨w', hother hq hw', rfl⟩
      obtain ⟨w₁', h₁', hc₁⟩ := hsame h₁
      obtain ⟨w₂', h₂', hc₂⟩ := hsame h₂
      exact h.distinct q q' w₁' w₂' h₁' h₂' (hc₁.trans (heq.trans hc₂.symm))
    · rw [hstarted]
      intro c w' hw'
      rw [hfrom]
      by_cases hc : w.call = c
      · -- the next bytes of the buffer of this write
        subst hc
        cases hget.symm.trans hw'
        rw [if_pos rfl, List.map_append, h.calls _ _ hget, List.length_append, Pipe.fetch_eq]
        unfold PipeWrite.buffer
        rw [List.range_add, List.map_append, List.map_map, ← hi]
        rfl
      · rw [if_neg hc, List.append_nil]
        exact h.calls c w' hw'
    · rw [hpieces, hstarted]
      intro piece hpiece
      rcases List.mem_append.mp hpiece with hold | hnew
      · exact h.known piece hold
      · obtain rfl := List.mem_singleton.mp hnew
        exact (List.getElem?_eq_some_iff.mp hget).1
  | read r hdata hnread hnwrite hstarted hpieces hdelivered hframes =>
    obtain ⟨hwrap, hle⟩ := h.counted.readChunk_le r
    -- the chunk is what the stream has there
    have hchunk : s.pipe.chunk r
        = (List.range (s.pipe.readChunk r)).map fun j => s.accepted.getD (s.delivered.length + j) 0 := by
      unfold Pipe.chunk
      rw [h.counted.read_pos]
      exact h.held.load hle hwrap
    have hlen : s'.delivered.length = s.delivered.length + s.pipe.readChunk r := by
      rw [hdelivered, List.length_append, hchunk, List.length_map, List.length_range]
    refine h.of_ring hstarted hpieces (fun q => .inl (hframes q)) ?_ ?_ ?_
    · rw [hlen]
      have hroom := h.counted.room
      refine ⟨?_, hnwrite.trans h.counted.nwrite, hle, by omega⟩
      rw [hnread, h.counted.nread, add32]
      omega
    · rw [hlen, ← take_append_of_getD s.accepted hle, ← hchunk, hdelivered, ← h.taken]
    · rw [hlen, hdata]
      exact h.held.drop (Nat.le_add_right _ _)

omit [DecidableEq P] in
theorem Fresh.good (h : Fresh s) : Good s := by
  have hacc : s.accepted = [] := by
    unfold accepted
    rw [h.pieces]
    rfl
  have hnone : ∀ p, (s.pc p).write? = none := by
    intro p
    obtain ⟨ret, hret⟩ := h.pc p
    rw [hret]
    rfl
  refine ⟨?_, ?_, ?_, ?_, ?_, ?_, ?_⟩
  · rw [hacc, h.delivered]
    exact ⟨h.nread, h.nwrite, le_rfl, Nat.zero_le _⟩
  · rw [hacc, h.delivered]
    rfl
  · rw [hacc, h.delivered]
    exact Holds.empty _ _ _ _
  · intro p w hw
    rw [hnone p] at hw
    cases hw
  · intro p q w w' hw
    rw [hnone p] at hw
    cases hw
  · intro c w hw
    rw [h.started] at hw
    cases hw
  · rw [h.pieces]
    exact fun piece hpiece => absurd hpiece List.not_mem_nil

/-! ### A pipe is a stream -/

/-- **A bounded stream**: what was written and not yet read is in the ring, and
every write stored the first bytes of its buffer. -/
structure Fifo (s : PipeSys P) : Prop where
  bounded : sub32 s.pipe.nwrite s.pipe.nread ≤ pipeSize
  nread : s.pipe.nread = s.delivered.length % 2 ^ 32
  nwrite : s.pipe.nwrite = s.accepted.length % 2 ^ 32
  stream : s.accepted = s.delivered ++ s.pipe.ring
  calls : ∀ c w, s.started[c]? = some w →
    (s.acceptedFrom c).map some = w.buffer (s.acceptedFrom c).length
  inProgress : ∀ p w, (s.pc p).write? = some w →
    s.started[w.call]? = some { w with i := 0 } ∧ w.i = (s.acceptedFrom w.call).length

omit [DecidableEq P] in
theorem Good.ring (h : Good s) : s.accepted = s.delivered ++ s.pipe.ring := by
  have hle := h.counted.le
  have hring : s.pipe.ring = (List.range (s.accepted.length - s.delivered.length)).map
      fun j => s.accepted.getD (s.delivered.length + j) 0 := by
    unfold Pipe.ring
    rw [h.counted.count]
    apply List.map_congr_left
    intro j hj
    have hlt := List.mem_range.mp hj
    rw [Nat.add_mod, h.counted.read_pos, ← Nat.add_mod]
    exact h.held _ (Nat.le_add_right _ _) (by omega)
  have htake := take_append_of_getD s.accepted
    (show s.delivered.length + (s.accepted.length - s.delivered.length) ≤ _ by omega)
  rw [← h.taken, ← hring, Nat.add_sub_cancel' hle, List.take_length] at htake
  exact htake.symm

omit [DecidableEq P] in
theorem Good.fifo (h : Good s) : Fifo s := by
  refine ⟨?_, h.counted.nread, h.counted.nwrite, h.ring, h.calls, h.frame⟩
  rw [h.counted.count]
  have hroom := h.counted.room
  omega

theorem Good.of_run {s₀ : PipeSys P} {tr : List (Act P)} (h₀ : Fresh s₀) (h : Run Step s₀ tr s) :
    Good s :=
  h.invariant h₀.good fun hgood hstep => good_stream hgood (step_stream hstep)

/-- The next copy of `p` fails. -/
def CopyFails (s : PipeSys P) (p : P) : Prop :=
  (∃ w, s.pc p = .writing w ∧ (s.pipe.fetch w).2 = false) ∨
    ∃ r, s.pc p = .reading r ∧
      copyout r.pagetable (add64 r.addr r.i) (s.pipe.readChunk r) = false

/-- The stream and the counters are the same. -/
structure SameStream (s s' : PipeSys P) : Prop where
  nread : s'.pipe.nread = s.pipe.nread
  nwrite : s'.pipe.nwrite = s.pipe.nwrite
  accepted : s'.accepted = s.accepted
  delivered : s'.delivered = s.delivered
  ring : s'.pipe.ring = s.pipe.ring

/-- Nothing is counted for a copy that fails. -/
theorem run_of_copyFails (hfails : CopyFails s p) (h : s.run p = some s') :
    s'.pipe.nread = s.pipe.nread ∧ s'.pipe.nwrite = s.pipe.nwrite ∧ s'.pieces = s.pieces ∧
      s'.delivered = s.delivered := by
  cases run_round h with
  | write hpc hround =>
    obtain ⟨w, hw, hfail⟩ | ⟨r, hr, -⟩ := hfails
    swap
    · rw [hpc] at hr
      cases hr
    obtain rfl : _ = w := PipePc.writing.inj (hpc.symm.trans hw)
    cases hround with
    | done => exact ⟨rfl, rfl, rfl, rfl⟩
    | abort => exact ⟨rfl, rfl, rfl, rfl⟩
    | full => exact ⟨rfl, rfl, rfl, rfl⟩
    | failed => exact ⟨rfl, rfl, rfl, rfl⟩
    | stored _ _ _ hok =>
      rw [hfail] at hok
      cases hok
  | wait hpc hround =>
    cases hround with
    | abort => exact ⟨rfl, rfl, rfl, rfl⟩
    | sleep => exact ⟨rfl, rfl, rfl, rfl⟩
    | ready => exact ⟨rfl, rfl, rfl, rfl⟩
  | copy hpc hround =>
    obtain ⟨w, hw, -⟩ | ⟨r, hr, hfail⟩ := hfails
    · rw [hpc] at hw
      cases hw
    obtain rfl : _ = r := PipePc.reading.inj (hpc.symm.trans hr)
    cases hround with
    | done => exact ⟨rfl, rfl, rfl, rfl⟩
    | failed => exact ⟨rfl, rfl, rfl, rfl⟩
    | read _ _ hok =>
      rw [hfail] at hok
      cases hok

/-- Of two good states with the same streams the rings are the same. -/
theorem sameStream_of_copyFails (hgood : Good s) {late : Bool} (hfails : CopyFails s p)
    (h : Step s (.run p late) s') : SameStream s s' := by
  have hgood' := good_stream hgood (step_stream h)
  obtain ⟨t, hrun, rfl⟩ := Option.map_eq_some_iff.mp h
  obtain ⟨hnread, hnwrite, hpieces, hdelivered⟩ := run_of_copyFails hfails hrun
  have hacc : (t.killedLate p late).accepted = s.accepted := by
    unfold accepted
    rw [killedLate_pieces, hpieces]
  refine ⟨hnread, hnwrite, hacc, hdelivered, ?_⟩
  have hring := hgood'.ring
  rw [hacc, hgood.ring, killedLate_delivered, hdelivered] at hring
  exact (List.append_cancel_left hring).symm

/-- **A pipe is a bounded stream of bytes**, however its readers, writers and
closers interleave and whatever their buffers are; a copy that fails changes
neither the stream nor the counters. -/
theorem pipe_fifo {s₀ : PipeSys P} {tr : List (Act P)} (h₀ : Fresh s₀) (h : Run Step s₀ tr s) :
    Fifo s ∧ ∀ p late s', CopyFails s p → Step s (.run p late) s' → SameStream s s' := by
  have hgood := Good.of_run h₀ h
  exact ⟨hgood.fifo, fun p late s' hfails hstep => sameStream_of_copyFails hgood hfails hstep⟩

/-- The copy of the write that `p` is at, if it is at one, succeeds. -/
def fetchOk (s : PipeSys P) (p : P) : Bool :=
  match s.pc p with
  | .writing w => (s.pipe.fetch w).2
  | _ => true

omit [DecidableEq P] in
theorem copyFails_of_fetchOk (h : s.fetchOk p = false) : CopyFails s p := by
  unfold fetchOk at h
  split at h
  · rename_i w hw
    exact .inl ⟨w, hw, h⟩
  · cases h

/-- Four bytes are written and two of them read; the next write has a buffer of
which only the first two bytes are mapped. -/
theorem pipe_fifo_partly : ∃ s tr, Run Step newPipe tr s ∧ s.accepted = [0, 1, 2, 3] ∧
    s.delivered = [0, 1] ∧ CopyFails s true ∧
    (Fifo s ∧ ∀ p late s', CopyFails s p → Step s (.run p late) s' → SameStream s s') := by
  obtain ⟨s, hs, hv⟩ := exists_run (s := newPipe)
    (fun s => (s.accepted, s.delivered, s.fetchOk true)) ([0, 1, 2, 3], [0, 1], false)
    [.write true onePage (fun a => .ofNat a) 0 4, .run true false, .run true false,
      .read false onePage 8 2, .run false false, .run false false, .run false false,
      .write true onePage (fun a => .ofNat a) 4094 3] (by decide +kernel)
  simp only [Prod.mk.injEq] at hv
  exact ⟨s, _, hs, hv.1, hv.2.1, copyFails_of_fetchOk hv.2.2, pipe_fifo newPipe_fresh hs⟩

end PipeSys

end Xv6Zig
