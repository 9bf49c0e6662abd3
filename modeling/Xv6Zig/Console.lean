/-
Xv6Zig/Console.lean

The console's input (`kernel/console.c`): the line editor in the interrupt handler and the
reads.

`r`, `w` and `e` are 32-bit counters into a ring of 128 bytes: read, committed and typed.
A read holds the lock but for its sleeps, so what happens between two of them is one step;
it sleeps when nothing is committed, which after a commit by a full buffer may be in the
middle of a line.  Input and other reads come in while it does.

`Editor` says what the handler is for: the characters committed since boot and the line
being typed.  `log` is a record of what was taken from the ring and by which call.  Neither
is read by the model of the code.
-/
import Mathlib.Data.List.Flatten
import Mathlib.Data.UInt
import Xv6Zig.Lib.Circular

namespace Xv6Zig

open Function

namespace Console

/-- `INPUT_BUF_SIZE` -/
def inputBufSize : ℕ := 128

/-- `cons`, its lock aside. -/
structure Cons where
  buf : ℕ → UInt8
  r : UInt32
  w : UInt32
  e : UInt32

/-- `cons.buf[i % INPUT_BUF_SIZE]` -/
def Cons.at (s : Cons) (i : UInt32) : UInt8 := s.buf (i.toNat % inputBufSize)

/-- The loop of `^U`, of at most the given number of rounds. -/
def killLoop : ℕ → Cons → Cons
  | 0, s => s
  | n + 1, s =>
      if s.e ≠ s.w ∧ s.at (s.e - 1) ≠ 10 then killLoop n { s with e := s.e - 1 } else s

/-- `consoleintr`, what it prints aside. -/
def consoleintr (s : Cons) (c : UInt8) : Cons :=
  -- `^P`
  if c = 16 then s
  -- `^U`
  else if c = 21 then killLoop (s.e - s.w).toNat s
  -- `^H` and delete
  else if c = 8 ∨ c = 127 then if s.e ≠ s.w then { s with e := s.e - 1 } else s
  else if c ≠ 0 ∧ (s.e - s.r).toNat < inputBufSize then
    let c := if c = 13 then 10 else c
    let s := { s with buf := update s.buf (s.e.toNat % inputBufSize) c, e := s.e + 1 }
    if c = 10 ∨ c = 4 ∨ (s.e - s.r).toNat = inputBufSize then { s with w := s.e } else s
  else s

/-- A call of `consoleread` while it holds the lock: the console, the bytes it has copied
out and whether it is through, and the record. -/
structure Reading where
  cons : Cons
  got : List UInt8
  returned : Bool
  log : List (ℕ × UInt8)

/-- The loop of `consoleread`, for call `i`, up to its next sleep; `n` bytes are still to be
read. -/
def readLoop (i target : ℕ) : ℕ → Reading → Reading
  | 0, s => { s with returned := true }
  | n + 1, s =>
      if s.cons.r = s.cons.w then s
      else
        let c := s.cons.at s.cons.r
        let cons := { s.cons with r := s.cons.r + 1 }
        if c = 4 then
          -- save `^D` for next time
          if n + 1 < target then
            { s with cons := { cons with r := cons.r - 1 }, returned := true }
          else { s with cons := cons, returned := true, log := s.log ++ [(i, c)] }
        else
          let s := { s with cons := cons, got := s.got ++ [c], log := s.log ++ [(i, c)] }
          if c = 10 then { s with returned := true } else readLoop i target n s

/-- A call of `consoleread`: its `n`, the bytes copied out, and whether it has returned. -/
structure Call where
  target : ℕ
  got : List UInt8
  returned : Bool

/-- The characters committed so far, and those after them. -/
structure Editor where
  committed : List UInt8
  line : List UInt8

/-- A character is typed; `taken` characters have been read. -/
def Editor.input (ed : Editor) (taken : ℕ) (c : UInt8) : Editor :=
  if c = 16 then ed
  else if c = 21 then ⟨ed.committed, []⟩
  else if c = 8 ∨ c = 127 then ⟨ed.committed, ed.line.dropLast⟩
  else if c ≠ 0 ∧ ed.committed.length + ed.line.length < taken + inputBufSize then
    let c := if c = 13 then 10 else c
    if c = 10 ∨ c = 4 ∨ ed.committed.length + ed.line.length + 1 = taken + inputBufSize then
      ⟨ed.committed ++ (ed.line ++ [c]), []⟩
    else ⟨ed.committed, ed.line ++ [c]⟩
  else ed

structure State where
  cons : Cons
  calls : List Call
  log : List (ℕ × UInt8)
  ed : Editor

/-- What can happen. -/
inductive Event
  /-- a character arrives -/
  | input (c : UInt8)
  /-- some process calls `consoleread` for `n` bytes -/
  | read (n : ℕ)
  /-- call `i` goes on after a sleep -/
  | resume (i : ℕ)

/-- Call `i` runs. -/
def State.reading (s : State) (i : ℕ) (call : Call) : Reading :=
  readLoop i call.target (call.target - call.got.length) ⟨s.cons, call.got, false, s.log⟩

/-- How a call stands after it ran. -/
def Reading.call (t : Reading) (target : ℕ) : Call := ⟨target, t.got, t.returned⟩

def step (s : State) : Event → State
  | .input c => { s with cons := consoleintr s.cons c, ed := s.ed.input s.log.length c }
  | .read n =>
      let t := s.reading s.calls.length ⟨n, [], false⟩
      ⟨t.cons, s.calls ++ [t.call n], t.log, s.ed⟩
  | .resume i =>
      match s.calls[i]? with
      | none => s
      | some call =>
          if call.returned then s
          else
            let t := s.reading i call
            ⟨t.cons, s.calls.set i (t.call call.target), t.log, s.ed⟩

/-- `cons` is in the bss. -/
def init : State := ⟨⟨fun _ => 0, 0, 0, 0⟩, [], [], ⟨[], []⟩⟩

def run (events : List Event) : State := events.foldl step init

/-! ### The ring -/

section Counters

variable {a b : ℕ}

theorem ofNat_mod (k : ℕ) : (UInt32.ofNat k).toNat % inputBufSize = k % inputBufSize := by
  rw [UInt32.toNat_ofNat']
  unfold inputBufSize
  omega

theorem ofNat_sub (h : a ≤ b) (hb : b ≤ a + inputBufSize) :
    (UInt32.ofNat b - UInt32.ofNat a).toNat = b - a := by
  unfold inputBufSize at hb
  rw [UInt32.toNat_sub, UInt32.toNat_ofNat', UInt32.toNat_ofNat']
  omega

theorem ofNat_inj (h : a ≤ b) (hb : b ≤ a + inputBufSize) :
    UInt32.ofNat a = UInt32.ofNat b ↔ a = b := by
  constructor
  · intro heq
    have hsub := ofNat_sub h hb
    rw [heq, UInt32.sub_self] at hsub
    have h0 : 0 = b - a := hsub
    omega
  · exact congrArg _

theorem ofNat_succ (k : ℕ) : UInt32.ofNat k + 1 = UInt32.ofNat (k + 1) :=
  (UInt32.ofNat_add k 1).symm

theorem ofNat_pred (k : ℕ) : UInt32.ofNat (k + 1) - 1 = UInt32.ofNat k := by
  rw [← ofNat_succ, UInt32.add_sub_cancel]

end Counters

/-- **The ring shows the editor's characters** from `taken` on. -/
structure Shows (s : Cons) (taken : ℕ) (ed : Editor) : Prop where
  r : s.r = .ofNat taken
  w : s.w = .ofNat ed.committed.length
  e : s.e = .ofNat (ed.committed.length + ed.line.length)
  le : taken ≤ ed.committed.length
  room : ed.committed.length + ed.line.length ≤ taken + inputBufSize
  holds : Lib.Holds s.buf inputBufSize (fun x => (ed.committed ++ ed.line).getD x 0) taken
    (ed.committed.length + ed.line.length)

namespace Shows

variable {s : Cons} {taken : ℕ} {ed : Editor} {line committed : List UInt8} {c : UInt8}

theorem e_sub_w (h : Shows s taken ed) : (s.e - s.w).toNat = ed.line.length := by
  rw [h.e, h.w, ofNat_sub (by omega) (by have := h.room; have := h.le; omega)]
  omega

theorem e_sub_r (h : Shows s taken ed) :
    (s.e - s.r).toNat = ed.committed.length + ed.line.length - taken := by
  rw [h.e, h.r, ofNat_sub (by have := h.le; omega) h.room]

theorem w_sub_r (h : Shows s taken ed) : (s.w - s.r).toNat = ed.committed.length - taken := by
  rw [h.w, h.r, ofNat_sub h.le (by have := h.room; omega)]

theorem e_eq_w (h : Shows s taken ed) : s.e = s.w ↔ ed.line = [] := by
  rw [h.e, h.w, eq_comm, ofNat_inj (by omega) (by have := h.room; have := h.le; omega),
    ← List.length_eq_zero_iff]
  omega

theorem r_eq_w (h : Shows s taken ed) : s.r = s.w ↔ taken = ed.committed.length := by
  rw [h.r, h.w, ofNat_inj h.le (by have := h.room; omega)]

theorem at_eq (h : Shows s taken ed) {k : ℕ} (hk : taken ≤ k)
    (hlt : k < ed.committed.length + ed.line.length) :
    s.at (.ofNat k) = (ed.committed ++ ed.line).getD k 0 := by
  unfold Cons.at
  rw [ofNat_mod]
  exact h.holds k hk hlt

theorem erase (h : Shows s taken ⟨committed, line ++ [c]⟩) :
    Shows { s with e := s.e - 1 } taken ⟨committed, line⟩ where
  r := h.r
  w := h.w
  e := by
    have he := h.e
    dsimp only at he ⊢
    rw [List.length_append, List.length_singleton, ← Nat.add_assoc] at he
    rw [he, ofNat_pred]
  le := h.le
  room := by
    have := h.room
    simp only [List.length_append, List.length_singleton] at this ⊢
    omega
  holds := by
    intro x hx hlt
    have hlt' : x < committed.length + line.length := hlt
    rw [h.holds x hx (by simp; omega)]
    simp only [List.getD_eq_getElem?_getD, ← List.append_assoc]
    rw [List.getElem?_append_left (by simpa using hlt')]

theorem type (h : Shows s taken ⟨committed, line⟩)
    (hroom : committed.length + line.length < taken + inputBufSize) (c : UInt8) :
    Shows { s with buf := update s.buf (s.e.toNat % inputBufSize) c, e := s.e + 1 }
      taken ⟨committed, line ++ [c]⟩ where
  r := h.r
  w := h.w
  e := by
    have he := h.e
    dsimp only at he ⊢
    rw [he, ofNat_succ, List.length_append, List.length_singleton, Nat.add_assoc]
  le := h.le
  room := by
    simp only [List.length_append, List.length_singleton]
    omega
  holds := by
    have he : s.e.toNat % inputBufSize = (committed.length + line.length) % inputBufSize := by
      rw [h.e, ofNat_mod]
    intro x hx hlt
    dsimp only at hlt ⊢
    rw [List.length_append, List.length_singleton] at hlt
    rw [he, List.getD_eq_getElem?_getD, ← List.append_assoc]
    by_cases hlast : x = committed.length + line.length
    · subst hlast
      rw [update_self, List.getElem?_append_right (by simp)]
      simp
    · rw [List.getElem?_append_left (by simp; omega), ← List.getD_eq_getElem?_getD]
      exact h.holds.store c le_rfl hroom x hx (show x < committed.length + line.length by omega)

theorem commit (h : Shows s taken ⟨committed, line⟩) :
    Shows { s with w := s.e } taken ⟨committed ++ line, []⟩ where
  r := h.r
  w := by
    rw [List.length_append]
    exact h.e
  e := by
    rw [List.length_append]
    exact h.e
  le := by
    have := h.le
    rw [List.length_append]
    exact this.trans (Nat.le_add_right _ _)
  room := by
    rw [List.length_append]
    exact h.room
  holds := by
    rw [List.append_nil, List.length_append]
    exact h.holds

theorem take (h : Shows s taken ed) (hlt : taken < ed.committed.length) :
    Shows { s with r := s.r + 1 } (taken + 1) ed where
  r := by
    dsimp only
    rw [h.r, ofNat_succ]
  w := h.w
  e := h.e
  le := hlt
  room := h.room.trans (by omega)
  holds := h.holds.drop (Nat.le_succ taken)

theorem kill (h : Shows s taken ⟨committed, line⟩) (hline : 10 ∉ line) :
    Shows (killLoop line.length s) taken ⟨committed, []⟩ := by
  induction line using List.reverseRecOn generalizing s with
  | nil => exact h
  | append_singleton line c ih =>
    have he : s.e ≠ s.w := fun heq => by simpa using h.e_eq_w.mp heq
    have hlast : s.at (s.e - 1) = c := by
      have hs := h.e
      dsimp only at hs
      rw [List.length_append, List.length_singleton, ← Nat.add_assoc] at hs
      rw [hs, ofNat_pred, h.at_eq (by have := h.le; dsimp only at this; omega) (by simp),
        List.getD_eq_getElem?_getD, ← List.append_assoc, List.getElem?_append_right (by simp)]
      simp
    rw [List.length_append, List.length_singleton, killLoop,
      if_pos ⟨he, by rw [hlast]; exact fun h0 => hline (by simp [h0])⟩]
    exact ih h.erase fun hmem => hline (by simp [hmem])

end Shows

/-- The line being typed has no newline. -/
def Clean (ed : Editor) : Prop := 10 ∉ ed.line

theorem Clean.input {ed : Editor} (h : Clean ed) (taken : ℕ) (c : UInt8) :
    Clean (ed.input taken c) := by
  unfold Clean Editor.input at *
  dsimp only
  split_ifs with h₁ h₂ h₃ h₄ h₅ h₅ h₅ <;>
    first
      | exact h
      | exact List.not_mem_nil
      | exact fun hmem => h (List.dropLast_subset _ hmem)
      | skip
  all_goals
    intro hmem
    rcases List.mem_append.mp hmem with hmem | hmem
    · exact h hmem
    · simp_all

/-- **The handler does to the ring what the editor does to its line.** -/
theorem Shows.input {s : Cons} {taken : ℕ} {ed : Editor} (h : Shows s taken ed) (hc : Clean ed)
    (c : UInt8) : Shows (consoleintr s c) taken (ed.input taken c) := by
  obtain ⟨committed, line⟩ := ed
  unfold consoleintr Editor.input
  split
  · exact h
  split
  · rw [h.e_sub_w]
    exact h.kill hc
  split
  · by_cases hw : s.e = s.w
    · have hnil : line = [] := h.e_eq_w.mp hw
      subst hnil
      rw [if_neg (not_not.mpr hw)]
      exact h
    · rw [if_pos hw]
      have hne : line ≠ [] := fun h0 => hw (h.e_eq_w.mpr h0)
      dsimp only
      apply Shows.erase (c := line.getLast hne)
      rw [List.dropLast_append_getLast hne]
      exact h
  have hle := h.le
  have hroom : (s.e - s.r).toNat < inputBufSize ↔
      committed.length + line.length < taken + inputBufSize := by
    rw [h.e_sub_r]
    dsimp only at hle ⊢
    omega
  by_cases hin : c ≠ 0 ∧ committed.length + line.length < taken + inputBufSize
  · rw [if_pos (hin.imp_right hroom.mpr), if_pos hin]
    generalize (if c = 13 then (10 : UInt8) else c) = x
    have ht := h.type hin.2 x
    have hfull : (s.e + 1 - s.r).toNat = inputBufSize ↔
        committed.length + line.length + 1 = taken + inputBufSize := by
      have hsub := ht.e_sub_r
      dsimp only at hsub hle
      rw [hsub, List.length_append, List.length_singleton]
      omega
    by_cases hcommit : x = 10 ∨ x = 4 ∨
        committed.length + line.length + 1 = taken + inputBufSize
    · have hcode := hcommit.imp_right (Or.imp_right hfull.mpr)
      dsimp only
      rw [if_pos hcode, if_pos hcommit]
      exact ht.commit
    · have hcode : ¬ (x = 10 ∨ x = 4 ∨ (s.e + 1 - s.r).toNat = inputBufSize) := fun h' =>
        hcommit (h'.imp_right (Or.imp_right hfull.mp))
      dsimp only
      rw [if_neg hcode, if_neg hcommit]
      exact ht
  · rw [if_neg fun h' => hin (h'.imp_right hroom.mp), if_neg hin]
    exact h

/-! ### The reads -/

/-- What call `i` took, in order. -/
def mine (log : List (ℕ × UInt8)) (i : ℕ) : List UInt8 := (log.filter (·.1 = i)).map (·.2)

/-- The characters a call's result stands for: its bytes, or `^D`. -/
def Call.out (call : Call) : List UInt8 :=
  if call.returned ∧ call.got = [] then [4] else call.got

/-- **Call `i` was served as it should be.** -/
structure Served (log : List (ℕ × UInt8)) (i : ℕ) (call : Call) : Prop where
  /-- it took what its result stands for; a `^D` is all it took, and its result is empty -/
  took : mine log i = call.out
  noEof : 4 ∉ call.got
  /-- nothing comes after the end of a line -/
  line : ∀ a b, call.got = a ++ 10 :: b → b = [] ∧ call.returned = true
  fits : call.got.length ≤ call.target
  waits : call.returned = false → call.got.length < call.target

theorem mine_append (log : List (ℕ × UInt8)) (i : ℕ) (new : List UInt8) :
    mine (log ++ new.map (i, ·)) i = mine log i ++ new := by
  unfold mine
  rw [List.filter_append, List.map_append]
  congr 1
  rw [List.filter_eq_self.mpr (by simp), List.map_map]
  exact List.map_id new

theorem mine_append_of_ne (log : List (ℕ × UInt8)) {i j : ℕ} (h : i ≠ j) (new : List UInt8) :
    mine (log ++ new.map (i, ·)) j = mine log j := by
  unfold mine
  have hnew : (new.map (i, ·)).filter (·.1 = j) = [] := List.filter_eq_nil_iff.mpr (by simp [h])
  rw [List.filter_append, hnew, List.append_nil]

/-- Call `i` in its loop, with `n` bytes to go. -/
structure Ready (ed : Editor) (i target n : ℕ) (s : Reading) : Prop where
  shows : Shows s.cons s.log.length ed
  stream : s.log.map (·.2) = ed.committed.take s.log.length
  mine : mine s.log i = s.got
  noEof : 4 ∉ s.got
  noLine : 10 ∉ s.got
  length : s.got.length + n = target
  pos : 0 < target
  running : s.returned = false

/-- What the loop has done when it sleeps or returns. -/
structure Reads (ed : Editor) (i target : ℕ) (s t : Reading) : Prop where
  shows : Shows t.cons t.log.length ed
  stream : t.log.map (·.2) = ed.committed.take t.log.length
  served : Served t.log i (t.call target)
  took : ∃ new, t.log = s.log ++ new.map (i, ·) ∧ (t.call target).out = s.got ++ new
  asleep : t.returned = false → t.cons.r = t.cons.w

namespace Ready

variable {ed : Editor} {i target n : ℕ} {s : Reading}

theorem not_line (h : Ready ed i target n s) {a b : List UInt8} : s.got ≠ a ++ 10 :: b :=
  fun hab => h.noLine (hab ▸ by simp)

theorem returns (h : Ready ed i target n s) (hgot : s.got ≠ []) :
    Reads ed i target s { s with returned := true } where
  shows := h.shows
  stream := h.stream
  served :=
    { took := by
        rw [h.mine]
        exact (if_neg fun h0 => hgot h0.2).symm
      noEof := h.noEof
      line := fun a b hab => absurd hab h.not_line
      fits := Nat.le.intro h.length
      waits := nofun }
  took := ⟨[], by simp, by rw [List.append_nil]; exact if_neg fun h0 => hgot h0.2⟩
  asleep := nofun

theorem sleep (h : Ready ed i target (n + 1) s) (hw : s.cons.r = s.cons.w) :
    Reads ed i target s s where
  shows := h.shows
  stream := h.stream
  served :=
    { took := by
        rw [h.mine]
        exact (if_neg fun h0 => Bool.false_ne_true (h.running.symm.trans h0.1)).symm
      noEof := h.noEof
      line := fun a b hab => absurd hab h.not_line
      fits := Nat.le.intro h.length
      waits := fun _ => show s.got.length < target by have := h.length; omega }
  took := ⟨[], by simp, by
    rw [List.append_nil]
    exact if_neg fun h0 => Bool.false_ne_true (h.running.symm.trans h0.1)⟩
  asleep := fun _ => hw

theorem takes (h : Ready ed i target n s) (hw : s.cons.r ≠ s.cons.w) {c : UInt8}
    (hc : s.cons.at s.cons.r = c) :
    Shows { s.cons with r := s.cons.r + 1 } (s.log ++ [(i, c)]).length ed ∧
      (s.log ++ [(i, c)]).map (·.2) = ed.committed.take (s.log ++ [(i, c)]).length := by
  have hlt : s.log.length < ed.committed.length :=
    lt_of_le_of_ne h.shows.le fun h0 => hw (h.shows.r_eq_w.mpr h0)
  rw [List.length_append, List.length_singleton, List.map_append, h.stream]
  refine ⟨h.shows.take hlt, ?_⟩
  rw [← hc, h.shows.r, h.shows.at_eq le_rfl (by omega), List.getD_eq_getElem?_getD,
    List.getElem?_append_left hlt, List.getElem?_eq_getElem hlt]
  exact List.take_append_getElem hlt

theorem eof (h : Ready ed i target n s) (hw : s.cons.r ≠ s.cons.w)
    (hc : s.cons.at s.cons.r = 4) (hgot : s.got = []) :
    Reads ed i target s
      { s with
        cons := { s.cons with r := s.cons.r + 1 }, returned := true, log := s.log ++ [(i, 4)] } where
  shows := (h.takes hw hc).1
  stream := (h.takes hw hc).2
  served :=
    { took := by
        refine (mine_append s.log i [4]).trans ?_
        rw [h.mine, show s.got ++ [4] = [4] by rw [hgot]; rfl]
        exact (if_pos ⟨rfl, hgot⟩).symm
      noEof := h.noEof
      line := fun a b hab => absurd hab h.not_line
      fits := Nat.le.intro h.length
      waits := nofun }
  took := ⟨[4], rfl, (if_pos ⟨rfl, hgot⟩).trans (by rw [hgot]; rfl)⟩
  asleep := nofun

theorem next (h : Ready ed i target (n + 1) s) (hw : s.cons.r ≠ s.cons.w) {c : UInt8}
    (hc : s.cons.at s.cons.r = c) (h4 : c ≠ 4) (h10 : c ≠ 10) :
    Ready ed i target n
      { s with
        cons := { s.cons with r := s.cons.r + 1 }, got := s.got ++ [c],
        log := s.log ++ [(i, c)] } where
  shows := (h.takes hw hc).1
  stream := (h.takes hw hc).2
  mine := (mine_append s.log i [c]).trans (by rw [h.mine])
  noEof := by simp [h.noEof, h4.symm]
  noLine := by simp [h.noLine, h10.symm]
  length := by
    have := h.length
    simp only [List.length_append, List.length_singleton]
    omega
  pos := h.pos
  running := h.running

theorem newline (h : Ready ed i target (n + 1) s) (hw : s.cons.r ≠ s.cons.w)
    (hc : s.cons.at s.cons.r = 10) :
    Reads ed i target s
      { s with
        cons := { s.cons with r := s.cons.r + 1 }, got := s.got ++ [10], returned := true,
        log := s.log ++ [(i, 10)] } where
  shows := (h.takes hw hc).1
  stream := (h.takes hw hc).2
  served :=
    { took := by
        refine (mine_append s.log i [10]).trans ?_
        rw [h.mine]
        exact (if_neg fun h0 => List.append_ne_nil_of_right_ne_nil _ (by simp) h0.2).symm
      noEof := show 4 ∉ s.got ++ [10] by simpa using h.noEof
      line := by
        intro a b hab
        refine ⟨?_, rfl⟩
        -- a newline that is not the last byte would have been there before
        rcases List.eq_nil_or_concat' b with rfl | ⟨b, x, rfl⟩
        · rfl
        · have hgot : s.got ++ [10] = (a ++ 10 :: b) ++ [x] := by
            rw [List.append_assoc]
            exact hab
          exact absurd (List.append_inj_left' hgot rfl) h.not_line
      fits := by
        have := h.length
        show (s.got ++ [10]).length ≤ target
        simp only [List.length_append, List.length_singleton]
        omega
      waits := nofun }
  took := ⟨[10], rfl, if_neg fun h0 => List.append_ne_nil_of_right_ne_nil _ (by simp) h0.2⟩
  asleep := nofun

end Ready

/-- **The loop of `consoleread`.** -/
theorem readLoop_reads {ed : Editor} {i target n : ℕ} {s : Reading} (h : Ready ed i target n s) :
    Reads ed i target s (readLoop i target n s) := by
  induction n generalizing s with
  | zero =>
    apply h.returns
    intro h0
    have := h.length
    rw [h0] at this
    exact h.pos.ne this
  | succ n ih =>
    unfold readLoop
    by_cases hw : s.cons.r = s.cons.w
    · rw [if_pos hw]
      exact h.sleep hw
    rw [if_neg hw]
    generalize hc : s.cons.at s.cons.r = c
    have hlen := h.length
    dsimp only
    by_cases h4 : c = 4
    · subst h4
      rw [if_pos rfl]
      by_cases hput : n + 1 < target
      · rw [if_pos hput, UInt32.add_sub_cancel]
        apply h.returns
        intro h0
        rw [h0, List.length_nil] at hlen
        omega
      · rw [if_neg hput]
        exact h.eof hw hc (List.length_eq_zero_iff.mp (by omega))
    rw [if_neg h4]
    by_cases h10 : c = 10
    · subst h10
      rw [if_pos rfl]
      exact h.newline hw hc
    rw [if_neg h10]
    have hrest := ih (h.next hw hc h4 h10)
    obtain ⟨new, hlog, hout⟩ := hrest.took
    refine { hrest with took := ⟨c :: new, ?_, ?_⟩ }
    · rw [hlog, List.append_assoc]
      rfl
    · rw [hout, List.append_assoc]
      rfl

/-! ### Whole runs -/

/-- What holds after every event. -/
structure Inv (s : State) : Prop where
  shows : Shows s.cons s.log.length s.ed
  clean : Clean s.ed
  stream : s.log.map (·.2) = s.ed.committed.take s.log.length
  served : ∀ i call, s.calls[i]? = some call → Served s.log i call
  owned : ∀ p ∈ s.log, p.1 < s.calls.length

theorem inv_init : Inv init where
  shows := ⟨rfl, rfl, rfl, le_rfl, Nat.zero_le _, Lib.Holds.empty _ _ _ _⟩
  clean := List.not_mem_nil
  stream := rfl
  served := nofun
  owned := nofun

/-- What a call takes is no other call's. -/
theorem Served.append {log : List (ℕ × UInt8)} {i j : ℕ} {call : Call} (h : Served log j call)
    (hij : i ≠ j) (new : List UInt8) : Served (log ++ new.map (i, ·)) j call :=
  { h with took := (mine_append_of_ne log hij new).trans h.took }

namespace Inv

variable {s : State}

theorem input (h : Inv s) (c : UInt8) : Inv (step s (.input c)) where
  shows := h.shows.input h.clean c
  clean := h.clean.input _ c
  stream := by
    have hle := h.shows.le
    have hpre : s.ed.committed <+: (s.ed.input s.log.length c).committed := by
      unfold Editor.input
      dsimp only
      split_ifs <;> simp
    obtain ⟨more, hmore⟩ := hpre
    show s.log.map (·.2) = _
    rw [h.stream]
    show _ = (s.ed.input s.log.length c).committed.take s.log.length
    rw [← hmore, List.take_append_of_le_length hle]
  served := h.served
  owned := h.owned

theorem ready (h : Inv s) {i : ℕ} {call : Call} (hserved : Served s.log i call)
    (hpos : 0 < call.target) (hrun : call.returned = false) :
    Ready s.ed i call.target (call.target - call.got.length) ⟨s.cons, call.got, false, s.log⟩ where
  shows := h.shows
  stream := h.stream
  mine := hserved.took.trans (if_neg fun h0 => Bool.false_ne_true (hrun.symm.trans h0.1))
  noEof := hserved.noEof
  noLine := by
    intro hmem
    obtain ⟨a, b, hab⟩ := List.append_of_mem hmem
    exact Bool.false_ne_true (hrun.symm.trans (hserved.line a b hab).2)
  length := Nat.add_sub_cancel' hserved.fits
  pos := hpos
  running := rfl

theorem served_new (h : Inv s) (n : ℕ) (hn : 0 < n) :
    Served s.log s.calls.length ⟨n, [], false⟩ where
  took := by
    have hnone : s.log.filter (·.1 = s.calls.length) = [] :=
      List.filter_eq_nil_iff.mpr fun p hp => by simpa using (h.owned p hp).ne
    show (s.log.filter (·.1 = s.calls.length)).map (·.2) = _
    rw [hnone]
    rfl
  noEof := List.not_mem_nil
  line := fun a b hab => absurd hab (by simp)
  fits := Nat.zero_le n
  waits := fun _ => hn

/-- **A call runs**, and the others stay as they are. -/
theorem reads (h : Inv s) {i : ℕ} {calls : List Call} {call : Call} {t : Reading}
    (ht : Reads s.ed i call.target ⟨s.cons, call.got, false, s.log⟩ t)
    (hi : calls[i]? = some (t.call call.target)) (hlen : s.calls.length ≤ calls.length)
    (hother : ∀ j, j ≠ i → calls[j]? = s.calls[j]?) : Inv ⟨t.cons, calls, t.log, s.ed⟩ where
  shows := ht.shows
  clean := h.clean
  stream := ht.stream
  served := by
    intro j c hj
    by_cases hij : j = i
    · subst hij
      rw [hi] at hj
      exact Option.some.inj hj ▸ ht.served
    · rw [hother j hij] at hj
      obtain ⟨new, hlog, -⟩ := ht.took
      show Served t.log j c
      rw [hlog]
      exact (h.served j c hj).append (Ne.symm hij) new
  owned := by
    obtain ⟨new, hlog, -⟩ := ht.took
    show ∀ p ∈ t.log, p.1 < calls.length
    rw [hlog]
    intro p hp
    rcases List.mem_append.mp hp with hp | hp
    · exact (h.owned p hp).trans_le hlen
    · obtain ⟨c, -, rfl⟩ := List.mem_map.mp hp
      exact (List.getElem?_eq_some_iff.mp hi).1

theorem read (h : Inv s) {n : ℕ} (hn : 0 < n) : Inv (step s (.read n)) := by
  have ht := readLoop_reads (h.ready (h.served_new n hn) hn rfl)
  apply h.reads ht
  · exact List.getElem?_concat_length
  · simp
  · intro j hj
    rcases lt_or_gt_of_ne hj with hlt | hgt
    · exact List.getElem?_append_left hlt
    · rw [List.getElem?_eq_none (by simpa using Nat.succ_le_of_lt hgt), List.getElem?_eq_none hgt.le]

end Inv

/-- A call that waits asked for something. -/
theorem Served.pos {log : List (ℕ × UInt8)} {i : ℕ} {call : Call} (h : Served log i call)
    (hrun : call.returned = false) : 0 < call.target :=
  (Nat.zero_le _).trans_lt (h.waits hrun)

theorem Inv.resume {s : State} (h : Inv s) (i : ℕ) : Inv (step s (.resume i)) := by
  unfold step
  dsimp only
  cases hi : s.calls[i]? with
  | none => exact h
  | some call =>
    dsimp only
    by_cases hret : call.returned = true
    · rw [if_pos hret]
      exact h
    · rw [if_neg hret]
      have hrun : call.returned = false := Bool.eq_false_iff.mpr hret
      have hs := h.served i call hi
      have hlt := (List.getElem?_eq_some_iff.mp hi).1
      apply h.reads (readLoop_reads (h.ready hs (hs.pos hrun) hrun))
      · exact List.getElem?_set_self hlt
      · simp
      · exact fun j hj => List.getElem?_set_ne hj.symm

/-- **The run lemma.** -/
theorem inv_run (events : List Event) (hn : ∀ n, .read n ∈ events → 0 < n) : Inv (run events) := by
  induction events using List.reverseRecOn with
  | nil => exact inv_init
  | append_singleton events e ih =>
    have hbefore := ih fun n hmem => hn n (List.mem_append_left _ hmem)
    unfold run at hbefore ⊢
    rw [List.foldl_append]
    cases e with
    | input c => exact hbefore.input c
    | read n => exact hbefore.read (hn n (by simp))
    | resume i => exact hbefore.resume i

/-! ### The discipline -/

/-- The bytes of the ring from counter `a` to counter `b`. -/
def Cons.between (s : Cons) (a b : UInt32) : List UInt8 :=
  (List.range (b - a).toNat).map fun k => s.at (a + .ofNat k)

theorem Shows.between {s : Cons} {taken a b : ℕ} {ed : Editor} (h : Shows s taken ed)
    (ha : taken ≤ a) (hab : a ≤ b) (hb : b ≤ ed.committed.length + ed.line.length) :
    s.between (.ofNat a) (.ofNat b) = ((ed.committed ++ ed.line).take b).drop a := by
  unfold Cons.between
  rw [ofNat_sub hab (hb.trans (h.room.trans (by omega)))]
  apply List.ext_getElem
  · simp
    omega
  · intro k hk _
    have hlt : k < b - a := by simpa using hk
    rw [List.getElem_map, List.getElem_range, ← UInt32.ofNat_add,
      h.at_eq (by omega) (by omega), List.getElem_drop, List.getElem_take,
      List.getD_eq_getElem _ _ (by simp; omega)]

/-- `^U` moves `e` only. -/
theorem killLoop_frame (n : ℕ) (s : Cons) :
    (killLoop n s).r = s.r ∧ (killLoop n s).w = s.w ∧ (killLoop n s).buf = s.buf := by
  induction n generalizing s with
  | zero => exact ⟨rfl, rfl, rfl⟩
  | succ n ih =>
    unfold killLoop
    split
    · exact ih _
    · exact ⟨rfl, rfl, rfl⟩

/-- **The console is in order.** -/
structure Disciplined (s : State) : Prop where
  /-- `w - r <= e - r <= INPUT_BUF_SIZE` -/
  indices : (s.cons.w - s.cons.r).toNat ≤ (s.cons.e - s.cons.r).toNat ∧
    (s.cons.e - s.cons.r).toNat ≤ inputBufSize
  /-- backspace and `^U` take characters after `w` away and touch nothing else -/
  edits : ∀ c ∈ [21, 8, 127], (consoleintr s.cons c).r = s.cons.r ∧
    (consoleintr s.cons c).w = s.cons.w ∧ (consoleintr s.cons c).buf = s.cons.buf ∧
    ((consoleintr s.cons c).e - s.cons.w).toNat ≤ (s.cons.e - s.cons.w).toNat
  /-- what was taken and what is unread make up what was committed -/
  stream : s.log.map (·.2) ++ s.cons.between s.cons.r s.cons.w = s.ed.committed
  typed : s.cons.between s.cons.w s.cons.e = s.ed.line
  served : ∀ i call, s.calls[i]? = some call → Served s.log i call

theorem Inv.edits {s : State} (h : Inv s) {c : UInt8} (hc : c ∈ [21, 8, 127]) :
    (consoleintr s.cons c).r = s.cons.r ∧ (consoleintr s.cons c).w = s.cons.w ∧
      (consoleintr s.cons c).buf = s.cons.buf ∧
      ((consoleintr s.cons c).e - s.cons.w).toNat ≤ (s.cons.e - s.cons.w).toNat := by
  have hframe : (consoleintr s.cons c).r = s.cons.r ∧ (consoleintr s.cons c).w = s.cons.w ∧
      (consoleintr s.cons c).buf = s.cons.buf := by
    simp only [List.mem_cons, List.not_mem_nil, or_false] at hc
    rcases hc with rfl | rfl | rfl
    · exact killLoop_frame _ _
    all_goals
      unfold consoleintr
      rw [if_neg (by decide), if_neg (by decide), if_pos (by decide)]
      split <;> exact ⟨rfl, rfl, rfl⟩
  refine ⟨hframe.1, hframe.2.1, hframe.2.2, ?_⟩
  have hline := (h.shows.input h.clean c).e_sub_w
  rw [hframe.2.1] at hline
  rw [hline, h.shows.e_sub_w]
  simp only [List.mem_cons, List.not_mem_nil, or_false] at hc
  rcases hc with rfl | rfl | rfl
  · exact Nat.zero_le _
  all_goals
    show (s.ed.line.dropLast).length ≤ _
    rw [List.length_dropLast]
    exact Nat.sub_le _ _

theorem Inv.disciplined {s : State} (h : Inv s) : Disciplined s where
  indices := by
    have hroom := h.shows.room
    rw [h.shows.w_sub_r, h.shows.e_sub_r]
    constructor <;> omega
  edits := fun _ hc => h.edits hc
  stream := by
    rw [h.stream, h.shows.r, h.shows.w, h.shows.between le_rfl h.shows.le (by omega),
      List.take_append_of_le_length le_rfl, List.take_length, List.take_append_drop]
  typed := by
    rw [h.shows.w, h.shows.e, h.shows.between h.shows.le (by omega) le_rfl,
      List.take_of_length_le (by simp), List.drop_left]
  served := h.served

/-- No call begins before the others have returned. -/
def Sequential (events : List Event) : Prop :=
  ∀ pre n post, events = pre ++ .read n :: post → ∀ call ∈ (run pre).calls, call.returned = true

/-- The calls took their characters one after the other, and only the last may wait. -/
structure InTurn (s : State) : Prop where
  outs : s.log.map (·.2) = (s.calls.map Call.out).flatten
  before : ∀ call ∈ s.calls.dropLast, call.returned = true

theorem Reads.outs {ed : Editor} {i target : ℕ} {s t : Reading} (h : Reads ed i target s t)
    {before : List UInt8} (hlog : s.log.map (·.2) = before ++ s.got) :
    t.log.map (·.2) = before ++ (t.call target).out := by
  obtain ⟨new, hnew, hout⟩ := h.took
  rw [hnew, hout, List.map_append, hlog, List.append_assoc, List.map_map]
  exact congrArg (fun l => before ++ (s.got ++ l)) (List.map_id new)

theorem InTurn.read {s : State} (h : InTurn s) (hinv : Inv s) {n : ℕ} (hn : 0 < n)
    (hall : ∀ call ∈ s.calls, call.returned = true) : InTurn (step s (.read n)) where
  outs := by
    have ht := readLoop_reads (hinv.ready (hinv.served_new n hn) hn rfl)
    have hlog := ht.outs (h.outs.trans (List.append_nil _).symm)
    refine hlog.trans ?_
    show _ = ((s.calls ++ [_]).map Call.out).flatten
    rw [List.map_append, List.flatten_append]
    exact congrArg _ (List.append_nil _).symm
  before := by
    show ∀ call ∈ (s.calls ++ [(s.reading s.calls.length ⟨n, [], false⟩).call n]).dropLast,
      call.returned = true
    rw [List.dropLast_concat]
    exact hall

theorem InTurn.resume {s : State} (h : InTurn s) (hinv : Inv s) (i : ℕ) :
    InTurn (step s (.resume i)) := by
  unfold step
  dsimp only
  cases hi : s.calls[i]? with
  | none => exact h
  | some call =>
    dsimp only
    by_cases hret : call.returned = true
    · rw [if_pos hret]
      exact h
    rw [if_neg hret]
    have hrun : call.returned = false := Bool.eq_false_iff.mpr hret
    have hs := hinv.served i call hi
    -- only the last call waits
    obtain ⟨pre, hcalls, hpre⟩ : ∃ pre, s.calls = pre ++ [call] ∧ pre.length = i := by
      have hlt := (List.getElem?_eq_some_iff.mp hi).1
      rcases List.eq_nil_or_concat' s.calls with hnil | ⟨pre, last, hcalls⟩
      · simp [hnil] at hlt
      · rw [hcalls] at hi
        have hge : ¬ i < pre.length := by
          intro hlt'
          rw [List.getElem?_append_left hlt'] at hi
          have hmem := List.mem_of_getElem? hi
          exact hret (h.before call (by rw [hcalls, List.dropLast_concat]; exact hmem))
        have heq : i = pre.length := by
          rw [hcalls, List.length_append, List.length_singleton] at hlt
          omega
        subst heq
        rw [List.getElem?_concat_length] at hi
        exact ⟨pre, by rw [hcalls, Option.some.inj hi], rfl⟩
    have ht := readLoop_reads (hinv.ready hs (hs.pos hrun) hrun)
    have hout : call.out = call.got :=
      if_neg fun h0 => hret h0.1
    have hgot : s.log.map (·.2) = (pre.map Call.out).flatten ++ call.got := by
      rw [h.outs, hcalls, List.map_append, List.flatten_append, List.map_singleton,
        List.flatten_singleton, hout]
    have hlog := ht.outs hgot
    have hset : s.calls.set i ((s.reading i call).call call.target) =
        pre ++ [(s.reading i call).call call.target] := by
      rw [hcalls, ← hpre, List.set_append_right _ _ le_rfl, Nat.sub_self]
      rfl
    refine ⟨?_, ?_⟩
    · show (s.reading i call).log.map (·.2) = ((s.calls.set i _).map Call.out).flatten
      rw [hset, List.map_append, List.flatten_append, List.map_singleton, List.flatten_singleton]
      exact hlog
    · show ∀ c ∈ (s.calls.set i _).dropLast, _
      rw [hset, List.dropLast_concat]
      intro c hc
      exact h.before c (by rw [hcalls, List.dropLast_concat]; exact hc)

theorem inTurn_run (events : List Event) (hn : ∀ n, .read n ∈ events → 0 < n)
    (hseq : Sequential events) : InTurn (run events) := by
  induction events using List.reverseRecOn with
  | nil => exact ⟨rfl, nofun⟩
  | append_singleton events e ih =>
    have hn' : ∀ n, .read n ∈ events → 0 < n := fun n hmem => hn n (List.mem_append_left _ hmem)
    have hbefore := ih hn' fun pre n post h => hseq pre n (post ++ [e]) (by simp [h])
    have hinv := inv_run events hn'
    have hrun : run (events ++ [e]) = step (run events) e := List.foldl_append
    rw [hrun]
    cases e with
    | input c => exact ⟨hbefore.outs, hbefore.before⟩
    | read n => exact hbefore.read hinv (hn n (by simp)) (hseq events n [] rfl)
    | resume i => exact hbefore.resume hinv i

/-- A call that has run and not returned sleeps because nothing is left to read. -/
theorem Inv.asleep {s : State} (h : Inv s) {i : ℕ} {call : Call} (hi : s.calls[i]? = some call)
    (hrun : call.returned = false) :
    (s.reading i call).returned = false → (s.reading i call).cons.r = (s.reading i call).cons.w :=
  (readLoop_reads (h.ready (h.served i call hi) ((h.served i call hi).pos hrun) hrun)).asleep

/-- **The line discipline of the console**, for every sequence of characters and reads: the
indices keep their order, editing leaves what is committed alone, what the calls took is the
committed stream in order, and every call was served its bytes of one line, or one `^D` as
an empty result.  A call that does not return has left nothing to read.  Where the calls
come one after the other, their results in this order are the committed stream. -/
theorem line_discipline (events : List Event) (hn : ∀ n, .read n ∈ events → 0 < n) :
    Disciplined (run events) ∧
      (∀ i call, (run events).calls[i]? = some call → call.returned = false →
        ((run events).reading i call).returned = false →
        ((run events).reading i call).cons.r = ((run events).reading i call).cons.w) ∧
      (Sequential events →
        ((run events).calls.map Call.out).flatten ++
          (run events).cons.between (run events).cons.r (run events).cons.w =
            (run events).ed.committed) := by
  have hinv := inv_run events hn
  refine ⟨hinv.disciplined, fun i call hi hrun => hinv.asleep hi hrun, fun hseq => ?_⟩
  rw [← (inTurn_run events hn hseq).outs]
  exact hinv.disciplined.stream

/-- `a`, `^H`, `b`, return and `^D`, and two reads. -/
def typedEvents : List Event :=
  [.input 97, .input 8, .input 98, .input 13, .input 4, .read 9, .read 9]

theorem line_discipline_typed :
    Disciplined (run typedEvents) ∧
      (∀ i call, (run typedEvents).calls[i]? = some call → call.returned = false →
        ((run typedEvents).reading i call).returned = false →
        ((run typedEvents).reading i call).cons.r = ((run typedEvents).reading i call).cons.w) ∧
      (Sequential typedEvents →
        ((run typedEvents).calls.map Call.out).flatten ++
          (run typedEvents).cons.between (run typedEvents).cons.r (run typedEvents).cons.w =
            (run typedEvents).ed.committed) :=
  line_discipline typedEvents (by simp [typedEvents])

example : ((run typedEvents).calls.map (·.got), (run typedEvents).ed.committed) =
    ([[98, 10], []], [98, 10, 4]) := by decide

end Console

end Xv6Zig
