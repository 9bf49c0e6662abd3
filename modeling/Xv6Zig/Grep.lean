/-
Xv6Zig/Grep.lean

`grep` (`user/grep.c`): the matcher, and the loop over the lines of a file.

A pointer into a string is what it points to: the bytes from there on, the terminator
among them.  A read behind the terminator finds nothing and the result is `none`.

An expression is read from left to right as characters, some of them starred (`parse`).
What it stands for is a language of Mathlib, and `match` finds a member of it in the text.

The loop reads into a buffer of 1024 bytes behind what is left of the last line.  When that
fills the buffer there is no room to read into, `read` returns 0 and `grep` takes it for
the end of the file.
-/
import Mathlib.Computability.Language

namespace Xv6Zig

namespace Grep

def star : UInt8 := 42
def dot : UInt8 := 46
def caret : UInt8 := 94
def dollar : UInt8 := 36
def newline : UInt8 := 10

/-! ### The matcher -/

/-- `do { if(matchhere(re, text)) return 1; } while(..)`, the loop of `match` and of `matchstar`,
where `go` says whether it goes on behind a character. -/
def tryLoop (go : UInt8 → Bool) (here : List UInt8 → Option Bool) : List UInt8 → Option Bool
  | [] => none
  | t :: text =>
      match here (t :: text) with
      | none => none
      | some true => some true
      | some false => if t ≠ 0 ∧ go t = true then tryLoop go here text else some false

/-- `matchstar`, with `matchhere(re, ..)` for the expression behind the star. -/
def matchstar (c : UInt8) (here : List UInt8 → Option Bool) (text : List UInt8) : Option Bool :=
  tryLoop (fun t => t = c ∨ c = dot) here text

def matchhere : List UInt8 → List UInt8 → Option Bool
  | [], _ => none
  | [r], _ => if r = 0 then some true else none
  | r :: r1 :: re, text =>
      if r = 0 then some true
      else if r1 = star then matchstar r (matchhere re) text
      else if r = dollar ∧ r1 = 0 then text.head?.map (· = 0)
      else
        match text with
        | [] => none
        | t :: text =>
            if t ≠ 0 ∧ (r = dot ∨ r = t) then matchhere (r1 :: re) text else some false

/-- `match`. -/
def matchText (re text : List UInt8) : Option Bool :=
  match re with
  | [] => none
  | r :: re => if r = caret then matchhere re text else tryLoop (fun _ => true) (matchhere (r :: re)) text

/-! ### What an expression means -/

/-- A character of the expression, or a starred one. -/
structure Item where
  char : UInt8
  starred : Bool

/-- `.` stands for any character. -/
def Item.Accepts (i : Item) (x : UInt8) : Prop := i.char = x ∨ i.char = dot

/-- What a character stands for, by itself. -/
def Item.single (i : Item) : Language UInt8 := {u | ∃ x, u = [x] ∧ i.Accepts x}

open Computability in
def Item.lang (i : Item) : Language UInt8 := if i.starred then i.single∗ else i.single

/-- The expression from left to right, and whether it ends in a `$` without star. -/
def parse : List UInt8 → List Item × Bool
  | [] => ([], false)
  | [c] => if c = dollar then ([], true) else ([⟨c, false⟩], false)
  | c :: d :: re =>
      if d = star then (⟨c, true⟩ :: (parse re).1, (parse re).2)
      else (⟨c, false⟩ :: (parse (d :: re)).1, (parse (d :: re)).2)

def lang (l : List Item) : Language UInt8 := (l.map Item.lang).prod

/-- The text has a match at its beginning. -/
def Here (re text : List UInt8) : Prop :=
  ∃ u v, text = u ++ v ∧ u ∈ lang (parse re).1 ∧ ((parse re).2 = true → v = [])

/-- **The text matches**: a part of it is in the language of the expression, a first part if
that begins with `^`, a last part if it ends in `$`. -/
def Matches (re text : List UInt8) : Prop :=
  if re.head? = some caret then Here re.tail text
  else ∃ u v, text = u ++ v ∧ Here re v

/-! ### The matcher decides -/

/-- A function of a string without null decides a property of it; it returns, and so has not
read behind the terminator. -/
def Decides (f : List UInt8 → Option Bool) (P : List UInt8 → Prop) : Prop :=
  ∀ text, 0 ∉ text → ∃ b, f (text ++ [0]) = some b ∧ (b = true ↔ P text)

variable {here : List UInt8 → Option Bool} {P : List UInt8 → Prop} {go : UInt8 → Bool}
variable {re text : List UInt8} {c : UInt8}

/-- The loop tries what is behind a run of characters it may pass. -/
theorem tryLoop_decides (h : Decides here P) (go : UInt8 → Bool) :
    Decides (tryLoop go here) fun text =>
      ∃ u v, text = u ++ v ∧ (∀ x ∈ u, go x = true) ∧ P v := by
  intro text htext
  induction text with
  | nil =>
    obtain ⟨b, hb, hiff⟩ := h [] htext
    refine ⟨b, ?_, ?_⟩
    · rw [List.nil_append] at hb ⊢
      unfold tryLoop
      rw [hb]
      cases b <;> rfl
    · rw [hiff]
      constructor
      · exact fun hP => ⟨[], [], rfl, by simp, hP⟩
      · rintro ⟨u, v, huv, -, hP⟩
        rwa [(List.append_eq_nil_iff.mp huv.symm).2] at hP
  | cons t text ih =>
    rw [List.mem_cons, not_or] at htext
    obtain ⟨b, hb, hiff⟩ := h (t :: text) (by simpa using htext)
    obtain ⟨b', hb', hiff'⟩ := ih htext.2
    rw [List.cons_append] at hb ⊢
    unfold tryLoop
    rw [hb]
    cases b with
    | true => exact ⟨true, rfl, fun _ => ⟨[], _, rfl, by simp, hiff.mp rfl⟩, fun _ => rfl⟩
    | false =>
      have hnot : ¬ P (t :: text) := fun hP => nomatch hiff.mpr hP
      dsimp only
      by_cases hgo : go t = true
      · rw [if_pos ⟨Ne.symm htext.1, hgo⟩]
        refine ⟨b', hb', hiff'.trans ?_⟩
        constructor
        · rintro ⟨u, v, rfl, hu, hP⟩
          exact ⟨t :: u, v, rfl, List.forall_mem_cons.mpr ⟨hgo, hu⟩, hP⟩
        · rintro ⟨u, v, huv, hu, hP⟩
          cases u with
          | nil => exact absurd (huv ▸ hP) hnot
          | cons x u =>
            obtain ⟨rfl, rfl⟩ := List.cons.inj huv
            exact ⟨u, v, rfl, (List.forall_mem_cons.mp hu).2, hP⟩
      · rw [if_neg fun hboth => hgo hboth.2]
        refine ⟨false, rfl, (fun hno => nomatch hno), ?_⟩
        rintro ⟨u, v, huv, hu, hP⟩
        cases u with
        | nil => exact absurd (huv ▸ hP) hnot
        | cons x u =>
          obtain ⟨rfl, -⟩ := List.cons.inj huv
          exact absurd (List.forall_mem_cons.mp hu).1 hgo

open Computability in
/-- A run of characters each of which is accepted. -/
theorem mem_kstar_single (i : Item) (u : List UInt8) : u ∈ i.single∗ ↔ ∀ x ∈ u, i.Accepts x := by
  rw [Language.mem_kstar]
  constructor
  · rintro ⟨l, rfl, hl⟩ x hx
    obtain ⟨w, hw, hxw⟩ := List.mem_flatten.mp hx
    obtain ⟨y, rfl, hy⟩ := hl w hw
    rwa [List.mem_singleton.mp hxw]
  · intro hu
    refine ⟨u.map fun x => [x], (List.flatMap_singleton' u).symm, fun w hw => ?_⟩
    obtain ⟨x, hx, rfl⟩ := List.mem_map.mp hw
    exact ⟨x, rfl, hu x hx⟩

theorem mem_lang_cons {i : Item} {l : List Item} {u : List UInt8} :
    u ∈ lang (i :: l) ↔ ∃ a ∈ i.lang, ∃ b ∈ lang l, a ++ b = u :=
  Language.mem_mul

theorem here_nil (text : List UInt8) : Here [] text :=
  ⟨[], text, rfl, rfl, fun h => nomatch h⟩

theorem here_dollar : Here [dollar] text ↔ text = [] := by
  constructor
  · rintro ⟨u, v, rfl, hu, hv⟩
    rw [show u = [] from hu, hv rfl]
    rfl
  · rintro rfl
    exact ⟨[], [], rfl, rfl, fun _ => rfl⟩

/-- A character and the rest of the expression. -/
theorem here_cons {i : Item} {re' : List UInt8}
    (hparse : parse re = (i :: (parse re').1, (parse re').2)) :
    Here re text ↔ ∃ u v, text = u ++ v ∧ u ∈ i.lang ∧ Here re' v := by
  unfold Here
  rw [hparse]
  constructor
  · rintro ⟨u, v, rfl, hu, hv⟩
    obtain ⟨a, ha, b, hb, rfl⟩ := mem_lang_cons.mp hu
    exact ⟨a, b ++ v, List.append_assoc a b v, ha, b, v, rfl, hb, hv⟩
  · rintro ⟨a, -, rfl, ha, b, v, rfl, hb, hv⟩
    exact ⟨a ++ b, v, (List.append_assoc a b v).symm, mem_lang_cons.mpr ⟨a, ha, b, hb, rfl⟩, hv⟩

theorem here_star : Here (c :: star :: re) text ↔
    ∃ u v, text = u ++ v ∧ (∀ x ∈ u, x = c ∨ c = dot) ∧ Here re v := by
  have hparse : parse (c :: star :: re) = (⟨c, true⟩ :: (parse re).1, (parse re).2) := by
    rw [parse, if_pos rfl]
  rw [here_cons hparse]
  refine exists₂_congr fun u v => and_congr_right fun _ => and_congr_left fun _ => ?_
  refine (mem_kstar_single ⟨c, true⟩ u).trans (forall₂_congr fun x _ => ?_)
  exact or_congr_left eq_comm

/-- A character without star takes one character of the text. -/
theorem here_single {re' : List UInt8}
    (hparse : parse re = (⟨c, false⟩ :: (parse re').1, (parse re').2)) :
    Here re text ↔ ∃ t v, text = t :: v ∧ (c = dot ∨ c = t) ∧ Here re' v := by
  rw [here_cons hparse]
  constructor
  · rintro ⟨-, v, rfl, ⟨t, rfl, ht⟩, hv⟩
    exact ⟨t, v, rfl, ht.symm, hv⟩
  · rintro ⟨t, v, rfl, ht, hv⟩
    exact ⟨[t], v, rfl, ⟨t, rfl, ht.symm⟩, hv⟩

/-- The step of `matchhere` over one character. -/
theorem step_decides {f : List UInt8 → Option Bool} {Q : List UInt8 → Prop} (h : Decides f Q)
    (c : UInt8) :
    Decides (fun text =>
        match text with
        | [] => none
        | t :: text => if t ≠ 0 ∧ (c = dot ∨ c = t) then f text else some false)
      fun text => ∃ t v, text = t :: v ∧ (c = dot ∨ c = t) ∧ Q v := by
  intro text htext
  cases text with
  | nil => exact ⟨false, rfl, (fun hno => nomatch hno), fun ⟨t, v, hno, _⟩ => nomatch hno⟩
  | cons t text =>
    rw [List.mem_cons, not_or] at htext
    obtain ⟨b, hb, hiff⟩ := h text htext.2
    rw [List.cons_append]
    dsimp only
    by_cases ht : c = dot ∨ c = t
    · rw [if_pos ⟨Ne.symm htext.1, ht⟩]
      refine ⟨b, hb, hiff.trans ⟨fun hQ => ⟨t, text, rfl, ht, hQ⟩, ?_⟩⟩
      rintro ⟨t', v, heq, -, hQ⟩
      rwa [(List.cons.inj heq).2]
    · rw [if_neg fun hboth => ht hboth.2]
      refine ⟨false, rfl, (fun hno => nomatch hno), ?_⟩
      rintro ⟨t', v, heq, ht', -⟩
      rw [(List.cons.inj heq).1] at ht
      exact absurd ht' ht

theorem matchhere_cons (r r1 : UInt8) (re text : List UInt8) :
    matchhere (r :: r1 :: re) text =
      if r = 0 then some true
      else if r1 = star then matchstar r (matchhere re) text
      else if r = dollar ∧ r1 = 0 then text.head?.map (· = 0)
      else
        match text with
        | [] => none
        | t :: text =>
            if t ≠ 0 ∧ (r = dot ∨ r = t) then matchhere (r1 :: re) text else some false := by
  rw [matchhere.eq_def]

/-- **`matchhere` decides** whether there is a match at the beginning. -/
theorem matchhere_decides (hre : 0 ∉ re) : Decides (matchhere (re ++ [0])) (Here re) := by
  induction re using parse.induct with
  | case1 => exact fun text _ => ⟨true, rfl, fun _ => here_nil text, fun _ => rfl⟩
  | case2 =>
    -- `$` alone
    intro text htext
    refine ⟨decide (text = []), ?_, by rw [decide_eq_true_iff, here_dollar]⟩
    show Option.map _ (text ++ [0]).head? = _
    cases text with
    | nil => rfl
    | cons t text =>
      rw [List.mem_cons, not_or] at htext
      simp [Ne.symm htext.1]
  | case3 c hc =>
    have hnull : (c : UInt8) ≠ 0 := by rintro rfl; simp at hre
    have hparse : parse [c] = (⟨c, false⟩ :: (parse []).1, (parse []).2) := if_neg hc
    intro text htext
    obtain ⟨b, hb, hiff⟩ :=
      step_decides (fun text _ => ⟨true, rfl, fun _ => here_nil text, fun _ => rfl⟩ :
        Decides (matchhere [0]) (Here [])) c text htext
    refine ⟨b, ?_, hiff.trans (here_single hparse).symm⟩
    rw [List.singleton_append, matchhere_cons, if_neg hnull, if_neg (by decide),
      if_neg fun hboth => hc hboth.1]
    exact hb
  | case4 c re ih =>
    simp only [List.mem_cons, not_or] at hre
    intro text htext
    obtain ⟨b, hb, hiff⟩ :=
      tryLoop_decides (ih hre.2.2) (fun t => t = c ∨ c = dot) text htext
    refine ⟨b, ?_, hiff.trans ?_⟩
    · rw [List.cons_append, List.cons_append, matchhere_cons, if_neg (Ne.symm hre.1), if_pos rfl]
      exact hb
    · rw [here_star]
      simp only [decide_eq_true_eq]
  | case5 c d re hd ih =>
    have hparse : parse (c :: d :: re) = (⟨c, false⟩ :: (parse (d :: re)).1, (parse (d :: re)).2) := by
      rw [parse, if_neg hd]
    rw [List.mem_cons, not_or] at hre
    intro text htext
    obtain ⟨b, hb, hiff⟩ := step_decides (ih hre.2) c text htext
    refine ⟨b, ?_, hiff.trans (here_single hparse).symm⟩
    have hnull : d ≠ 0 := by rintro rfl; simp at hre
    rw [List.cons_append, List.cons_append, matchhere_cons, if_neg (Ne.symm hre.1), if_neg hd,
      if_neg fun hboth => hnull hboth.2]
    exact hb

/-- **`match` decides its regular expressions**: it returns, without a read behind the
terminator of the expression or of the text, and returns 1 if and only if the text matches. -/
theorem match_decides (re : List UInt8) (hre : 0 ∉ re) :
    Decides (matchText (re ++ [0])) (Matches re) := by
  intro text htext
  unfold Matches
  cases re with
  | nil =>
    rw [if_neg (by simp)]
    obtain ⟨b, hb, hiff⟩ := tryLoop_decides (matchhere_decides hre) (fun _ => true) text htext
    refine ⟨b, hb, hiff.trans ?_⟩
    simp
  | cons r re =>
    rw [List.mem_cons, not_or] at hre
    by_cases hr : r = caret
    · subst hr
      rw [if_pos (show (caret :: re).head? = some caret from rfl)]
      exact matchhere_decides hre.2 text htext
    · have hre' : 0 ∉ r :: re := by simpa using hre
      rw [if_neg (by simpa using hr)]
      obtain ⟨b, hb, hiff⟩ := tryLoop_decides (matchhere_decides hre') (fun _ => true) text htext
      refine ⟨b, ?_, hiff.trans ?_⟩
      · rw [List.cons_append, matchText, if_neg hr]
        exact hb
      · simp

/-- `^a.*$` and "abc". -/
theorem match_decides_abc :
    ∃ b, matchText [94, 97, 46, 42, 36, 0] [97, 98, 99, 0] = some b ∧
      (b = true ↔ Matches [94, 97, 46, 42, 36] [97, 98, 99]) :=
  match_decides [94, 97, 46, 42, 36] (by decide) [97, 98, 99] (by decide)

/-! ### The loop over lines -/

/-- `strchr` of the user library, in the bytes before a null: how far away the character is. -/
def strchr : List UInt8 → UInt8 → Option ℕ
  | [], _ => none
  | x :: s, c => if x = 0 then none else if x = c then some 0 else (strchr s c).map (· + 1)

/-- The pattern matches a line, which has been cut off by a null. -/
def isMatch (pattern line : List UInt8) : Bool :=
  matchText (pattern ++ [0]) (line ++ [0]) = some true

/-- The inner loop of `grep`, of at most the given number of rounds: what it writes, and what
is left from `p` on. -/
def lineLoop (pattern : List UInt8) : ℕ → List UInt8 → List UInt8 × List UInt8
  | 0, p => ([], p)
  | fuel + 1, p =>
      match strchr p newline with
      | none => ([], p)
      | some q =>
          let (out, rest) := lineLoop pattern fuel (p.drop (q + 1))
          (if isMatch pattern (p.take q) then p.take (q + 1) ++ out else out, rest)

/-- The loop of `grep`, with `buf` in the buffer and `input` still to be read.  A `read`
returns up to `want i + 1` bytes, as many as there are and as fit. -/
def grepLoop (pattern : List UInt8) (want : ℕ → ℕ) : ℕ → ℕ → List UInt8 → List UInt8 → List UInt8
  | 0, _, _, _ => []
  | fuel + 1, i, buf, input =>
      let n := min (want i + 1) (min (1024 - buf.length - 1) input.length)
      if n = 0 then []
      else
        let (out, rest) := lineLoop pattern (buf.length + n) (buf ++ input.take n)
        out ++ grepLoop pattern want fuel (i + 1) rest (input.drop n)

/-- `grep`: what it writes.  A round reads at least one byte, the last one none. -/
def grep (pattern : List UInt8) (want : ℕ → ℕ) (input : List UInt8) : List UInt8 :=
  grepLoop pattern want (input.length + 1) 0 [] input

/-- The lines that are terminated, without their newlines, and what comes behind them. -/
def splitLines : List UInt8 → List (List UInt8) × List UInt8
  | [] => ([], [])
  | x :: s =>
      if x = newline then ([] :: (splitLines s).1, (splitLines s).2)
      else
        match (splitLines s).1 with
        | [] => ([], x :: (splitLines s).2)
        | l :: ls => ((x :: l) :: ls, (splitLines s).2)

def lines (input : List UInt8) : List (List UInt8) := (splitLines input).1

/-- The lines that match, with their newlines. -/
def shown (pattern : List UInt8) (ls : List (List UInt8)) : List UInt8 :=
  ls.flatMap fun l => if isMatch pattern l then l ++ [newline] else []

/-- A line that fits into the buffer with its newline and the null. -/
def Fits (l : List UInt8) : Bool := l.length < 1023

variable {pattern p s buf input : List UInt8}

/-- Without newline it is one line, with what follows. -/
theorem splitLines_append_of_notMem (h : newline ∉ p) (s : List UInt8) :
    splitLines (p ++ s) =
      match (splitLines s).1 with
      | [] => ([], p ++ (splitLines s).2)
      | l :: ls => ((p ++ l) :: ls, (splitLines s).2) := by
  induction p with
  | nil =>
    rcases hs : splitLines s with ⟨_ | ⟨l, ls⟩, r⟩ <;> simp [hs]
  | cons x p ih =>
    rw [List.mem_cons, not_or] at h
    rw [List.cons_append, splitLines, if_neg (Ne.symm h.1), ih h.2]
    rcases splitLines s with ⟨_ | ⟨l, ls⟩, r⟩ <;> rfl

theorem splitLines_of_notMem (h : newline ∉ p) : splitLines p = ([], p) := by
  have happend := splitLines_append_of_notMem h []
  rwa [List.append_nil, splitLines, List.append_nil] at happend

theorem splitLines_line (h : newline ∉ p) (s : List UInt8) :
    splitLines (p ++ newline :: s) = (p :: (splitLines s).1, (splitLines s).2) := by
  rw [splitLines_append_of_notMem h, splitLines, if_pos rfl]
  dsimp only
  rw [List.append_nil]

theorem strchr_cases (hp : 0 ∉ p) :
    (strchr p newline = none ∧ newline ∉ p) ∨
      ∃ l s, newline ∉ l ∧ p = l ++ newline :: s ∧ strchr p newline = some l.length := by
  induction p with
  | nil => exact .inl ⟨rfl, List.not_mem_nil⟩
  | cons x p ih =>
    rw [List.mem_cons, not_or] at hp
    rw [strchr, if_neg (Ne.symm hp.1)]
    by_cases hx : x = newline
    · subst hx
      exact .inr ⟨[], p, List.not_mem_nil, rfl, if_pos rfl⟩
    · rw [if_neg hx]
      rcases ih hp.2 with ⟨hnone, hnot⟩ | ⟨l, s, hl, rfl, hsome⟩
      · refine .inl ⟨by rw [hnone]; rfl, ?_⟩
        rw [List.mem_cons, not_or]
        exact ⟨Ne.symm hx, hnot⟩
      · refine .inr ⟨x :: l, s, ?_, rfl, by rw [hsome]; rfl⟩
        rw [List.mem_cons, not_or]
        exact ⟨Ne.symm hx, hl⟩

theorem lines_append (a b : List UInt8) : lines (a ++ b) = lines a ++ lines ((splitLines a).2 ++ b) := by
  unfold lines
  induction a with
  | nil => rfl
  | cons x a ih =>
    rw [List.cons_append, splitLines, splitLines]
    by_cases hx : x = newline
    · rw [if_pos hx, if_pos hx]
      exact congrArg _ ih
    · rw [if_neg hx, if_neg hx]
      rcases ha : splitLines a with ⟨_ | ⟨l, ls⟩, r⟩
      · rw [ha] at ih
        dsimp only at ih ⊢
        rw [List.nil_append] at ih ⊢
        rw [List.cons_append, splitLines, if_neg hx, ih]
        rcases splitLines (r ++ b) with ⟨_ | ⟨l, ls⟩, r'⟩ <;> rfl
      · rw [ha] at ih
        dsimp only at ih ⊢
        rw [ih]
        rfl

theorem splitLines_spec (p : List UInt8) :
    p = ((splitLines p).1.flatMap fun l => l ++ [newline]) ++ (splitLines p).2 ∧
      newline ∉ (splitLines p).2 := by
  induction p with
  | nil => exact ⟨rfl, List.not_mem_nil⟩
  | cons x p ih =>
    rw [splitLines]
    by_cases hx : x = newline
    · rw [if_pos hx, hx]
      exact ⟨congrArg _ ih.1, ih.2⟩
    · rw [if_neg hx]
      rcases hp : splitLines p with ⟨_ | ⟨l, ls⟩, r⟩ <;> rw [hp] at ih
      · refine ⟨congrArg _ ih.1, ?_⟩
        rw [List.mem_cons, not_or]
        exact ⟨Ne.symm hx, ih.2⟩
      · exact ⟨congrArg _ ih.1, ih.2⟩

theorem length_lt_of_mem_lines {l : List UInt8} (h : l ∈ lines p) : l.length < p.length := by
  obtain ⟨before, after, hsplit⟩ := List.append_of_mem h
  have hp := congrArg List.length (splitLines_spec p).1
  rw [show (splitLines p).1 = before ++ l :: after from hsplit, List.flatMap_append,
    List.flatMap_cons] at hp
  simp only [List.length_append, List.length_singleton] at hp
  omega

theorem shown_cons (pattern l : List UInt8) (ls : List (List UInt8)) :
    shown pattern (l :: ls)
      = (if isMatch pattern l then l ++ [newline] else []) ++ shown pattern ls :=
  List.flatMap_cons

/-- **The inner loop** writes the lines that match. -/
theorem lineLoop_eq {fuel : ℕ} (hfuel : p.length ≤ fuel) (hp : 0 ∉ p) :
    lineLoop pattern fuel p = (shown pattern (lines p), (splitLines p).2) := by
  induction fuel generalizing p with
  | zero =>
    rw [List.length_eq_zero_iff.mp (Nat.le_zero.mp hfuel)]
    rfl
  | succ fuel ih =>
    unfold lineLoop
    rcases strchr_cases hp with ⟨hnone, hnot⟩ | ⟨l, s, hl, rfl, hsome⟩
    · rw [hnone, lines, splitLines_of_notMem hnot]
      rfl
    · have hdrop : (l ++ newline :: s).drop (l.length + 1) = s := by
        rw [List.append_cons]
        exact List.drop_left' (by rw [List.length_append, List.length_singleton])
      have htake : (l ++ newline :: s).take (l.length + 1) = l ++ [newline] := by
        rw [List.append_cons]
        exact List.take_left' (by rw [List.length_append, List.length_singleton])
      rw [List.length_append, List.length_cons] at hfuel
      have hs : 0 ∉ s := fun hin => hp (by simp [hin])
      rw [hsome]
      dsimp only
      have hlines : lines (l ++ newline :: s) = l :: lines s :=
        congrArg Prod.fst (splitLines_line hl s)
      rw [hdrop, htake, List.take_left' rfl, ih (by omega) hs, hlines, splitLines_line hl, shown_cons]
      split
      · rfl
      · rfl

/-- **The loop** writes the lines that match, up to the first that does not fit. -/
theorem grepLoop_eq {want : ℕ → ℕ} {fuel i : ℕ} (hfuel : input.length < fuel) (hline : newline ∉ buf)
    (hlen : buf.length ≤ 1023) (hnull : 0 ∉ buf ++ input) :
    grepLoop pattern want fuel i buf input
      = shown pattern ((lines (buf ++ input)).takeWhile Fits) := by
  induction fuel generalizing i buf input with
  | zero => exact absurd hfuel (Nat.not_lt_zero _)
  | succ fuel ih =>
    unfold grepLoop
    dsimp only
    generalize hn : min (want i + 1) (min (1024 - buf.length - 1) input.length) = n
    by_cases hzero : n = 0
    · rw [if_pos hzero]
      -- there is no input, or the buffer is full of one line
      rcases Nat.eq_zero_or_pos input.length with hnil | hpos
      · rw [List.length_eq_zero_iff.mp hnil, List.append_nil, lines, splitLines_of_notMem hline]
        rfl
      · have hfull : buf.length = 1023 := by omega
        rw [lines, splitLines_append_of_notMem hline]
        rcases splitLines input with ⟨_ | ⟨l, ls⟩, r⟩
        · rfl
        · have hlong : Fits (buf ++ l) = false := by
            unfold Fits
            rw [decide_eq_false_iff_not, List.length_append]
            omega
          dsimp only
          rw [List.takeWhile_cons, hlong]
          rfl
    · rw [if_neg hzero]
      have hb : (buf ++ input.take n).length = buf.length + n := by
        rw [List.length_append, List.length_take]
        omega
      have hsplit : buf ++ input = (buf ++ input.take n) ++ input.drop n := by
        rw [List.append_assoc, List.take_append_drop]
      rw [hsplit]
      rw [hsplit, List.mem_append, not_or] at hnull
      generalize buf ++ input.take n = b at hb hnull ⊢
      rw [lineLoop_eq hb.le hnull.1]
      dsimp only
      obtain ⟨hwhole, hrest⟩ := splitLines_spec b
      have hlenrest : (splitLines b).2.length ≤ buf.length + n := by
        have := congrArg List.length hwhole
        rw [List.length_append] at this
        omega
      have hnullrest : 0 ∉ (splitLines b).2 ++ input.drop n := by
        rw [List.mem_append, not_or]
        refine ⟨fun hin => hnull.1 ?_, hnull.2⟩
        rw [hwhole]
        exact List.mem_append_right _ hin
      have hfits : ∀ l ∈ lines b, Fits l = true := by
        intro l hl
        have := length_lt_of_mem_lines hl
        unfold Fits
        rw [decide_eq_true_iff]
        omega
      rw [ih (by rw [List.length_drop]; omega) hrest (by omega) hnullrest, lines_append b,
        List.takeWhile_append_of_pos hfits, shown, shown, shown, List.flatMap_append]

theorem grep_eq (pattern : List UInt8) (want : ℕ → ℕ) (hnull : 0 ∉ input) :
    grep pattern want input = shown pattern ((lines input).takeWhile Fits) :=
  grepLoop_eq (Nat.lt_succ_self _) List.not_mem_nil (by decide) hnull

theorem shown_eq_nil_iff {ls : List (List UInt8)} :
    shown pattern ls = [] ↔ ∀ l ∈ ls, isMatch pattern l = false := by
  unfold shown
  rw [List.flatMap_eq_nil_iff]
  refine forall₂_congr fun l _ => ?_
  cases isMatch pattern l <;> simp

/-- **`grep` prints exactly the matching lines**, whatever the chunks are, if and only if no line
that matches comes after a line of 1023 bytes or more or is one. -/
theorem grep_lines_iff (pattern input : List UInt8) (hnull : 0 ∉ input) :
    (∀ want, grep pattern want input = shown pattern (lines input)) ↔
      ∀ l ∈ (lines input).dropWhile Fits, isMatch pattern l = false := by
  have hsplit : shown pattern (lines input)
      = shown pattern ((lines input).takeWhile Fits) ++ shown pattern ((lines input).dropWhile Fits) := by
    unfold shown
    rw [← List.flatMap_append, List.takeWhile_append_dropWhile]
  rw [← shown_eq_nil_iff]
  constructor
  · intro h
    have hall := h fun _ => 0
    rw [grep_eq pattern _ hnull, hsplit] at hall
    exact List.append_right_eq_self.mp hall.symm
  · intro h want
    rw [grep_eq pattern want hnull, hsplit, h, List.append_nil]

theorem grep_lines_iff_short :
    (0 : UInt8) ∉ [97, 10, 98, 10, 98, 97] ∧
      ∀ want, grep [97] want [97, 10, 98, 10, 98, 97] = [97, 10] :=
  ⟨by decide, (grep_lines_iff [97] [97, 10, 98, 10, 98, 97] (by decide)).mpr (by decide)⟩

/-- A line of 1023 bytes, and the line "b" after it is lost. -/
theorem grep_after_long_line :
    grep [98] (fun _ => 0) (List.replicate 1023 97 ++ [10, 98, 10]) = [] ∧
      shown [98] (lines (List.replicate 1023 97 ++ [10, 98, 10])) = [98, 10] := by
  have hline : newline ∉ List.replicate 1023 (97 : UInt8) := by
    rw [List.mem_replicate]
    decide
  have hlines : lines (List.replicate 1023 97 ++ [10, 98, 10]) = [List.replicate 1023 97, [98]] :=
    congrArg Prod.fst (splitLines_line hline [98, 10])
  have hnull : (0 : UInt8) ∉ List.replicate 1023 97 ++ [10, 98, 10] := by
    rw [List.mem_append, List.mem_replicate]
    decide
  constructor
  · have hlong : Fits (List.replicate 1023 97) = false := by
      unfold Fits
      rw [List.length_replicate]
      rfl
    rw [grep_eq [98] _ hnull, hlines, List.takeWhile_cons, hlong]
    rfl
  · have hno : isMatch [98] (List.replicate 1023 97) = false := by decide +kernel
    rw [hlines, shown_cons, hno]
    decide

end Grep

end Xv6Zig
