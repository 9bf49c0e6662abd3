/-
Xv6Zig/Shell.lean

The shell's parser (`user/sh.c`), and what it does with redirections.

A pointer into the command line is what it points to: the bytes from there to the end.  A
token is two such pointers, and its text is what lies between them; `nulterminate` makes
strings of the texts.

`parseredirs` wraps the command it has so far, so the last redirection of the line is the
outermost, and `runcmd` opens the outermost first.  Of two redirections of one descriptor
the first in the line is opened last, and stays.
-/
import Mathlib.Data.List.DropRight
import Mathlib.Data.List.Induction
import Mathlib.Order.Basic
import Mathlib.Order.Nat
import Xv6Zig.Lib.Outcome

namespace Xv6Zig

open Lib Function

namespace Shell

/-- `" \t\r\n\v"` -/
def whitespace : List UInt8 := [32, 9, 13, 10, 11]

/-- `"<|>&;()"` -/
def symbols : List UInt8 := [60, 124, 62, 38, 59, 40, 41]

/-- `MAXARGS` -/
def maxArgs : ℕ := 10

/-- How the parser stops. -/
inductive Panic
  /-- "missing file for redirection" -/
  | missingFile
  /-- "parseblock" -/
  | parseblock
  /-- "syntax - missing )" -/
  | missingParen
  /-- "syntax" -/
  | syntaxError
  /-- "too many args" -/
  | tooManyArgs
  /-- not of the source: the model was given too few rounds -/
  | rounds
  deriving DecidableEq, Repr

/-- `q` and `eq` of `gettoken`. -/
structure Token where
  q : List UInt8
  eq : List UInt8
  deriving DecidableEq, Repr

def Token.text (t : Token) : List UInt8 := t.q.take (t.q.length - t.eq.length)

/-- The fields of a `redircmd` but the command. -/
structure Redir where
  file : Token
  mode : ℕ
  fd : ℕ
  deriving DecidableEq, Repr

/-- `struct cmd` and its kinds. -/
inductive Cmd
  | exec (argv : List Token)
  | redir (cmd : Cmd) (r : Redir)
  | pipe (left right : Cmd)
  | list (left right : Cmd)
  | back (cmd : Cmd)
  deriving DecidableEq, Repr

/-! ### Tokens -/

def skipSpace (s : List UInt8) : List UInt8 := s.dropWhile (· ∈ whitespace)

/-- `gettoken`: `ret`, the token and `*ps`. -/
def gettoken (s : List UInt8) : UInt8 × Token × List UInt8 :=
  let s := skipSpace s
  let (ret, eq) : UInt8 × List UInt8 :=
    match s with
    | [] => (0, [])
    | c :: rest =>
        -- `|`, `(`, `)`, `;`, `&`, `<`
        if c ∈ [124, 40, 41, 59, 38, 60] then (c, rest)
        else if c = 62 then
          -- `>`, or `+` for `>>`
          if rest.head? = some 62 then (43, rest.tail) else (62, rest)
        else (97, s.dropWhile fun x => x ∉ whitespace ∧ x ∉ symbols)
  (ret, ⟨s, eq⟩, skipSpace eq)

/-- `peek`: the result; `*ps` is then behind the white space. -/
def peek (s toks : List UInt8) : Bool :=
  match skipSpace s with
  | [] => false
  | c :: _ => c ∈ toks

/-! ### The parser -/

/-- The command a redirection's operator stands for: `<`, `>` or `>>`. -/
def redirOf (tok : UInt8) (file : Token) : Redir :=
  if tok = 60 then ⟨file, 0x000, 0⟩
  else if tok = 62 then ⟨file, 0x001 ||| 0x200 ||| 0x400, 1⟩
  else ⟨file, 0x001 ||| 0x200, 1⟩

/-- `parseredirs`, of at most the given number of rounds. -/
def parseredirs : ℕ → Cmd → List UInt8 → Except Panic (Cmd × List UInt8)
  | 0, _, _ => .error .rounds
  | fuel + 1, cmd, s =>
      if peek s [60, 62] then
        let (tok, _, s) := gettoken s
        let (ret, file, s) := gettoken s
        if ret ≠ 97 then .error .missingFile
        else parseredirs fuel (.redir cmd (redirOf tok file)) s
      else .ok (cmd, skipSpace s)

/-- `cmd->argv[argc] = q`, where the `execcmd` is under redirections. -/
def Cmd.addArg : Cmd → Token → Cmd
  | .exec argv, t => .exec (argv ++ [t])
  | .redir cmd r, t => .redir (cmd.addArg t) r
  | cmd, _ => cmd

/-- The loop of `parseexec`. -/
def argLoop : ℕ → Cmd → ℕ → List UInt8 → Except Panic (Cmd × List UInt8)
  | 0, _, _, _ => .error .rounds
  | fuel + 1, ret, argc, s =>
      if peek s [124, 41, 38, 59] then .ok (ret, skipSpace s)
      else
        let (tok, t, rest) := gettoken s
        if tok = 0 then .ok (ret, rest)
        else if tok ≠ 97 then .error .syntaxError
        else if maxArgs ≤ argc + 1 then .error .tooManyArgs
        else do
          let (ret, s) ← parseredirs (rest.length + 1) (ret.addArg t) rest
          argLoop fuel ret (argc + 1) s

/-- `parseexec` of a command without parentheses. -/
def parseSimple (s : List UInt8) : Except Panic (Cmd × List UInt8) := do
  let (ret, s) ← parseredirs (s.length + 1) (.exec []) s
  argLoop (s.length + 1) ret 0 s

/-- `while(peek(ps, es, "&"))` in `parseline`. -/
def backLoop : ℕ → Cmd → List UInt8 → Cmd × List UInt8
  | 0, cmd, s => (cmd, skipSpace s)
  | fuel + 1, cmd, s =>
      if peek s [38] then backLoop fuel (.back cmd) (gettoken s).2.2 else (cmd, skipSpace s)

mutual

/-- The calls that may still be nested are counted. -/
def parseline : ℕ → List UInt8 → Except Panic (Cmd × List UInt8)
  | 0, _ => .error .rounds
  | fuel + 1, s => do
      let (cmd, s) ← parsepipe fuel s
      let (cmd, s) := backLoop s.length cmd s
      if peek s [59] then do
        let (right, s) ← parseline fuel (gettoken s).2.2
        .ok (.list cmd right, s)
      else .ok (cmd, skipSpace s)

def parsepipe : ℕ → List UInt8 → Except Panic (Cmd × List UInt8)
  | 0, _ => .error .rounds
  | fuel + 1, s => do
      let (cmd, s) ← parseexec fuel s
      if peek s [124] then do
        let (right, s) ← parsepipe fuel (gettoken s).2.2
        .ok (.pipe cmd right, s)
      else .ok (cmd, skipSpace s)

def parseexec : ℕ → List UInt8 → Except Panic (Cmd × List UInt8)
  | 0, _ => .error .rounds
  | fuel + 1, s => if peek s [40] then parseblock fuel s else parseSimple s

def parseblock : ℕ → List UInt8 → Except Panic (Cmd × List UInt8)
  | 0, _ => .error .rounds
  | fuel + 1, s =>
      if peek s [40] = false then .error .parseblock
      else do
        let (cmd, s) ← parseline fuel (gettoken s).2.2
        if peek s [41] = false then .error .missingParen
        else
          let s := (gettoken s).2.2
          parseredirs (s.length + 1) cmd s

end

/-! ### A simple command -/

/-- What a simple command is made of. -/
inductive Elem
  | word (t : Token)
  | redir (r : Redir)

/-- **The command line reads as words and redirections**, in this order, up to `rest`. -/
inductive Reads : List UInt8 → List Elem → List UInt8 → Prop
  | nil (s) : Reads s [] (skipSpace s)
  | word {s t rest es s'} : gettoken s = (97, t, rest) → Reads rest es s' →
      Reads s (.word t :: es) s'
  | redir {s tok op s₁ file s₂ es s'} : peek s [60, 62] = true → gettoken s = (tok, op, s₁) →
      gettoken s₁ = (97, file, s₂) → Reads s₂ es s' → Reads s (.redir (redirOf tok file) :: es) s'

/-- The words of a simple command. -/
def words (es : List Elem) : List Token :=
  es.filterMap fun | .word t => some t | .redir _ => none

/-- The redirections, from left to right. -/
def redirs (es : List Elem) : List Redir :=
  es.filterMap fun | .word _ => none | .redir r => some r

/-- The redirections around a command, the last one outermost. -/
def wrap (cmd : Cmd) (rs : List Redir) : Cmd := rs.foldl .redir cmd

variable {s s' rest : List UInt8} {cmd cmd' : Cmd} {es es' : List Elem} {rs : List Redir}
  {fuel : ℕ}

@[simp]
theorem skipSpace_skipSpace (s : List UInt8) : skipSpace (skipSpace s) = skipSpace s :=
  List.dropWhile_idempotent _ s

@[simp]
theorem gettoken_skipSpace (s : List UInt8) : gettoken (skipSpace s) = gettoken s := by
  unfold gettoken
  rw [skipSpace_skipSpace]

@[simp]
theorem peek_skipSpace (s toks : List UInt8) : peek (skipSpace s) toks = peek s toks := by
  unfold peek
  rw [skipSpace_skipSpace]

theorem length_skipSpace_le (s : List UInt8) : (skipSpace s).length ≤ s.length :=
  (List.dropWhile_suffix _).length_le

theorem gettoken_nil (h : skipSpace s = []) : gettoken s = (0, ⟨[], []⟩, []) := by
  unfold gettoken
  rw [h]
  rfl

/-- In front of the end there is a token, not 0, a word unless it starts with a symbol; and
something of the line is taken. -/
theorem gettoken_cons {c : UInt8} {cs : List UInt8} (hs : skipSpace s = c :: cs) :
    ∃ tok t rest, gettoken s = (tok, t, rest) ∧ tok ≠ 0 ∧ rest.length < (skipSpace s).length ∧
      (tok = 97 ↔ c ∉ symbols) := by
  have hlen : ∀ eq : List UInt8, eq.length ≤ cs.length →
      (skipSpace eq).length < (skipSpace s).length := fun eq heq =>
    hs ▸ Nat.lt_succ_of_le ((length_skipSpace_le eq).trans heq)
  unfold gettoken
  rw [hs] at hlen ⊢
  dsimp only
  split_ifs with hsym hgt happ <;> dsimp only
  · refine ⟨_, _, _, rfl, ?_, hlen _ le_rfl, ?_⟩
    · rintro rfl
      exact absurd hsym (by decide)
    · have hchar : ∀ x ∈ ([124, 40, 41, 59, 38, 60] : List UInt8), x = 97 ↔ x ∉ symbols := by
        simp [symbols]
      exact hchar c hsym
  · exact ⟨_, _, _, rfl, by decide, hlen _ (by simp), by subst hgt; decide⟩
  · exact ⟨_, _, _, rfl, by decide, hlen _ le_rfl, by subst hgt; decide⟩
  · have hall : ∀ x ∈ symbols, x ∈ ([124, 40, 41, 59, 38, 60] : List UInt8) ∨ x = 62 := by
      simp [symbols]
    have hword : c ∉ symbols := fun hc => (hall c hc).elim hsym hgt
    have hspace : c ∉ whitespace := by
      have := List.head?_dropWhile_not (· ∈ whitespace) s
      rw [show s.dropWhile (· ∈ whitespace) = c :: cs from hs] at this
      simpa using this
    refine ⟨_, _, _, rfl, by decide, hlen _ ?_, iff_of_true rfl hword⟩
    rw [List.dropWhile_cons_of_pos (by simp [hword, hspace])]
    exact (List.dropWhile_suffix _).length_le

/-- White space in front makes no difference. -/
theorem Reads.of_skipSpace (h : Reads (skipSpace s) es s') : Reads s es s' := by
  generalize hs : skipSpace s = s₀ at h
  cases h with
  | nil =>
    rw [← hs, skipSpace_skipSpace]
    exact .nil s
  | word ht h => exact .word (by rw [← gettoken_skipSpace, hs, ht]) h
  | redir hp hop hfile h =>
    exact .redir (by rw [← peek_skipSpace, hs, hp]) (by rw [← gettoken_skipSpace, hs, hop])
      hfile h

theorem Reads.trans (h : Reads s es rest) (h' : Reads rest es' s') : Reads s (es ++ es') s' := by
  induction h with
  | nil s => exact h'.of_skipSpace
  | word ht _ ih => exact .word ht (ih h')
  | redir hp hop hfile _ ih => exact .redir hp hop hfile (ih h')

theorem addArg_wrap (argv : List Token) (rs : List Redir) (t : Token) :
    (wrap (.exec argv) rs).addArg t = wrap (.exec (argv ++ [t])) rs := by
  induction rs using List.reverseRecOn with
  | nil => rfl
  | append_singleton rs r ih =>
    unfold wrap at ih ⊢
    rw [List.foldl_append, List.foldl_append]
    exact congrArg (Cmd.redir · r) ih

theorem words_append (es es' : List Elem) : words (es ++ es') = words es ++ words es' :=
  List.filterMap_append

theorem redirs_append (es es' : List Elem) : redirs (es ++ es') = redirs es ++ redirs es' :=
  List.filterMap_append

theorem words_cons_word (t : Token) (es : List Elem) : words (.word t :: es) = t :: words es := rfl

theorem redirs_cons_word (t : Token) (es : List Elem) : redirs (.word t :: es) = redirs es := rfl

theorem words_redirs (rs : List Redir) : words (rs.map .redir) = [] := by
  unfold words
  rw [List.filterMap_map]
  exact List.filterMap_eq_nil_iff.mpr fun _ _ => rfl

theorem redirs_redirs (rs : List Redir) : redirs (rs.map .redir) = rs := by
  unfold redirs
  rw [List.filterMap_map]
  exact List.filterMap_some

/-- A token of a word or of a redirection takes something of the line. -/
theorem length_gettoken_lt {tok : UInt8} {t : Token} (h : gettoken s = (tok, t, rest))
    (htok : tok ≠ 0) : rest.length < (skipSpace s).length := by
  cases hs : skipSpace s with
  | nil =>
    rw [gettoken_nil hs] at h
    exact absurd (congrArg (·.1) h).symm htok
  | cons c cs =>
    obtain ⟨tok', t', rest', h', -, hlt, -⟩ := gettoken_cons hs
    obtain ⟨-, -, rfl⟩ := by simpa using h.symm.trans h'
    exact hs ▸ hlt

/-- The token 0 is the end of the line. -/
theorem gettoken_end {t : Token} (h : gettoken s = (0, t, rest)) :
    skipSpace s = [] ∧ rest = [] := by
  cases hs : skipSpace s with
  | nil =>
    rw [gettoken_nil hs] at h
    exact ⟨rfl, (congrArg (·.2.2) h).symm⟩
  | cons c cs =>
    obtain ⟨tok, t', rest', h', hne, -⟩ := gettoken_cons hs
    exact absurd (congrArg (·.1) (h'.symm.trans h)) hne

theorem peek_eq_false_of_word {t : Token} (h : gettoken s = (97, t, rest)) {toks : List UInt8}
    (htoks : toks ⊆ symbols) : peek s toks = false := by
  unfold peek
  cases hs : skipSpace s with
  | nil => rfl
  | cons c cs =>
    obtain ⟨tok, t', rest', h', -, -, hword⟩ := gettoken_cons hs
    have hc : c ∉ symbols := hword.mp (congrArg (·.1) (h'.symm.trans h))
    exact decide_eq_false fun hmem => hc (htoks hmem)

theorem gettoken_ne_zero_of_peek {tok : UInt8} {t : Token} {toks : List UInt8}
    (hp : peek s toks = true) (h : gettoken s = (tok, t, rest)) : tok ≠ 0 := by
  rintro rfl
  unfold peek at hp
  rw [(gettoken_end h).1] at hp
  cases hp

/-- The loop of `parseexec` ends here: at the end of the line or at one of `|)&;`. -/
def AtEnd (s : List UInt8) : Prop := s = [] ∨ peek s [124, 41, 38, 59] = true

theorem AtEnd.peek_redir (h : AtEnd (skipSpace s)) : peek s [60, 62] = false := by
  rw [← peek_skipSpace]
  unfold peek
  rw [skipSpace_skipSpace]
  rcases h with h | h
  · rw [h]
  · unfold peek at h
    rw [skipSpace_skipSpace] at h
    cases hs : skipSpace s with
    | nil => rfl
    | cons c cs =>
      rw [hs] at h
      have hall : ∀ x ∈ ([124, 41, 38, 59] : List UInt8), x ∉ ([60, 62] : List UInt8) := by simp
      exact decide_eq_false (hall c (of_decide_eq_true h))

theorem Reads.length_le (h : Reads s es s') : s'.length ≤ s.length := by
  induction h with
  | nil s => exact length_skipSpace_le s
  | word ht _ ih =>
    have hlt := length_gettoken_lt ht (by decide)
    exact ih.trans (hlt.le.trans (length_skipSpace_le _))
  | redir hp hop hfile _ ih =>
    have hlt := length_gettoken_lt hop (gettoken_ne_zero_of_peek hp hop)
    have hlt' := length_gettoken_lt hfile (by decide)
    have hle := hlt'.le.trans (length_skipSpace_le _)
    exact ih.trans (hle.trans (hlt.le.trans (length_skipSpace_le _)))

/-- `parseredirs` reads redirections and wraps them around the command. -/
theorem parseredirs_ends (hfuel : s.length < fuel) :
    Ends (parseredirs fuel cmd s) (· ≠ .rounds)
      fun r => ∃ rs, Reads s (rs.map .redir) r.2 ∧ r.1 = wrap cmd rs := by
  induction fuel generalizing cmd s with
  | zero => exact absurd hfuel (Nat.not_lt_zero _)
  | succ fuel ih =>
    unfold parseredirs
    by_cases hp : peek s [60, 62] = true
    · rw [if_pos hp]
      rcases hop : gettoken s with ⟨tok, op, s₁⟩
      rcases hfile : gettoken s₁ with ⟨ret, file, s₂⟩
      simp only [hfile]
      split
      · show Panic.missingFile ≠ .rounds
        decide
      · rename_i hret
        obtain rfl : ret = 97 := not_not.mp hret
        have hlt := length_gettoken_lt hop (gettoken_ne_zero_of_peek hp hop)
        have hlt' := length_gettoken_lt hfile (by decide)
        have hle := length_skipSpace_le s
        have hle' := length_skipSpace_le s₁
        refine (ih (by omega)).mono (fun _ => id) ?_
        rintro r ⟨rs, hreads, hr⟩
        exact ⟨redirOf tok file :: rs, .redir hp hop hfile hreads, hr⟩
    · rw [if_neg hp]
      exact ⟨[], .nil s, rfl⟩

/-- The loop over the words goes on with what was read before. -/
theorem argLoop_ends {s₀ : List UInt8} (hread : Reads s₀ es s)
    (hlen : (words es).length < maxArgs) (hfuel : s.length < fuel) :
    Ends (argLoop fuel (wrap (.exec (words es)) (redirs es)) (words es).length s) (· ≠ .rounds)
      fun r => ∃ es', Reads s₀ es' r.2 ∧ AtEnd r.2 ∧ (words es').length < maxArgs ∧
        r.1 = wrap (.exec (words es')) (redirs es') := by
  induction fuel generalizing es s with
  | zero => exact absurd hfuel (Nat.not_lt_zero _)
  | succ fuel ih =>
    have hstop : Reads s₀ es (skipSpace s) := List.append_nil es ▸ hread.trans (.nil s)
    unfold argLoop
    split
    · rename_i hp
      exact ⟨es, hstop, .inr ((peek_skipSpace ..).trans hp), hlen, rfl⟩
    · rcases ht : gettoken s with ⟨tok, t, rest⟩
      dsimp only
      split
      · rename_i hend
        obtain ⟨hs, rfl⟩ := gettoken_end (s := s) (by rw [ht, hend])
        exact ⟨es, hs ▸ hstop, .inl rfl, hlen, rfl⟩
      · split
        · show Panic.syntaxError ≠ .rounds
          decide
        · rename_i htok
          obtain rfl : tok = 97 := not_not.mp htok
          split
          · show Panic.tooManyArgs ≠ .rounds
            decide
          · rename_i hroom
            apply (parseredirs_ends (Nat.lt_succ_self _)).bind
            rintro ⟨ret, s₁⟩ ⟨rs, hrs, hret⟩
            obtain rfl : ret = _ := hret
            have hmore : Reads s₀ (es ++ .word t :: rs.map .redir) s₁ :=
              hread.trans (.word ht hrs)
            have hw : words (es ++ .word t :: rs.map .redir) = words es ++ [t] := by
              rw [words_append, words_cons_word, words_redirs]
            have hr : redirs (es ++ .word t :: rs.map .redir) = redirs es ++ rs := by
              rw [redirs_append, redirs_cons_word, redirs_redirs]
            have hlt := length_gettoken_lt ht (by decide)
            have hle := length_skipSpace_le s
            have hle' : s₁.length ≤ rest.length := hrs.length_le
            have hnext := ih hmore (by rw [hw, List.length_append]; exact Nat.lt_of_not_le hroom)
              (by omega)
            rw [hw, hr, wrap, List.foldl_append, List.length_append] at hnext
            rw [addArg_wrap]
            exact hnext

/-- **The tree of a simple command**: the words under the redirections, the last of these
outermost. -/
theorem parseSimple_ends (s : List UInt8) :
    Ends (parseSimple s) (· ≠ .rounds)
      fun r => ∃ es, Reads s es r.2 ∧ AtEnd r.2 ∧ (words es).length < maxArgs ∧
        r.1 = wrap (.exec (words es)) (redirs es) := by
  apply (parseredirs_ends (Nat.lt_succ_self _)).bind
  rintro ⟨ret, rest⟩ ⟨rs, hrs, hret⟩
  obtain rfl : ret = _ := hret
  have hloop := argLoop_ends hrs (by rw [words_redirs]; decide) (Nat.lt_succ_self _)
  rw [words_redirs, redirs_redirs] at hloop
  exact hloop

/-! ### A line is read to its end -/

theorem parseredirs_done (hp : peek s [60, 62] = false) (hfuel : 0 < fuel) :
    parseredirs fuel cmd s = .ok (cmd, skipSpace s) := by
  cases fuel with
  | zero => cases hfuel
  | succ fuel =>
    unfold parseredirs
    rw [hp]
    rfl

theorem argLoop_done (hend : AtEnd (skipSpace s)) {argc : ℕ} (hfuel : 0 < fuel) :
    argLoop fuel cmd argc s = .ok (cmd, skipSpace s) := by
  cases fuel with
  | zero => cases hfuel
  | succ fuel =>
    unfold argLoop
    rcases hend with hend | hend
    · rw [gettoken_nil hend, hend]
      split <;> rfl
    · rw [peek_skipSpace] at hend
      rw [if_pos hend]

/-- **A line of words and redirections is parsed whole.**  By induction on the line: the parser
is at a redirection, which `parseredirs` takes, or at a word, where `parseredirs` returns to
the loop of `parseexec`.  `rounds` is what that loop is given once it is reached. -/
theorem parse_of_reads (hreads : Reads s es s') (hend : AtEnd s') (argv : List Token)
    (rs : List Redir) (rounds : List UInt8 → ℕ) (hfuel : s.length < fuel)
    (hrounds : ∀ s₁, s₁.length ≤ s.length → s₁.length < rounds s₁)
    (hlen : argv.length + (words es).length < maxArgs) :
    (parseredirs fuel (wrap (.exec argv) rs) s >>= fun r =>
      argLoop (rounds r.2) r.1 argv.length r.2) =
      .ok (wrap (.exec (argv ++ words es)) (rs ++ redirs es), s') := by
  induction hreads generalizing fuel argv rs rounds with
  | nil s =>
    have hle := length_skipSpace_le s
    rw [parseredirs_done hend.peek_redir (Nat.zero_lt_of_lt hfuel), ok_bind,
      argLoop_done ((skipSpace_skipSpace s).symm ▸ hend) (Nat.zero_lt_of_lt (hrounds _ hle)),
      skipSpace_skipSpace]
    simp [words, redirs]
  | @word s t rest es s' ht h ih =>
    have hle := length_skipSpace_le s
    have hlt := length_gettoken_lt ht (by decide)
    rw [parseredirs_done (peek_eq_false_of_word ht (by decide)) (Nat.zero_lt_of_lt hfuel), ok_bind]
    -- the loop of `parseexec` takes the word
    obtain ⟨n, hn⟩ := Nat.exists_eq_add_one_of_ne_zero
      (Nat.ne_zero_of_lt (hrounds (skipSpace s) hle))
    have hround := hrounds (skipSpace s) hle
    rw [words_cons_word, List.length_cons] at hlen
    have hpeek : peek (skipSpace s) [124, 41, 38, 59] = false := by
      rw [peek_skipSpace]
      exact peek_eq_false_of_word ht (by decide)
    have hone : argLoop (n + 1) (wrap (.exec argv) rs) argv.length (skipSpace s) =
        (parseredirs (rest.length + 1) (wrap (.exec (argv ++ [t])) rs) rest >>= fun r =>
          argLoop n r.1 (argv ++ [t]).length r.2) := by
      rw [argLoop, hpeek, gettoken_skipSpace, ht]
      dsimp only
      rw [if_neg (by decide), if_neg (by decide), if_neg (by decide), if_neg (by omega),
        addArg_wrap, List.length_append]
      rfl
    have hnext := ih hend (argv ++ [t]) rs (fun _ => n) (Nat.lt_succ_self _)
      (fun s₁ h₁ => by omega) (by rw [List.length_append, List.length_singleton]; omega)
    dsimp only
    rw [hn, hone, hnext, List.append_assoc]
    rfl
  | @redir s tok op s₁ file s₂ es s' hp hop hfile h ih =>
    have hle := length_skipSpace_le s
    have hle' := length_skipSpace_le s₁
    have hlt := length_gettoken_lt hop (gettoken_ne_zero_of_peek hp hop)
    have hlt' := length_gettoken_lt hfile (by decide)
    obtain ⟨n, rfl⟩ := Nat.exists_eq_add_one_of_ne_zero (Nat.ne_zero_of_lt hfuel)
    have hone : parseredirs (n + 1) (wrap (.exec argv) rs) s =
        parseredirs n (wrap (.exec argv) (rs ++ [redirOf tok file])) s₂ := by
      rw [parseredirs, if_pos hp, hop, wrap, wrap, List.foldl_append]
      dsimp only
      rw [hfile]
      rfl
    rw [hone, ih hend argv _ _ (by omega) (fun s₃ h₃ => hrounds s₃ (by omega)) hlen, List.append_assoc]
    rfl

theorem parseSimple_of_reads (hreads : Reads s es s') (hend : AtEnd s')
    (hlen : (words es).length < maxArgs) :
    parseSimple s = .ok (wrap (.exec (words es)) (redirs es), s') :=
  parse_of_reads hreads hend [] [] (fun s => s.length + 1) (Nat.lt_succ_self _)
    (fun _ _ => Nat.lt_succ_self _) (by simpa using hlen)

/-! ### Running it -/

/-- What a descriptor is open on. -/
inductive Desc
  /-- what the shell had there -/
  | inherited (fd : ℕ)
  | opened (path : List UInt8) (mode : ℕ)
  deriving DecidableEq, Repr

/-- `NOFILE` -/
def nofile : ℕ := 16

variable {σ : Type} (fsOpen : σ → List UInt8 → ℕ → Option σ)

/-- `open`: the lowest free descriptor, where the file system lets it be opened. -/
def sysOpen (fds : ℕ → Option Desc) (fs : σ) (path : List UInt8) (mode : ℕ) :
    Option ((ℕ → Option Desc) × σ) :=
  match fsOpen fs path mode, (List.range nofile).find? fun fd => fds fd = none with
  | some fs, some fd => some (update fds fd (some (.opened path mode)), fs)
  | _, _ => none

/-- `EXEC` and `REDIR` of `runcmd`, up to the exec: its arguments, the descriptors and the
file system; nothing where the process exits.  The other commands fork. -/
def runcmd : Cmd → (ℕ → Option Desc) → σ → Option (List Token × (ℕ → Option Desc) × σ)
  | .exec argv, fds, fs => if argv = [] then none else some (argv, fds, fs)
  | .redir cmd r, fds, fs =>
      match sysOpen fsOpen (update fds r.fd none) fs r.file.text r.mode with
      | none => none
      | some (fds, fs) => runcmd cmd fds fs
  | _, _, _ => none

/-- The descriptors with the first redirection of each. -/
def redirected (rs : List Redir) (fds : ℕ → Option Desc) (d : ℕ) : Option Desc :=
  match rs.find? (·.fd = d) with
  | some r => some (.opened r.file.text r.mode)
  | none => fds d

/-- Descriptors 0 and 1 are open. -/
def Std (fds : ℕ → Option Desc) : Prop := ∀ d < 2, fds d ≠ none

variable {fsOpen} {fds fds' : ℕ → Option Desc} {fs fs' : σ} {argv argv' : List Token}

theorem redirOf_fd (tok : UInt8) (file : Token) : (redirOf tok file).fd < 2 := by
  unfold redirOf
  split_ifs <;> simp

theorem Reads.fd_lt (h : Reads s es s') : ∀ r ∈ redirs es, r.fd < 2 := by
  induction h with
  | nil s => exact fun r hr => absurd hr List.not_mem_nil
  | word _ _ ih => exact ih
  | redir _ _ _ _ ih =>
    rintro r (_ | ⟨_, hr⟩)
    · exact redirOf_fd _ _
    · exact ih r hr

/-- After `close(fd)` the descriptor `open` takes is `fd`. -/
theorem find_closed (hstd : Std fds) {fd : ℕ} (hfd : fd < 2) :
    (List.range nofile).find? (fun d => update fds fd none d = none) = some fd := by
  rw [List.find?_range_eq_some]
  refine ⟨decide_eq_true (update_self ..), ?_, ?_⟩
  · exact List.mem_range.mpr (hfd.trans (by decide))
  · intro d hd
    rw [update_of_ne hd.ne]
    simpa using hstd d (hd.trans hfd)

theorem sysOpen_closed (hstd : Std fds) {fd : ℕ} (hfd : fd < 2) (path : List UInt8) (mode : ℕ) :
    sysOpen fsOpen (update fds fd none) fs path mode =
      (fsOpen fs path mode).map fun fs =>
        (update fds fd (some (.opened path mode)), fs) := by
  unfold sysOpen
  rw [find_closed hstd hfd]
  cases fsOpen fs path mode with
  | none => rfl
  | some fs =>
    show some _ = some _
    rw [update_idem]

theorem Std.update (hstd : Std fds) (fd : ℕ) (x : Desc) :
    Std (Function.update fds fd (some x)) := by
  intro d hd
  by_cases h : d = fd
  · rw [h, Function.update_self]
    exact Option.some_ne_none x
  · rw [Function.update_of_ne h]
    exact hstd d hd

/-- The outermost redirection is under those further in. -/
theorem redirected_concat (rs : List Redir) (r : Redir) :
    redirected rs (update fds r.fd (some (.opened r.file.text r.mode))) =
      redirected (rs ++ [r]) fds := by
  funext d
  unfold redirected
  rw [List.find?_append]
  cases hf : rs.find? (·.fd = d) with
  | some r' => rfl
  | none =>
    by_cases hd : r.fd = d
    · subst hd
      simp
    · simp [hd, update_of_ne (Ne.symm hd)]

/-- **A command under redirections runs with the first redirection of each descriptor.** -/
theorem runcmd_wrap (hstd : Std fds) (hrs : ∀ r ∈ rs, r.fd < 2)
    (h : runcmd fsOpen (wrap (.exec argv) rs) fds fs = some (argv', fds', fs')) :
    argv' = argv ∧ fds' = redirected rs fds := by
  induction rs using List.reverseRecOn generalizing fds fs with
  | nil =>
    unfold wrap runcmd at h
    rw [List.foldl_nil] at h
    dsimp only at h
    split at h
    · cases h
    · obtain ⟨hargv, hrest⟩ := Prod.mk.inj (Option.some.inj h)
      exact ⟨hargv.symm, (Prod.mk.inj hrest).1.symm⟩
  | append_singleton rs r ih =>
    have hwrap : wrap (.exec argv) (rs ++ [r]) = .redir (wrap (.exec argv) rs) r :=
      List.foldl_append ..
    have hr := hrs r (by simp)
    rw [hwrap, runcmd, sysOpen_closed hstd hr] at h
    cases ho : fsOpen fs r.file.text r.mode with
    | none =>
      rw [ho] at h
      cases h
    | some fs₁ =>
      rw [ho] at h
      obtain ⟨hargv, hfds⟩ := ih (hstd.update _ _) (fun r' h' => hrs r' (by simp [h'])) h
      exact ⟨hargv, hfds.trans (redirected_concat rs r)⟩

/-- Where every open succeeds, the exec is reached. -/
theorem runcmd_isSome (hopen : ∀ fs path mode, (fsOpen fs path mode).isSome) (hstd : Std fds)
    (hrs : ∀ r ∈ rs, r.fd < 2) (hargv : argv ≠ []) :
    (runcmd fsOpen (wrap (.exec argv) rs) fds fs).isSome := by
  induction rs using List.reverseRecOn generalizing fds fs with
  | nil =>
    show (if argv = [] then none else some (argv, fds, fs)).isSome = true
    rw [if_neg hargv]
    rfl
  | append_singleton rs r ih =>
    have hwrap : wrap (.exec argv) (rs ++ [r]) = .redir (wrap (.exec argv) rs) r :=
      List.foldl_append ..
    rw [hwrap, runcmd, sysOpen_closed hstd (hrs r (by simp))]
    obtain ⟨fs₁, ho⟩ := Option.isSome_iff_exists.mp (hopen fs r.file.text r.mode)
    rw [ho]
    exact ih (hstd.update _ _) fun r' h' => hrs r' (by simp [h'])

/-- What a simple command runs with: its words, and the first redirection of each descriptor;
where every open succeeds, the exec is reached. -/
def FirstWins (fsOpen : σ → List UInt8 → ℕ → Option σ) (cmd : Cmd) (es : List Elem) : Prop :=
  (∀ (fds fds' : ℕ → Option Desc) (fs fs' : σ) argv, Std fds →
    runcmd fsOpen cmd fds fs = some (argv, fds', fs') →
      argv = words es ∧ ∀ d, fds' d = redirected (redirs es) fds d) ∧
  ((∀ fs path mode, (fsOpen fs path mode).isSome) → words es ≠ [] →
    ∀ fds fs, Std fds → (runcmd fsOpen cmd fds fs).isSome)

/-- **The first redirection wins**: a simple command of fewer than `MAXARGS` words, with any
redirections before, between and after them, is parsed up to the end of the line or one of
`|)&;`, and is run with each of its descriptors open on the file of the left-most redirection
of that descriptor, in its mode; a descriptor without one stays as it was.  The parser accepts
no other simple command, and always comes to an end. -/
theorem first_redirection_wins (fsOpen : σ → List UInt8 → ℕ → Option σ)
    (hblock : peek s [40] = false) :
    (∀ es s', Reads s es s' → AtEnd s' → (words es).length < maxArgs →
      ∃ cmd, parseexec (fuel + 1) s = .ok (cmd, s') ∧ FirstWins fsOpen cmd es) ∧
    (∀ cmd s', parseexec (fuel + 1) s = .ok (cmd, s') →
      ∃ es, Reads s es s' ∧ AtEnd s' ∧ (words es).length < maxArgs ∧ FirstWins fsOpen cmd es) ∧
    parseexec (fuel + 1) s ≠ .error .rounds := by
  have hwins : ∀ {es s'}, Reads s es s' →
      FirstWins fsOpen (wrap (.exec (words es)) (redirs es)) es := by
    intro es s' hreads
    refine ⟨?_, ?_⟩
    · intro fds fds' fs fs' argv hstd hrun
      obtain ⟨hargv, hfds⟩ := runcmd_wrap hstd hreads.fd_lt hrun
      exact ⟨hargv, fun d => congrFun hfds d⟩
    · intro hopen hwords fds fs hstd
      exact runcmd_isSome hopen hstd hreads.fd_lt hwords
  have hsimple : parseexec (fuel + 1) s = parseSimple s := by
    unfold parseexec
    rw [hblock]
    rfl
  rw [hsimple]
  refine ⟨fun es s' hreads hend hlen => ?_, fun cmd s' h => ?_, fun h => ?_⟩
  · exact ⟨_, parseSimple_of_reads hreads hend hlen, hwins hreads⟩
  · obtain ⟨es, hreads, hend, hlen, hcmd⟩ := (parseSimple_ends s).of_ok h
    obtain rfl : cmd = _ := hcmd
    exact ⟨es, hreads, hend, hlen, hwins hreads⟩
  · exact (parseSimple_ends s).of_error h rfl

/-- `c < a < b` -/
def redirTwice : List UInt8 := [99, 32, 60, 32, 97, 32, 60, 32, 98]

/-- What is at `i` in it, up to `j`. -/
def redirTwiceToken (i j : ℕ) : Token := ⟨redirTwice.drop i, redirTwice.drop j⟩

/-- It is parsed whole, and reads from `a`. -/
theorem first_redirection_wins_twice :
    ∃ cmd, parseexec 1 redirTwice = .ok (cmd, []) ∧
      FirstWins (fun (_ : Unit) _ _ => some ()) cmd
        [.word (redirTwiceToken 0 1), .redir (redirOf 60 (redirTwiceToken 4 5)),
          .redir (redirOf 60 (redirTwiceToken 8 9))] := by
  refine (first_redirection_wins _ (by decide)).1 _ _ ?_ (.inl rfl) (by decide)
  exact .word rfl (.redir rfl rfl rfl (.redir rfl rfl rfl (.nil [])))

/-- **The last redirection does not win**: `c < a < b` reads from `a`. -/
theorem last_redirection_loses :
    ∃ cmd, parseexec 1 redirTwice = .ok (cmd, []) ∧
      (runcmd (fun _ _ _ => some ()) cmd (fun d => some (.inherited d)) ()).map (fun r => r.2.1 0) =
        some (some (.opened [97] 0)) :=
  ⟨.redir (.redir (.exec [⟨redirTwice, redirTwice.drop 1⟩])
      ⟨⟨redirTwice.drop 4, redirTwice.drop 5⟩, 0, 0⟩) ⟨⟨redirTwice.drop 8, []⟩, 0, 0⟩,
    by decide, by decide⟩

end Shell

end Xv6Zig
