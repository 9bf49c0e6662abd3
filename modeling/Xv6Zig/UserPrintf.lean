/-
Xv6Zig/UserPrintf.lean

The two formatters of user programs: `printf` (`user/ulib/ulog.zig`), which replaced
the one of `user/ulib/printf.c`, and `fprintf` (`vprintf` of `user/ulib/printf.c`).

The arguments are the 64-bit words of the `va_list`, and `mem a` is the string at the
address `a`.  Both functions give the bytes they print and the words they leave;
`none` is a word that is not there or an address that holds no string.

`printf` walks over the format with an index to skip, `vprintf` with a state.  Both
treat the format piece by piece (`pieces`), so that they are compared piece by piece:
`printf_eq_fprintf_iff` says for which conversions and arguments they agree.
-/
import Mathlib.Data.Nat.Digits.Lemmas
import Mathlib.Data.List.Forall2
import Mathlib.Tactic.IntervalCases

namespace Xv6Zig

namespace UserPrintf

/-- What was printed, and the words that are left. -/
abbrev Printed := Option (List UInt8 × List UInt64)

/-- Something was printed before. -/
def emit (out : List UInt8) (r : Printed) : Printed := r.map fun x => (out ++ x.1, x.2)

/-- `va_arg` -/
def vaArg (ap : List UInt64) (f : UInt64 → Option (List UInt8)) : Printed :=
  match ap with
  | [] => none
  | a :: ap => (f a).map fun out => (out, ap)

/-- A word as an `int`. -/
def toInt (a : UInt64) : Int32 := a.toUInt32.toInt32

/-! ### `printf.c` -/

/-- `digits` -/
def digits (i : ℕ) : UInt8 := "0123456789ABCDEF".toUTF8.data.toList.getD i 0

/-- The loop of `printint`, which fills `buf`; there is room for `n` bytes. -/
def printintLoop (base : ℕ) : ℕ → ℕ → List UInt8
  | 0, _ => []
  | n + 1, x => digits (x % base) :: if x / base = 0 then [] else printintLoop base n (x / base)

def printint (xx : Int32) (base : ℕ) (sgn : Bool) : List UInt8 :=
  let neg := sgn ∧ xx < 0
  let x : UInt32 := if neg then (-xx).toUInt32 else xx.toUInt32
  (printintLoop base 16 x.toNat ++ if neg then [45] else []).reverse

/-- The loop of `printptr`, with `n` digits to go. -/
def printptrLoop : ℕ → UInt64 → List UInt8
  | 0, _ => []
  | n + 1, x => digits (x >>> 60).toNat :: printptrLoop n (x <<< 4)

def printptr (x : UInt64) : List UInt8 := 48 :: 120 :: printptrLoop 16 x

section Mem

variable (mem : UInt64 → Option (List UInt8))

/-- `"(null)"` -/
def null : List UInt8 := [40, 110, 117, 108, 108, 41]

/-- What `vprintf` does with the character after a `%`. -/
def vprintfConv (c : UInt8) (ap : List UInt64) : Printed :=
  if c = 100 then -- 'd'
    vaArg ap fun a => some (printint (toInt a) 10 true)
  else if c = 108 then -- 'l'
    vaArg ap fun a => some (printint (toInt a) 10 false)
  else if c = 120 then -- 'x'
    vaArg ap fun a => some (printint (toInt a) 16 false)
  else if c = 112 then -- 'p'
    vaArg ap fun a => some (printptr a)
  else if c = 115 then -- 's'
    vaArg ap fun a => if a = 0 then some null else mem a
  else if c = 99 then -- 'c'
    vaArg ap fun a => some [a.toUInt8]
  else if c = 37 then some ([c], ap)
  else some ([37, c], ap)

/-- `vprintf`; the state is whether a `%` was read. -/
def vprintf : Bool → List UInt8 → List UInt64 → Printed
  | _, [], ap => some ([], ap)
  | false, c :: fmt, ap => if c = 37 then vprintf true fmt ap else emit [c] (vprintf false fmt ap)
  | true, c :: fmt, ap =>
    (vprintfConv mem c ap).bind fun x => emit x.1 (vprintf false fmt x.2)

/-- `fprintf(1, fmt, ...)` -/
def fprintf (fmt : List UInt8) (ap : List UInt64) : Printed := vprintf mem false fmt ap

/-! ### `ulog.zig` -/

/-- The digit `i` of `std.fmt`, in lower case. -/
def digitToChar (i : ℕ) : UInt8 := if i < 10 then 48 + .ofNat i else 87 + .ofNat i

/-- The numeral of `n`. -/
def numeral (base n : ℕ) : List UInt8 :=
  if n = 0 then [48] else ((Nat.digits base n).map digitToChar).reverse

/-- `std.fmt`: an integer, in base 10 for `{d}` and in base 16 for `{x}`. -/
def formatInt (base : ℕ) (x : Int32) : List UInt8 :=
  (if x < 0 then [45] else []) ++ numeral base x.toInt.natAbs

/-- `std.fmt`: a `*usize` with `{p}`, which is the name of the type, an `@` and the
address. -/
def formatPtr (a : UInt64) : List UInt8 :=
  [117, 115, 105, 122, 101, 64] ++ numeral 16 a.toNat

/-- The `switch` of `printf`.  A pointer to a string must not be null. -/
def printfConv (ch : UInt8) (ap : List UInt64) : Printed :=
  if ch = 100 then -- 'd'
    vaArg ap fun a => some (formatInt 10 (toInt a))
  else if ch = 120 then -- 'x'
    vaArg ap fun a => some (formatInt 16 (toInt a))
  else if ch = 112 then -- 'p'
    vaArg ap fun a => some (formatPtr a)
  else if ch = 115 then -- 's'
    vaArg ap fun a => if a = 0 then none else mem a
  else if ch = 37 then some ([37], ap)
  else some ([37, ch], ap)

/-- The loop of `printf` over the bytes of `format` and their indices. -/
def printfLoop (format : List UInt8) :
    List UInt8 → ℕ → Option ℕ → List UInt64 → Printed
  | [], _, _, ap => some ([], ap)
  | byte :: bytes, i, skipIdx, ap =>
    if skipIdx = some i then printfLoop format bytes (i + 1) skipIdx ap
    else if byte ≠ 37 then emit [byte] (printfLoop format bytes (i + 1) skipIdx ap)
    else
      -- the byte after the last one is the terminator
      let ch := format.getD (i + 1) 0
      if ch = 0 then some ([], ap)
      else (printfConv mem ch ap).bind fun x =>
        emit x.1 (printfLoop format bytes (i + 1) (some (i + 1)) x.2)

/-- `printf`; the empty format is a panic. -/
def printf (format : List UInt8) (ap : List UInt64) : Printed :=
  if format = [] then none else printfLoop mem format format 0 none ap

end Mem

/-! ### Piece by piece -/

/-- A piece of a format: a byte, or the character after a `%`. -/
inductive Piece
  | lit (c : UInt8)
  | conv (c : UInt8)

/-- The pieces; a `%` at the end is none. -/
def pieces : List UInt8 → List Piece
  | [] => []
  | [c] => if c = 37 then [] else [.lit c]
  | c :: c' :: fmt => if c = 37 then .conv c' :: pieces fmt else .lit c :: pieces (c' :: fmt)

/-- A formatter that treats the conversions by `f`. -/
def run (f : UInt8 → List UInt64 → Printed) : List Piece → List UInt64 → Printed
  | [], ap => some ([], ap)
  | .lit c :: ps, ap => emit [c] (run f ps ap)
  | .conv c :: ps, ap => (f c ap).bind fun x => emit x.1 (run f ps x.2)

section Run

variable {mem : UInt64 → Option (List UInt8)}

theorem vprintf_eq_run (fmt : List UInt8) (ap : List UInt64) :
    vprintf mem false fmt ap = run (vprintfConv mem) (pieces fmt) ap := by
  fun_induction pieces fmt generalizing ap with
  | case1 => rfl
  | case2 => rfl
  | case3 c hc =>
    show (if c = 37 then _ else _) = _
    rw [if_neg hc]
    rfl
  | case4 c' fmt ih =>
    show (vprintfConv mem c' ap).bind _ = (vprintfConv mem c' ap).bind _
    simp only [ih]
  | case5 c c' fmt hc ih =>
    show (if c = 37 then _ else _) = emit [c] _
    rw [if_neg hc, ih]

/-- The loop of `printf` where no byte is to be skipped. -/
theorem printfLoop_eq_run (format : List UInt8) (bytes : List UInt8) {i : ℕ} {skipIdx : Option ℕ}
    (hbytes : format.drop i = bytes) (hskip : ∀ j, skipIdx = some j → j < i) (hnul : 0 ∉ bytes)
    (ap : List UInt64) :
    printfLoop mem format bytes i skipIdx ap = run (printfConv mem) (pieces bytes) ap := by
  have hgo : ∀ {i : ℕ} {skipIdx : Option ℕ}, (∀ j, skipIdx = some j → j < i) → skipIdx ≠ some i :=
    fun hskip heq => absurd (hskip _ heq) (lt_irrefl _)
  have hnext : ∀ {i : ℕ} {c : UInt8} {bytes : List UInt8}, format.drop i = c :: bytes →
      format.drop (i + 1) = bytes := by
    intro i c bytes h
    rw [← List.tail_drop, h, List.tail_cons]
  have hch : ∀ {i : ℕ} {bytes : List UInt8}, format.drop i = bytes →
      format.getD i 0 = bytes.headD 0 := by
    intro i bytes h
    rw [← h, List.headD_eq_head?_getD, List.head?_drop]
    rfl
  fun_induction pieces bytes generalizing i skipIdx ap with
  | case1 => rfl
  | case2 =>
    -- a `%` at the end: the terminator follows
    rw [printfLoop, if_neg (hgo hskip), if_neg (by simp), hch (hnext hbytes)]
    rfl
  | case3 c hc =>
    rw [printfLoop, if_neg (hgo hskip), if_pos hc]
    rfl
  | case4 c' fmt ih =>
    have hne : c' ≠ 0 := by
      rintro rfl
      simp at hnul
    have hrest := hnext (hnext hbytes)
    rw [printfLoop, if_neg (hgo hskip), if_neg (by simp), hch (hnext hbytes)]
    show (if c' = 0 then _ else _) = (printfConv mem c' ap).bind _
    rw [if_neg hne]
    congr 1
    funext x
    -- the character is skipped in the next round
    rw [printfLoop, if_pos rfl]
    rw [ih hrest (fun j hj => by cases hj; exact Nat.lt_succ_self _) (by simp_all)]
  | case5 c c' fmt hc ih =>
    rw [printfLoop, if_neg (hgo hskip), if_pos hc]
    rw [ih (hnext hbytes) (fun j hj => (hskip j hj).trans (Nat.lt_succ_self i)) (by simp_all)]
    rfl

end Run

/-! ### Numbers -/

theorem digitToChar_eq {i : ℕ} (hi : i < 10) : digits i = digitToChar i := by
  interval_cases i <;> rfl

/-- The loop writes the digits from the last one on. -/
theorem printintLoop_eq {base : ℕ} (hbase : 1 < base) {n x : ℕ} (hx : x < base ^ n) (hpos : 0 < x) :
    printintLoop base n x = (Nat.digits base x).map digits := by
  induction n generalizing x with
  | zero =>
    rw [pow_zero] at hx
    omega
  | succ n ih =>
    rw [printintLoop, Nat.digits_def' hbase hpos, List.map_cons]
    congr 1
    rcases Nat.eq_zero_or_pos (x / base) with hzero | hrest
    · rw [if_pos hzero, hzero, Nat.digits_zero, List.map_nil]
    · rw [if_neg hrest.ne']
      refine ih ?_ hrest
      rw [pow_succ] at hx
      exact Nat.div_lt_of_lt_mul (by rwa [mul_comm])

theorem printintLoop_zero (base n : ℕ) : printintLoop base (n + 1) 0 = [48] := by
  rw [printintLoop, Nat.zero_mod, Nat.zero_div, if_pos rfl]
  rfl

/-- The absolute value, as `printint` computes it. -/
theorem natAbs_of_neg {xx : Int32} (h : xx < 0) : (-xx).toUInt32.toNat = xx.toInt.natAbs := by
  have hlt : xx.toInt < 0 := by
    rw [Int32.lt_iff_toInt_lt] at h
    exact h
  show (-xx).toBitVec.toNat = _
  rw [Int32.toBitVec_neg, BitVec.toNat_neg]
  have hval : xx.toInt = xx.toBitVec.toInt := rfl
  rw [hval, BitVec.toInt_eq_toNat_cond] at hlt ⊢
  have hbv := xx.toBitVec.isLt
  split_ifs at hlt ⊢ <;> omega

theorem natAbs_of_nonneg {xx : Int32} (h : ¬ xx < 0) : xx.toUInt32.toNat = xx.toInt.natAbs := by
  have hnn : ¬ xx.toInt < 0 := by
    rw [Int32.lt_iff_toInt_lt] at h
    exact h
  show xx.toBitVec.toNat = _
  have hval : xx.toInt = xx.toBitVec.toInt := rfl
  rw [hval, BitVec.toInt_eq_toNat_cond] at hnn ⊢
  have hbv := xx.toBitVec.isLt
  split_ifs at hnn ⊢ <;> omega

/-- `printint` in upper case. -/
theorem printint_eq (xx : Int32) {base : ℕ} (hbase : 4 ≤ base) (sgn : Bool) :
    printint xx base sgn
      = (if sgn ∧ xx < 0 then [45] else []) ++
        let n := (if sgn ∧ xx < 0 then (-xx).toUInt32 else xx.toUInt32).toNat
        if n = 0 then [48] else ((Nat.digits base n).map digits).reverse := by
  unfold printint
  dsimp only
  generalize hx : (if sgn = true ∧ xx < 0 then (-xx).toUInt32 else xx.toUInt32) = x
  have hlt : x.toNat < base ^ 16 :=
    calc x.toNat < 2 ^ 32 := x.toNat_lt
      _ = 4 ^ 16 := by norm_num
      _ ≤ base ^ 16 := Nat.pow_le_pow_left hbase 16
  have hsign : (if sgn = true ∧ xx < 0 then [45] else [] : List UInt8).reverse
      = if sgn = true ∧ xx < 0 then [45] else [] := by
    split_ifs <;> rfl
  rw [List.reverse_append, hsign]
  congr 1
  rcases Nat.eq_zero_or_pos x.toNat with hzero | hpos
  · rw [hzero, printintLoop_zero, if_pos rfl]
    rfl
  · rw [printintLoop_eq (by omega) hlt hpos, if_neg hpos.ne']

/-- `%d` -/
theorem printint_signed (xx : Int32) : printint xx 10 true = formatInt 10 xx := by
  have hdigits : ∀ n, (Nat.digits 10 n).map digits = (Nat.digits 10 n).map digitToChar :=
    fun n => List.map_congr_left fun i hi => digitToChar_eq (Nat.digits_lt_base (by norm_num) hi)
  rw [printint_eq xx (by norm_num), formatInt, numeral]
  by_cases hneg : xx < 0
  · simp only [hneg, and_self, if_true, natAbs_of_neg hneg, hdigits]
  · simp only [hneg, and_false, if_false, natAbs_of_nonneg hneg, hdigits]

/-- What `%x` prints alike: a number that is not negative and has no digit from `a` on. -/
def PlainHex (xx : Int32) : Prop :=
  ¬ xx < 0 ∧ ∀ i ∈ Nat.digits 16 xx.toUInt32.toNat, i < 10

theorem printint_hex (xx : Int32) : printint xx 16 false
    = if xx.toUInt32.toNat = 0 then [48]
      else ((Nat.digits 16 xx.toUInt32.toNat).map digits).reverse := by
  rw [printint_eq xx (by norm_num)]
  rfl

theorem PlainHex.printint {xx : Int32} (h : PlainHex xx) :
    printint xx 16 false = formatInt 16 xx := by
  rw [printint_hex, formatInt, numeral, if_neg h.1, List.nil_append, ← natAbs_of_nonneg h.1]
  rw [List.map_congr_left fun i hi => digitToChar_eq (h.2 i hi)]

/-- Otherwise they differ, whatever follows. -/
theorem plainHex_of_append {xx : Int32} {r r' : List UInt8}
    (h : formatInt 16 xx ++ r = printint xx 16 false ++ r') : PlainHex xx := by
  have hdiff : ∀ i, i < 16 → digits i ≠ 45 ∧ (10 ≤ i → digitToChar i ≠ digits i) := by decide
  have hlt : ∀ n, ∀ i ∈ Nat.digits 16 n, i < 16 := fun n i => Nat.digits_lt_base (by norm_num)
  rw [printint_hex] at h
  have hnonneg : ¬ xx < 0 := by
    -- the sign against a digit
    intro hneg
    have hpos : xx.toUInt32.toNat ≠ 0 := by
      intro hzero
      have hxx : xx = 0 := by
        apply Int32.toBitVec_inj.mp
        exact BitVec.eq_of_toNat_eq hzero
      rw [hxx] at hneg
      exact absurd hneg (by decide)
    rw [formatInt, if_pos hneg, if_neg hpos] at h
    rcases hds : ((Nat.digits 16 xx.toUInt32.toNat).map digits).reverse with _ | ⟨d, ds⟩
    · rw [List.reverse_eq_nil_iff, List.map_eq_nil_iff, Nat.digits_eq_nil_iff_eq_zero] at hds
      exact hpos hds
    · rw [hds] at h
      have hd : d ∈ (Nat.digits 16 xx.toUInt32.toNat).map digits := by
        rw [← List.mem_reverse, hds]
        exact List.mem_cons_self
      obtain ⟨i, hi, rfl⟩ := List.mem_map.mp hd
      have hhead := congrArg List.head? h
      exact (hdiff i (hlt _ i hi)).1 (Option.some.inj hhead).symm
  refine ⟨hnonneg, fun i hi => ?_⟩
  by_contra hge
  have hpos : xx.toUInt32.toNat ≠ 0 := by
    intro hzero
    rw [hzero, Nat.digits_zero] at hi
    cases hi
  rw [formatInt, if_neg hnonneg, List.nil_append, ← natAbs_of_nonneg hnonneg, numeral, if_neg hpos,
    if_neg hpos] at h
  have heq := (List.append_inj h (by simp)).1
  have hmap := List.map_inj_left.mp (List.reverse_injective heq) i hi
  exact (hdiff i (hlt _ i hi)).2 (not_lt.mp hge) hmap

/-- `%p` never agrees. -/
theorem formatPtr_append_ne (a : UInt64) (r r' : List UInt8) :
    formatPtr a ++ r ≠ printptr a ++ r' := by
  intro h
  exact absurd (congrArg List.head? h) (by simp [formatPtr, printptr])

/-! ### Conversion by conversion -/

/-- The conversions for which `vprintf` takes an argument: `d`, `l`, `x`, `p`, `s`, `c`. -/
def taken : List UInt8 := [100, 108, 120, 112, 115, 99]

/-- Those for which `printf` does: `d`, `x`, `p`, `s`. -/
def takenByPrintf : List UInt8 := [100, 120, 112, 115]

/-- The conversions of a format that are in `cs`, in order. -/
def convs (cs : List UInt8) : List Piece → List UInt8
  | [] => []
  | .lit _ :: ps => convs cs ps
  | .conv c :: ps => if c ∈ cs then c :: convs cs ps else convs cs ps

/-- The argument is of the type the conversion calls for: a `%s` has a string or null. -/
def Fits (mem : UInt64 → Option (List UInt8)) (c : UInt8) (a : UInt64) : Prop :=
  c = 115 → a ≠ 0 → (mem a).isSome

/-- The two formatters print the argument alike. -/
def Agrees (c : UInt8) (a : UInt64) : Prop :=
  c = 100 ∨ (c = 120 ∧ PlainHex (toInt a)) ∨ (c = 115 ∧ a ≠ 0)

section Compare

variable {mem : UInt64 → Option (List UInt8)} {c : UInt8} {a : UInt64} {ap : List UInt64}
variable {ps : List Piece}

theorem emit_injective (out : List UInt8) : Function.Injective (emit out) := by
  refine Option.map_injective fun x y hxy => ?_
  obtain ⟨hout, hrest⟩ := Prod.mk.inj hxy
  exact Prod.ext (List.append_cancel_left hout) hrest

theorem eq_some_of_emit {out : List UInt8} {r : Printed} {x : List UInt8 × List UInt64}
    (h : emit out r = some x) : ∃ o, r = some (o, x.2) ∧ x.1 = out ++ o := by
  obtain ⟨y, hy, rfl⟩ := Option.map_eq_some_iff.mp h
  exact ⟨y.1, hy, rfl⟩

theorem vprintfConv_of_mem (hc : c ∈ taken) (hfit : Fits mem c a) :
    ∃ out, ∀ ap, vprintfConv mem c (a :: ap) = some (out, ap) := by
  simp only [taken, List.mem_cons, List.not_mem_nil, or_false] at hc
  rcases hc with rfl | rfl | rfl | rfl | rfl | rfl
  · exact ⟨_, fun _ => rfl⟩
  · exact ⟨_, fun _ => rfl⟩
  · exact ⟨_, fun _ => rfl⟩
  · exact ⟨_, fun _ => rfl⟩
  · by_cases ha : a = 0
    · refine ⟨null, fun ap => ?_⟩
      subst ha
      rfl
    · obtain ⟨s, hs⟩ := Option.isSome_iff_exists.mp (hfit rfl ha)
      refine ⟨s, fun ap => ?_⟩
      show Option.map _ (if a = 0 then some null else mem a) = _
      rw [if_neg ha, hs]
      rfl
  · exact ⟨_, fun _ => rfl⟩

/-- Other characters take no argument, and are printed alike. -/
theorem vprintfConv_of_notMem (mem : UInt64 → Option (List UInt8)) (hc : c ∉ taken)
    (ap : List UInt64) :
    ∃ out, vprintfConv mem c ap = some (out, ap) ∧ printfConv mem c ap = some (out, ap) := by
  simp only [taken, List.mem_cons, List.not_mem_nil, or_false, not_or] at hc
  obtain ⟨hd, hl, hx, hp, hs, hcc⟩ := hc
  unfold vprintfConv printfConv
  simp only [hd, hl, hx, hp, hs, hcc, if_false]
  split_ifs with h
  · subst h
    exact ⟨_, rfl, rfl⟩
  · exact ⟨_, rfl, rfl⟩

theorem length_of_printfConv {x : List UInt8 × List UInt64} (h : printfConv mem c ap = some x) :
    x.2.length + (if c ∈ takenByPrintf then 1 else 0) = ap.length := by
  have harg : ∀ {f : UInt64 → Option (List UInt8)}, vaArg ap f = some x →
      x.2.length + 1 = ap.length := by
    intro f hf
    cases ap with
    | nil => cases hf
    | cons a ap =>
      obtain ⟨out, -, rfl⟩ := Option.map_eq_some_iff.mp hf
      rfl
  unfold printfConv at h
  split_ifs at h with hd hx hp hs hpercent
  · subst hd
    exact harg h
  · subst hx
    exact harg h
  · subst hp
    exact harg h
  · subst hs
    exact harg h
  · cases h
    subst hpercent
    rfl
  · cases h
    rw [if_neg (by simp [takenByPrintf, hd, hx, hp, hs])]
    rfl

theorem length_of_run {x : List UInt8 × List UInt64} (h : run (printfConv mem) ps ap = some x) :
    x.2.length + (convs takenByPrintf ps).length = ap.length := by
  induction ps generalizing ap x with
  | nil =>
    cases h
    rfl
  | cons piece ps ih =>
    cases piece with
    | lit c =>
      obtain ⟨o, ho, -⟩ := eq_some_of_emit h
      have hrest := ih ho
      exact hrest
    | conv c =>
      obtain ⟨y, hy, h⟩ := Option.bind_eq_some_iff.mp h
      obtain ⟨o, ho, -⟩ := eq_some_of_emit h
      have hrest := ih ho
      dsimp only at hrest
      have hconv := length_of_printfConv hy
      rw [convs]
      split_ifs at hconv ⊢ with hc
      · rw [List.length_cons]
        omega
      · omega

theorem run_vprintfConv (hargs : List.Forall₂ (Fits mem) (convs taken ps) ap) :
    ∃ out, run (vprintfConv mem) ps ap = some (out, []) := by
  induction ps generalizing ap with
  | nil =>
    cases hargs
    exact ⟨[], rfl⟩
  | cons piece ps ih =>
    cases piece with
    | lit c =>
      obtain ⟨out, hout⟩ := ih hargs
      refine ⟨[c] ++ out, ?_⟩
      rw [run, hout]
      rfl
    | conv c =>
      rw [convs] at hargs
      split_ifs at hargs with hc
      · obtain ⟨a, ap, hfit, hrest, rfl⟩ := List.forall₂_cons_left_iff.mp hargs
        obtain ⟨out, hout⟩ := vprintfConv_of_mem hc hfit
        obtain ⟨out', hout'⟩ := ih hrest
        refine ⟨out ++ out', ?_⟩
        rw [run, hout, Option.bind_some, hout']
        rfl
      · obtain ⟨out, hout, -⟩ := vprintfConv_of_notMem mem hc ap
        obtain ⟨out', hout'⟩ := ih hargs
        refine ⟨out ++ out', ?_⟩
        rw [run, hout, Option.bind_some, hout']
        rfl

theorem Agrees.printfConv_eq (h : Agrees c a) (ap : List UInt64) :
    printfConv mem c (a :: ap) = vprintfConv mem c (a :: ap) := by
  rcases h with rfl | ⟨rfl, hhex⟩ | ⟨rfl, ha⟩
  · show some (formatInt 10 (toInt a), ap) = some (printint (toInt a) 10 true, ap)
    rw [printint_signed]
  · show some (formatInt 16 (toInt a), ap) = some (printint (toInt a) 16 false, ap)
    rw [hhex.printint]
  · show Option.map _ (if a = 0 then none else mem a) = Option.map _ (if a = 0 then _ else mem a)
    rw [if_neg ha, if_neg ha]

/-- A conversion that `printf` takes an argument for, too: if what they print is the
same together with what follows, then they agree. -/
theorem agrees_of_append (hc : c ∈ takenByPrintf) {out out' r r' : List UInt8}
    {ap' : List UInt64} (hv : vprintfConv mem c (a :: ap) = some (out, ap))
    (hp : printfConv mem c (a :: ap) = some (out', ap')) (h : out' ++ r = out ++ r') :
    Agrees c a := by
  simp only [takenByPrintf, List.mem_cons, List.not_mem_nil, or_false] at hc
  rcases hc with rfl | rfl | rfl | rfl
  · exact .inl rfl
  · obtain rfl : printint (toInt a) 16 false = out := congrArg Prod.fst (Option.some.inj hv)
    obtain rfl : formatInt 16 (toInt a) = out' := congrArg Prod.fst (Option.some.inj hp)
    exact .inr (.inl ⟨rfl, plainHex_of_append h⟩)
  · obtain rfl : printptr a = out := congrArg Prod.fst (Option.some.inj hv)
    obtain rfl : formatPtr a = out' := congrArg Prod.fst (Option.some.inj hp)
    exact absurd h (formatPtr_append_ne a _ _)
  · refine .inr (.inr ⟨rfl, ?_⟩)
    rintro rfl
    cases hp

/-- The formatters agree on the whole when they do on every conversion. -/
theorem run_eq_of_agrees (hfits : List.Forall₂ (Fits mem) (convs taken ps) ap)
    (hargs : List.Forall₂ Agrees (convs taken ps) ap) :
    run (printfConv mem) ps ap = run (vprintfConv mem) ps ap := by
  induction ps generalizing ap with
  | nil => rfl
  | cons piece ps ih =>
    cases piece with
    | lit c => rw [run, run, ih hfits hargs]
    | conv c =>
      rw [convs] at hfits hargs
      rw [run, run]
      split_ifs at hfits hargs with hc
      · cases hargs with
        | cons hagree hargs =>
          cases hfits with
          | cons hfit hfits =>
            obtain ⟨out, hout⟩ := vprintfConv_of_mem hc hfit
            rw [hagree.printfConv_eq, hout, Option.bind_some, Option.bind_some, ih hfits hargs]
      · obtain ⟨out, hv, hp⟩ := vprintfConv_of_notMem mem hc ap
        rw [hv, hp, Option.bind_some, Option.bind_some, ih hfits hargs]

/-- and only then, as long as both take the same arguments. -/
theorem agrees_of_run_eq (hfits : List.Forall₂ (Fits mem) (convs taken ps) ap)
    (htaken : ∀ c ∈ convs taken ps, c ∈ takenByPrintf)
    (h : run (printfConv mem) ps ap = run (vprintfConv mem) ps ap) :
    List.Forall₂ Agrees (convs taken ps) ap := by
  induction ps generalizing ap with
  | nil =>
    cases hfits
    exact .nil
  | cons piece ps ih =>
    cases piece with
    | lit c => exact ih hfits htaken (emit_injective [c] h)
    | conv c =>
      rw [convs] at hfits htaken ⊢
      rw [run, run] at h
      split_ifs at hfits htaken ⊢ with hc
      · cases hfits with
        | @cons _ a _ ap hfit hfits =>
          obtain ⟨out, hout⟩ := vprintfConv_of_mem hc hfit
          obtain ⟨rest, hrest⟩ := run_vprintfConv hfits
          have hwhole := h
          rw [hout, Option.bind_some, hrest] at hwhole
          obtain ⟨⟨out', ap'⟩, hconv, hemit⟩ := Option.bind_eq_some_iff.mp hwhole
          obtain ⟨rest', -, hbytes⟩ := eq_some_of_emit hemit
          have hagree := agrees_of_append (htaken c List.mem_cons_self) (hout ap) hconv hbytes.symm
          refine .cons hagree (ih hfits (fun c' hc' => htaken c' (List.mem_cons_of_mem _ hc')) ?_)
          rw [hagree.printfConv_eq, hout, Option.bind_some, Option.bind_some] at h
          exact emit_injective out h
      · obtain ⟨out, hv, hp⟩ := vprintfConv_of_notMem mem hc ap
        rw [hv, hp, Option.bind_some, Option.bind_some] at h
        exact ih hfits htaken (emit_injective out h)

/-- The conversions for which `printf` takes an argument are among those of `vprintf`, and
are all of them when there are as many. -/
theorem convs_length (ps : List Piece) :
    (convs takenByPrintf ps).length ≤ (convs taken ps).length ∧
      ((convs takenByPrintf ps).length = (convs taken ps).length →
        ∀ c ∈ convs taken ps, c ∈ takenByPrintf) := by
  have hsub : ∀ {c}, c ∈ takenByPrintf → c ∈ taken := by
    intro c hc
    simp only [takenByPrintf, taken, List.mem_cons, List.not_mem_nil, or_false] at hc ⊢
    tauto
  induction ps with
  | nil => exact ⟨le_rfl, fun _ c hc => absurd hc List.not_mem_nil⟩
  | cons piece ps ih =>
    obtain ⟨hle, hall⟩ := ih
    cases piece with
    | lit c => exact ⟨hle, hall⟩
    | conv c =>
      rw [convs, convs]
      by_cases hc : c ∈ takenByPrintf
      · rw [if_pos hc, if_pos (hsub hc), List.length_cons, List.length_cons]
        refine ⟨by omega, fun heq => List.forall_mem_cons.mpr ⟨hc, hall (by omega)⟩⟩
      · rw [if_neg hc]
        split_ifs with hc'
        · rw [List.length_cons]
          exact ⟨by omega, fun heq => by omega⟩
        · exact ⟨hle, hall⟩

end Compare

/-- **`printf` and `fprintf` agree**, in the bytes and in the arguments they take, exactly
when the format asks for nothing but signed decimals, strings that are not null and
hexadecimal numbers without sign or letters. -/
theorem printf_eq_fprintf_iff {mem : UInt64 → Option (List UInt8)} {fmt : List UInt8}
    {args : List UInt64} (hne : fmt ≠ []) (hnul : 0 ∉ fmt)
    (hargs : List.Forall₂ (Fits mem) (convs taken (pieces fmt)) args) :
    printf mem fmt args = fprintf mem fmt args ↔
      List.Forall₂ Agrees (convs taken (pieces fmt)) args := by
  rw [printf, if_neg hne, fprintf, vprintf_eq_run,
    printfLoop_eq_run fmt fmt (List.drop_zero) (fun j hj => by cases hj) hnul]
  refine ⟨fun h => ?_, run_eq_of_agrees hargs⟩
  obtain ⟨hle, hall⟩ := convs_length (pieces fmt)
  refine agrees_of_run_eq hargs (hall ?_) h
  -- `vprintf` has used up the arguments
  obtain ⟨out, hout⟩ := run_vprintfConv hargs
  rw [hout] at h
  have hlen := length_of_run h
  rw [List.length_nil, zero_add] at hlen
  rw [hlen, hargs.length_eq]

/-- `"%s has %d bytes%%\n"` -/
theorem printf_eq_fprintf_demo :
    printf (fun _ => some [108, 115])
        [37, 115, 32, 104, 97, 115, 32, 37, 100, 32, 98, 121, 116, 101, 115, 37, 37, 10] [4096, 42]
      = fprintf (fun _ => some [108, 115])
        [37, 115, 32, 104, 97, 115, 32, 37, 100, 32, 98, 121, 116, 101, 115, 37, 37, 10]
        [4096, 42] := by
  refine (printf_eq_fprintf_iff (by decide) (by decide) ?_).mpr ?_
  · exact .cons (fun _ _ => rfl) (.cons (fun h => absurd h (by decide)) .nil)
  · exact .cons (.inr (.inr ⟨rfl, by decide⟩)) (.cons (.inl rfl) .nil)

/-- `"%l %d"`, as in `ls`: `printf` prints the `%l` as it stands and leaves the size where it
is, so that the next conversion takes it.  The size 7 and the number 5 are printed as
`%l 7` by `printf` and as `7 5` by `fprintf`. -/
theorem printf_skips_long :
    List.Forall₂ (Fits fun _ => none) (convs taken (pieces [37, 108, 32, 37, 100])) [7, 5] ∧
      printf (fun _ => none) [37, 108, 32, 37, 100] [7, 5] = some ([37, 108, 32, 55], [5]) ∧
      fprintf (fun _ => none) [37, 108, 32, 37, 100] [7, 5] = some ([55, 32, 53], []) := by
  refine ⟨?_, ?_, rfl⟩
  · exact .cons (fun h => absurd h (by decide)) (.cons (fun h => absurd h (by decide)) .nil)
  · have hseven : formatInt 10 (toInt 7) = [55] := by
      rw [← printint_signed]
      rfl
    show some ([37, 108] ++ ([32] ++ (formatInt 10 (toInt 7) ++ [])), [5]) = _
    rw [hseven]
    rfl

end UserPrintf

end Xv6Zig
