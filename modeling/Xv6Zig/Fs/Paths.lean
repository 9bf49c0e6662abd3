/-
Xv6Zig/Fs/Paths.lean

How path names are taken apart (`skipelem` and `namex` in `kernel/fs.c`).

The components of a path are the non-empty runs between slashes.  `skipelem` gives the
first of them and leaves a path with the others, which is empty if there are none: so
`namex` depends on the components only, and stops at the last one if the parent is asked
for.

In the kernel the name goes to an array of `DIRSIZ` bytes, whose other bytes stay as they
were.
-/
import Mathlib.Data.List.Basic
import Xv6Zig.Fs.Inode

namespace Xv6Zig

open Lib

variable {path name rest run : List UInt8}

/-- The maximal non-empty runs of bytes that are no slashes. -/
def components (path : List UInt8) : List (List UInt8) :=
  (path.splitOnP (· = slash)).filter (· ≠ [])

/-! ### One step -/

@[simp] theorem components_slash (path : List UInt8) :
    components (slash :: path) = components path := by
  unfold components
  rw [List.splitOnP_cons_eq_if_modifyHead, if_pos (by simp), List.filter_cons_of_neg (by simp)]

theorem components_dropWhile (path : List UInt8) :
    components (path.dropWhile (· = slash)) = components path := by
  induction path with
  | nil => rfl
  | cons c path ih =>
    rw [List.dropWhile_cons]
    split
    · rename_i hc
      rw [of_decide_eq_true hc, components_slash, ih]
    · rfl

theorem components_run (hne : run ≠ []) (hrun : slash ∉ run)
    (hrest : rest = [] ∨ ∃ l, rest = slash :: l) :
    components (run ++ rest) = run :: components rest := by
  have hall : ∀ x ∈ run, decide (x = slash) = false :=
    fun x hx => decide_eq_false fun heq => hrun (heq ▸ hx)
  unfold components
  rcases hrest with rfl | ⟨l, rfl⟩
  · rw [List.append_nil, List.splitOnP_eq_singleton hall, List.filter_cons_of_pos (by simpa using hne)]
    rfl
  · rw [List.splitOnP_append_cons_of_forall_mem hall slash (by simp), List.filter_cons_of_pos (by simpa using hne)]
    exact congrArg _ (components_slash l).symm

/-- `skipelem(path, name)` on the array `name`. -/
def skipelemInto (path name : List UInt8) : Option (List UInt8 × List UInt8) :=
  let path := path.dropWhile (· = slash)
  if path = [] then none
  else
    let s := path.takeWhile (· ≠ slash)
    let path := path.dropWhile (· ≠ slash)
    -- the array has `DIRSIZ` bytes
    some (if dirSiz ≤ s.length then s.take dirSiz else s ++ 0 :: name.drop (s.length + 1),
      path.dropWhile (· = slash))

/-- The array holds the first bytes of a run, with a null if there is room for it. -/
def HoldsName (name run : List UInt8) : Prop :=
  name.length = dirSiz ∧
    if run.length < dirSiz then run ++ [0] <+: name else name = run.take dirSiz

/-- What a step finds. -/
structure Skips (path rest run : List UInt8) : Prop where
  components : components path = run :: components rest
  shorter : rest.length < path.length
  last : rest = [] ↔ Xv6Zig.components rest = []

theorem dropWhile_head {p : UInt8 → Bool} {c : UInt8} {l : List UInt8}
    (h : path.dropWhile p = c :: l) : p c = false := by
  have hhead := List.head_dropWhile_not (p := p) (l := path) (by rw [h]; simp)
  simpa [h] using hhead

theorem components_ne_nil {c : UInt8} (hc : c ≠ slash) (l : List UInt8) :
    components (c :: l) ≠ [] := by
  unfold components
  rw [List.splitOnP_cons_eq_if_modifyHead, if_neg (by simpa using hc)]
  rcases hl : l.splitOnP (· = slash) with - | ⟨x, xs⟩
  · exact absurd hl (List.splitOnP_ne_nil _ _)
  · rw [List.modifyHead_cons, List.filter_cons_of_pos (by simp)]
    exact List.cons_ne_nil _ _

theorem holds_copy (run : List UInt8) (hname : name.length = dirSiz) :
    HoldsName (if dirSiz ≤ run.length then run.take dirSiz else run ++ 0 :: name.drop (run.length + 1))
      run := by
  unfold HoldsName
  by_cases hlen : dirSiz ≤ run.length
  · rw [if_pos hlen, if_neg (not_lt.mpr hlen), List.length_take, min_eq_left hlen]
    exact ⟨rfl, rfl⟩
  · rw [if_neg hlen, if_pos (not_le.mp hlen), List.length_append, List.length_cons, List.length_drop]
    refine ⟨by omega, name.drop (run.length + 1), ?_⟩
    rw [List.append_assoc, List.singleton_append]

/-- **One step** takes the first component, if there is one. -/
theorem skipelem_cases (path : List UInt8) (hname : name.length = dirSiz) :
    (skipelem path = none ∧ skipelemInto path name = none ∧ components path = []) ∨
      ∃ run rest name', skipelem path = some (run.take dirSiz, rest) ∧
        skipelemInto path name = some (name', rest) ∧ HoldsName name' run ∧ Skips path rest run := by
  unfold skipelem skipelemInto
  dsimp only
  rcases hq : path.dropWhile (· = slash) with - | ⟨c, l⟩
  · left
    rw [if_pos rfl, if_pos rfl, ← components_dropWhile, hq]
    exact ⟨rfl, rfl, rfl⟩
  · right
    have hc : c ≠ slash := by simpa using dropWhile_head hq
    rw [if_neg (List.cons_ne_nil _ _), if_neg (List.cons_ne_nil _ _)]
    generalize hrun : (c :: l).takeWhile (· ≠ slash) = run
    generalize htail : (c :: l).dropWhile (· ≠ slash) = tail
    have hsplit : run ++ tail = c :: l := by
      rw [← hrun, ← htail, List.takeWhile_append_dropWhile]
    have hne : run ≠ [] := by
      rw [← hrun, List.takeWhile_cons, if_pos (by simpa using hc)]
      exact List.cons_ne_nil _ _
    have hslash : slash ∉ run := by
      intro hin
      rw [← hrun] at hin
      simpa using List.mem_takeWhile_imp hin
    have hstart : tail = [] ∨ ∃ t, tail = slash :: t := by
      rcases tail with - | ⟨d, t⟩
      · exact .inl rfl
      · have hd : d = slash := by simpa using dropWhile_head htail
        exact .inr ⟨t, by rw [hd]⟩
    have hcut : (if dirSiz ≤ run.length then run.take dirSiz else run) = run.take dirSiz := by
      split
      · rfl
      · rename_i hlt
        exact (List.take_of_length_le (not_le.mp hlt).le).symm
    refine ⟨run, tail.dropWhile (· = slash), _, by rw [hcut], rfl, holds_copy run hname, ?_, ?_, ?_⟩
    · rw [← components_dropWhile, hq, ← hsplit, components_run hne hslash hstart,
        components_dropWhile]
    · have h₁ := (List.dropWhile_suffix (l := tail) (· = slash)).length_le
      have h₂ := (hq ▸ List.dropWhile_suffix (l := path) (· = slash) : (c :: l) <:+ path).length_le
      have h₃ := List.length_pos_of_ne_nil hne
      rw [← hsplit, List.length_append] at h₂
      omega
    · refine ⟨fun h => by rw [h]; rfl, fun h => ?_⟩
      rcases hrest : tail.dropWhile (· = slash) with - | ⟨d, t⟩
      · rfl
      · -- what is left begins with no slash
        have hd : d ≠ slash := by simpa using dropWhile_head hrest
        rw [hrest] at h
        exact absurd h (components_ne_nil hd t)

/-! ### All steps -/

/-- `skipelem` until it returns 0, at most the given number of times: the array and the rest of
the path after each step; `none` if that is not enough. -/
def skipAll : ℕ → List UInt8 → List UInt8 → Option (List (List UInt8 × List UInt8))
  | 0, _, _ => none
  | fuel + 1, path, name =>
      match skipelemInto path name with
      | none => some []
      | some (name, path) => (skipAll fuel path name).map ((name, path) :: ·)

/-- The steps give the components, one after the other. -/
theorem skipAll_spec {fuel : ℕ} (hfuel : path.length < fuel) (hname : name.length = dirSiz) :
    ∃ steps, skipAll fuel path name = some steps ∧
      List.Forall₂ (fun step run => HoldsName step.1 run) steps (components path) ∧
      ∀ i (hi : i < steps.length), steps[i].2 = [] ↔ i + 1 = steps.length := by
  induction fuel generalizing path name with
  | zero => exact absurd hfuel (Nat.not_lt_zero _)
  | succ fuel ih =>
    unfold skipAll
    rcases skipelem_cases path hname with ⟨-, hnone, hnil⟩ | ⟨run, rest, name', -, hsome, hholds, hskips⟩
    · rw [hnone, hnil]
      exact ⟨[], rfl, .nil, fun i hi => absurd hi (Nat.not_lt_zero i)⟩
    · have hshorter := hskips.shorter
      obtain ⟨steps, heq, hnames, hlast⟩ := ih (show rest.length < fuel by omega) hholds.1
      rw [hsome]
      dsimp only
      rw [heq, hskips.components]
      refine ⟨(name', rest) :: steps, rfl, .cons hholds hnames, fun i hi => ?_⟩
      cases i with
      | zero =>
        -- nothing is left if there are no more components
        show rest = [] ↔ _
        rw [hskips.last, List.length_cons, Nat.zero_add, eq_comm (a := 1), Nat.add_eq_right,
          hnames.length_eq, List.length_eq_zero_iff]
      | succ i =>
        rw [List.length_cons] at hi
        show steps[i].2 = [] ↔ _
        rw [hlast i (by omega), List.length_cons, Nat.add_right_cancel_iff]

namespace Fs

/-- `namex` on the names of the components. -/
def namexComponents (parent : Bool) :
    List (List UInt8) → Fs → ℕ → Except FsPanic (Option (ℕ × List UInt8) × Fs)
  | [], s, ip =>
      if parent then do
        let s ← s.iput ip
        .ok (none, s)
      else .ok (some (ip, []), s)
  | name :: names, s, ip => do
      let s ← s.ilock ip
      if (s.inode ip).copy.type ≠ tDir then do
        let s ← s.iunlockput ip
        .ok (none, s)
      else if parent ∧ names = [] then do
        let s ← s.iunlock ip
        .ok (some (ip, name), s)
      else do
        let (next, s) ← s.dirlookup ip name
        let s ← s.iunlockput ip
        match next with
        | none => .ok (none, s)
        | some (next, _) => namexComponents parent names s next

/-- The loop of `namex` runs over the components. -/
theorem namexLoop_eq (parent : Bool) {fuel : ℕ} (s : Fs) (ip : ℕ) (hfuel : path.length < fuel) :
    namexLoop parent fuel s ip path
      = namexComponents parent ((components path).map (·.take dirSiz)) s ip := by
  induction fuel generalizing path s ip with
  | zero => exact absurd hfuel (Nat.not_lt_zero _)
  | succ fuel ih =>
    unfold namexLoop
    rcases skipelem_cases path (List.length_replicate (a := 0)) with
      ⟨hnone, -, hnil⟩ | ⟨run, rest, -, hsome, -, -, hskips⟩
    · rw [hnone, hnil]
      rfl
    · have hshorter := hskips.shorter
      have hlast : rest = [] ↔ (components rest).map (·.take dirSiz) = [] := by
        rw [hskips.last, List.map_eq_nil_iff]
      rw [hsome, hskips.components, List.map_cons]
      unfold namexComponents
      dsimp only
      simp only [hlast]
      refine congrArg _ (funext fun s => ?_)
      split
      · rfl
      · split
        · rfl
        · refine congrArg _ (funext fun ⟨next, s⟩ => ?_)
          refine congrArg _ (funext fun s => ?_)
          cases next with
          | none => rfl
          | some next => exact ih s next.1 (by omega)

/-- `namex` on the components of the path. -/
def namexOn (s : Fs) (cwd : ℕ) (path : List UInt8) (parent : Bool) :
    Except FsPanic (Option (ℕ × List UInt8) × Fs) :=
  if path.headD 0 = slash then do
    let s ← s.iget rootIno
    namexComponents parent ((components path).map (·.take dirSiz)) s rootIno
  else
    namexComponents parent ((components path).map (·.take dirSiz)) (s.idup cwd) cwd

theorem namex_eq (s : Fs) (cwd : ℕ) (path : List UInt8) (parent : Bool) :
    s.namex cwd path parent = s.namexOn cwd path parent := by
  unfold namex namexOn
  simp only [namexLoop_eq parent _ _ (Nat.lt_succ_self path.length)]

/-- **Paths are split at their slashes.**  `skipelem` can be called until it returns 0; it gives
the components in order, cut to `DIRSIZ` bytes, with a null exactly if there is room; the
rest is empty exactly after the last one.  `namei` sees the components only, and so does
`nameiparent`, which stops at the last one. -/
theorem paths_split (path name : List UInt8) (hname : name.length = dirSiz) :
    (∃ steps, skipAll (path.length + 1) path name = some steps ∧
      List.Forall₂ (fun step run => HoldsName step.1 run) steps (components path) ∧
      ∀ i (hi : i < steps.length), steps[i].2 = [] ↔ i + 1 = steps.length) ∧
    ∀ (s : Fs) (cwd : ℕ), (∀ parent, s.namex cwd path parent = s.namexOn cwd path parent) ∧
      s.nameiparent cwd path = s.namexOn cwd path true ∧
      s.namei cwd path =
        (s.namexOn cwd path false).map fun found => (found.1.map Prod.fst, found.2) := by
  refine ⟨skipAll_spec (Nat.lt_succ_self _) hname, fun s cwd => ⟨s.namex_eq cwd path,
    s.namex_eq cwd path true, ?_⟩⟩
  unfold namei
  rw [namex_eq]
  rcases s.namexOn cwd path false with e | found <;> rfl

/-- `///a//bb` -/
theorem paths_split_slashes :
    ∃ steps, skipAll 9 [47, 47, 47, 97, 47, 47, 98, 98] (List.replicate 14 255) = some steps ∧
      List.Forall₂ (fun step run => HoldsName step.1 run) steps [[97], [98, 98]] := by
  obtain ⟨steps, heq, hnames, -⟩ :=
    (paths_split [47, 47, 47, 97, 47, 47, 98, 98] (List.replicate 14 255) (by decide)).1
  exact ⟨steps, heq, hnames⟩

end Fs

end Xv6Zig
