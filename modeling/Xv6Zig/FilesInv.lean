/-
Xv6Zig/FilesInv.lean

What holds of the open files between calls, and the pages of the system.

A file is referred to by descriptors and, in the middle of a call, by the
kernel's own variables.  `FilesOk s held` counts both: `held` are the
references that are in flight.  Every primitive moves one reference: `filealloc`
and `filedup` make one, `fdalloc` puts it into a descriptor, `fileclose` takes
it back.  A pipe has its page as long as a file refers to one of its ends.
-/
import Xv6Zig.Files
import Xv6Zig.Lib.Updates
import Xv6Zig.KernelRuns

namespace Xv6Zig

open Lib Function

namespace System

open Kernel (PipeKept)

variable {s s' : System} {held : Multiset FileIx} {f : FileIx} {p : ProcIx} {x : ProcIx × Fd}

/-! ### References -/

/-- The descriptors that refer to a file. -/
def refs (o : ProcIx × Fd → Option FileIx) (f : FileIx) : ℕ :=
  ∑ x, if o x = some f then 1 else 0

theorem refs_update (o : ProcIx × Fd → Option FileIx) (x : ProcIx × Fd) (v : Option FileIx)
    (f : FileIx) : refs (update o x v) f + (if o x = some f then 1 else 0)
      = refs o f + if v = some f then 1 else 0 :=
  sum_update_add (fun v => if v = some f then 1 else 0) o x v

theorem refs_pos_iff {o : ProcIx × Fd → Option FileIx} : 0 < refs o f ↔ ∃ x, o x = some f := by
  unfold refs
  rw [Nat.pos_iff_ne_zero, Ne, Finset.sum_eq_zero_iff]
  simp

/-- What holds of the files when the references `held` are in flight. -/
structure FilesOk (s : System) (held : Multiset FileIx) : Prop where
  ref : ∀ f, (s.ftable f).ref = refs s.ofile f + held.count f
  closed : ∀ f, (s.ftable f).ref = 0 → (s.ftable f).type = .none
  slot : ∀ x f, s.ofile x = some f → (s.ftable f).type ≠ .none
  piped : ∀ f, (s.ftable f).type = .pipe → (s.ftable f).pipe ∈ s.kernel.pipes ∧
    (s.ends (s.ftable f).pipe).isOpen (s.ftable f).writable = true
  one : ∀ f g, (s.ftable f).type = .pipe → (s.ftable g).type = .pipe →
    (s.ftable f).pipe = (s.ftable g).pipe → (s.ftable f).writable = (s.ftable g).writable → f = g
  opened : ∀ pa ∈ s.kernel.pipes, ∀ w, (s.ends pa).isOpen w = true →
    ∃ f, (s.ftable f).type = .pipe ∧ (s.ftable f).pipe = pa ∧ (s.ftable f).writable = w
  live : ∀ pa ∈ s.kernel.pipes, ∃ w, (s.ends pa).isOpen w = true
  idle : ∀ p fd, (s.kernel.procs p).state ≠ .live → s.ofile (p, fd) = none

namespace FilesOk

/-- Only the count of a file changes. -/
theorem of_ref (h : FilesOk s held) {held' : Multiset FileIx} {n : ℕ}
    (hself : n = refs s.ofile f + held'.count f)
    (hother : ∀ g ≠ f, held'.count g = held.count g)
    (hclosed : n = 0 → (s.ftable f).type = .none) :
    FilesOk (s.setFile f { s.ftable f with ref := n }) held' := by
  -- nothing else of a file is different
  have hsame : ∀ g, (s.setFile f { s.ftable f with ref := n }).ftable g
      = { s.ftable g with ref := if g = f then n else (s.ftable g).ref } := by
    intro g
    by_cases hg : g = f
    · simp [hg]
    · simp [hg]
  refine ⟨fun g => ?_, fun g => ?_, ?_, ?_, ?_, ?_, h.live, h.idle⟩
  · rw [hsame]
    by_cases hg : g = f
    · simpa [hg] using hself
    · simpa [hg, hother g hg] using h.ref g
  · rw [hsame]
    by_cases hg : g = f
    · simpa [hg] using hclosed
    · simpa [hg] using h.closed g
  · simpa only [hsame, setFile_ofile] using h.slot
  · simpa only [hsame, setFile_kernel, setFile_ends] using h.piped
  · simpa only [hsame] using h.one
  · simpa only [hsame, setFile_kernel, setFile_ends] using h.opened

theorem of_filealloc (h : FilesOk s held) (hr : s.filealloc = some (f, s')) :
    (s.ftable f).ref = 0 ∧ s' = s.setFile f { s.ftable f with ref := 1 } ∧
      FilesOk s' (f ::ₘ held) := by
  obtain ⟨f', hfind, heq⟩ := Option.map_eq_some_iff.mp hr
  obtain ⟨rfl, rfl⟩ := Prod.mk.inj heq
  have hzero : (s.ftable f').ref = 0 := by simpa using List.find?_some hfind
  refine ⟨hzero, rfl, h.of_ref ?_ ?_ (fun h => nomatch h)⟩
  · have href := h.ref f'
    rw [Multiset.count_cons_self]
    omega
  · intro g hg
    rw [Multiset.count_cons_of_ne hg]

theorem filedup_spec (h : FilesOk s held) (hf : (s.ftable f).ref ≠ 0) :
    s.filedup f = .ok (s.setFile f { s.ftable f with ref := (s.ftable f).ref + 1 }) ∧
      FilesOk (s.setFile f { s.ftable f with ref := (s.ftable f).ref + 1 }) (f ::ₘ held) := by
  constructor
  · unfold filedup
    rw [if_neg (by omega)]
  · refine h.of_ref ?_ ?_ (fun h => nomatch h)
    · rw [Multiset.count_cons_self, h.ref f]
      omega
    · intro g hg
      rw [Multiset.count_cons_of_ne hg]

/-- A reference goes into a descriptor that is free. -/
theorem setFd_some (h : FilesOk s (f ::ₘ held)) (hx : s.ofile x = none)
    (htype : (s.ftable f).type ≠ .none) (hlive : (s.kernel.procs x.1).state = .live) :
    FilesOk (s.setFd x (some f)) held := by
  refine ⟨fun g => ?_, h.closed, ?_, h.piped, h.one, h.opened, h.live, ?_⟩
  · have href := h.ref g
    have hcount := refs_update s.ofile x (some f) g
    rw [Multiset.count_cons] at href
    simp only [hx, reduceCtorEq, if_false, Option.some_inj, eq_comm (a := f)] at hcount
    rw [setFd_ftable, setFd_ofile]
    omega
  · intro y g hy
    show (s.ftable g).type ≠ .none
    by_cases hyx : y = x
    · have hfg : some f = some g := by simpa [hyx] using hy
      exact Option.some.inj hfg ▸ htype
    · exact h.slot y g (by simpa [hyx] using hy)
  · intro q fd hq
    have hne : (q, fd) ≠ x := by
      rintro rfl
      exact hq hlive
    simpa [hne] using h.idle q fd hq

/-- A reference is taken out of a descriptor. -/
theorem setFd_none (h : FilesOk s held) (hx : s.ofile x = some f) :
    FilesOk (s.setFd x none) (f ::ₘ held) := by
  refine ⟨fun g => ?_, h.closed, ?_, h.piped, h.one, h.opened, h.live, ?_⟩
  · have href := h.ref g
    have hcount := refs_update s.ofile x none g
    simp only [hx, reduceCtorEq, if_false, Option.some_inj, eq_comm (a := f)] at hcount
    rw [setFd_ftable, setFd_ofile, Multiset.count_cons]
    omega
  · intro y g hy
    by_cases hyx : y = x
    · simp [hyx] at hy
    · exact h.slot y g (by simpa [hyx] using hy)
  · intro q fd hq
    by_cases hqx : (q, fd) = x
    · simp [hqx]
    · simpa [hqx] using h.idle q fd hq

theorem of_fdalloc {fd : Fd} (hr : s.fdalloc p f = some (fd, s')) :
    s.ofile (p, fd) = none ∧ s' = s.setFd (p, fd) (some f) := by
  obtain ⟨fd', hfind, heq⟩ := Option.map_eq_some_iff.mp hr
  cases heq
  exact ⟨by simpa using List.find?_some hfind, rfl⟩

/-- The last reference to a file was in flight: no descriptor refers to it. -/
theorem ofile_ne (h : FilesOk s (f ::ₘ held)) (hone : (s.ftable f).ref = 1) (x : ProcIx × Fd) :
    s.ofile x ≠ some f := by
  intro hx
  have hpos := refs_pos_iff.mpr ⟨x, hx⟩
  have href := h.ref f
  rw [Multiset.count_cons_self] at href
  omega

/-- **One file changes and is no pipe's afterwards.**  `ends'` and `k'` are the ends
of pipes and the kernel after it; of an end of a pipe nothing else changes but
that it is closed, and that the page goes with the second end. -/
theorem of_file (h : FilesOk s held) {held' : Multiset FileIx} {file : File} {k' : Kernel}
    {ends' : ℕ → PipeEnds} (href : file.ref = refs s.ofile f + held'.count f)
    (hcount : ∀ g ≠ f, held'.count g = held.count g) (hpipe : file.type ≠ .pipe)
    (hclosed : file.ref = 0 → file.type = .none)
    (hslot : ∀ x, s.ofile x = some f → file.type ≠ .none) (hprocs : k'.procs = s.kernel.procs)
    (hpipes : ∀ pa, pa ∈ k'.pipes ↔ pa ∈ s.kernel.pipes ∧ ∃ w, (ends' pa).isOpen w = true)
    (hends : ∀ pa w, (ends' pa).isOpen w = true ↔ (s.ends pa).isOpen w = true ∧
      ¬ ((s.ftable f).type = .pipe ∧ (s.ftable f).pipe = pa ∧ (s.ftable f).writable = w)) :
    FilesOk { s.setFile f file with kernel := k', ends := ends' } held' := by
  have hself : update s.ftable f file f = file := update_self _ _ _
  have hne : ∀ {g}, g ≠ f → update s.ftable f file g = s.ftable g := fun hg => update_of_ne hg _ _
  -- a file that is still an end of a pipe is another one
  have hother : ∀ {g}, (update s.ftable f file g).type = .pipe →
      g ≠ f ∧ (s.ftable g).type = .pipe := by
    intro g hg
    by_cases hgf : g = f
    · rw [hgf, hself] at hg
      exact absurd hg hpipe
    · rw [hne hgf] at hg
      exact ⟨hgf, hg⟩
  refine ⟨fun g => ?_, fun g => ?_, fun x g hx => ?_, fun g hg => ?_, fun g g' hg hg' => ?_,
    fun pa hpa w hw => ?_, fun pa hpa => ((hpipes pa).mp hpa).2, ?_⟩
  · simp only [setFile_ftable, setFile_ofile]
    by_cases hg : g = f
    · rw [hg, hself, href]
    · rw [hne hg, h.ref g, hcount g hg]
  · simp only [setFile_ftable]
    by_cases hg : g = f
    · rw [hg, hself]
      exact hclosed
    · rw [hne hg]
      exact h.closed g
  · simp only [setFile_ftable]
    by_cases hg : g = f
    · rw [hg, hself]
      exact hslot x (hg ▸ hx)
    · rw [hne hg]
      exact h.slot x g hx
  · obtain ⟨hgf, htype⟩ := hother hg
    simp only [setFile_ftable, hne hgf]
    obtain ⟨hmem, hopen⟩ := h.piped g htype
    have hopen' : (ends' (s.ftable g).pipe).isOpen (s.ftable g).writable = true := by
      refine (hends _ _).mpr ⟨hopen, ?_⟩
      rintro ⟨ht, hp, hw⟩
      exact hgf (h.one f g ht htype hp hw).symm
    exact ⟨(hpipes _).mpr ⟨hmem, _, hopen'⟩, hopen'⟩
  · obtain ⟨hgf, htype⟩ := hother hg
    obtain ⟨hgf', htype'⟩ := hother hg'
    simp only [setFile_ftable, hne hgf, hne hgf']
    exact h.one g g' htype htype'
  · obtain ⟨hopen, hnot⟩ := (hends pa w).mp hw
    obtain ⟨g, htype, hp, hgw⟩ := h.opened pa ((hpipes pa).mp hpa).1 w hopen
    have hgf : g ≠ f := by
      rintro rfl
      exact hnot ⟨htype, hp, hgw⟩
    refine ⟨g, ?_⟩
    simp only [setFile_ftable, hne hgf]
    exact ⟨htype, hp, hgw⟩
  · simpa only [hprocs, setFile_ofile] using h.idle

end FilesOk

/-! ### Closing -/

/-- Only files, ends of pipes and pages of pipes have changed. -/
structure FileKept (s s' : System) : Prop where
  kernel : PipeKept s.kernel s'.kernel
  ofile : s'.ofile = s.ofile

theorem isOpen_update (s : System) (pa : ℕ) (w : Bool) (pa' : ℕ) (w' : Bool) :
    (update s.ends pa ((s.ends pa).close w) pa').isOpen w' = true ↔
      (s.ends pa').isOpen w' = true ∧ ¬ (pa = pa' ∧ w = w') := by
  by_cases hpa : pa' = pa
  · subst hpa
    by_cases hw : w = w'
    · simp [hw]
    · simp [hw]
  · simp [hpa, Ne.symm hpa]

theorem pipeclose_spec (hinv : Kernel.Inv s.kernel) {pa : ℕ} (hpa : pa ∈ s.kernel.pipes)
    (w : Bool) :
    ∃ k', s.pipeclose pa w = .ok { s with
        kernel := k', ends := update s.ends pa ((s.ends pa).close w) } ∧
      PipeKept s.kernel k' ∧ ∀ pa', pa' ∈ k'.pipes ↔ pa' ∈ s.kernel.pipes ∧
        (pa' = pa → ∃ w', ((s.ends pa).close w).isOpen w' = true) := by
  unfold pipeclose
  simp only
  split_ifs with hboth
  · -- the page goes with the second end
    obtain ⟨k', hr, hkept, hpipes⟩ := Kernel.pipeclose_spec hinv hpa
    refine ⟨k', by rw [hr]; rfl, hkept, fun pa' => ?_⟩
    have hnodup : s.kernel.pipes.Nodup := hinv.nodup_pipes
    rw [hpipes, hnodup.mem_erase_iff]
    constructor
    · rintro ⟨hne, hmem⟩
      exact ⟨hmem, fun heq => absurd heq hne⟩
    · rintro ⟨hmem, hopen⟩
      refine ⟨fun heq => ?_, hmem⟩
      obtain ⟨w', hw'⟩ := hopen heq
      cases w' with
      | false => simp [PipeEnds.isOpen, hboth.1] at hw'
      | true => simp [PipeEnds.isOpen, hboth.2] at hw'
  · refine ⟨s.kernel, rfl, PipeKept.refl hinv, fun pa' => ⟨fun hmem => ⟨hmem, fun _ => ?_⟩,
      fun h => h.1⟩⟩
    by_cases hread : ((s.ends pa).close w).readopen = true
    · exact ⟨false, hread⟩
    · rw [not_and_or] at hboth
      refine ⟨true, ?_⟩
      rcases hboth with h | h
      · exact absurd (Bool.eq_true_of_not_eq_false h) hread
      · exact Bool.eq_true_of_not_eq_false h

/-- **Closing a reference that is in flight.** -/
theorem fileclose_spec (hinv : Kernel.Inv s.kernel) (h : FilesOk s (f ::ₘ held)) :
    ∃ s', s.fileclose f = .ok s' ∧ FilesOk s' held ∧ FileKept s s' := by
  have href := h.ref f
  rw [Multiset.count_cons_self] at href
  unfold fileclose
  simp only
  rw [if_neg (by omega)]
  split_ifs with hmany
  · refine ⟨_, rfl, h.of_ref ?_ ?_ (fun hzero => absurd hzero (by omega)), PipeKept.refl hinv, rfl⟩
    · omega
    · intro g hg
      rw [Multiset.count_cons_of_ne hg]
  · have hone : (s.ftable f).ref = 1 := by omega
    have hzero : 0 = refs s.ofile f + held.count f := by omega
    have hcount : ∀ g ≠ f, held.count g = (f ::ₘ held).count g := fun g hg =>
      (Multiset.count_cons_of_ne hg held).symm
    have hslot : ∀ x, s.ofile x = some f → FdType.none ≠ .none := fun x hx =>
      absurd hx (h.ofile_ne hone x)
    by_cases htype : (s.ftable f).type = .pipe
    · obtain ⟨k', hr, hkept, hpipes⟩ := pipeclose_spec
        (s := s.setFile f { s.ftable f with ref := 0, type := .none }) hinv (h.piped f htype).1
        (s.ftable f).writable
      refine ⟨_, by rw [htype]; exact hr, h.of_file hzero hcount (by simp)
        (fun _ => rfl) hslot hkept.procs ?_ ?_, hkept, rfl⟩
      · intro pa
        rw [hpipes pa]
        simp only [setFile_kernel, setFile_ends]
        refine and_congr_right fun hmem => ?_
        by_cases hpa : pa = (s.ftable f).pipe
        · simp [hpa]
        · simpa [hpa] using h.live pa hmem
      · intro pa w
        simp only [setFile_ends, isOpen_update, htype, true_and]
    · refine ⟨s.setFile f { s.ftable f with ref := 0, type := .none }, ?_, ?_, PipeKept.refl hinv,
        rfl⟩
      · cases ht : (s.ftable f).type with
        | pipe => exact absurd ht htype
        | _ => rfl
      · refine h.of_file hzero hcount (by simp) (fun _ => rfl) hslot rfl ?_ ?_
        · exact fun pa => ⟨fun hmem => ⟨hmem, h.live pa hmem⟩, fun hmem => hmem.1⟩
        · simp [htype]

/-! ### Opening -/

namespace FilesOk

/-- A file that is no pipe's gets another type than that. -/
theorem of_type (h : FilesOk s held) {file : File} (hnot : (s.ftable f).type ≠ .pipe)
    (href : file.ref = (s.ftable f).ref) (hpos : file.ref ≠ 0) (hpipe : file.type ≠ .pipe)
    (hnone : file.type ≠ .none) : FilesOk (s.setFile f file) held := by
  refine h.of_file (href.trans (h.ref f)) (fun _ _ => rfl) hpipe (fun hzero => absurd hzero hpos)
    (fun _ _ => hnone) rfl (fun pa => ⟨fun hmem => ⟨hmem, h.live pa hmem⟩, And.left⟩) ?_
  simp [hnot]

/-- A file that is new has no type yet. -/
theorem type_of_filealloc (h : FilesOk s held) (hr : s.filealloc = some (f, s')) :
    (s'.ftable f).type = .none ∧ (s'.ftable f).ref = 1 := by
  obtain ⟨hzero, rfl, -⟩ := h.of_filealloc hr
  simp [h.closed f hzero]

end FilesOk

/-- Two files that are the ends of a new pipe. -/
structure FreshPipe (s : System) (rf wf : FileIx) (pi : ℕ) : Prop where
  ne : rf ≠ wf
  rf : s.ftable rf = ⟨.pipe, 1, true, false, pi⟩
  wf : s.ftable wf = ⟨.pipe, 1, false, true, pi⟩
  ends : s.ends pi = ⟨true, true⟩

/-- The files of a new pipe, whose page is `pi`. -/
theorem FilesOk.of_pair (h : FilesOk s held) {f0 f1 : FileIx} (hne : f0 ≠ f1)
    (h0 : (s.ftable f0).type = .none ∧ (s.ftable f0).ref = 1)
    (h1 : (s.ftable f1).type = .none ∧ (s.ftable f1).ref = 1) {pi : ℕ} {k' : Kernel}
    (hprocs : k'.procs = s.kernel.procs) (hpipes : k'.pipes = pi :: s.kernel.pipes)
    (hnew : pi ∉ s.kernel.pipes) (hs' : s' = { s with
      kernel := k'
      ftable := update (update s.ftable f0 ⟨.pipe, 1, true, false, pi⟩) f1
        ⟨.pipe, 1, false, true, pi⟩
      ends := update s.ends pi ⟨true, true⟩ }) :
    FilesOk s' held ∧ FreshPipe s' f0 f1 pi := by
  have hf0 : s'.ftable f0 = ⟨.pipe, 1, true, false, pi⟩ := by simp [hs', hne]
  have hf1 : s'.ftable f1 = ⟨.pipe, 1, false, true, pi⟩ := by simp [hs']
  have hwhich : ∀ g, g = f0 ∨ g = f1 ∨ s'.ftable g = s.ftable g := by
    intro g
    by_cases hg0 : g = f0
    · exact .inl hg0
    by_cases hg1 : g = f1
    · exact .inr (.inl hg1)
    exact .inr (.inr (by simp [hs', hg0, hg1]))
  have hends : s'.ends pi = ⟨true, true⟩ := by simp [hs']
  have hends' : ∀ pa ∈ s.kernel.pipes, s'.ends pa = s.ends pa := by
    intro pa hpa
    have hpi : pa ≠ pi := fun heq => hnew (heq ▸ hpa)
    simp [hs', hpi]
  have hmem : ∀ pa, pa ∈ s'.kernel.pipes ↔ pa = pi ∨ pa ∈ s.kernel.pipes := by
    intro pa
    rw [hs']
    simp [hpipes]
  -- what a file is: one of the two, or an end of another pipe
  have hcases : ∀ g, (s'.ftable g).type = .pipe → g = f0 ∨ g = f1 ∨
      s'.ftable g = s.ftable g ∧ (s.ftable g).type = .pipe ∧ (s.ftable g).pipe ≠ pi := by
    intro g hg
    refine (hwhich g).imp_right fun hrest => hrest.imp_right fun hsame => ?_
    rw [hsame] at hg
    exact ⟨hsame, hg, fun heq => hnew (heq ▸ (h.piped g hg).1)⟩
  refine ⟨⟨fun g => ?_, fun g => ?_, fun x g hx => ?_, fun g hg => ?_, fun g g' hg hg' => ?_,
    fun pa hpa w hw => ?_, fun pa hpa => ?_, ?_⟩, hne, hf0, hf1, hends⟩
  · have hofile : s'.ofile = s.ofile := by rw [hs']
    have href := h.ref g
    rw [hofile, ← href]
    rcases hwhich g with rfl | rfl | hsame
    · rw [hf0, h0.2]
    · rw [hf1, h1.2]
    · rw [hsame]
  · rcases hwhich g with rfl | rfl | hsame
    · simp [hf0]
    · simp [hf1]
    · rw [hsame]
      exact h.closed g
  · have hx' : s.ofile x = some g := by rwa [hs'] at hx
    rcases hwhich g with rfl | rfl | hsame
    · simp [hf0]
    · simp [hf1]
    · rw [hsame]
      exact h.slot x g hx'
  · rw [hmem]
    rcases hcases g hg with rfl | rfl | ⟨hsame, htype, -⟩
    · simp [hf0, hends, PipeEnds.isOpen]
    · simp [hf1, hends, PipeEnds.isOpen]
    · obtain ⟨hin, hopen⟩ := h.piped g htype
      rw [hsame, hends' _ hin]
      exact ⟨.inr hin, hopen⟩
  · rcases hcases g hg with rfl | rfl | ⟨hsame, htype, hpi⟩ <;>
      rcases hcases g' hg' with rfl | rfl | ⟨hsame', htype', hpi'⟩
    · exact fun _ _ => rfl
    · simp [hf0, hf1]
    · rw [hf0, hsame']
      exact fun heq => absurd heq.symm hpi'
    · simp [hf0, hf1]
    · exact fun _ _ => rfl
    · rw [hf1, hsame']
      exact fun heq => absurd heq.symm hpi'
    · rw [hf0, hsame]
      exact fun heq => absurd heq hpi
    · rw [hf1, hsame]
      exact fun heq => absurd heq hpi
    · rw [hsame, hsame']
      exact h.one g g' htype htype'
  · rcases (hmem pa).mp hpa with rfl | hpa
    · cases w with
      | false => exact ⟨f0, by simp [hf0]⟩
      | true => exact ⟨f1, by simp [hf1]⟩
    · rw [hends' pa hpa] at hw
      obtain ⟨g, htype, hpw⟩ := h.opened pa hpa w hw
      rcases hwhich g with rfl | rfl | hsame
      · cases h0.1.symm.trans htype
      · cases h1.1.symm.trans htype
      · exact ⟨g, by rw [hsame]; exact ⟨htype, hpw⟩⟩
  · rcases (hmem pa).mp hpa with rfl | hpa
    · exact ⟨false, by rw [hends]; rfl⟩
    · rw [hends' pa hpa]
      exact h.live pa hpa
  · rw [hs']
    simpa only [hprocs] using h.idle

/-- Closing a file that is no pipe's leaves the memory alone. -/
theorem fileclose_kernel (htype : (s.ftable f).type ≠ .pipe) (hr : s.fileclose f = .ok s') :
    s'.kernel = s.kernel ∧ ∀ g ≠ f, s'.ftable g = s.ftable g := by
  unfold fileclose at hr
  simp only at hr
  split_ifs at hr
  · cases hr
    exact ⟨rfl, fun g hg => update_of_ne hg _ _⟩
  · cases ht : (s.ftable f).type with
    | pipe => exact absurd ht htype
    | _ =>
      cases hr
      exact ⟨rfl, fun g hg => update_of_ne hg _ _⟩

/-- **`pipealloc`.** -/
theorem pipealloc_spec (hinv : Kernel.Inv s.kernel) (h : FilesOk s held) :
    (∃ s', s.pipealloc = .ok (s', none) ∧ FilesOk s' held ∧ s'.ofile = s.ofile ∧
        s'.kernel = s.kernel) ∨
      ∃ s' rf wf pi, s.pipealloc = .ok (s', some (rf, wf)) ∧ FilesOk s' (rf ::ₘ wf ::ₘ held) ∧
        s'.ofile = s.ofile ∧ PipeKept s.kernel s'.kernel ∧ FreshPipe s' rf wf pi ∧
        s'.kernel.pipes = pi :: s.kernel.pipes := by
  unfold pipealloc
  rcases hr0 : s.filealloc with - | ⟨f0, s₁⟩
  · exact .inl ⟨s, rfl, h, rfl, rfl⟩
  obtain ⟨-, hs₁, h₁⟩ := h.of_filealloc hr0
  have ht0 := h.type_of_filealloc hr0
  have hk₁ : s₁.kernel = s.kernel := by rw [hs₁]; rfl
  have ho₁ : s₁.ofile = s.ofile := by rw [hs₁]; rfl
  simp only
  rcases hr1 : s₁.filealloc with - | ⟨f1, s₂⟩
  · -- one file only
    obtain ⟨s', hr, hok, hkept⟩ := fileclose_spec (hk₁ ▸ hinv) h₁
    obtain ⟨hk, -⟩ := fileclose_kernel (by rw [ht0.1]; decide) hr
    exact .inl ⟨s', by simp only [hr, ok_bind], hok, hkept.ofile.trans ho₁, hk.trans hk₁⟩
  obtain ⟨hz1, hs₂, h₂⟩ := h₁.of_filealloc hr1
  have ht1 := h₁.type_of_filealloc hr1
  have hk₂ : s₂.kernel = s.kernel := by rw [hs₂]; exact hk₁
  have ho₂ : s₂.ofile = s.ofile := by rw [hs₂]; exact ho₁
  have hne : f0 ≠ f1 := by
    rintro rfl
    rw [ht0.2] at hz1
    cases hz1
  have ht0' : (s₂.ftable f0).type = .none ∧ (s₂.ftable f0).ref = 1 := by
    rw [hs₂, setFile_ftable, update_of_ne hne]
    exact ht0
  have hswap : f1 ::ₘ f0 ::ₘ held = f0 ::ₘ f1 ::ₘ held := Multiset.cons_swap f1 f0 held
  rw [hswap] at h₂
  simp only
  rcases halloc : s₂.kernel.mem.allocPage with - | ⟨pi, m⟩
  · -- no page
    obtain ⟨s₃, hr₃, hok₃, hkept₃⟩ := fileclose_spec (hk₂ ▸ hinv) h₂
    obtain ⟨hk₃, hrest⟩ := fileclose_kernel (by rw [ht0'.1]; decide) hr₃
    obtain ⟨s', hr, hok, hkept⟩ := fileclose_spec (by rw [hk₃, hk₂]; exact hinv) hok₃
    obtain ⟨hk, -⟩ := fileclose_kernel (by rw [hrest f1 hne.symm, ht1.1]; decide) hr
    exact .inl ⟨s', by simp only [hr₃, hr, ok_bind], hok, (hkept.ofile.trans hkept₃.ofile).trans ho₂,
      (hk.trans hk₃).trans hk₂⟩
  · have hkept := (show Kernel.Inv s₂.kernel from hk₂ ▸ hinv).of_pipealloc halloc
    have hnew : pi ∉ s₂.kernel.pipes := (List.nodup_cons.mp hkept.inv.nodup_pipes).1
    obtain ⟨hok, hfresh⟩ := h₂.of_pair hne ht0' ht1 hkept.procs rfl hnew rfl
    refine .inr ⟨_, f0, f1, pi, ?_, hok, ho₂, hk₂ ▸ hkept, hfresh, by rw [← hk₂]⟩
    simp only [setFile, update_of_ne hne.symm, ht0'.2, ht1.2]

end System

end Xv6Zig
