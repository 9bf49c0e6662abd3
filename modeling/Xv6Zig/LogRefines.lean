/-
Xv6Zig/LogRefines.lean

The log implements a disk with atomic groups of updates.

`Refines` ties the machine of `LogCrash` to its specification.  On disk, the
log header names the blocks whose durable contents are in the log and not
(or not surely) at home; every other home block is durable where it is.  In
memory, a cached home block that nobody is changing holds what operations
see.  Between the commit points of two groups the header is empty, and the
blocks of the open group are pinned in the cache.

`refines_step` carries this over each of the seventeen kinds of step.  The
writes are checked one at a time: a log block may be written while the header
is empty (`DiskOk.writeLog`), the header once the log blocks are there
(`DiskOk.commit`), a home block while the header names it (`DiskOk.install`),
and the header again once all of them are home (`DiskOk.clear`).
-/
import Xv6Zig.LogCrash

namespace Xv6Zig.LogCrash

open Function

/-! ### The invariant -/

/-- The buffer's data was changed and not log_written since. -/
def Dirty (s : State) (b : ℕ) : Prop :=
  ∃ op, s.holder b = some (op, true)

/-- What recovery needs of the disk: the log header names distinct home
blocks, the log blocks hold their durable contents, and so does every other
home block. -/
structure DiskOk (l : Log) (disk : ℕ → Block) (durable : ℕ → Block) : Prop where
  nodup : (readHead (disk l.start)).Nodup
  home : ∀ b ∈ readHead (disk l.start), Home l b
  fits : (readHead (disk l.start)).length < l.size
  logged : ∀ i b, (readHead (disk l.start))[i]? = some b → disk (l.start + i + 1) = durable b
  rest : ∀ b, Home l b → b ∉ readHead (disk l.start) → disk b = durable b

/-- The cache holds the disk's log blocks, and `seen` of every home block
that is not being changed. -/
structure CacheOk (s : State) (seen : ℕ → Block) : Prop where
  logArea : ∀ b d, ¬ Home s.log b → s.cache b = some d → d = s.disk b
  home : ∀ b d, Home s.log b → ¬ Dirty s b → s.cache b = some d → d = seen b

/-- No group is committed on disk; the open group's blocks are in the cache. -/
structure Open (s : State) (a : Spec) : Prop where
  cache : CacheOk s a.current
  head : readHead (s.disk s.log.start) = []
  nodup : s.log.lh.Nodup
  home : ∀ b ∈ s.log.lh, Home s.log b
  fits : s.log.lh.length < s.log.size
  bound : s.log.lh.length ≤ logSize
  cached : ∀ b ∈ s.log.lh, s.cache b ≠ none
  same : ∀ b, Home s.log b → b ∉ s.log.lh → a.current b = a.durable b

/-- A group is committed on disk and its first `tail` blocks are installed. -/
structure Installing (s : State) (a : Spec) (tail : ℕ) : Prop where
  head : readHead (s.disk s.log.start) = s.log.lh
  tail_le : tail ≤ s.log.lh.length
  installed : ∀ i b, i < tail → s.log.lh[i]? = some b → s.disk b = a.durable b
  same : a.current = a.durable

/-- What holds in each phase. -/
def PhaseOk (s : State) (a : Spec) : Phase → Prop
  | .down => a.current = a.durable ∧ (∀ b, s.cache b = none) ∧ ∀ b, s.holder b = none
  | .recovering tail => Installing s a tail ∧ CacheOk s s.disk ∧ ∀ b, s.holder b = none
  | .running => Open s a
  | .writeLog tail => Open s a ∧ tail ≤ s.log.lh.length ∧
      ∀ i b, i < tail → s.log.lh[i]? = some b → s.disk (s.log.start + i + 1) = a.current b
  | .install tail => Installing s a tail ∧ CacheOk s a.durable ∧
      ∀ b ∈ s.log.lh.drop tail, s.cache b ≠ none
  | .committed => Open s a ∧ s.log.lh = []

/-- The machine implements the specification's disk. -/
structure Refines (sb : Superblock) (s : State) (a : Spec) : Prop where
  start : s.log.start = sb.logstart
  nlog : s.log.size = sb.nlog
  size : 0 < s.log.size
  held : ∀ b, s.holder b ≠ none → Home s.log b
  disk : DiskOk s.log s.disk a.durable
  phase : PhaseOk s a s.phase

variable {sb : Superblock} {s t : State} {a a' : Spec} {seen seen' : ℕ → Block}

/-! #### The log area -/

theorem start_not_home {l : Log} (hsize : 0 < l.size) : ¬ Home l l.start := by
  unfold Home
  omega

theorem logBlock_not_home {l : Log} {i : ℕ} (hi : i + 1 < l.size) :
    ¬ Home l (l.start + i + 1) := by
  unfold Home
  omega

theorem DiskOk.congr {l l' : Log} {disk durable : ℕ → Block} (h : DiskOk l disk durable)
    (hstart : l'.start = l.start) (hsize : l'.size = l.size) : DiskOk l' disk durable := by
  have hhome : ∀ b, Home l' b ↔ Home l b := fun b => by
    unfold Home
    rw [hstart, hsize]
  refine ⟨?_, ?_, ?_, ?_, ?_⟩
  · rw [hstart]
    exact h.nodup
  · intro b hb
    rw [hstart] at hb
    exact (hhome b).mpr (h.home b hb)
  · rw [hstart, hsize]
    exact h.fits
  · intro i b hb
    rw [hstart] at hb ⊢
    exact h.logged i b hb
  · intro b hb hmem
    rw [hstart] at hmem
    exact h.rest b ((hhome b).mp hb) hmem

/-- A write that leaves the header alone. -/
theorem DiskOk.keep_head {l : Log} {disk durable : ℕ → Block} (h : DiskOk l disk durable) {b : ℕ}
    (hne : l.start ≠ b) (d : Block)
    (hlogged : ∀ i x, (readHead (disk l.start))[i]? = some x → l.start + i + 1 ≠ b)
    (hrest : ∀ x, Home l x → x ∉ readHead (disk l.start) → x ≠ b) :
    DiskOk l (update disk b d) durable := by
  have hhead : update disk b d l.start = disk l.start := update_of_ne hne _ _
  refine ⟨hhead ▸ h.nodup, hhead ▸ h.home, hhead ▸ h.fits, ?_, ?_⟩
  · intro i x hx
    rw [hhead] at hx
    rw [update_of_ne (hlogged i x hx)]
    exact h.logged i x hx
  · intro x hx hmem
    rw [hhead] at hmem
    rw [update_of_ne (hrest x hx hmem)]
    exact h.rest x hx hmem

/-- A write to a home block that the header names keeps the disk
recoverable, whatever is written. -/
theorem DiskOk.install {l : Log} {disk durable : ℕ → Block} (h : DiskOk l disk durable)
    (hsize : 0 < l.size) {b : ℕ} (hb : b ∈ readHead (disk l.start)) (d : Block) :
    DiskOk l (update disk b d) durable := by
  have hfits := h.fits
  apply h.keep_head
  · exact fun heq => start_not_home hsize (heq ▸ h.home b hb)
  · intro i x hx heq
    have hi := (List.getElem?_eq_some_iff.mp hx).1
    exact logBlock_not_home (by omega) (heq ▸ h.home b hb)
  · exact fun x _ hmem heq => hmem (heq ▸ hb)

/-- With an empty header the log blocks are free to be written. -/
theorem DiskOk.writeLog {l : Log} {disk durable : ℕ → Block} (h : DiskOk l disk durable)
    (hhead : readHead (disk l.start) = []) {b : ℕ} (hb : ¬ Home l b) (hne : l.start ≠ b)
    (d : Block) : DiskOk l (update disk b d) durable := by
  apply h.keep_head hne
  · intro i x hx
    rw [hhead] at hx
    cases hx
  · exact fun x hx _ heq => hb (heq ▸ hx)

/-- Writing the header makes a group durable whose blocks are in the log, when all
the others are at home. -/
theorem DiskOk.commit {l : Log} {disk current : ℕ → Block} {lh : List ℕ} (hnodup : lh.Nodup)
    (hhome : ∀ b ∈ lh, Home l b) (hfits : lh.length < l.size)
    (hlogged : ∀ i b, lh[i]? = some b → disk (l.start + i + 1) = current b)
    (hrest : ∀ b, Home l b → b ∉ lh → disk b = current b) {d : Block} (hd : readHead d = lh) :
    DiskOk l (update disk l.start d) current := by
  have hhead : readHead (update disk l.start d l.start) = lh := by
    rw [update_self, hd]
  refine ⟨hhead.symm ▸ hnodup, hhead.symm ▸ hhome, hhead.symm ▸ hfits, ?_, ?_⟩
  · intro i b hb
    rw [hhead] at hb
    rw [update_of_ne (by omega)]
    exact hlogged i b hb
  · intro b hb hmem
    rw [hhead] at hmem
    have hne : b ≠ l.start := fun heq => start_not_home (by omega) (heq ▸ hb)
    rw [update_of_ne hne]
    exact hrest b hb hmem

/-- Once every named block is installed the header can be cleared. -/
theorem DiskOk.clear {l : Log} {disk durable : ℕ → Block} (h : DiskOk l disk durable)
    (hsize : 0 < l.size) (hall : ∀ b ∈ readHead (disk l.start), disk b = durable b)
    {d : Block} (hd : readHead d = []) : DiskOk l (update disk l.start d) durable := by
  refine DiskOk.commit List.nodup_nil (fun b hb => absurd hb List.not_mem_nil) hsize
    (fun i b hb => by cases hb) (fun b hb _ => ?_) hd
  by_cases hmem : b ∈ readHead (disk l.start)
  · exact hall b hmem
  · exact h.rest b hb hmem

/-! #### The cache -/

/-- A step that touches only block `b` need only be checked there. -/
theorem CacheOk.touch (h : CacheOk s seen) (b : ℕ)
    (hstart : t.log.start = s.log.start) (hsize : t.log.size = s.log.size)
    (hout : ∀ x, x ≠ b → t.cache x = s.cache x ∧ t.holder x = s.holder x ∧ t.disk x = s.disk x ∧
      seen' x = seen x)
    (hlog : ∀ d, ¬ Home s.log b → t.cache b = some d → d = t.disk b)
    (hhome : ∀ d, Home s.log b → ¬ Dirty t b → t.cache b = some d → d = seen' b) :
    CacheOk t seen' := by
  have hiff : ∀ x, Home t.log x ↔ Home s.log x := fun x => by
    unfold Home
    rw [hstart, hsize]
  constructor
  · intro x d hx hd
    rw [hiff] at hx
    by_cases hxb : x = b
    · subst hxb
      exact hlog d hx hd
    · obtain ⟨hcache, -, hdisk, -⟩ := hout x hxb
      rw [hcache] at hd
      rw [hdisk]
      exact h.logArea x d hx hd
  · intro x d hx hclean hd
    rw [hiff] at hx
    by_cases hxb : x = b
    · subst hxb
      exact hhome d hx hclean hd
    · obtain ⟨hcache, hholder, -, hseen⟩ := hout x hxb
      rw [hcache] at hd
      rw [hseen]
      refine h.home x d hx ?_ hd
      unfold Dirty at hclean ⊢
      rwa [hholder] at hclean

theorem CacheOk.contents_logArea (h : CacheOk s seen) {b : ℕ} (hb : ¬ Home s.log b) :
    contents s b = s.disk b := by
  unfold contents
  rcases hd : s.cache b with - | d
  · rfl
  · exact h.logArea b d hb hd

theorem CacheOk.contents_home (h : CacheOk s seen) {b : ℕ} (hb : Home s.log b)
    (hclean : ¬ Dirty s b) (hdisk : s.cache b = none → s.disk b = seen b) :
    contents s b = seen b := by
  unfold contents
  rcases hd : s.cache b with - | d
  · exact hdisk hd
  · exact h.home b d hb hclean hd

theorem not_dirty_of_holder_none {b : ℕ} (h : s.holder b = none) : ¬ Dirty s b := by
  rintro ⟨op, hop⟩
  rw [h] at hop
  cases hop

theorem CacheOk.fill (h : CacheOk s seen) (b : ℕ)
    (hdisk : Home s.log b → s.cache b = none → s.disk b = seen b) :
    CacheOk (bread s b) seen := by
  refine h.touch b rfl rfl (fun x hx => ⟨update_of_ne hx _ _, rfl, rfl, rfl⟩) ?_ ?_
  · intro d hb hd
    obtain rfl : contents s b = d := by simpa [bread] using hd
    exact h.contents_logArea hb
  · intro d hb hclean hd
    obtain rfl : contents s b = d := by simpa [bread] using hd
    exact h.contents_home hb hclean (hdisk hb)

theorem CacheOk.evict (h : CacheOk s seen) (b : ℕ) :
    CacheOk { s with cache := update s.cache b none } seen := by
  refine h.touch b rfl rfl (fun x hx => ⟨update_of_ne hx _ _, rfl, rfl, rfl⟩) ?_ ?_
  · intro d _ hd
    simp at hd
  · intro d _ _ hd
    simp at hd

theorem CacheOk.bwrite_logArea (h : CacheOk s seen) {b : ℕ} (hb : ¬ Home s.log b) (d : Block)
    (p : Phase) : CacheOk { bwrite s b d with phase := p } seen := by
  refine h.touch b rfl rfl (fun x hx => ⟨update_of_ne hx _ _, rfl, update_of_ne hx _ _, rfl⟩) ?_ ?_
  · intro d' _ hd
    simpa [bwrite, eq_comm] using hd
  · intro d' hb'
    exact absurd hb' hb

theorem CacheOk.bwrite_home (h : CacheOk s seen) {b : ℕ} (hb : Home s.log b) {d : Block}
    (hd : d = seen' b) (hseen : ∀ x, x ≠ b → seen' x = seen x) (p : Phase) :
    CacheOk { bwrite s b d with phase := p } seen' := by
  refine h.touch b rfl rfl
    (fun x hx => ⟨update_of_ne hx _ _, rfl, update_of_ne hx _ _, hseen x hx⟩) ?_ ?_
  · intro d' hb'
    exact absurd hb hb'
  · intro d' _ _ hd'
    obtain rfl : d = d' := by simpa [bwrite] using hd'
    exact hd

/-! #### An open group -/

theorem Open.congr (h : Open s a) (hdisk : t.disk = s.disk) (hcache : t.cache = s.cache)
    (hholder : t.holder = s.holder) (hstart : t.log.start = s.log.start)
    (hsize : t.log.size = s.log.size) (hlh : t.log.lh = s.log.lh) : Open t a := by
  have hiff : ∀ x, Home t.log x ↔ Home s.log x := fun x => by
    unfold Home
    rw [hstart, hsize]
  have hc : CacheOk t a.current := by
    apply h.cache.touch 0 hstart hsize
    · intro x _
      rw [hcache, hholder, hdisk]
      exact ⟨rfl, rfl, rfl, rfl⟩
    · rw [hcache, hdisk]
      exact fun d => h.cache.logArea 0 d
    · rw [hcache]
      unfold Dirty
      rw [hholder]
      exact fun d => h.cache.home 0 d
  refine ⟨hc, ?_, ?_, ?_, ?_, ?_, ?_, ?_⟩
  · rw [hdisk, hstart]
    exact h.head
  · rw [hlh]
    exact h.nodup
  · intro b hb
    rw [hlh] at hb
    exact (hiff b).mpr (h.home b hb)
  · rw [hlh, hsize]
    exact h.fits
  · rw [hlh]
    exact h.bound
  · rw [hlh, hcache]
    exact h.cached
  · intro b hb hmem
    rw [hlh] at hmem
    exact h.same b ((hiff b).mp hb) hmem

/-- An uncached home block is on disk as it is seen. -/
theorem Open.disk_of_uncached (h : Open s a) (hd : DiskOk s.log s.disk a.durable) {b : ℕ}
    (hb : Home s.log b) (hnone : s.cache b = none) : s.disk b = a.current b := by
  have hmem : b ∉ s.log.lh := fun hmem => h.cached b hmem hnone
  rw [h.same b hb hmem]
  apply hd.rest b hb
  rw [h.head]
  exact List.not_mem_nil

theorem Open.fill (h : Open s a) (hd : DiskOk s.log s.disk a.durable) (b : ℕ) :
    Open (bread s b) a := by
  refine ⟨h.cache.fill b (h.disk_of_uncached hd), h.head, h.nodup, h.home, h.fits, h.bound,
    ?_, h.same⟩
  intro x hx
  by_cases hxb : x = b
  · subst hxb
    simp [bread]
  · show update s.cache b _ x ≠ none
    rw [update_of_ne hxb]
    exact h.cached x hx

theorem Open.evict (h : Open s a) {b : ℕ} (hb : b ∉ s.log.lh) :
    Open { s with cache := update s.cache b none } a := by
  refine ⟨h.cache.evict b, h.head, h.nodup, h.home, h.fits, h.bound, ?_, h.same⟩
  intro x hx
  show update s.cache b none x ≠ none
  have hne : x ≠ b := fun heq => hb (heq ▸ hx)
  rw [update_of_ne hne]
  exact h.cached x hx

/-! ### One step -/

theorem Refines.opened (h : Refines sb s a) (hp : s.phase = .running) : Open s a := by
  have hphase := h.phase
  rw [hp] at hphase
  exact hphase

theorem Refines.writing (h : Refines sb s a) {tail : ℕ} (hp : s.phase = .writeLog tail) :
    Open s a ∧ tail ≤ s.log.lh.length ∧
      ∀ i b, i < tail → s.log.lh[i]? = some b → s.disk (s.log.start + i + 1) = a.current b := by
  have hphase := h.phase
  rw [hp] at hphase
  exact hphase

theorem Refines.installing (h : Refines sb s a) {tail : ℕ} (hp : s.phase = .install tail) :
    Installing s a tail ∧ CacheOk s a.durable ∧ ∀ b ∈ s.log.lh.drop tail, s.cache b ≠ none := by
  have hphase := h.phase
  rw [hp] at hphase
  exact hphase

theorem Refines.recovering (h : Refines sb s a) {tail : ℕ} (hp : s.phase = .recovering tail) :
    Installing s a tail ∧ CacheOk s s.disk ∧ ∀ b, s.holder b = none := by
  have hphase := h.phase
  rw [hp] at hphase
  exact hphase

theorem PhaseOk.of_running (hp : t.phase = .running) (h : Open t a) : PhaseOk t a t.phase := by
  rw [hp]
  exact h

theorem refines_beginOp {op : ℕ} (h : Refines sb s a) (hst : step s (.beginOp op) = some t) :
    Refines sb t a := by
  simp only [step] at hst
  split_ifs at hst with hc
  push Not at hc
  obtain ⟨l, hl, rfl⟩ := Option.map_eq_some_iff.mp hst
  obtain ⟨-, rfl⟩ := Log.beginOp_some hl
  refine ⟨h.start, h.nlog, h.size, h.held, h.disk.congr rfl rfl, PhaseOk.of_running hc.1 ?_⟩
  exact (h.opened hc.1).congr rfl rfl rfl rfl rfl rfl

theorem refines_bread {op b : ℕ} (h : Refines sb s a) (hst : step s (.bread op b) = some t) :
    Refines sb t a := by
  simp only [step] at hst
  split_ifs at hst with hc
  obtain ⟨hp, -, hnone, hb⟩ := hc
  cases hst
  have hfill := (h.opened hp).fill h.disk b
  refine ⟨h.start, h.nlog, h.size, ?_, h.disk, PhaseOk.of_running hp ?_⟩
  · intro x hx
    by_cases hxb : x = b
    · exact hxb ▸ hb
    · apply h.held x
      simpa [hxb] using hx
  refine ⟨?_, hfill.head, hfill.nodup, hfill.home, hfill.fits, hfill.bound, hfill.cached,
    hfill.same⟩
  refine hfill.cache.touch b rfl rfl (fun x hx => ⟨rfl, update_of_ne hx _ _, rfl, rfl⟩) ?_ ?_
  · intro d hb'
    exact absurd hb hb'
  · intro d hb' _ hd
    exact hfill.cache.home b d hb' (not_dirty_of_holder_none (s := bread s b) hnone) hd

theorem refines_modify {op b : ℕ} {d : Block} (h : Refines sb s a)
    (hst : step s (.modify op b d) = some t) : Refines sb t a := by
  simp only [step] at hst
  split_ifs at hst with hc
  obtain ⟨hp, -, hop⟩ := hc
  cases hst
  have ho := h.opened hp
  have hb : Home s.log b := by
    apply h.held b
    intro hnone
    simp [hnone] at hop
  refine ⟨h.start, h.nlog, h.size, ?_, h.disk, PhaseOk.of_running hp ?_⟩
  · intro x hx
    by_cases hxb : x = b
    · exact hxb ▸ hb
    · apply h.held x
      simpa [hxb] using hx
  refine ⟨?_, ho.head, ho.nodup, ho.home, ho.fits, ho.bound, ?_, ho.same⟩
  · refine ho.cache.touch b rfl rfl (fun x hx => ⟨update_of_ne hx _ _, update_of_ne hx _ _, rfl, rfl⟩) ?_ ?_
    · intro d hb'
      exact absurd hb hb'
    · intro d _ hclean
      -- the buffer is dirty now
      exact absurd ⟨op, by simp⟩ hclean
  · intro x hx
    by_cases hxb : x = b
    · simp [hxb]
    · simpa [hxb] using ho.cached x hx

theorem refines_logWrite {op b : ℕ} {d : Block} (h : Refines sb s a)
    (hst : step s (.logWrite op b d) = some t) : Refines sb t (a.step (.logWrite op b d)) := by
  simp only [step] at hst
  split_ifs at hst with hc
  obtain ⟨hp, -, hop, hcb⟩ := hc
  rcases hw : s.log.logWrite b with p | l
  · rw [hw] at hst
    cases hst
  rw [hw] at hst
  cases hst
  obtain ⟨hlt, hfits, rfl⟩ := Log.logWrite_ok hw
  have ho := h.opened hp
  have hb : Home s.log b := by
    apply h.held b
    intro hnone
    simp [hnone] at hop
  have hmem : ∀ x, x ∈ (if b ∈ s.log.lh then s.log.lh else s.log.lh ++ [b]) ↔
      x ∈ s.log.lh ∨ x = b := by
    intro x
    split_ifs with hin
    · constructor
      · exact Or.inl
      · rintro (hx | rfl)
        · exact hx
        · exact hin
    · simp
  have hlen : (if b ∈ s.log.lh then s.log.lh else s.log.lh ++ [b]).length
      ≤ s.log.lh.length + 1 := by
    split_ifs
    · omega
    · simp
  refine ⟨h.start, h.nlog, h.size, ?_, h.disk.congr rfl rfl, PhaseOk.of_running hp ?_⟩
  · intro x hx
    by_cases hxb : x = b
    · exact hxb ▸ hb
    · apply h.held x
      simpa [hxb] using hx
  refine ⟨?_, ho.head, ?_, ?_, ?_, ?_, ?_, ?_⟩
  · refine ho.cache.touch b rfl rfl (fun x hx => ⟨rfl, update_of_ne hx _ _, rfl, update_of_ne hx _ _⟩) ?_ ?_
    · intro d' hb'
      exact absurd hb hb'
    · intro d' _ _ hd'
      have : some d = some d' := hcb.symm.trans hd'
      simpa [Spec.step] using (Option.some.inj this).symm
  · show (if b ∈ s.log.lh then s.log.lh else s.log.lh ++ [b]).Nodup
    split_ifs with hin
    · exact ho.nodup
    · exact List.concat_eq_append ▸ ho.nodup.concat hin
  · intro x hx
    rcases (hmem x).mp hx with hx | rfl
    · exact ho.home x hx
    · exact hb
  · show (if b ∈ s.log.lh then s.log.lh else s.log.lh ++ [b]).length < s.log.size
    omega
  · show (if b ∈ s.log.lh then s.log.lh else s.log.lh ++ [b]).length ≤ logSize
    omega
  · intro x hx
    rcases (hmem x).mp hx with hx | rfl
    · exact ho.cached x hx
    · show s.cache x ≠ none
      simp [hcb]
  · intro x hx hnot
    have hnot := mt (hmem x).mpr hnot
    push Not at hnot
    show update a.current b d x = a.durable x
    rw [update_of_ne hnot.2]
    exact ho.same x hx hnot.1

/-- Unlocking a buffer that is not dirty changes nothing that is seen. -/
theorem CacheOk.brelse {b op : ℕ} (h : CacheOk s seen) (hb : s.holder b = some (op, false)) :
    CacheOk { s with holder := update s.holder b none } seen := by
  refine h.touch b rfl rfl (fun x hx => ⟨rfl, update_of_ne hx _ _, rfl, rfl⟩) ?_ ?_
  · exact h.logArea b
  · intro d hhome _ hd
    refine h.home b d hhome ?_ hd
    rintro ⟨op', hop'⟩
    rw [hb] at hop'
    cases hop'

theorem Open.brelse {b op : ℕ} (h : Open s a) (hb : s.holder b = some (op, false)) :
    Open { s with holder := update s.holder b none } a :=
  ⟨h.cache.brelse hb, h.head, h.nodup, h.home, h.fits, h.bound, h.cached, h.same⟩

/-- The lock can be given back while another process commits. -/
theorem PhaseOk.brelse {b op : ℕ} {p : Phase} (h : PhaseOk s a p)
    (hb : s.holder b = some (op, false)) :
    PhaseOk { s with holder := update s.holder b none } a p := by
  cases p with
  | down =>
    rw [h.2.2 b] at hb
    cases hb
  | recovering tail =>
    rw [h.2.2 b] at hb
    cases hb
  | running => exact Open.brelse h hb
  | writeLog tail => exact ⟨h.1.brelse hb, h.2⟩
  | install tail =>
    obtain ⟨hi, hc, hcached⟩ := h
    exact ⟨⟨hi.head, hi.tail_le, hi.installed, hi.same⟩, hc.brelse hb, hcached⟩
  | committed => exact ⟨h.1.brelse hb, h.2⟩

theorem refines_brelse {op b : ℕ} (h : Refines sb s a) (hst : step s (.brelse op b) = some t) :
    Refines sb t a := by
  simp only [step] at hst
  split_ifs at hst with hb
  cases hst
  refine ⟨h.start, h.nlog, h.size, ?_, h.disk, h.phase.brelse hb⟩
  intro x hx
  by_cases hxb : x = b
  · simp [hxb] at hx
  · apply h.held x
    simpa [hxb] using hx

theorem refines_endOp {op : ℕ} (h : Refines sb s a) (hst : step s (.endOp op) = some t) :
    Refines sb t a := by
  simp only [step] at hst
  split_ifs at hst with hc
  obtain ⟨hp, -⟩ := hc
  have ho := h.opened hp
  rcases hw : s.log.endOp with p | ⟨l, c⟩
  · rw [hw] at hst
    cases hst
  rw [hw] at hst
  obtain ⟨-, rfl⟩ := Log.endOp_ok hw
  rcases c with - | -
  · cases hst
    refine ⟨h.start, h.nlog, h.size, h.held, h.disk.congr rfl rfl, PhaseOk.of_running hp ?_⟩
    exact ho.congr rfl rfl rfl rfl rfl rfl
  · cases hst
    refine ⟨h.start, h.nlog, h.size, h.held, h.disk.congr rfl rfl, ?_⟩
    by_cases hlh : s.log.lh = []
    · rw [if_pos hlh]
      exact ⟨ho.congr rfl rfl rfl rfl rfl rfl, hlh⟩
    · rw [if_neg hlh]
      refine ⟨ho.congr rfl rfl rfl rfl rfl rfl, Nat.zero_le _, ?_⟩
      intro i b hi
      omega

/-- `write_log` copies what operations see to the log. -/
theorem refines_writeLog (h : Refines sb s a) (hst : step s .writeLog = some t) :
    Refines sb t a := by
  simp only [step] at hst
  split at hst
  case h_2 => cases hst
  rename_i tail hp
  split at hst
  case h_2 => cases hst
  rename_i b hb
  split_ifs at hst with hnone
  cases hst
  obtain ⟨ho, hle, hdone⟩ := h.writing hp
  obtain ⟨hlt, -⟩ := List.getElem?_eq_some_iff.mp hb
  have hfits := ho.fits
  have harea : ¬ Home s.log (s.log.start + tail + 1) := logBlock_not_home (by omega)
  have hmem : b ∈ s.log.lh := List.mem_of_getElem? hb
  have hdata : contents s b = a.current b :=
    ho.cache.contents_home (ho.home b hmem) (not_dirty_of_holder_none hnone)
      (fun hn => absurd hn (ho.cached b hmem))
  have hne : s.log.start ≠ s.log.start + tail + 1 := by omega
  refine ⟨h.start, h.nlog, h.size, h.held, h.disk.writeLog ho.head harea hne _, ?_, hlt, ?_⟩
  · refine ⟨ho.cache.bwrite_logArea harea _ _, ?_, ho.nodup, ho.home, ho.fits, ho.bound, ?_,
      ho.same⟩
    · show readHead (update s.disk _ _ s.log.start) = []
      rw [update_of_ne hne]
      exact ho.head
    · intro x hx
      have hxne : x ≠ s.log.start + tail + 1 := fun heq => harea (heq ▸ ho.home x hx)
      show update s.cache _ _ x ≠ none
      rw [update_of_ne hxne]
      exact ho.cached x hx
  · intro i x hi hx
    show update s.disk _ _ (s.log.start + i + 1) = a.current x
    rcases Nat.lt_succ_iff_lt_or_eq.mp hi with hi | rfl
    · rw [update_of_ne (by omega)]
      exact hdone i x hi hx
    · rw [update_self, hdata]
      obtain rfl : b = x := Option.some.inj (hb.symm.trans hx)
      rfl

/-- The commit point: from here on the group survives. -/
theorem refines_writeHead (h : Refines sb s a) (hst : step s .writeHead = some t) :
    Refines sb t (a.step .writeHead) := by
  simp only [step] at hst
  split at hst
  case h_2 => cases hst
  rename_i tail hp
  split_ifs at hst with htail
  cases hst
  obtain ⟨ho, -, hdone⟩ := h.writing hp
  subst htail
  have hstart := start_not_home h.size
  have hread := readHead_writeHead (contents s s.log.start) s.log.lh ho.bound
  have hrest : ∀ b, Home s.log b → b ∉ s.log.lh → s.disk b = a.current b := by
    intro b hb hmem
    rw [ho.same b hb hmem]
    exact h.disk.rest b hb (ho.head ▸ List.not_mem_nil)
  have hdisk := DiskOk.commit ho.nodup ho.home ho.fits
    (fun i b hb => hdone i b (List.getElem?_eq_some_iff.mp hb).1 hb) hrest hread
  refine ⟨h.start, h.nlog, h.size, h.held, hdisk, ⟨?_, Nat.zero_le _, ?_, rfl⟩,
    ho.cache.bwrite_logArea hstart _ _, ?_⟩
  · show readHead (update s.disk s.log.start _ s.log.start) = s.log.lh
    rw [update_self]
    exact hread
  · intro i b hi
    omega
  · intro b hb
    rw [List.drop_zero] at hb
    have hne : b ≠ s.log.start := fun heq => hstart (heq ▸ ho.home b hb)
    show update s.cache s.log.start _ b ≠ none
    rw [update_of_ne hne]
    exact ho.cached b hb

/-- What `install_trans` finds in log block `tail`. -/
theorem Installing.contents_log {tail b : ℕ} (h : Installing s a tail)
    (hd : DiskOk s.log s.disk a.durable) (hc : CacheOk s seen) (hb : s.log.lh[tail]? = some b) :
    contents s (s.log.start + tail + 1) = a.durable b := by
  have hb' : (readHead (s.disk s.log.start))[tail]? = some b := by rw [h.head, hb]
  have hlt := (List.getElem?_eq_some_iff.mp hb').1
  have hfits := hd.fits
  rw [hc.contents_logArea (logBlock_not_home (by omega))]
  exact hd.logged tail b hb'

theorem Installing.next {tail b : ℕ} (h : Installing s a tail)
    (hd : DiskOk s.log s.disk a.durable) (hsize : 0 < s.log.size)
    (hb : s.log.lh[tail]? = some b) {d : Block} (hdata : d = a.durable b) (p : Phase) :
    Installing { bwrite s b d with phase := p } a (tail + 1) := by
  have hmem : b ∈ readHead (s.disk s.log.start) := h.head ▸ List.mem_of_getElem? hb
  have hne : s.log.start ≠ b := fun heq => start_not_home hsize (heq ▸ hd.home b hmem)
  refine ⟨?_, (List.getElem?_eq_some_iff.mp hb).1, ?_, h.same⟩
  · show readHead (update s.disk b d s.log.start) = s.log.lh
    rw [update_of_ne hne]
    exact h.head
  · intro i x hi hx
    show update s.disk b d x = a.durable x
    by_cases hxb : x = b
    · rw [hxb, update_self]
      exact hdata
    · rw [update_of_ne hxb]
      rcases Nat.lt_succ_iff_lt_or_eq.mp hi with hi | rfl
      · exact h.installed i x hi hx
      · exact absurd (Option.some.inj (hx.symm.trans hb)) hxb

theorem refines_installTrans (h : Refines sb s a) (hst : step s .installTrans = some t) :
    Refines sb t a := by
  simp only [step] at hst
  split at hst
  case h_2 => cases hst
  rename_i tail hp
  split at hst
  case h_2 => cases hst
  rename_i b hb
  split_ifs at hst with hnone
  cases hst
  obtain ⟨hi, hc, hcached⟩ := h.installing hp
  have hmem : b ∈ readHead (s.disk s.log.start) := hi.head ▸ List.mem_of_getElem? hb
  have hhome := h.disk.home b hmem
  have hdata := hi.contents_log h.disk hc hb
  refine ⟨h.start, h.nlog, h.size, h.held, h.disk.install h.size hmem _, hi.next h.disk h.size hb hdata _,
    hc.bwrite_home hhome hdata (fun _ _ => rfl) _, ?_⟩
  intro x hx
  show update s.cache b _ x ≠ none
  by_cases hxb : x = b
  · simp [hxb]
  · rw [update_of_ne hxb]
    apply hcached x
    rw [List.drop_eq_getElem_cons (List.getElem?_eq_some_iff.mp hb).1]
    exact List.mem_cons_of_mem _ hx

/-- Every block the header names is installed. -/
theorem Installing.all {tail : ℕ} (h : Installing s a tail) (htail : tail = s.log.lh.length) :
    ∀ b ∈ readHead (s.disk s.log.start), s.disk b = a.durable b := by
  intro b hb
  rw [h.head] at hb
  obtain ⟨i, hi⟩ := List.getElem?_of_mem hb
  exact h.installed i b (htail ▸ (List.getElem?_eq_some_iff.mp hi).1) hi

/-- The header is cleared once everything is installed: a new group opens. -/
theorem Installing.clear {tail : ℕ} (h : Installing s a tail) (hsize : 0 < s.log.size)
    (hc : CacheOk s a.durable) (p : Phase) :
    Open { bwrite s s.log.start (writeHead (contents s s.log.start) []) with
      log := { s.log with lh := [] }
      phase := p } a := by
  have hc' := hc.bwrite_logArea (start_not_home hsize) (writeHead (contents s s.log.start) []) p
  refine ⟨?_, ?_, List.nodup_nil, ?_, hsize, Nat.zero_le _, ?_, ?_⟩
  · rw [h.same]
    exact ⟨hc'.logArea, hc'.home⟩
  · show readHead (update s.disk s.log.start _ s.log.start) = []
    rw [update_self, readHead_writeHead _ _ (Nat.zero_le _)]
  · exact fun b hb => absurd hb List.not_mem_nil
  · exact fun b hb => absurd hb List.not_mem_nil
  · intro b _ _
    rw [h.same]

theorem refines_clearHead (h : Refines sb s a) (hst : step s .clearHead = some t) :
    Refines sb t a := by
  simp only [step] at hst
  split at hst
  case h_2 => cases hst
  rename_i tail hp
  split_ifs at hst with htail
  cases hst
  obtain ⟨hi, hc, -⟩ := h.installing hp
  have hdisk := h.disk.clear h.size (hi.all htail)
    (readHead_writeHead (contents s s.log.start) [] (Nat.zero_le _))
  exact ⟨h.start, h.nlog, h.size, h.held, hdisk.congr rfl rfl, hi.clear h.size hc _, rfl⟩

theorem refines_commitDone (h : Refines sb s a) (hst : step s .commitDone = some t) :
    Refines sb t a := by
  simp only [step] at hst
  split_ifs at hst with hp
  cases hst
  have hphase := h.phase
  rw [hp] at hphase
  obtain ⟨ho, hlh⟩ := hphase
  exact ⟨h.start, h.nlog, h.size, h.held, h.disk.congr rfl rfl, ho.congr rfl rfl rfl rfl rfl hlh.symm⟩

theorem refines_crash (h : Refines sb s a) (hst : step s .crash = some t) :
    Refines sb t (a.step .crash) := by
  simp only [step] at hst
  cases hst
  refine ⟨h.start, h.nlog, h.size, ?_, h.disk.congr rfl rfl, rfl, ?_, ?_⟩
  · exact fun b hb => absurd rfl hb
  · exact fun _ => rfl
  · exact fun _ => rfl

theorem refines_reboot (h : Refines sb s a) (hst : step s .reboot = some t) : Refines sb t a := by
  simp only [step] at hst
  split_ifs at hst with hp
  cases hst
  have hphase := h.phase
  rw [hp] at hphase
  obtain ⟨hsame, hcache, hholder⟩ := hphase
  have hcontents : contents s s.log.start = s.disk s.log.start := by
    unfold contents
    rw [hcache]
    rfl
  have hc : CacheOk s s.disk := by
    constructor
    · intro b d _ hd
      rw [hcache] at hd
      cases hd
    · intro b d _ _ hd
      rw [hcache] at hd
      cases hd
  have hfill := hc.fill s.log.start (fun _ _ => rfl)
  refine ⟨h.start, h.nlog, h.size, h.held, h.disk.congr rfl rfl, ⟨?_, Nat.zero_le _, ?_, hsame⟩, ?_, hholder⟩
  · rw [hcontents]
    rfl
  · intro i b hi
    omega
  · exact ⟨hfill.logArea, hfill.home⟩

theorem refines_recoverTrans (h : Refines sb s a) (hst : step s .recoverTrans = some t) :
    Refines sb t a := by
  simp only [step] at hst
  split at hst
  case h_2 => cases hst
  rename_i tail hp
  split at hst
  case h_2 => cases hst
  rename_i b hb
  cases hst
  obtain ⟨hi, hc, hholder⟩ := h.recovering hp
  have hmem : b ∈ readHead (s.disk s.log.start) := hi.head ▸ List.mem_of_getElem? hb
  have hhome := h.disk.home b hmem
  have hdata := hi.contents_log h.disk hc hb
  refine ⟨h.start, h.nlog, h.size, h.held, h.disk.install h.size hmem _, hi.next h.disk h.size hb hdata _, ?_,
    hholder⟩
  refine hc.bwrite_home hhome ?_ ?_ _
  · exact (update_self b _ s.disk).symm
  · intro x hx
    exact update_of_ne hx _ _

/-- A completed recovery leaves the durable contents in every home block. -/
theorem Installing.disk_eq {tail : ℕ} (h : Installing s a tail) (htail : tail = s.log.lh.length)
    (hd : DiskOk s.log s.disk a.durable) {b : ℕ} (hb : Home s.log b) :
    s.disk b = a.durable b := by
  by_cases hmem : b ∈ readHead (s.disk s.log.start)
  · exact h.all htail b hmem
  · exact hd.rest b hb hmem

theorem refines_recoverDone (h : Refines sb s a) (hst : step s .recoverDone = some t) :
    Refines sb t a := by
  simp only [step] at hst
  split at hst
  case h_2 => cases hst
  rename_i tail hp
  split_ifs at hst with htail
  cases hst
  obtain ⟨hi, hc, -⟩ := h.recovering hp
  have hdisk := h.disk.clear h.size (hi.all htail)
    (readHead_writeHead (contents s s.log.start) [] (Nat.zero_le _))
  have hc' : CacheOk s a.durable := by
    refine ⟨hc.logArea, ?_⟩
    intro b d hb hclean hd
    rw [hc.home b d hb hclean hd]
    exact hi.disk_eq htail h.disk hb
  exact ⟨h.start, h.nlog, h.size, h.held, hdisk.congr rfl rfl, hi.clear h.size hc' _⟩

/-- While a group is installed, an uncached home block is on disk. -/
theorem Installing.disk_of_uncached {tail b : ℕ} (h : Installing s a tail)
    (hd : DiskOk s.log s.disk a.durable)
    (hcached : ∀ b ∈ s.log.lh.drop tail, s.cache b ≠ none) (hb : Home s.log b)
    (hnone : s.cache b = none) : s.disk b = a.durable b := by
  by_cases hmem : b ∈ s.log.lh
  · rw [← List.take_append_drop tail s.log.lh, List.mem_append] at hmem
    rcases hmem with htake | hdrop
    · obtain ⟨i, hi⟩ := List.getElem?_of_mem htake
      rw [List.getElem?_take] at hi
      split_ifs at hi with hlt
      exact h.installed i b hlt hi
    · exact absurd hnone (hcached b hdrop)
  · apply hd.rest b hb
    rw [h.head]
    exact hmem

theorem PhaseOk.fill {p : Phase} (h : PhaseOk s a p) (hd : DiskOk s.log s.disk a.durable)
    (hp : p ≠ .down) (b : ℕ) : PhaseOk (bread s b) a p := by
  cases p with
  | down => exact absurd rfl hp
  | recovering tail =>
    obtain ⟨hi, hc, hholder⟩ := h
    exact ⟨⟨hi.head, hi.tail_le, hi.installed, hi.same⟩, hc.fill b (fun _ _ => rfl), hholder⟩
  | running => exact Open.fill h hd b
  | writeLog tail => exact ⟨h.1.fill hd b, h.2⟩
  | install tail =>
    obtain ⟨hi, hc, hcached⟩ := h
    refine ⟨⟨hi.head, hi.tail_le, hi.installed, hi.same⟩,
      hc.fill b (hi.disk_of_uncached hd hcached), ?_⟩
    intro x hx
    show update s.cache b _ x ≠ none
    by_cases hxb : x = b
    · simp [hxb]
    · rw [update_of_ne hxb]
      exact hcached x hx
  | committed => exact ⟨h.1.fill hd b, h.2⟩

theorem refines_fill {b : ℕ} (h : Refines sb s a) (hst : step s (.fill b) = some t) :
    Refines sb t a := by
  simp only [step] at hst
  split_ifs at hst with hp
  cases hst
  exact ⟨h.start, h.nlog, h.size, h.held, h.disk, h.phase.fill h.disk hp b⟩

/-- Only buffers that are not pinned are recycled. -/
theorem PhaseOk.evict {p : Phase} {b : ℕ} (h : PhaseOk s a p) (hpin : b ∉ pinned s.log p) :
    PhaseOk { s with cache := update s.cache b none } a p := by
  cases p with
  | down =>
    obtain ⟨hsame, hcache, hholder⟩ := h
    refine ⟨hsame, ?_, hholder⟩
    intro x
    by_cases hxb : x = b
    · simp [hxb]
    · simpa [hxb] using hcache x
  | recovering tail =>
    obtain ⟨hi, hc, hholder⟩ := h
    exact ⟨⟨hi.head, hi.tail_le, hi.installed, hi.same⟩, hc.evict b, hholder⟩
  | running => exact Open.evict h hpin
  | writeLog tail => exact ⟨h.1.evict hpin, h.2⟩
  | install tail =>
    obtain ⟨hi, hc, hcached⟩ := h
    refine ⟨⟨hi.head, hi.tail_le, hi.installed, hi.same⟩, hc.evict b, ?_⟩
    intro x hx
    have hne : x ≠ b := fun heq => hpin (heq ▸ hx)
    show update s.cache b none x ≠ none
    rw [update_of_ne hne]
    exact hcached x hx
  | committed =>
    refine ⟨h.1.evict ?_, h.2⟩
    rw [h.2]
    exact List.not_mem_nil

theorem refines_evict {b : ℕ} (h : Refines sb s a) (hst : step s (.evict b) = some t) :
    Refines sb t a := by
  simp only [step] at hst
  split_ifs at hst with hc
  cases hst
  exact ⟨h.start, h.nlog, h.size, h.held, h.disk, h.phase.evict hc.2⟩

/-- **One step of the machine is one step of the specification.** -/
theorem refines_step {e : Ev} (h : Refines sb s a) (hst : Steps s e t) : Refines sb t (a.step e) := by
  cases e with
  | beginOp op => exact refines_beginOp h hst
  | bread op b => exact refines_bread h hst
  | modify op b d => exact refines_modify h hst
  | logWrite op b d => exact refines_logWrite h hst
  | brelse op b => exact refines_brelse h hst
  | endOp op => exact refines_endOp h hst
  | writeLog => exact refines_writeLog h hst
  | writeHead => exact refines_writeHead h hst
  | installTrans => exact refines_installTrans h hst
  | clearHead => exact refines_clearHead h hst
  | commitDone => exact refines_commitDone h hst
  | crash => exact refines_crash h hst
  | reboot => exact refines_reboot h hst
  | recoverTrans => exact refines_recoverTrans h hst
  | recoverDone => exact refines_recoverDone h hst
  | fill b => exact refines_fill h hst
  | evict b => exact refines_evict h hst

end Xv6Zig.LogCrash
