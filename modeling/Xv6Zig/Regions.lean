/-
Xv6Zig/Regions.lean

Where the ring buffers of a process lie in its address space.

`top_free_uvm_pg` goes down by thirty-four pages with every open: the buffer
pages twice, the book page and one page that stays unmapped.  A close puts it
back only if the region that is given up is the lowest one.  This is the
allocator of `Lib.Bump`, with the trapframe as its limit; `regions` is the
view, and each call of the process is `push` or `drop` on it or nothing
(`RegionStep`).

The regions therefore never collide, in whatever order ring buffers are
closed.  The room they take up is that of the ring buffers that are open and
of all those that were closed while a lower one was open.
-/
import Xv6Zig.KernelRuns
import Xv6Zig.Lib.Bump

namespace Xv6Zig

open Lib Function

/-! ### The region of an owner -/

/-- The page of the process at which the book page of the ring buffer is
mapped; the buffer pages stand above it. -/
def Ringbuf.regionOf (rb : Ringbuf) (p : ProcIx) : Option ℕ :=
  if (rb.owners 0).proc = some p then (rb.owners 0).vbook.map (· / pgSize)
  else if (rb.owners 1).proc = some p then (rb.owners 1).vbook.map (· / pgSize)
  else none

namespace Ringbuf

variable {rb rb' : Ringbuf} {p : ProcIx} {i : Fin 2} {b : ℕ}

theorem regionOf_eq_none (h : ∀ i, (rb.owners i).proc ≠ some p) : rb.regionOf p = none := by
  unfold regionOf
  rw [if_neg (h 0), if_neg (h 1)]

theorem regionOf_of_owner (h : RingOk rb) (hi : (rb.owners i).proc = some p) :
    rb.regionOf p = (rb.owners i).vbook.map (· / pgSize) := by
  unfold regionOf
  match i with
  | 0 => rw [if_pos hi]
  | 1 =>
    -- no process has both slots
    have h0 : (rb.owners 0).proc ≠ some p := fun h0 =>
      absurd (h.distinct 0 1 p h0 hi) (by decide)
    rw [if_neg h0, if_pos hi]

theorem regionOf_congr (h : ∀ c, (rb.owners c).proc = some p ∨ (rb'.owners c).proc = some p →
    rb'.owners c = rb.owners c) : rb'.regionOf p = rb.regionOf p := by
  have hslot : ∀ c, (rb'.owners c).proc = some p ↔ (rb.owners c).proc = some p := by
    intro c
    constructor
    · intro hc
      rw [← h c (.inr hc)]
      exact hc
    · intro hc
      rw [h c (.inl hc)]
      exact hc
  unfold regionOf
  simp only [hslot]
  split_ifs with h0 h1
  · rw [h 0 (.inl h0)]
  · rw [h 1 (.inl h1)]
  · rfl

end Ringbuf

namespace Kernel

variable {k k' k₀ : Kernel} {p j : ProcIx} {r s : RingIx} {i : Fin 2} {b : ℕ} {e : Ev}
  {str : Option CStr} {op : Int32} {addr vaddr : ℕ} {n : ℤ}

theorem Inv.regionOf_attached (h : Inv k) (hi : ((k.ringbufs r).owners i).proc = some p)
    (hatt : Attached (k.ringbufs r) ((k.ringbufs r).owners i) (k.procs p).pagetable b) :
    (k.ringbufs r).regionOf p = some b := by
  rw [Ringbuf.regionOf_of_owner (h.ring r) hi, hatt.vbook, Option.map_some,
    Nat.mul_div_cancel b pgSize_pos]

/-- **The region is where the ring buffer is mapped.** -/
theorem Inv.regionOf_iff (h : Inv k) : (k.ringbufs r).regionOf p = some b ↔
    ∃ i, ((k.ringbufs r).owners i).proc = some p ∧
      Attached (k.ringbufs r) ((k.ringbufs r).owners i) (k.procs p).pagetable b := by
  constructor
  · intro hb
    have hown : k.Owns p r := by
      by_contra hnot
      rw [Ringbuf.regionOf_eq_none fun i hi => hnot ⟨i, hi⟩] at hb
      cases hb
    obtain ⟨i, hi⟩ := hown
    obtain ⟨-, b', hatt⟩ := h.owner r i p hi
    rw [h.regionOf_attached hi hatt] at hb
    exact ⟨i, hi, Option.some.inj hb ▸ hatt⟩
  · rintro ⟨i, hi, hatt⟩
    exact h.regionOf_attached hi hatt

theorem Inv.regionOf_ne_none (h : Inv k) : (k.ringbufs r).regionOf p ≠ none ↔ k.Owns p r := by
  constructor
  · intro hne
    obtain ⟨b, hb⟩ := Option.ne_none_iff_exists'.mp hne
    obtain ⟨i, hi, -⟩ := h.regionOf_iff.mp hb
    exact ⟨i, hi⟩
  · rintro ⟨i, hi⟩
    obtain ⟨-, b, hatt⟩ := h.owner r i p hi
    rw [h.regionOf_attached hi hatt]
    exact Option.some_ne_none b

/-! ### The view -/

/-- The regions of a process.  A block has the thirty-three pages of a region
and the page above them; `top_free_uvm_pg` stands two pages below the last
block. -/
def regions (k : Kernel) (p : ProcIx) : Bump RingIx where
  top := (k.procs p).topFreeUvmPg / pgSize + 2
  base := fun r => (k.ringbufs r).regionOf p

/-- The blocks are in order.  All tops differ by a multiple of thirty-four
pages, so that one which is not too low for an open is not too low for the page
that stays unmapped either. -/
structure Stacked (k : Kernel) (p : ProcIx) : Prop where
  ok : (k.regions p).Ok 34 trapframeVpn
  mod : (k.regions p).top % 34 = 2

/-- Nothing besides them is mapped. -/
structure Layout (k : Kernel) (p : ProcIx) : Prop extends Stacked k p where
  stray : ∀ v, ¬ k.Stray p v

theorem top_empty : Proc.empty.topFreeUvmPg / pgSize + 2 = trapframeVpn := by decide

/-- A process that owns no ring buffer, with the top where it starts. -/
theorem Stacked.of_empty (htop : (k.procs p).topFreeUvmPg = Proc.empty.topFreeUvmPg)
    (hnot : ∀ r, ¬ k.Owns p r) : Stacked k p := by
  have hempty : (k.regions p).top = trapframeVpn := by
    show (k.procs p).topFreeUvmPg / pgSize + 2 = _
    rw [htop, top_empty]
  refine ⟨Bump.Ok.empty hempty fun r => ?_, ?_⟩
  · show (k.ringbufs r).regionOf p = none
    apply Ringbuf.regionOf_eq_none
    exact fun i hi => hnot r ⟨i, hi⟩
  · rw [hempty]
    decide

theorem layout_boot (kend trampoline : ℕ) (free : List ℕ) (p : ProcIx) :
    Layout (boot kend trampoline free) p := by
  refine ⟨Stacked.of_empty rfl ?_, noStray_boot kend trampoline free p⟩
  rintro r ⟨i, hi⟩
  cases hi

/-- The calls that are not about ring buffers. -/
theorem Layout.of_kept (hl : Layout k p) (h : Inv k) (hk : Kept k k') : Layout k' p := by
  have hbase : ∀ r b, (k'.regions p).base r = some b → (k.regions p).base r = some b := by
    intro r b hb
    obtain ⟨i, hi, hatt⟩ := hk.inv.regionOf_iff.mp hb
    have hsame := hk.owners r i p hi
    rw [hsame] at hi
    show (k.ringbufs r).regionOf p = some b
    rw [Ringbuf.regionOf_of_owner (h.ring r) hi, ← hsame, hatt.vbook, Option.map_some,
      Nat.mul_div_cancel b pgSize_pos]
  have hstray : ∀ v, ¬ k'.Stray p v := fun v hv => hl.stray v (hk.tidy p v hv)
  rcases hk.tops p with htop | ⟨htop, hnot⟩
  · have hsame : (k'.regions p).top = (k.regions p).top := congrArg (· / pgSize + 2) htop
    exact ⟨⟨hl.ok.of_sub hsame hbase, hsame ▸ hl.mod⟩, hstray⟩
  · -- the slot was given up
    exact ⟨Stacked.of_empty htop hnot, hstray⟩

/-! ### What other processes do -/

/-- Nothing that concerns process `p` has changed. -/
structure SameFor (k : Kernel) (p : ProcIx) (k' : Kernel) : Prop where
  proc : k'.procs p = k.procs p
  owners : ∀ s c, ((k.ringbufs s).owners c).proc = some p ∨
    ((k'.ringbufs s).owners c).proc = some p → (k'.ringbufs s).owners c = (k.ringbufs s).owners c

theorem SameFor.regions (h : SameFor k p k') : k'.regions p = k.regions p := by
  unfold Kernel.regions
  rw [h.proc]
  congr 1
  funext r
  exact Ringbuf.regionOf_congr (h.owners r)

theorem SameFor.stacked (h : SameFor k p k') (hs : Stacked k p) : Stacked k' p :=
  ⟨h.regions ▸ hs.ok, h.regions ▸ hs.mod⟩

theorem SameFor.layout (h : SameFor k p k') (hl : Layout k p) : Layout k' p := by
  refine ⟨h.stacked hl.toStacked, ?_⟩
  rintro v ⟨hleaf, h₁, h₂, h₃, hrest⟩
  rw [h.proc] at hleaf h₃
  apply hl.stray v
  refine ⟨hleaf, h₁, h₂, h₃, fun s c b hc hb => ?_⟩
  have hsame := h.owners s c (.inl hc)
  exact hrest s c b (hsame ▸ hc) (hsame ▸ hb)

theorem open_same {name : List UInt8} {res : Except RingbufError Unit} (h : Inv k)
    (hname : ¬ (name.length > maxNameLen ∨ name.length = 0)) (hzero : 0 ∉ name) (hj : p ≠ j)
    (hopen : k.openRingbuf j name addr = .ok (k', res)) : SameFor k p k' := by
  rcases open_cases h hname hzero hopen with ⟨-, -, hun, -, hprocs, -⟩ | ⟨-, k₁, r, i, f, book, m,
    pt, hready, hempty, -, -, ⟨-, -, -, rfl⟩ | ⟨top, ok, hundone, -, rfl⟩⟩
  · exact ⟨by rw [hprocs], fun s c _ => by rw [hun.owners s]⟩
  · refine ⟨by rw [opened_procs_ne hj, hready.procs], fun s c hc => ?_⟩
    by_cases hs : s = r
    · subst hs
      -- the slot that was filled was empty
      have hci : c ≠ i := by
        rintro rfl
        rcases hc with hc | hc
        · rw [hempty] at hc
          cases hc
        · rw [opened_ring_self] at hc
          simp only [update_self] at hc
          exact hj (Option.some.inj hc).symm
      rw [opened_ring_self, hready.owners]
      exact update_of_ne hci _ _
    · rw [opened_ring_ne hs, hready.rings s hs]
  · refine ⟨by rw [undone_procs_ne hj, hready.procs], fun s c hc => ?_⟩
    by_cases hs : s = r
    · subst hs
      rcases hc with hc | hc
      · rw [h.not_owned hundone.idle c] at hc
        cases hc
      · rw [undone_ring_self] at hc
        cases hc
    · rw [undone_ring_ne hs, hready.rings s hs]

/-- **A ring-buffer call leaves the other processes alone.** -/
theorem sysRingbuf_same (h : Inv k) (hj : p ≠ j)
    (hcall : k.sysRingbuf j str op addr vaddr = .ok (k', n)) : SameFor k p k' := by
  obtain ⟨res, -, hcalled⟩ := of_sysRingbuf hcall
  cases hcalled with
  | failed => exact ⟨rfl, fun _ _ _ => rfl⟩
  | closed _ _ hclose =>
    obtain ⟨-, -, ⟨rfl, -⟩ | ⟨-, r, b, -, -, hclosed⟩⟩ := of_closeRingbuf h hclose
    · exact ⟨rfl, fun _ _ _ => rfl⟩
    · obtain ⟨k₂, hdis, rfl⟩ := hclosed.disowned
      refine ⟨?_, fun s c hc => ?_⟩
      · rw [setProc_procs, update_of_ne hj, hdis.procs p hj]
      · rcases hc with hc | hc
        · exact hdis.others s c p hj hc
        · exact hdis.owners s c p hc
  | opened _ hlen hzero hopen => exact open_same h hlen hzero hj hopen

/-! ### What the process does itself -/

/-- What a ring-buffer call that returned `n` makes of the caller's regions. -/
inductive RegionStep (k : Kernel) (p : ProcIx) (str : Option CStr) (op : Int32) :
    ℤ → Bump RingIx → Prop
  | failed {n : ℤ} (nonzero : n ≠ 0) : RegionStep k p str op n (k.regions p)
  | opened {r : RingIx} (op_eq : op = 1) (room : 34 ≤ (k.regions p).top)
      (free : (k.regions p).base r = none) : RegionStep k p str op 0 ((k.regions p).push 34 r)
  | closed {name : CStr} {r : RingIx} (op_eq : op = 0) (str_eq : str = some name)
      (found : k.findRingbufByName name.bytes = some r) (used : (k.regions p).base r ≠ none) :
      RegionStep k p str op 0 ((k.regions p).drop 34 r)

theorem retval_ne_zero {res : Except RingbufError Unit} (h : res ≠ .ok ()) : retval res ≠ 0 := by
  rcases res with err | u
  · exact (intFromErr_neg err).ne
  · exact absurd rfl h

section Own

variable {name : CStr} {res : Except RingbufError Unit} (h : Inv k) (hs : Stacked k p)

include h hs

theorem open_regions (hne : name.bytes ≠ []) (hrun : k.Running p)
    (hclean : k.CleanOpen p name.bytes addr)
    (hopen : k.openRingbuf p name.bytes addr = .ok (k', res)) :
    RegionStep k p (some name) 1 (retval res) (k'.regions p) := by
  have hinv' := inv_open h (CStr.not_badLength hne) name.nonzero hrun hopen
  have hok := h.proc p
  rcases open_cases h (CStr.not_badLength hne) name.nonzero hopen with
    ⟨-, -, hun, -, hprocs, hres⟩ | ⟨hlate, k₁, r, i, f, book, m, pt, hready, hempty, hnot, hlen,
      ⟨hmap, -, rfl, rfl⟩ | ⟨top, ok, hundone, hres, rfl⟩⟩
  · have hsame : SameFor k p k' := ⟨by rw [hprocs], fun s c _ => by rw [hun.owners s]⟩
    rw [hsame.regions]
    exact .failed (retval_ne_zero hres)
  · -- the pages from the top down were free, the first page of the process is not
    have hdown := (of_mapDown hok.aligned hok.word hmap).1
    have hzero := h.leaf_zero hrun
    have hroom : 34 ≤ (k.procs p).topFreeUvmPg / pgSize := by
      have hmod := hs.mod
      have hlong := hdown.room
      rw [Ringbuf.length_order] at hlong
      have hfresh := hdown.fresh 32 (by rw [Ringbuf.length_order]; decide)
      have hpos : (k.procs p).topFreeUvmPg / pgSize - 32 ≠ 0 := by
        intro hz
        rw [hz] at hfresh
        exact hzero hfresh
      change ((k.procs p).topFreeUvmPg / pgSize + 2) % 34 = 2 at hmod
      omega
    have hstep : (k₁.opened p r i m pt (sub64 (k.procs p).topFreeUvmPg (33 * pgSize))).regions p
        = (k.regions p).push 34 r := by
      unfold Kernel.regions Bump.push
      congr 1
      · rw [opened_procs_self]
        have haligned := hok.aligned
        have hword := hok.word
        show sub64 (sub64 _ _) _ / pgSize + 2 = _
        simp only [sub64, pgSize] at hroom haligned hword ⊢
        omega
      · funext s
        by_cases hsr : s = r
        · subst hsr
          have hatt := attached_of_mapped hready.holds hdown hok.aligned hok.word hzero (some p)
          rw [update_self, Ringbuf.regionOf_of_owner (i := i) (hinv'.ring s)
            (by rw [opened_ring_self]; simp only [update_self]; rfl), opened_ring_self]
          simp only [update_self]
          rw [show (newOwner p _).vbook = _ from hatt.vbook, Option.map_some,
            Nat.mul_div_cancel _ pgSize_pos]
          rfl
        · rw [update_of_ne hsr, opened_ring_ne hsr, hready.rings s hsr]
    rw [hstep]
    refine .opened rfl (le_trans hroom (Nat.le_add_right _ 2)) ?_
    apply Ringbuf.regionOf_eq_none
    exact fun c hc => hnot ⟨c, hc⟩
  · obtain ⟨-, rfl⟩ := hundone.of_clean h hlate hlen hclean
    have hstep : (k₁.undone p r m pt (k.procs p).topFreeUvmPg).regions p = k.regions p := by
      unfold Kernel.regions
      congr 1
      · rw [undone_procs_self]
      · funext s
        by_cases hsr : s = r
        · subst hsr
          have hnone : ∀ c, ((k.ringbufs s).owners c).proc ≠ some p := by
            intro c
            rw [h.not_owned hundone.idle c]
            rintro ⟨⟩
          rw [undone_ring_self, Ringbuf.regionOf_eq_none hnone]
          rfl
        · rw [undone_ring_ne hsr, hready.rings s hsr]
    rw [hstep]
    exact .failed (retval_ne_zero hres)

theorem close_regions (hclose : k.closeRingbuf p name.bytes addr vaddr = .ok (k', res)) :
    RegionStep k p (some name) 0 (retval res) (k'.regions p) := by
  obtain ⟨-, -, ⟨rfl, hres⟩ | ⟨rfl, r, b, hfind, rfl, hclosed⟩⟩ := of_closeRingbuf h hclose
  · exact .failed (retval_ne_zero hres)
  · have hb : (k.regions p).base r = some b := h.regionOf_iff.mpr hclosed.owned
    obtain ⟨hlow, hhigh⟩ := hs.ok.block r b hb
    have hstep : k'.regions p = (k.regions p).drop 34 r := by
      unfold Kernel.regions Bump.drop
      congr 1
      · obtain ⟨k₂, -, rfl⟩ := hclosed.disowned
        rw [setProc_procs, update_self]
        change (k.ringbufs r).regionOf p = some b at hb
        change (k.procs p).topFreeUvmPg / pgSize + 2 ≤ b at hlow
        have haligned := (h.proc p).aligned
        rw [show trapframeVpn = 67108862 from rfl] at hhigh
        -- the test of the source is whether the region is the lowest one
        have htest : (k.procs p).topFreeUvmPg = sub64 ((b + 1) * pgSize) (3 * pgSize) ↔
            some b = some ((k.procs p).topFreeUvmPg / pgSize + 2) := by
          rw [Option.some.injEq]
          simp only [sub64, pgSize] at hlow haligned ⊢
          omega
        simp only [hb, topAfterClose, htest]
        split_ifs with hlowest
        · rw [Option.some.injEq] at hlowest
          simp only [add64, ringbufSize, pgSize] at hlowest haligned ⊢
          omega
        · rfl
      · funext s
        by_cases hsr : s = r
        · subst hsr
          rw [update_self]
          apply Ringbuf.regionOf_eq_none
          exact fun c hc => hclosed.gone ⟨c, hc⟩
        · rw [update_of_ne hsr, hclosed.rest s hsr]
    rw [hstep]
    exact .closed rfl rfl hfind (by rw [hb]; exact Option.some_ne_none b)

/-- **A ring-buffer call is a step of the allocator.** -/
theorem sysRingbuf_regions (hrun : k.Running p) (hclean : k.CleanCall p str op addr)
    (hcall : k.sysRingbuf p str op addr vaddr = .ok (k', n)) :
    RegionStep k p str op n (k'.regions p) := by
  obtain ⟨res, rfl, hcalled⟩ := of_sysRingbuf hcall
  cases hcalled with
  | failed => exact .failed (intFromErr_neg _).ne
  | closed hop hstr hclose =>
    subst hop hstr
    exact close_regions h hs hclose
  | opened hname _ _ hopen =>
    obtain ⟨rfl, rfl, hne⟩ := mem_opens.mp hname
    exact open_regions h hs hne hrun (hclean _ hname) hopen

end Own

theorem RegionStep.stacked (hstep : RegionStep k p str op n (k'.regions p)) (hs : Stacked k p) :
    Stacked k' p := by
  have hok := hs.ok
  have hmod := hs.mod
  suffices h : (k'.regions p).Ok 34 trapframeVpn ∧ (k'.regions p).top % 34 = 2 from ⟨h.1, h.2⟩
  generalize k'.regions p = s at hstep
  cases hstep with
  | failed => exact ⟨hok, hmod⟩
  | opened _ hroom _ =>
    refine ⟨hok.push hroom, ?_⟩
    rw [Bump.push_top]
    omega
  | closed =>
    refine ⟨hok.drop, ?_⟩
    rw [Bump.drop_top]
    split_ifs
    · omega
    · exact hmod

theorem layout_sysRingbuf (h : Inv k) (hl : Layout k p) (hrun : k.Running p)
    (hclean : k.CleanCall p str op addr)
    (hcall : k.sysRingbuf p str op addr vaddr = .ok (k', n)) : Layout k' p :=
  ⟨(sysRingbuf_regions h hl.toStacked hrun hclean hcall).stacked hl.toStacked,
    fun v hv => hl.stray v (tidy_sysRingbuf h hrun hclean hcall p v hv)⟩

/-! ### Regions never collide -/

/-- Who makes the call. -/
def Ev.caller : Ev → ProcIx
  | .ringbuf p _ _ _ _ | .sbrk p _ | .fork p | .exit p | .wait p _ | .exec p _ _ _ | .pipe p
  | .pipeclose p _ => p

/-- Steps of all processes in which the opens of process `p` succeed or fail
before they map anything. -/
def CleanFor (p : ProcIx) (k : Kernel) (e : Ev) (k' : Kernel) : Prop :=
  Steps k e k' ∧ (e.caller = p → k.OpenOk e)

theorem PipeKept.same (h : PipeKept k k') (p : ProcIx) : SameFor k p k' :=
  ⟨by rw [h.procs], fun s c _ => by rw [h.rings]⟩

theorem layout_step (h : Inv k) (hl : Layout k p) (hstep : CleanFor p k e k') : Layout k' p := by
  obtain ⟨⟨hruns, hcall⟩, hopen⟩ := hstep
  cases e with
  | ringbuf j str op addr vaddr =>
    obtain ⟨⟨k₁, n⟩, hsys, hret⟩ := bind_eq_ok.mp hcall
    cases hret
    by_cases hj : j = p
    · subst hj
      exact layout_sysRingbuf h hl hruns (hopen rfl) hsys
    · exact (sysRingbuf_same h (Ne.symm hj) hsys).layout hl
  | sbrk j n =>
    obtain ⟨s, hsys, hret⟩ := bind_eq_ok.mp hcall
    cases hret
    exact hl.of_kept h ((growproc_ends h hruns n).of_ok hsys).1
  | fork j =>
    obtain ⟨s, hsys, hret⟩ := bind_eq_ok.mp hcall
    cases hret
    exact hl.of_kept h ((fork_ends h hruns).of_ok hsys).1
  | exit j => exact hl.of_kept h ((exit_ends h hruns).of_ok hcall).1
  | wait j addr =>
    obtain ⟨s, hsys, hret⟩ := bind_eq_ok.mp hcall
    cases hret
    exact hl.of_kept h ((wait_ends h j addr).of_ok hsys).1
  | exec j path image args =>
    obtain ⟨s, hsys, hret⟩ := bind_eq_ok.mp hcall
    cases hret
    exact hl.of_kept h ((sysExec_ends h hruns.1 path args).of_ok hsys).1
  | pipe j =>
    cases hcall
    exact ((pipealloc_kept h).same p).layout hl
  | pipeclose j pa =>
    obtain ⟨k₁, hr, hkept, -⟩ := pipeclose_spec h hruns.2
    cases hr.symm.trans hcall
    exact (hkept.same p).layout hl

theorem layout_of_run {tr : List Ev} (h₀ : Initial k₀) (hrun : Run (CleanFor p) k₀ tr k) :
    Inv k ∧ Layout k p := by
  refine hrun.invariant (I := fun k => Inv k ∧ Layout k p) ⟨h₀.inv.1, ?_⟩ ?_
  · obtain ⟨kend, trampoline, free, htr, hnodup, hvalid, hu⟩ := h₀.started
    have hboot := inv_boot htr hnodup hvalid
    exact (layout_boot kend trampoline free p).of_kept hboot (userinit_kept hboot hu)
  · rintro k e k' ⟨hinv, hl⟩ hstep
    exact ⟨inv_step hinv hstep.1, layout_step hinv hl hstep⟩

/-- Below the trapframe nothing is mapped but the process's memory and the
regions. -/
theorem Layout.unmapped (h : Inv k) (hl : Layout k p) {v : ℕ} (hsz : npages (k.procs p).sz ≤ v)
    (hv : v < trapframeVpn)
    (hout : ∀ r b, (k.ringbufs r).regionOf p = some b → ¬ (b ≤ v ∧ v < b + 33)) :
    leafAt (k.procs p).pagetable v = none := by
  have hbelow : trapframeVpn < trampolineVpn := by decide
  by_contra hne
  apply hl.stray v
  refine ⟨hne, (hv.trans hbelow).ne, hv.ne, hsz, fun r i b hi hb => hout r b ?_⟩
  rw [Ringbuf.regionOf_of_owner (h.ring r) hi, hb, Option.map_some, Nat.mul_div_cancel b pgSize_pos]

/-- **How the ring buffers of a process lie in its address space**: each where
it is mapped, apart from the others, above the top and below the trapframe,
with an unmapped page above it, and nothing from the process's memory up to the
top. -/
structure RegionsOk (k : Kernel) (p : ProcIx) : Prop where
  mapped : ∀ r, k.Owns p r → ∃ b i, (k.ringbufs r).regionOf p = some b ∧
    Attached (k.ringbufs r) ((k.ringbufs r).owners i) (k.procs p).pagetable b
  apart : ∀ r s b c, r ≠ s → (k.ringbufs r).regionOf p = some b →
    (k.ringbufs s).regionOf p = some c → b + 33 < c ∨ c + 33 < b
  above : ∀ r b, (k.ringbufs r).regionOf p = some b →
    (k.procs p).topFreeUvmPg < b * pgSize ∧ (b + 33) * pgSize < trapframeVA
  gap : ∀ r b, (k.ringbufs r).regionOf p = some b → leafAt (k.procs p).pagetable (b + 33) = none
  free : ∀ v, npages (k.procs p).sz ≤ v → v * pgSize ≤ (k.procs p).topFreeUvmPg →
    leafAt (k.procs p).pagetable v = none

theorem Layout.regionsOk (h : Inv k) (hl : Layout k p) : RegionsOk k p := by
  have haligned := (h.proc p).aligned
  have htop : (k.procs p).topFreeUvmPg / pgSize + 2 ≤ trapframeVpn := hl.ok.top_le
  have hblock : ∀ r b, (k.ringbufs r).regionOf p = some b →
      (k.procs p).topFreeUvmPg / pgSize + 2 ≤ b ∧ b + 34 ≤ trapframeVpn := hl.ok.block
  have hapart : ∀ r s b c, r ≠ s → (k.ringbufs r).regionOf p = some b →
      (k.ringbufs s).regionOf p = some c → b + 34 ≤ c ∨ c + 34 ≤ b := hl.ok.apart
  have hvpn : trapframeVpn * pgSize = trapframeVA := by decide
  refine ⟨?_, ?_, ?_, ?_, ?_⟩
  · rintro r ⟨i, hi⟩
    obtain ⟨-, b, hatt⟩ := h.owner r i p hi
    exact ⟨b, i, h.regionOf_attached hi hatt, hatt⟩
  · intro r s b c hrs hb hc
    rcases hapart r s b c hrs hb hc with hlt | hlt
    · exact .inl hlt
    · exact .inr hlt
  · intro r b hb
    obtain ⟨hlow, hhigh⟩ := hblock r b hb
    rw [← hvpn]
    simp only [pgSize] at hlow haligned ⊢
    omega
  · intro r b hb
    obtain ⟨-, hhigh⟩ := hblock r b hb
    obtain ⟨i, hi, hatt⟩ := h.regionOf_iff.mp hb
    -- the process's memory ends below the region
    obtain ⟨-, -, hsz⟩ := h.attached_apart hi hatt (v := b) ⟨le_rfl, by omega⟩
    refine hl.unmapped h (le_trans hsz (Nat.le_add_right b 33)) hhigh fun s c hc hin => ?_
    by_cases hrs : r = s
    · subst hrs
      cases hb.symm.trans hc
      exact absurd hin.2 (lt_irrefl _)
    · have := hapart r s b c hrs hb hc
      omega
  · intro v hsz hv
    have hvpage : v ≤ (k.procs p).topFreeUvmPg / pgSize :=
      (Nat.le_div_iff_mul_le pgSize_pos).mpr hv
    refine hl.unmapped h hsz (by omega) fun r b hb hin => ?_
    have := (hblock r b hb).1
    omega

/-- With thirty-four pages between the process's memory and the top the next
open does not come upon a page that is mapped. -/
theorem Layout.no_remap (h : Inv k) (hl : Layout k p)
    (hroom : pgRoundUp (k.procs p).sz + 34 * pgSize ≤ (k.procs p).topFreeUvmPg) :
    k.sysRingbuf p str op addr vaddr ≠ .error .mappagesRemap := by
  have hpages : pgRoundUp (k.procs p).sz = npages (k.procs p).sz * pgSize := rfl
  have htop : (k.procs p).topFreeUvmPg / pgSize + 2 ≤ trapframeVpn := hl.ok.top_le
  have hmappable : ∀ va ∈ downFrom 33 (k.procs p).topFreeUvmPg,
      Mappable (k.procs p).pagetable va := by
    intro va hva
    obtain ⟨t, ht, rfl⟩ := mem_downFrom (h.proc p).word hva
    have hword := (h.proc p).word
    have haligned := (h.proc p).aligned
    have hdiv : sub64 (k.procs p).topFreeUvmPg (t * pgSize) / pgSize
        = (k.procs p).topFreeUvmPg / pgSize - t := by
      simp only [sub64, pgSize] at hroom haligned ⊢
      omega
    constructor
    · rw [lt_maxVA_iff, hdiv]
      have : trapframeVpn < vpnMax := by decide
      omega
    · rw [hdiv]
      apply (hl.regionsOk h).free
      · simp only [hpages, pgSize] at hroom haligned ⊢
        omega
      · simp only [pgSize] at haligned ⊢
        omega
  intro hcall
  rcases of_sysRingbuf_error h hcall with hno | ⟨name, -, hlen, hopen⟩
  · cases hno
  · rcases (open_error h hlen name.nonzero hopen).2 with hno | hout
    · cases hno
    · unfold mapOutcome at hout
      rw [if_pos hmappable] at hout
      split_ifs at hout

/-- **The ring buffers of a process never collide**, whatever all processes do,
as long as its own opens succeed or fail before they map anything.  With room
for it the next open does not stop the kernel with "mappages: remap", and a
close does not put the top above a region that is still in use. -/
theorem regions_never_collide {tr : List Ev} (h₀ : Initial k₀) (hrun : Run (CleanFor p) k₀ tr k) :
    RegionsOk k p ∧
      (pgRoundUp (k.procs p).sz + 34 * pgSize ≤ (k.procs p).topFreeUvmPg →
        ∀ str op addr vaddr, k.sysRingbuf p str op addr vaddr ≠ .error .mappagesRemap) ∧
      ∀ str addr vaddr k' n, k.Running p → k.sysRingbuf p str 0 addr vaddr = .ok (k', n) →
        ∀ r b, (k'.ringbufs r).regionOf p = some b → (k'.procs p).topFreeUvmPg < b * pgSize := by
  obtain ⟨hinv, hl⟩ := layout_of_run h₀ hrun
  refine ⟨hl.regionsOk hinv, fun hroom str op addr vaddr => hl.no_remap hinv hroom, ?_⟩
  intro str addr vaddr k' n hruns hcall r b hb
  have hclean : k.CleanCall p str 0 addr := fun name hname =>
    absurd (mem_opens.mp hname).2.1 (by decide)
  have hl' := layout_sysRingbuf hinv hl hruns hclean hcall
  exact ((hl'.regionsOk (inv_sysRingbuf hinv hruns hcall)).above r b hb).1

/-- Two processes that share a ring buffer. -/
theorem regions_never_collide_sharing :
    ∃ k₀ k, Initial k₀ ∧ Run (CleanFor 0) k₀ sharing k ∧
      (k.ringbufs 0).regionOf 0 = some (trapframeVpn - 34) ∧ RegionsOk k 0 ∧
      k.sysRingbuf 0 (some demoName) 1 0 0 ≠ .error .mappagesRemap := by
  obtain ⟨k₀, k, h₀, hrun, hv⟩ := exists_cleanRun
    (g := fun k => ((k.ringbufs 0).regionOf 0,
      decide (pgRoundUp (k.procs 0).sz + 34 * pgSize ≤ (k.procs 0).topFreeUvmPg)))
    (v := (some (trapframeVpn - 34), true)) sharing (by decide +kernel)
  obtain ⟨hregion, hroom⟩ := Prod.mk.inj hv
  have hrun' : Run (CleanFor 0) k₀ sharing k := hrun.mono fun hstep => ⟨hstep.1, fun _ => hstep.2⟩
  obtain ⟨hok, hremap, -⟩ := regions_never_collide h₀ hrun'
  exact ⟨k₀, k, h₀, hrun', hregion, hok, hremap (of_decide_eq_true hroom) _ _ _ _⟩

/-! ### The room that regions take up -/

theorem count_regions (h : Inv k) (p : ProcIx) : (k.regions p).count = (k.ringsOf p).card := by
  unfold Bump.count ringsOf
  rw [Finset.card_filter]
  apply Finset.sum_congr rfl
  intro r _
  show ((k.ringbufs r).regionOf p).toList.length = if k.Owns p r then 1 else 0
  by_cases hown : k.Owns p r
  · obtain ⟨b, hb⟩ := Option.ne_none_iff_exists'.mp (h.regionOf_ne_none.mpr hown)
    rw [hb, if_pos hown]
    rfl
  · rw [Ringbuf.regionOf_eq_none fun i hi => hown ⟨i, hi⟩, if_neg hown]
    rfl

/-- The call, if it is a close, is of the ring buffer whose region is the
lowest. -/
def Reclaims (k : Kernel) (p : ProcIx) (str : Option CStr) (op : Int32) : Prop :=
  op = 0 → ∀ name ∈ str, ∀ r, k.findRingbufByName name.bytes = some r →
    (k.ringbufs r).regionOf p = some ((k.procs p).topFreeUvmPg / pgSize + 2)

instance (k : Kernel) (p : ProcIx) (str : Option CStr) (op : Int32) :
    Decidable (k.Reclaims p str op) :=
  inferInstanceAs (Decidable (op = 0 → ∀ name ∈ str, ∀ r,
    k.findRingbufByName name.bytes = some r →
      (k.ringbufs r).regionOf p = some ((k.procs p).topFreeUvmPg / pgSize + 2)))

/-- Ring-buffer calls: those of process `p` succeed, the others are any.  The
number counts the closes of process `p` that were not of the lowest region. -/
inductive RingSteps (p : ProcIx) : Kernel × ℕ → Ev → Kernel × ℕ → Prop
  | own {k k' : Kernel} {str : Option CStr} {op : Int32} {addr vaddr lost : ℕ}
      (running : k.Running p) (call : k.sysRingbuf p str op addr vaddr = .ok (k', 0)) :
      RingSteps p (k, lost) (.ringbuf p str op addr vaddr)
        (k', lost + if k.Reclaims p str op then 0 else 1)
  | other {k k' : Kernel} {j : ProcIx} {str : Option CStr} {op : Int32} {addr vaddr lost : ℕ}
      {n : ℤ} (running : k.Running j) (ne : p ≠ j)
      (call : k.sysRingbuf j str op addr vaddr = .ok (k', n)) :
      RingSteps p (k, lost) (.ringbuf j str op addr vaddr) (k', lost)

/-- The account of the regions. -/
structure Accounted (p : ProcIx) (s : Kernel × ℕ) : Prop where
  inv : Inv s.1
  stacked : Stacked s.1 p
  balanced : (s.1.regions p).Balanced 34 trapframeVpn s.2

theorem RegionStep.balanced {lost : ℕ} {t : Bump RingIx} (h : RegionStep k p str op 0 t)
    (hb : (k.regions p).Balanced 34 trapframeVpn lost) :
    t.Balanced 34 trapframeVpn (lost + if k.Reclaims p str op then 0 else 1) := by
  cases h with
  | failed hne => exact absurd rfl hne
  | opened hop hroom hfree =>
    have hrec : k.Reclaims p str op := fun h0 => absurd (h0.symm.trans hop) (by decide)
    rw [if_pos hrec]
    exact hb.push hroom hfree
  | closed hop hstr hfound hused =>
    rename_i name r
    -- the ring buffer of that name is the one that was closed
    have hrec : k.Reclaims p str op ↔ (k.regions p).base r = some (k.regions p).top := by
      subst hop hstr
      constructor
      · exact fun hall => hall rfl name rfl r hfound
      · intro hlow _ name' hname' r' hr'
        cases hname'
        cases hfound.symm.trans hr'
        exact hlow
    simp only [hrec]
    exact hb.drop hused

theorem accounted_step {s s' : Kernel × ℕ} (h : Accounted p s) (hstep : RingSteps p s e s') :
    Accounted p s' := by
  obtain ⟨hinv, hs, hb⟩ := h
  cases hstep with
  | own hrun hcall =>
    rename_i k₁ k₂ str op addr vaddr lost
    have hclean : k₁.CleanCall p str op addr := by
      by_contra hnot
      exact (not_cleanCall hinv hcall hnot).1 rfl
    have hregions := sysRingbuf_regions hinv hs hrun hclean hcall
    exact ⟨inv_sysRingbuf hinv hrun hcall, hregions.stacked hs, hregions.balanced hb⟩
  | other hrun hj hcall =>
    have hsame := sysRingbuf_same hinv hj hcall
    refine ⟨inv_sysRingbuf hinv hrun hcall, hsame.stacked hs, ?_⟩
    show Bump.Balanced _ _ _ _
    rw [hsame.regions]
    exact hb

/-- **No address space has leaked**: the top is at most the room of
`MAX_RINGBUFS` regions below where it starts, and back there when the process
has no ring buffer open. -/
structure SpaceKept (k : Kernel) (p : ProcIx) : Prop where
  bounded : Proc.empty.topFreeUvmPg ≤
    (k.procs p).topFreeUvmPg + 34 * maxRingbufs * pgSize
  restored : (∀ r, ¬ k.Owns p r) → (k.procs p).topFreeUvmPg = Proc.empty.topFreeUvmPg

/-- **Only a close of the lowest region gives address space back**: after any successful opens
and closes the top is below its start by the room of the ring buffers that are open and of the
closes of other regions.  So it is where it should be if and only if there was no such close
when nothing is open, and not too many otherwise. -/
theorem space_kept_iff {tr : List Ev} {lost : ℕ} (h₀ : Reachable k₀)
    (htop : (k₀.procs p).topFreeUvmPg = Proc.empty.topFreeUvmPg) (hnot : ∀ r, ¬ k₀.Owns p r)
    (hrun : Run (RingSteps p) (k₀, 0) tr (k, lost)) :
    (k.procs p).topFreeUvmPg + 34 * pgSize * ((k.ringsOf p).card + lost)
      = Proc.empty.topFreeUvmPg ∧
    (SpaceKept k p ↔
      (k.ringsOf p).card + lost ≤ maxRingbufs ∧ (k.ringsOf p = ∅ → lost = 0)) := by
  have hstart : Accounted p (k₀, 0) := by
    refine ⟨h₀.inv, Stacked.of_empty htop hnot, ?_⟩
    show (k₀.procs p).topFreeUvmPg / pgSize + 2 + 34 * ((k₀.regions p).count + 0) = trapframeVpn
    rw [count_regions h₀.inv, ringsOf_eq_empty hnot, htop, top_empty]
    rfl
  obtain ⟨hinv, -, hb⟩ := hrun.invariant (I := Accounted p) hstart accounted_step
  have haligned := (hinv.proc p).aligned
  -- the account, in pages and in bytes
  have hpages : (k.procs p).topFreeUvmPg / pgSize + 2 + 34 * ((k.ringsOf p).card + lost)
      = Proc.empty.topFreeUvmPg / pgSize + 2 := by
    rw [← count_regions hinv, top_empty]
    exact hb
  have hsum : (k.procs p).topFreeUvmPg + 34 * pgSize * ((k.ringsOf p).card + lost)
      = Proc.empty.topFreeUvmPg := by
    have hstart : Proc.empty.topFreeUvmPg = 67108860 * pgSize := by decide
    rw [hstart] at hpages ⊢
    simp only [pgSize] at hpages haligned ⊢
    omega
  refine ⟨hsum, ?_, ?_⟩
  · rintro ⟨hbound, hrestored⟩
    refine ⟨?_, fun hempty => ?_⟩
    · simp only [maxRingbufs, pgSize] at hsum hbound ⊢
      omega
    · have hback := hrestored fun r hown =>
        absurd (mem_ringsOf.mpr hown) (hempty ▸ Finset.notMem_empty r)
      rw [hempty, Finset.card_empty, hback] at hsum
      simp only [pgSize] at hsum
      omega
  · rintro ⟨hbound, hrestored⟩
    refine ⟨?_, fun hnone => ?_⟩
    · simp only [maxRingbufs, pgSize] at hsum hbound ⊢
      omega
    · have hempty := ringsOf_eq_empty hnone
      rw [hempty, Finset.card_empty, hrestored hempty] at hsum
      exact hsum

/-! ### Two ring buffers -/

/-- A machine with sixty pages, as its first process starts. -/
def machine : Option Kernel :=
  (boot 0x80100000 0x80008000
    ((List.range 60).map fun i => 0x80200000 + i * pgSize)).userinit.toOption.join

theorem machine_initial (h : machine = some k) : Initial k := by
  refine ⟨0x80100000, 0x80008000, (List.range 60).map fun i => 0x80200000 + i * pgSize, by decide,
    by decide, by decide, ?_⟩
  unfold machine at h
  rcases hu : (boot 0x80100000 0x80008000
    ((List.range 60).map fun i => 0x80200000 + i * pgSize)).userinit with x | o
  · rw [hu] at h
    cases h
  · rw [hu] at h
    exact congrArg Except.ok h

/-- The step as a function, for the first process alone. -/
def nextRing (s : Kernel × ℕ) : Ev → Option (Kernel × ℕ)
  | .ringbuf 0 str op addr vaddr =>
      if s.1.Running 0 then
        (s.1.sysRingbuf 0 str op addr vaddr).toOption.bind fun t =>
          if t.2 = 0 then some (t.1, s.2 + if s.1.Reclaims 0 str op then 0 else 1) else none
      else none
  | _ => none

theorem ringSteps_of_nextRing {s s' : Kernel × ℕ} (h : nextRing s e = some s') :
    RingSteps 0 s e s' := by
  obtain ⟨k, lost⟩ := s
  unfold nextRing at h
  split at h
  · by_cases hrun : k.Running 0
    · rw [if_pos hrun] at h
      obtain ⟨⟨k', n⟩, hcall, hret⟩ := Option.bind_eq_some_iff.mp h
      by_cases hn : n = 0
      · rw [if_pos hn] at hret
        cases hret
        subst hn
        exact .own hrun (toOption_eq_some hcall)
      · rw [if_neg hn] at hret
        cases hret
    · rw [if_neg hrun] at h
      cases h
  · cases h

/-- A run of successful calls of the first process, of which something was
evaluated. -/
theorem exists_ringRun {γ : Type} {g : Kernel × ℕ → γ} {v : γ} (tr : List Ev)
    (h : (machine.bind fun k => tr.foldlM nextRing (k, 0)).map g = some v) :
    ∃ k₀ k lost, Initial k₀ ∧ Run (RingSteps 0) (k₀, 0) tr (k, lost) ∧ g (k, lost) = v := by
  obtain ⟨⟨k, lost⟩, hk, hv⟩ := Option.map_eq_some_iff.mp h
  obtain ⟨k₀, h₀, hfold⟩ := Option.bind_eq_some_iff.mp hk
  exact ⟨k₀, k, lost, machine_initial h₀, Run.of_foldlM ringSteps_of_nextRing tr hfold, hv⟩

theorem Initial.fresh (h₀ : Initial k₀) (p : ProcIx) :
    (k₀.procs p).topFreeUvmPg = Proc.empty.topFreeUvmPg ∧ ∀ r, ¬ k₀.Owns p r := by
  obtain ⟨kend, trampoline, free, htr, hnodup, hvalid, hu⟩ := h₀.started
  have hkept := userinit_kept (inv_boot htr hnodup hvalid) hu
  refine ⟨(hkept.tops p).elim id And.left, fun r hown => ?_⟩
  obtain ⟨i, hi⟩ := hkept.owns hown
  cases hi

/-- A call of the first process on the ring buffer named by a letter. -/
def ringCall (letter : CStr) (op : Int32) (vaddr : ℕ) : Ev :=
  .ringbuf 0 (some letter) op 0 vaddr

/-- Another name of one letter. -/
def otherName : CStr := ⟨[98], by decide, by decide⟩

/-- Where the buffer of the first region starts, and that of the second. -/
def firstBuf : ℕ := (trapframeVpn - 33) * pgSize

def secondBuf : ℕ := (trapframeVpn - 67) * pgSize

/-- Two ring buffers, the one that was opened last closed first. -/
def lastFirst : List Ev :=
  [ringCall demoName 1 0, ringCall otherName 1 0, ringCall otherName 0 secondBuf,
    ringCall demoName 0 firstBuf]

theorem space_kept_lastFirst :
    ∃ k₀ k lost, Reachable k₀ ∧ Run (RingSteps 0) (k₀, 0) lastFirst (k, lost) ∧ SpaceKept k 0 := by
  obtain ⟨k₀, k, lost, h₀, hrun, hv⟩ := exists_ringRun
    (g := fun s => (decide (s.1.ringsOf 0 = ∅), s.2)) (v := (true, 0)) lastFirst (by decide +kernel)
  obtain ⟨hempty, hlost⟩ := Prod.mk.inj hv
  obtain ⟨htop, hnot⟩ := h₀.fresh 0
  have hreach : Reachable k₀ := ⟨k₀, [], h₀, .nil k₀⟩
  refine ⟨k₀, k, lost, hreach, hrun, ?_⟩
  refine (space_kept_iff hreach htop hnot hrun).2.mpr ⟨?_, fun _ => hlost⟩
  rw [of_decide_eq_true hempty, show lost = 0 from hlost]
  decide

/-- The same two ring buffers, the one that was opened first closed first. -/
def firstFirst : List Ev :=
  [ringCall demoName 1 0, ringCall otherName 1 0, ringCall demoName 0 firstBuf,
    ringCall otherName 0 secondBuf]

/-- Nothing is open, and the room of a region is lost. -/
theorem space_leaks_firstFirst :
    ∃ k₀ k lost, Reachable k₀ ∧ (k₀.procs 0).topFreeUvmPg = Proc.empty.topFreeUvmPg ∧
      (∀ r, ¬ k₀.Owns 0 r) ∧ Run (RingSteps 0) (k₀, 0) firstFirst (k, lost) ∧
      (∀ r, ¬ k.Owns 0 r) ∧
      (k.procs 0).topFreeUvmPg + 34 * pgSize = Proc.empty.topFreeUvmPg ∧ ¬ SpaceKept k 0 := by
  obtain ⟨k₀, k, lost, h₀, hrun, hv⟩ := exists_ringRun
    (g := fun s => (decide (∀ r, ¬ s.1.Owns 0 r),
      decide ((s.1.procs 0).topFreeUvmPg + 34 * pgSize = Proc.empty.topFreeUvmPg)))
    (v := (true, true)) firstFirst (by decide +kernel)
  obtain ⟨hnone, hlow⟩ := Prod.mk.inj hv
  obtain ⟨htop, hnot⟩ := h₀.fresh 0
  have hempty : ∀ r, ¬ k.Owns 0 r := of_decide_eq_true hnone
  have hleak : (k.procs 0).topFreeUvmPg + 34 * pgSize = Proc.empty.topFreeUvmPg :=
    of_decide_eq_true hlow
  refine ⟨k₀, k, lost, ⟨k₀, [], h₀, .nil k₀⟩, htop, hnot, hrun, hempty, hleak, fun hkept => ?_⟩
  have hback := hkept.restored hempty
  rw [← hback] at hleak
  exact absurd hleak (by simp [pgSize])

end Kernel

end Xv6Zig
