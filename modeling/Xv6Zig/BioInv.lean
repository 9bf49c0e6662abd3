/-
Xv6Zig/BioInv.lean

What the buffer cache keeps (`kernel/bio.c`).

Two halves.  `Counted` is what `bcache.lock` is for: the circular list, at most one
buffer for a block, and `refcnt` as the number of references.  `Locked` is what the
sleep locks are for: who holds which buffer, and that a buffer that was returned has
been read.  A buffer is recycled only when nobody refers to it, so no step of one
process is seen by another half way (`Does.kept`).

`refcnt` does not overflow: a process refers to one buffer at most twice, as its
holder and as a waiter, and there are 64 processes and 30 pins.

Main result: `bcache_ok`.
-/
import Mathlib.Algebra.Order.BigOperators.Group.Finset
import Xv6Zig.Lib.Outcome
import Xv6Zig.Lib.Owners
import Xv6Zig.Lib.Updates
import Xv6Zig.Bio

namespace Xv6Zig

open Lib Function

/-- What an event stores to a buffer. -/
def BioEv.storeTo {D : Type*} (b : BufIx) : BioEv D → Option D
  | .store _ r d => if r.buf = b then some d else none
  | _ => none

namespace Bcache

variable {D : Type*} {s s' : Bcache D} {e : BioEv D} {p : ProcIx} {b : BufIx} {r : Ref}

/-! ### References -/

theorem refs_setCaller (c : Caller) :
    (s.setCaller p c).refs + (s.callers p).uses = s.refs + c.uses := by
  unfold refs
  rw [setCaller_pins, add_right_comm, add_right_comm (∑ q, (s.callers q).uses)]
  exact congrArg (· + (s.pins : Multiset Ref)) (sum_update_add Caller.uses s.callers p c)

theorem refs_congr (hcallers : s'.callers = s.callers) (hpins : s'.pins = s.pins) :
    s'.refs = s.refs := by
  unfold refs
  rw [hcallers, hpins]

theorem refs_setCaller_of_eq {c : Caller} (h : c.uses = (s.callers p).uses) :
    (s.setCaller p c).refs = s.refs := by
  have hmove := refs_setCaller (s := s) (p := p) c
  rw [h] at hmove
  exact add_right_cancel hmove

theorem refs_goto {pc : BioPc} (h : pc.ref? = (s.callers p).pc.ref?) :
    (s.goto p pc).refs = s.refs := by
  apply refs_setCaller_of_eq
  unfold Caller.uses
  rw [h]

theorem refs_goto_take {pc : BioPc} (h : (s.callers p).pc.ref? = none) (hr : pc.ref? = some r) :
    (s.goto p pc).refs = r ::ₘ s.refs := by
  have hmove := refs_setCaller (s := s) (p := p) { s.callers p with pc := pc }
  have huses : Caller.uses { s.callers p with pc := pc } = r ::ₘ (s.callers p).uses := by
    unfold Caller.uses
    rw [h, hr]
    rfl
  rw [huses, Multiset.add_cons, ← Multiset.cons_add] at hmove
  exact add_right_cancel hmove

theorem refs_goto_drop {pc : BioPc} (h : (s.callers p).pc.ref? = some r) (hr : pc.ref? = none) :
    s.refs = r ::ₘ (s.goto p pc).refs := by
  have hmove := refs_setCaller (s := s) (p := p) { s.callers p with pc := pc }
  have huses : (s.callers p).uses = r ::ₘ Caller.uses { s.callers p with pc := pc } := by
    unfold Caller.uses
    rw [h, hr]
    rfl
  rw [huses, Multiset.add_cons, ← Multiset.cons_add] at hmove
  exact (add_right_cancel hmove).symm

/-- `bread` returns the buffer it has a reference to. -/
theorem refs_ret (h : (s.callers p).pc.ref? = some r) : (s.ret p r).refs = s.refs := by
  apply refs_setCaller_of_eq
  unfold Caller.uses
  rw [h]
  rfl

theorem refs_pin (hcallers : s'.callers = s.callers) (hpins : s'.pins.Perm (r :: s.pins)) :
    s'.refs = r ::ₘ s.refs := by
  unfold refs
  rw [hcallers, Multiset.coe_eq_coe.mpr hpins, ← Multiset.cons_coe, Multiset.add_cons]

theorem mem_refs : r ∈ s.refs ↔ (∃ p, r ∈ (s.callers p).uses) ∨ r ∈ s.pins := by
  unfold refs
  rw [Multiset.mem_add, Multiset.mem_sum, Multiset.mem_coe]
  simp

/-! ### The invariant -/

/-- What `bcache.lock` protects. -/
structure Counted (s : Bcache D) : Prop where
  linked : ∃ l, s.links.Linked l ∧ ∀ b, b ∈ l
  unique : ∀ {b b'}, (s.buf b).dev ≠ 0 → (s.buf b).dev = (s.buf b').dev →
    (s.buf b).blockno = (s.buf b').blockno → b = b'
  count : ∀ b, (s.buf b).refcnt.toNat = s.refs.countP (·.buf = b)
  block : ∀ r ∈ s.refs, (s.buf r.buf).dev = r.dev ∧ (s.buf r.buf).blockno = r.blockno

/-- What the sleep locks protect. -/
structure Locked (s : Bcache D) : Prop where
  lock : ∀ {p b}, (s.buf b).lock = some p ↔ b ∈ (s.callers p).locked.map Ref.buf
  once : ∀ p, ((s.callers p).locked.map Ref.buf).Nodup
  held : ∀ {p}, ∀ r ∈ (s.callers p).held, (s.buf r.buf).valid = true
  pinned : ∀ r ∈ s.pins, (s.buf r.buf).valid = true
  pins : s.pins.length ≤ logSize

/-- Both. -/
structure Inv (s : Bcache D) : Prop extends Counted s, Locked s

/-! ### Everything a step can do -/

/-- The step taken. -/
inductive Does (s : Bcache D) : BioEv D → Bcache D → Prop
  | hit {p : ProcIx} {r : Ref} : (s.callers p).pc = .out → (s.buf r.buf).dev = r.dev →
      (s.buf r.buf).blockno = r.blockno →
      Does s (.bget p r.dev r.blockno) ((s.setBuf r.buf
        { s.buf r.buf with refcnt := (s.buf r.buf).refcnt + 1 }).goto p (.lock r))
  | recycle {p : ProcIx} {r : Ref} : (s.callers p).pc = .out →
      (∀ b, (s.buf b).dev = r.dev → (s.buf b).blockno ≠ r.blockno) → (s.buf r.buf).refcnt = 0 →
      Does s (.bget p r.dev r.blockno) ((s.setBuf r.buf
        { s.buf r.buf with dev := r.dev, blockno := r.blockno, valid := false, refcnt := 1 }).goto
          p (.lock r))
  | lock {p : ProcIx} {r : Ref} : (s.callers p).pc = .lock r → (s.buf r.buf).lock = none →
      Does s (.go p) ((s.setBuf r.buf { s.buf r.buf with lock := some p }).goto p (.test r))
  | found {p : ProcIx} {r : Ref} : (s.callers p).pc = .test r → (s.buf r.buf).valid = true →
      Does s (.go p) (s.ret p r)
  | read {p : ProcIx} {r : Ref} : (s.callers p).pc = .test r → (s.buf r.buf).valid = false →
      Does s (.go p) ((s.setBuf r.buf
        { s.buf r.buf with data := s.disk (sector (s.buf r.buf).blockno) }).goto p (.fill r))
  | fill {p : ProcIx} {r : Ref} : (s.callers p).pc = .fill r →
      Does s (.go p) ((s.setBuf r.buf { s.buf r.buf with valid := true }).ret p r)
  | drop {p : ProcIx} {r : Ref} : (s.callers p).pc = .drop r →
      Does s (.go p) ((s.release r.buf).goto p .out)
  | store {p : ProcIx} {r : Ref} {d : D} : s.Holds p r →
      Does s (.store p r d) (s.setBuf r.buf { s.buf r.buf with data := d })
  | bwrite {p : ProcIx} {r : Ref} : s.Holds p r →
      Does s (.bwrite p r) { s with
        disk := update s.disk (sector (s.buf r.buf).blockno) (s.buf r.buf).data }
  | brelse {p : ProcIx} {r : Ref} : s.Holds p r →
      Does s (.brelse p r) ((s.setBuf r.buf { s.buf r.buf with lock := none }).setCaller p
        ⟨.drop r, (s.callers p).held.erase r⟩)
  | bpin {p : ProcIx} {r : Ref} : s.Holds p r → s.pins.length < logSize →
      Does s (.bpin p r)
        { s.setBuf r.buf { s.buf r.buf with refcnt := (s.buf r.buf).refcnt + 1 } with
          pins := r :: s.pins }
  | bunpin {p : ProcIx} {r : Ref} : s.Holds p r → r ∈ s.pins →
      Does s (.bunpin p r)
        { s.setBuf r.buf { s.buf r.buf with refcnt := (s.buf r.buf).refcnt - 1 } with
          pins := s.pins.erase r }

/-- The two searches of `bget` see every buffer. -/
theorem bget_does {dev blockno : UInt32} (hl : ∃ l, s.links.Linked l ∧ ∀ b, b ∈ l)
    (hpc : (s.callers p).pc = .out) (h : s.bget p dev blockno = some s') :
    s.Does (.bget p dev blockno) s' := by
  obtain ⟨l, hlinked, hall⟩ := hl
  have hlen : l.length < nBuf + 1 := by
    have hcard := hlinked.1.length_le_card
    rw [Fintype.card_fin] at hcard
    exact Nat.lt_succ_of_le hcard
  unfold bget at h
  rw [hlinked.find_next _ hlen, hlinked.find_prev _ hlen] at h
  split at h
  case h_1 b hfind =>
    cases h
    have htest := List.find?_some hfind
    simp only [Bool.and_eq_true, beq_iff_eq] at htest
    exact .hit (r := ⟨b, dev, blockno⟩) hpc htest.1 htest.2
  case h_2 hnone =>
    have hmiss : ∀ b, (s.buf b).dev = dev → (s.buf b).blockno ≠ blockno := by
      intro b hdev hblock
      have htest := List.find?_eq_none.mp hnone b (hall b)
      simp [hdev, hblock] at htest
    split at h
    case h_1 b hfind =>
      cases h
      have htest := List.find?_some hfind
      exact .recycle (r := ⟨b, dev, blockno⟩) hpc hmiss (beq_iff_eq.mp htest)
    case h_2 => cases h

theorem advance_does (h : s.advance p = some s') : s.Does (.go p) s' := by
  unfold advance at h
  split at h
  case h_1 => cases h
  case h_2 r hpc =>
    split_ifs at h with hfree
    cases h
    exact .lock hpc hfree
  case h_3 r hpc =>
    split_ifs at h with hvalid
    · cases h
      exact .found hpc hvalid
    · cases h
      exact .read hpc (Bool.eq_false_iff.mpr hvalid)
  case h_4 r hpc =>
    cases h
    exact .fill hpc
  case h_5 r hpc =>
    cases h
    exact .drop hpc

theorem Step.does (hl : ∃ l, s.links.Linked l ∧ ∀ b, b ∈ l) (h : s.Step e s') : s.Does e s' := by
  unfold Step next at h
  cases e with
  | bget p dev blockno =>
    dsimp only at h
    split_ifs at h with hpc
    exact bget_does hl hpc h
  | go p => exact advance_does h
  | store p r d =>
    dsimp only at h
    split_ifs at h with hholds
    cases h
    exact .store hholds
  | bwrite p r =>
    dsimp only at h
    split_ifs at h with hholds
    cases h
    exact .bwrite hholds
  | brelse p r =>
    dsimp only at h
    split_ifs at h with hholds
    cases h
    exact .brelse hholds
  | bpin p r =>
    dsimp only at h
    split_ifs at h with hguard
    cases h
    exact .bpin hguard.1 hguard.2
  | bunpin p r =>
    dsimp only at h
    split_ifs at h with hguard
    cases h
    exact .bunpin hguard.1 hguard.2

/-! ### How many references there can be -/

theorem Locked.countP_uses_le (h : s.Locked) (p : ProcIx) (b : BufIx) :
    (s.callers p).uses.countP (·.buf = b) ≤ 2 := by
  have hcall : (s.callers p).pc.ref?.toList.countP (·.buf = b) ≤ 1 := by
    refine List.countP_le_length.trans ?_
    cases (s.callers p).pc.ref? <;> simp
  have hheld : (s.callers p).held.countP (·.buf = b) ≤ 1 := by
    have hnodup : ((s.callers p).held.map Ref.buf).Nodup := by
      have honce := h.once p
      rw [Caller.locked, List.map_append] at honce
      exact (List.nodup_append.mp honce).2.1
    have hcount := List.nodup_iff_count_le_one.mp hnodup b
    rw [List.count, List.countP_map] at hcount
    refine le_trans (le_of_eq ?_) hcount
    apply List.countP_congr
    intro r _
    simp
  unfold Caller.uses
  rw [Multiset.countP_add, Multiset.coe_countP, Multiset.coe_countP]
  exact Nat.add_le_add hcall hheld

theorem countP_refs (b : BufIx) : s.refs.countP (·.buf = b)
    = ∑ p, (s.callers p).uses.countP (·.buf = b) + s.pins.countP (·.buf = b) := by
  unfold refs
  rw [Multiset.countP_add, Multiset.coe_countP, countP_sum]

theorem Locked.countP_refs_lt (h : s.Locked) (b : BufIx) :
    s.refs.countP (·.buf = b) + 1 < 2 ^ 32 := by
  have hprocs : ∑ p, (s.callers p).uses.countP (·.buf = b) ≤ ∑ _p : ProcIx, 2 :=
    Finset.sum_le_sum fun p _ => h.countP_uses_le p b
  rw [Finset.sum_const, Finset.card_univ, Fintype.card_fin] at hprocs
  have hpins : s.pins.countP (·.buf = b) ≤ 30 := List.countP_le_length.trans h.pins
  rw [countP_refs]
  simp only [smul_eq_mul, nProc] at hprocs
  omega

/-! ### `bcache.lock` -/

namespace Counted

theorem of_blocks (h : s.Counted) (hlinks : ∃ l, s'.links.Linked l ∧ ∀ b, b ∈ l)
    (hbuf : ∀ b, (s'.buf b).dev = (s.buf b).dev ∧ (s'.buf b).blockno = (s.buf b).blockno)
    (hcount : ∀ b, (s'.buf b).refcnt.toNat = s'.refs.countP (·.buf = b))
    (hblock : ∀ r ∈ s'.refs, (s.buf r.buf).dev = r.dev ∧ (s.buf r.buf).blockno = r.blockno) :
    s'.Counted where
  linked := hlinks
  unique := by
    intro b b' hdev hsame hblock
    rw [(hbuf b).1] at hdev hsame
    rw [(hbuf b').1] at hsame
    rw [(hbuf b).2, (hbuf b').2] at hblock
    exact h.unique hdev hsame hblock
  count := hcount
  block := by
    intro r hr
    rw [(hbuf r.buf).1, (hbuf r.buf).2]
    exact hblock r hr

/-- Steps outside the critical sections of `bcache.lock`. -/
theorem congr (h : s.Counted) (hlinks : s'.links = s.links) (hrefs : s'.refs = s.refs)
    (hbuf : ∀ b, (s'.buf b).dev = (s.buf b).dev ∧ (s'.buf b).blockno = (s.buf b).blockno ∧
      (s'.buf b).refcnt = (s.buf b).refcnt) : s'.Counted := by
  refine h.of_blocks (hlinks ▸ h.linked) (fun b => ⟨(hbuf b).1, (hbuf b).2.1⟩) (fun b => ?_)
    (hrefs ▸ h.block)
  rw [(hbuf b).2.2, hrefs]
  exact h.count b

/-- Nobody refers to a buffer whose `refcnt` is 0. -/
theorem ne_of_refcnt (h : s.Counted) (hzero : (s.buf b).refcnt = 0) (hr : r ∈ s.refs) :
    r.buf ≠ b := by
  intro heq
  have hcount := h.count b
  rw [hzero] at hcount
  exact Multiset.countP_eq_zero.mp hcount.symm r hr heq

theorem take (h : s.Counted) (hlt : s.refs.countP (·.buf = r.buf) + 1 < 2 ^ 32)
    (hlinks : s'.links = s.links) (hrefs : s'.refs = r ::ₘ s.refs)
    (hdev : (s.buf r.buf).dev = r.dev) (hblock : (s.buf r.buf).blockno = r.blockno)
    (hbuf : s'.buf = update s.buf r.buf
      { s.buf r.buf with refcnt := (s.buf r.buf).refcnt + 1 }) : s'.Counted := by
  have hsame : ∀ b, (s'.buf b).dev = (s.buf b).dev ∧ (s'.buf b).blockno = (s.buf b).blockno := by
    intro b
    rw [hbuf]
    exact ⟨update_field Buf.dev (by rfl) b, update_field Buf.blockno (by rfl) b⟩
  refine h.of_blocks (hlinks ▸ h.linked) hsame ?_ ?_
  · intro b
    rw [hbuf, hrefs]
    rcases eq_or_ne b r.buf with rfl | hne
    · rw [← h.count r.buf] at hlt
      rw [update_self, Multiset.countP_cons, if_pos rfl, ← h.count r.buf]
      show ((s.buf r.buf).refcnt + 1).toNat = _
      rw [UInt32.toNat_add]
      exact Nat.mod_eq_of_lt hlt
    · rw [update_of_ne hne, Multiset.countP_cons, if_neg hne.symm]
      exact h.count b
  · intro r' hr'
    rw [hrefs, Multiset.mem_cons] at hr'
    rcases hr' with rfl | hr'
    · exact ⟨hdev, hblock⟩
    · exact h.block r' hr'

theorem drop (h : s.Counted) (hlinks : ∃ l, s'.links.Linked l ∧ ∀ b, b ∈ l)
    (hrefs : s.refs = r ::ₘ s'.refs)
    (hbuf : s'.buf = update s.buf r.buf
      { s.buf r.buf with refcnt := (s.buf r.buf).refcnt - 1 }) : s'.Counted := by
  have hsame : ∀ b, (s'.buf b).dev = (s.buf b).dev ∧ (s'.buf b).blockno = (s.buf b).blockno := by
    intro b
    rw [hbuf]
    exact ⟨update_field Buf.dev (by rfl) b, update_field Buf.blockno (by rfl) b⟩
  refine h.of_blocks hlinks hsame (fun b => ?_) fun r' hr' =>
    h.block r' (hrefs ▸ Multiset.mem_cons_of_mem hr')
  · have hcount := h.count b
    rw [hrefs] at hcount
    rw [hbuf]
    rcases eq_or_ne b r.buf with rfl | hne
    · rw [Multiset.countP_cons, if_pos rfl] at hcount
      rw [update_self]
      have hone : (1 : UInt32) ≤ (s.buf r.buf).refcnt := by
        rw [UInt32.le_iff_toNat_le, hcount]
        exact Nat.le_add_left 1 _
      show ((s.buf r.buf).refcnt - 1).toNat = _
      rw [UInt32.toNat_sub_of_le _ _ hone, hcount]
      rfl
    · rw [Multiset.countP_cons, if_neg hne.symm] at hcount
      rw [update_of_ne hne]
      exact hcount

/-- A buffer that nobody refers to gets a block that no buffer has. -/
theorem recycle (h : s.Counted) (hzero : (s.buf r.buf).refcnt = 0)
    (hmiss : ∀ b, (s.buf b).dev = r.dev → (s.buf b).blockno ≠ r.blockno)
    (hlinks : s'.links = s.links) (hrefs : s'.refs = r ::ₘ s.refs)
    (hbuf : s'.buf = update s.buf r.buf
      { s.buf r.buf with dev := r.dev, blockno := r.blockno, valid := false, refcnt := 1 }) :
    s'.Counted := by
  have hself : (s'.buf r.buf).dev = r.dev ∧ (s'.buf r.buf).blockno = r.blockno ∧
      (s'.buf r.buf).refcnt = 1 := by
    rw [hbuf, update_self]
    exact ⟨rfl, rfl, rfl⟩
  have hother : ∀ {b}, b ≠ r.buf → s'.buf b = s.buf b := by
    intro b hne
    rw [hbuf, update_of_ne hne]
  refine ⟨hlinks ▸ h.linked, ?_, ?_, ?_⟩
  · intro b b' hne hdev hblock
    rcases eq_or_ne b r.buf with rfl | hb
    · rcases eq_or_ne b' r.buf with rfl | hb'
      · rfl
      · rw [hself.1, hother hb'] at hdev
        rw [hself.2.1, hother hb'] at hblock
        exact absurd hblock.symm (hmiss b' hdev.symm)
    · rw [hother hb] at hne hdev hblock
      rcases eq_or_ne b' r.buf with rfl | hb'
      · rw [hself.1] at hdev
        rw [hself.2.1] at hblock
        exact absurd hblock (hmiss b hdev)
      · rw [hother hb'] at hdev hblock
        exact h.unique hne hdev hblock
  · intro b
    rw [hrefs, Multiset.countP_cons]
    rcases eq_or_ne b r.buf with rfl | hb
    · rw [hself.2.2, if_pos rfl, ← h.count r.buf, hzero]
      rfl
    · rw [hother hb, if_neg hb.symm]
      exact h.count b
  · intro r' hr'
    rw [hrefs, Multiset.mem_cons] at hr'
    rcases hr' with rfl | hr'
    · exact ⟨hself.1, hself.2.1⟩
    · rw [hother (h.ne_of_refcnt hzero hr')]
      exact h.block r' hr'

end Counted

/-- `brelse` puts a buffer that becomes free behind the head. -/
theorem linked_release (h : ∃ l, s.links.Linked l ∧ ∀ b, b ∈ l) (b : BufIx) :
    ∃ l, (s.release b).links.Linked l ∧ ∀ b, b ∈ l := by
  obtain ⟨l, hlinked, hall⟩ := h
  unfold release
  dsimp only
  split_ifs
  · obtain ⟨l₁, l₂, rfl⟩ := List.append_of_mem (hall b)
    have hout := List.nodup_cons.mp (List.nodup_middle.mp hlinked.1)
    refine ⟨b :: (l₁ ++ l₂), hlinked.unlink.push hout.1, fun b' => ?_⟩
    exact List.perm_middle.mem_iff.mp (hall b')
  · exact ⟨l, hlinked, hall⟩

theorem release_buf (b : BufIx) : (s.release b).buf =
    update s.buf b { s.buf b with refcnt := (s.buf b).refcnt - 1 } := by
  unfold release
  dsimp only
  split_ifs <;> rfl

theorem release_callers (b : BufIx) : (s.release b).callers = s.callers := by
  unfold release
  dsimp only
  split_ifs <;> rfl

theorem release_pins (b : BufIx) : (s.release b).pins = s.pins := by
  unfold release
  dsimp only
  split_ifs <;> rfl

/-! ### The sleep locks -/

/-- The buffer was returned to a process, or is pinned. -/
def InUse (s : Bcache D) (b : BufIx) : Prop :=
  (∃ p, ∃ r ∈ (s.callers p).held, r.buf = b) ∨ ∃ r ∈ s.pins, r.buf = b

theorem InUse.exists_ref (h : s.InUse b) : ∃ r ∈ s.refs, r.buf = b := by
  rcases h with ⟨p, r, hr, hb⟩ | ⟨r, hr, hb⟩
  · exact ⟨r, mem_refs.mpr (.inl ⟨p, Multiset.mem_add.mpr (.inr (Multiset.mem_coe.mpr hr))⟩), hb⟩
  · exact ⟨r, mem_refs.mpr (.inr hr), hb⟩

/-- A field of one buffer changes, and another does not. -/
theorem setBuf_field {β : Type*} (f : Buf D → β) {x : Buf D} (h : f x = f (s.buf b)) (b' : BufIx) :
    f ((s.setBuf b x).buf b') = f (s.buf b') := by
  rw [setBuf_buf]
  exact update_field f h b'

namespace Locked

theorem valid_of_inUse (h : s.Locked) (huse : s.InUse b) : (s.buf b).valid = true := by
  rcases huse with ⟨p, r, hr, rfl⟩ | ⟨r, hr, rfl⟩
  · exact h.held r hr
  · exact h.pinned r hr

/-- A buffer changes; it stays valid if somebody uses it. -/
theorem setBuf (h : s.Locked) {x : Buf D} (hlock : x.lock = (s.buf b).lock)
    (hvalid : s.InUse b → x.valid = true) : (s.setBuf b x).Locked := by
  have hkeep : ∀ r : Ref, (r.buf = b → s.InUse b) → (s.buf r.buf).valid = true →
      ((s.setBuf b x).buf r.buf).valid = true := by
    intro r huse hr
    rcases eq_or_ne r.buf b with heq | hne
    · rw [setBuf_buf, heq, update_self]
      exact hvalid (huse heq)
    · rw [setBuf_buf, update_of_ne hne]
      exact hr
  refine ⟨?_, h.once, ?_, ?_, h.pins⟩
  · intro p b'
    rw [setBuf_field Buf.lock hlock b']
    exact h.lock
  · exact fun {p} r hr => hkeep r (fun heq => .inl ⟨p, r, hr, heq⟩) (h.held r hr)
  · exact fun r hr => hkeep r (fun heq => .inr ⟨r, hr, heq⟩) (h.pinned r hr)

/-- A process moves on with the same sleep locks. -/
theorem setCaller (h : s.Locked) {c : Caller} (hlocked : c.locked = (s.callers p).locked)
    (hheld : ∀ r ∈ c.held, (s.buf r.buf).valid = true) : (s.setCaller p c).Locked := by
  have hsame : ∀ q, ((s.setCaller p c).callers q).locked = (s.callers q).locked := by
    intro q
    rw [setCaller_callers]
    exact update_field Caller.locked hlocked q
  refine ⟨?_, ?_, ?_, h.pinned, h.pins⟩
  · intro q b
    rw [hsame]
    exact h.lock
  · intro q
    rw [hsame]
    exact h.once q
  · intro q r hr
    rcases eq_or_ne q p with rfl | hq
    · rw [setCaller_callers, update_self] at hr
      exact hheld r hr
    · rw [setCaller_callers, update_of_ne hq] at hr
      exact h.held r hr

theorem goto (h : s.Locked) {pc : BioPc} (hpc : pc.locked? = (s.callers p).pc.locked?) :
    (s.goto p pc).Locked := by
  refine h.setCaller ?_ fun r hr => h.held r hr
  unfold Caller.locked
  rw [hpc]

theorem ret (h : s.Locked) (hpc : (s.callers p).pc.locked? = some r)
    (hvalid : (s.buf r.buf).valid = true) : (s.ret p r).Locked := by
  refine h.setCaller ?_ fun r' hr' => ?_
  · unfold Caller.locked
    rw [hpc]
    rfl
  · rcases List.mem_cons.mp hr' with rfl | hr'
    · exact hvalid
    · exact h.held r' hr'

theorem release_buffer (h : s.Locked) (b : BufIx) : (s.release b).Locked := by
  have hset : (s.setBuf b { s.buf b with refcnt := (s.buf b).refcnt - 1 }).Locked :=
    h.setBuf rfl h.valid_of_inUse
  unfold Bcache.release
  dsimp only
  split_ifs
  · exact ⟨hset.lock, hset.once, hset.held, hset.pinned, hset.pins⟩
  · exact hset

theorem owners (h : s.Locked) :
    Owners (fun b => (s.buf b).lock) fun p => (s.callers p).locked.map Ref.buf :=
  ⟨h.lock, h.once⟩

theorem of_owners (h : s.Locked) {o : Option ProcIx}
    (hbuf : s'.buf = update s.buf r.buf { s.buf r.buf with lock := o })
    (howners : Owners (update (fun b => (s.buf b).lock) r.buf o)
      fun p => (s'.callers p).locked.map Ref.buf)
    (hother : ∀ q ≠ p, s'.callers q = s.callers q)
    (hheld : (s'.callers p).held ⊆ (s.callers p).held) (hpins : s'.pins = s.pins) : s'.Locked := by
  have hvalid : ∀ b, (s'.buf b).valid = (s.buf b).valid := by
    rw [hbuf]
    exact update_field Buf.valid rfl
  have hlock : ∀ b, (s'.buf b).lock = update (fun b => (s.buf b).lock) r.buf o b := by
    rw [hbuf]
    exact apply_update (fun _ => Buf.lock) s.buf r.buf _
  refine ⟨fun {q b} => ?_, howners.nodup, ?_, ?_, hpins ▸ h.pins⟩
  · rw [hlock]
    exact howners.mem
  · intro q r' hr'
    rw [hvalid]
    rcases eq_or_ne q p with rfl | hq
    · exact h.held r' (hheld hr')
    · exact h.held r' (hother q hq ▸ hr')
  · intro r' hr'
    rw [hvalid]
    exact h.pinned r' (hpins ▸ hr')

theorem acquire (h : s.Locked) (hfree : (s.buf r.buf).lock = none)
    (hbuf : s'.buf = update s.buf r.buf { s.buf r.buf with lock := some p })
    (hself : (s'.callers p).locked = r :: (s.callers p).locked)
    (hother : ∀ q ≠ p, s'.callers q = s.callers q)
    (hheld : (s'.callers p).held = (s.callers p).held) (hpins : s'.pins = s.pins) : s'.Locked := by
  refine h.of_owners hbuf (h.owners.acquire hfree rfl ?_ ?_) hother
    (hheld ▸ List.Subset.refl _) hpins
  · rw [hself]
    rfl
  · intro q hq
    rw [hother q hq]

theorem release (h : s.Locked) (hr : r ∈ (s.callers p).locked)
    (hbuf : s'.buf = update s.buf r.buf { s.buf r.buf with lock := none })
    (hself : (s'.callers p).locked = (s.callers p).locked.erase r)
    (hother : ∀ q ≠ p, s'.callers q = s.callers q)
    (hheld : (s'.callers p).held ⊆ (s.callers p).held) (hpins : s'.pins = s.pins) : s'.Locked := by
  refine h.of_owners hbuf (h.owners.release (p := p) rfl ?_ ?_) hother hheld hpins
  · rw [hself]
    exact (List.perm_cons_erase hr).map Ref.buf
  · intro q hq
    rw [hother q hq]

end Locked

/-! ### Every step keeps both -/

section Step

/-- A process that holds a buffer has counted it. -/
theorem Holds.mem_refs (h : s.Holds p r) : r ∈ s.refs := by
  rw [Bcache.mem_refs]
  refine .inl ⟨p, Multiset.mem_add.mpr (.inr ?_)⟩
  exact Multiset.mem_coe.mpr h.2.1

/-- A step of a process that leaves the block and `refcnt` of every buffer alone. -/
theorem Counted.setBuf (hc : s.Counted) {x : Buf D} (hx : x.dev = (s.buf b).dev ∧
    x.blockno = (s.buf b).blockno ∧ x.refcnt = (s.buf b).refcnt) : (s.setBuf b x).Counted :=
  hc.congr rfl (refs_congr rfl rfl) fun b' =>
    ⟨setBuf_field Buf.dev hx.1 b', setBuf_field Buf.blockno hx.2.1 b',
      setBuf_field Buf.refcnt hx.2.2 b'⟩

theorem Counted.setCaller (hc : s.Counted) {c : Caller} (h : (s.setCaller p c).refs = s.refs) :
    (s.setCaller p c).Counted :=
  hc.congr rfl h fun _ => ⟨rfl, rfl, rfl⟩

theorem Counted.step (hc : s.Counted) (hl : s.Locked) (h : s.Does e s') : s'.Counted := by
  cases h with
  | @hit p r hpc hdev hblock =>
    refine hc.take (hl.countP_refs_lt r.buf) rfl ?_ hdev hblock rfl
    have htake := refs_goto_take (s := s) (p := p) (r := r) (congrArg BioPc.ref? hpc)
      (show (BioPc.lock r).ref? = some r from rfl)
    rw [← htake]
    exact refs_congr rfl rfl
  | @recycle p r hpc hmiss hzero =>
    refine hc.recycle hzero hmiss rfl ?_ rfl
    have htake := refs_goto_take (s := s) (p := p) (r := r) (congrArg BioPc.ref? hpc)
      (show (BioPc.lock r).ref? = some r from rfl)
    rw [← htake]
    exact refs_congr rfl rfl
  | lock hpc | read hpc =>
    refine Counted.setCaller (hc.setBuf ?_) (refs_goto ?_)
    · exact ⟨rfl, rfl, rfl⟩
    · exact (congrArg BioPc.ref? hpc).symm
  | found hpc => exact hc.setCaller (refs_ret (congrArg BioPc.ref? hpc))
  | fill hpc =>
    refine Counted.setCaller (hc.setBuf ?_) (refs_ret ?_)
    · exact ⟨rfl, rfl, rfl⟩
    · exact congrArg BioPc.ref? hpc
  | @drop p r hpc =>
    have hcall : ((s.release r.buf).callers p).pc.ref? = some r := by
      rw [release_callers, hpc]
      rfl
    refine hc.drop (linked_release hc.linked r.buf) ?_ (release_buf r.buf)
    rw [← refs_goto_drop hcall rfl]
    exact (refs_congr (release_callers r.buf) (release_pins r.buf)).symm
  | store =>
    refine hc.setBuf ?_
    exact ⟨rfl, rfl, rfl⟩
  | bwrite => exact hc.congr rfl (refs_congr rfl rfl) fun _ => ⟨rfl, rfl, rfl⟩
  | @brelse p r hholds =>
    refine Counted.setCaller (hc.setBuf ?_) (refs_setCaller_of_eq ?_)
    · exact ⟨rfl, rfl, rfl⟩
    · show (r ::ₘ ((s.callers p).held.erase r : Multiset Ref)) = (s.callers p).uses
      unfold Caller.uses
      rw [hholds.1]
      exact Multiset.coe_eq_coe.mpr (List.perm_cons_erase hholds.2.1).symm
  | @bpin p r hholds =>
    obtain ⟨hdev, hblock⟩ := hc.block r hholds.mem_refs
    exact hc.take (hl.countP_refs_lt r.buf) rfl (refs_pin rfl (.refl _)) hdev hblock rfl
  | @bunpin p r hholds hpin =>
    refine hc.drop hc.linked (refs_pin rfl ?_) rfl
    exact List.perm_cons_erase hpin

theorem Locked.step (hl : s.Locked) (hc : s.Counted) (h : s.Does e s') : s'.Locked := by
  cases h with
  | hit hpc | read hpc =>
    refine Locked.goto (hl.setBuf ?_ ?_) ?_
    · rfl
    · exact hl.valid_of_inUse
    · exact (congrArg BioPc.locked? hpc).symm
  | recycle hpc hmiss hzero =>
    refine Locked.goto (hl.setBuf ?_ fun huse => ?_) ?_
    · rfl
    · -- nobody uses the buffer
      obtain ⟨r', hr', hb⟩ := huse.exists_ref
      exact absurd hb (hc.ne_of_refcnt hzero hr')
    · exact (congrArg BioPc.locked? hpc).symm
  | @lock p r hpc hfree =>
    refine hl.acquire hfree rfl ?_ ?_ ?_ rfl
    · simp [Bcache.goto, Caller.locked, hpc, BioPc.locked?]
    · intro q hq
      simp [Bcache.goto, hq]
    · simp [Bcache.goto]
  | found hpc hvalid => exact hl.ret (congrArg BioPc.locked? hpc) hvalid
  | fill hpc =>
    refine Locked.ret (hl.setBuf ?_ ?_) (congrArg BioPc.locked? hpc) ?_
    · rfl
    · exact fun _ => rfl
    · simp
  | @drop p r hpc =>
    refine (hl.release_buffer r.buf).goto ?_
    rw [release_callers, hpc]
    rfl
  | store => exact hl.setBuf rfl hl.valid_of_inUse
  | bwrite => exact ⟨hl.lock, hl.once, hl.held, hl.pinned, hl.pins⟩
  | @brelse p r hholds =>
    obtain ⟨hpc, hmem, -⟩ := hholds
    have hlocked : (s.callers p).locked = (s.callers p).held := by
      simp [Caller.locked, hpc, BioPc.locked?]
    refine hl.release (hlocked ▸ hmem) rfl ?_ ?_ ?_ rfl
    · rw [hlocked]
      simp [Caller.locked, BioPc.locked?]
    · intro q hq
      simp [hq]
    · simp [List.erase_subset]
  | @bpin p r hholds hroom =>
    have hset : (s.setBuf r.buf { s.buf r.buf with refcnt := (s.buf r.buf).refcnt + 1 }).Locked :=
      hl.setBuf rfl hl.valid_of_inUse
    refine ⟨hset.lock, hset.once, hset.held, fun r' hr' => ?_, hroom⟩
    rcases List.mem_cons.mp hr' with rfl | hr'
    · exact hset.held r' hholds.2.1
    · exact hset.pinned r' hr'
  | @bunpin p r hholds hpin =>
    have hset : (s.setBuf r.buf { s.buf r.buf with refcnt := (s.buf r.buf).refcnt - 1 }).Locked :=
      hl.setBuf rfl hl.valid_of_inUse
    refine ⟨hset.lock, hset.once, hset.held, fun r' hr' => ?_, ?_⟩
    · exact hset.pinned r' (List.mem_of_mem_erase hr')
    · exact List.length_erase_le.trans hl.pins

theorem Inv.step (hi : s.Inv) (h : s.Step e s') : s'.Inv :=
  have hdoes := h.does hi.linked
  ⟨hi.toCounted.step hi.toLocked hdoes, hi.toLocked.step hi.toCounted hdoes⟩

end Step

/-! ### `binit` -/

/-- The loop of `binit` puts every buffer into the list. -/
theorem linked_foldl_push {L : Links BufIx} {l : List BufIx} (h : L.Linked l) (bs : List BufIx)
    (hnodup : bs.Nodup) (hdisj : ∀ b ∈ bs, b ∉ l) :
    (bs.foldl Links.push L).Linked (bs.reverse ++ l) := by
  induction bs generalizing L l with
  | nil => exact h
  | cons b bs ih =>
    obtain ⟨hb, hbs⟩ := List.nodup_cons.mp hnodup
    rw [List.foldl_cons, List.reverse_cons, List.append_assoc]
    refine ih (h.push (hdisj b List.mem_cons_self)) hbs fun b' hb' hmem => ?_
    rcases List.mem_cons.mp hmem with rfl | hmem
    · exact hb hb'
    · exact hdisj b' (List.mem_cons_of_mem _ hb') hmem

theorem inv_binit (disk : UInt32 → D) (zeros : D) : (binit disk zeros).Inv := by
  have hrefs : (binit disk zeros).refs = 0 := by
    refine Multiset.eq_zero_of_forall_notMem fun r hr => ?_
    rcases mem_refs.mp hr with ⟨p, hp⟩ | hp
    · exact absurd hp (Multiset.notMem_zero r)
    · exact absurd hp List.not_mem_nil
  refine ⟨⟨?_, ?_, ?_, ?_⟩, ⟨?_, ?_, ?_, ?_, ?_⟩⟩
  · refine ⟨_, linked_foldl_push Links.linked_empty _ (List.nodup_finRange nBuf) nofun, ?_⟩
    simp
  · exact fun hdev => absurd rfl hdev
  · intro b
    rw [hrefs]
    rfl
  · intro r hr
    rw [hrefs] at hr
    exact absurd hr (Multiset.notMem_zero r)
  · exact fun {p b} => ⟨nofun, nofun⟩
  · exact fun p => List.nodup_nil
  · exact nofun
  · exact nofun
  · exact Nat.zero_le _

theorem inv_run {s₀ : Bcache D} {tr : List (BioEv D)} (h₀ : s₀.Inv) (hrun : Run Step s₀ tr s) :
    s.Inv :=
  hrun.invariant h₀ fun hi hstep => hi.step hstep

/-! ### What a reference is good for -/

/-- The buffer has the same block, is still valid, and has been stored to at most. -/
structure Kept (s : Bcache D) (e : BioEv D) (s' : Bcache D) (b : BufIx) : Prop where
  dev : (s'.buf b).dev = (s.buf b).dev
  blockno : (s'.buf b).blockno = (s.buf b).blockno
  valid : (s.buf b).valid = true → (s'.buf b).valid = true
  data : (s.buf b).valid = true → (s'.buf b).data = (e.storeTo b).getD (s.buf b).data

/-- The buffer has been read from the disk: it is valid, or its reader is about to say so. -/
def Ready (s : Bcache D) (b : BufIx) : Prop :=
  (s.buf b).valid = true ∨ ∃ p r, (s.callers p).pc = .fill r ∧ r.buf = b

/-- `bread` by `p` finds that the buffer is not valid. -/
def Reads (s : Bcache D) (p : ProcIx) (b : BufIx) : Prop :=
  (∃ r, (s.callers p).pc = .test r ∧ r.buf = b) ∧ (s.buf b).valid = false

/-- What a step makes of a buffer. -/
inductive Becomes (s : Bcache D) (e : BioEv D) (b : BufIx) (x : Buf D) : Prop
  | stays : x.dev = (s.buf b).dev → x.blockno = (s.buf b).blockno →
      ((s.buf b).valid = true → x.valid = true) → (x.valid = true → s.Ready b) →
      x.data = (e.storeTo b).getD (s.buf b).data → Becomes s e b x
  | read {p : ProcIx} : e = .go p → s.Reads p b →
      x = { s.buf b with data := s.disk (sector (s.buf b).blockno) } → Becomes s e b x
  | recycled : (s.buf b).refcnt = 0 → x.valid = false → Becomes s e b x

theorem becomes_self (hstore : e.storeTo b = none) : Becomes s e b (s.buf b) := by
  refine .stays rfl rfl id .inl ?_
  rw [hstore]
  rfl

theorem becomes_of_update {b₀ : BufIx} {x : Buf D} (hbuf : s'.buf = update s.buf b₀ x)
    (hx : Becomes s e b₀ x) (hother : ∀ b ≠ b₀, e.storeTo b = none) :
    Becomes s e b (s'.buf b) := by
  rw [hbuf]
  rcases eq_or_ne b b₀ with rfl | hne
  · rwa [update_self]
  · rw [update_of_ne hne]
    exact becomes_self (hother b hne)

theorem Does.becomes (h : s.Does e s') (b : BufIx) : Becomes s e b (s'.buf b) := by
  cases h with
  | hit | lock | brelse | bpin | bunpin =>
    exact becomes_of_update rfl (.stays rfl rfl id .inl rfl) fun _ _ => rfl
  | recycle _ _ hzero => exact becomes_of_update rfl (.recycled hzero rfl) fun _ _ => rfl
  | found | bwrite => exact becomes_self rfl
  | read hpc hinvalid =>
    exact becomes_of_update rfl (.read rfl ⟨⟨_, hpc, rfl⟩, hinvalid⟩ rfl) fun _ _ => rfl
  | fill hpc =>
    refine becomes_of_update rfl (.stays rfl rfl (fun _ => rfl) (fun _ => ?_) rfl) fun _ _ => rfl
    exact .inr ⟨_, _, hpc, rfl⟩
  | @drop p r =>
    exact becomes_of_update (release_buf r.buf) (.stays rfl rfl id .inl rfl) fun _ _ => rfl
  | store =>
    refine becomes_of_update rfl (.stays rfl rfl id .inl ?_) fun b hne => ?_
    · simp [BioEv.storeTo]
    · simp [BioEv.storeTo, hne.symm]

/-- A buffer that somebody refers to is not recycled: it stays with its block, it stays
valid, and its contents change only when a process that holds it stores to it. -/
theorem Does.kept (h : s.Does e s') (href : (s.buf b).refcnt ≠ 0) : Kept s e s' b := by
  cases h.becomes b with
  | stays hdev hblock hvalid _ hdata => exact ⟨hdev, hblock, hvalid, fun _ => hdata⟩
  | read _ hreads hx =>
    -- the data are read from the disk while the buffer is not valid
    have hinvalid (hvalid : (s.buf b).valid = true) : False :=
      Bool.false_ne_true (hreads.2.symm.trans hvalid)
    refine ⟨?_, ?_, fun hvalid => (hinvalid hvalid).elim, fun hvalid => (hinvalid hvalid).elim⟩
    all_goals rw [hx]
  | recycled hzero => exact absurd hzero href

theorem fill_of_setCaller {c : Caller} {q : ProcIx} (hc : ∀ r, c.pc ≠ .fill r)
    (h : ((s.setCaller p c).callers q).pc = .fill r) : (s.callers q).pc = .fill r := by
  rcases update_cases (w := (s.setCaller p c).callers q) rfl with ⟨rfl, hq⟩ | ⟨_, hq⟩
  · rw [← hq] at h
    exact absurd h (hc r)
  · rwa [← hq] at h

/-- Who is about to say that a buffer is valid has read it. -/
theorem Does.fills (h : s.Does e s') {q : ProcIx} (hq : (s'.callers q).pc = .fill r) :
    (s.callers q).pc = .fill r ∨ e = .go q ∧ s.Reads q r.buf ∧
      s'.buf r.buf = { s.buf r.buf with data := s.disk (sector (s.buf r.buf).blockno) } := by
  cases h with
  | hit | recycle | lock | found | fill | brelse =>
    exact .inl (fill_of_setCaller (by simp) hq)
  | @drop p r' =>
    have hq' := fill_of_setCaller (by simp) hq
    rw [release_callers] at hq'
    exact .inl hq'
  | store | bwrite | bpin | bunpin => exact .inl hq
  | @read p r' hpc hinvalid =>
    rcases eq_or_ne q p with rfl | hne
    · cases hq.symm.trans (congrArg Caller.pc (update_self q _ s.callers))
      exact .inr ⟨rfl, ⟨⟨r, hpc, rfl⟩, hinvalid⟩, update_self ..⟩
    · refine .inl (Eq.trans ?_ hq)
      exact (congrArg Caller.pc (update_of_ne hne _ s.callers)).symm

/-- The contents of a buffer after the stores of a run. -/
def lastStored (b : BufIx) (tr : List (BioEv D)) (d : D) : D :=
  tr.foldl (fun d e => (e.storeTo b).getD d) d

/-- A step after which somebody still refers to the buffer. -/
def StepKeeping (b : BufIx) (s : Bcache D) (e : BioEv D) (s' : Bcache D) : Prop :=
  s.Step e s' ∧ ∃ r ∈ s'.refs, r.buf = b

theorem Counted.refcnt_ne_zero (h : s.Counted) (href : ∃ r ∈ s.refs, r.buf = b) :
    (s.buf b).refcnt ≠ 0 := by
  intro hzero
  obtain ⟨r, hr, hb⟩ := href
  exact h.ne_of_refcnt hzero hr hb

/-- As long as there are references the buffer belongs to its block and has what was
last stored to it. -/
theorem kept_run {tr : List (BioEv D)} (hi : s.Inv) (href : ∃ r ∈ s.refs, r.buf = b)
    (hvalid : (s.buf b).valid = true) (hrun : Run (StepKeeping b) s tr s') :
    (s'.buf b).dev = (s.buf b).dev ∧ (s'.buf b).blockno = (s.buf b).blockno ∧
      (s'.buf b).valid = true ∧ (s'.buf b).data = lastStored b tr (s.buf b).data := by
  suffices h : s'.Inv ∧ (∃ r ∈ s'.refs, r.buf = b) ∧ (s'.buf b).dev = (s.buf b).dev ∧
      (s'.buf b).blockno = (s.buf b).blockno ∧ (s'.buf b).valid = true ∧
      (s'.buf b).data = lastStored b tr (s.buf b).data from h.2.2
  induction hrun with
  | nil => exact ⟨hi, href, rfl, rfl, hvalid, rfl⟩
  | @snoc t u tr e _ hlast ih =>
    obtain ⟨hit, href', hdev, hblock, hval, hdata⟩ := ih
    have hkept := (hlast.1.does hit.linked).kept (hit.refcnt_ne_zero href')
    refine ⟨hit.step hlast.1, hlast.2, hkept.dev.trans hdev, hkept.blockno.trans hblock,
      hkept.valid hval, ?_⟩
    rw [hkept.data hval, hdata, lastStored, lastStored, List.foldl_append]
    rfl

/-- The buffer was read from the disk in the run, and has what has been stored to it
since over what the disk had then in the sector of its block. -/
def Filled (s₀ : Bcache D) (tr : List (BioEv D)) (s : Bcache D) (b : BufIx) : Prop :=
  ∃ tr₁ p t tr₂, tr = tr₁ ++ .go p :: tr₂ ∧ Run Step s₀ tr₁ t ∧ t.Reads p b ∧
    (t.buf b).dev = (s.buf b).dev ∧ (t.buf b).blockno = (s.buf b).blockno ∧
    (s.buf b).data = lastStored b tr₂ (t.disk (sector (s.buf b).blockno))

theorem filled_read {s₀ : Bcache D} {tr : List (BioEv D)} (hrun : Run Step s₀ tr s)
    (hreads : s.Reads p b)
    (hbuf : s'.buf b = { s.buf b with data := s.disk (sector (s.buf b).blockno) }) :
    Filled s₀ (tr ++ [.go p]) s' b := by
  refine ⟨tr, p, s, [], rfl, hrun, hreads, ?_⟩
  rw [hbuf]
  exact ⟨rfl, rfl, rfl⟩

theorem Filled.snoc {s₀ : Bcache D} {tr : List (BioEv D)} (h : Filled s₀ tr s b)
    (hdev : (s'.buf b).dev = (s.buf b).dev) (hblock : (s'.buf b).blockno = (s.buf b).blockno)
    (hdata : (s'.buf b).data = (e.storeTo b).getD (s.buf b).data) :
    Filled s₀ (tr ++ [e]) s' b := by
  obtain ⟨tr₁, q, t, tr₂, rfl, hrun, hreads, htdev, htblock, htdata⟩ := h
  refine ⟨tr₁, q, t, tr₂ ++ [e], by simp, hrun, hreads, htdev.trans hdev.symm,
    htblock.trans hblock.symm, ?_⟩
  rw [hdata, htdata, hblock, lastStored, lastStored, List.foldl_append]
  rfl

theorem filled_run {s₀ : Bcache D} {tr : List (BioEv D)} (h₀ : s₀.Inv)
    (hempty : ∀ b, ¬s₀.Ready b) (hrun : Run Step s₀ tr s) (hready : s.Ready b) :
    Filled s₀ tr s b := by
  induction hrun generalizing b with
  | nil => exact absurd hready (hempty b)
  | @snoc t u tr e hrun hlast ih =>
    have hdoes := hlast.does (inv_run h₀ hrun).linked
    -- who is about to set the flag has read now, or had before
    have hfill (hpc : ∃ p r, (u.callers p).pc = .fill r ∧ r.buf = b) :
        (∃ p r, (t.callers p).pc = .fill r ∧ r.buf = b) ∨ Filled s₀ (tr ++ [e]) u b := by
      obtain ⟨q, r, hq, rfl⟩ := hpc
      rcases hdoes.fills hq with hold | ⟨rfl, hreads, hbuf⟩
      · exact .inl ⟨q, r, hold, rfl⟩
      · exact .inr (filled_read hrun hreads hbuf)
    cases hdoes.becomes b with
    | stays hdev hblock _ hvalid hdata =>
      rcases hready with hv | hpc
      · exact (ih (hvalid hv)).snoc hdev hblock hdata
      · exact (hfill hpc).elim (fun hold => (ih (.inr hold)).snoc hdev hblock hdata) id
    | read he hreads hx =>
      subst he
      exact filled_read hrun hreads hx
    | recycled hzero hinvalid =>
      refine (hfill (hready.resolve_left (by simp [hinvalid]))).resolve_left ?_
      rintro ⟨q, r, hq, hb⟩
      have hr : t.refs = r ::ₘ (t.goto q .out).refs := refs_goto_drop (congrArg BioPc.ref? hq) rfl
      have hr : r ∈ t.refs := hr ▸ Multiset.mem_cons_self _ _
      exact (inv_run h₀ hrun).ne_of_refcnt hzero hr hb

/-- **The buffer cache.**  In every state that is reached from `binit`: the links form
one circle through the head and each buffer, once; there is at most one buffer for a
block of a device other than 0; `refcnt` is the number of references, those of the
holders and waiters and the pins of the log; two references to one block of such a device
are to one buffer; a reference is to the buffer that has the block.  A buffer that
somebody has got or pinned is valid, stays with its block and keeps its contents but for
stores by its holders, as long as there is a reference to it.  And a valid buffer was
read from the disk in the run: it has what the disk had then for its block, but for the
stores since. -/
theorem bcache_ok {disk : UInt32 → D} {zeros : D} {tr : List (BioEv D)}
    (hrun : Run Step (binit disk zeros) tr s) :
    (∃ l, s.links.Linked l ∧ ∀ b, b ∈ l) ∧
    (∀ b b', (s.buf b).dev ≠ 0 → (s.buf b).dev = (s.buf b').dev →
      (s.buf b).blockno = (s.buf b').blockno → b = b') ∧
    (∀ b, (s.buf b).refcnt.toNat = s.refs.countP (·.buf = b)) ∧
    (∀ r ∈ s.refs, (s.buf r.buf).dev = r.dev ∧ (s.buf r.buf).blockno = r.blockno) ∧
    (∀ r ∈ s.refs, ∀ r' ∈ s.refs, r.dev ≠ 0 → r.dev = r'.dev → r.blockno = r'.blockno →
      r.buf = r'.buf) ∧
    (∀ b, s.InUse b → (s.buf b).valid = true) ∧
    (∀ b, (∃ r ∈ s.refs, r.buf = b) →
      (∀ e s', s.Step e s' → Kept s e s' b) ∧
      ∀ tr' s', (s.buf b).valid = true → Run (StepKeeping b) s tr' s' →
        (s'.buf b).dev = (s.buf b).dev ∧ (s'.buf b).blockno = (s.buf b).blockno ∧
          (s'.buf b).valid = true ∧ (s'.buf b).data = lastStored b tr' (s.buf b).data) ∧
    ∀ b, (s.buf b).valid = true → Filled (binit disk zeros) tr s b := by
  have hi := inv_run (inv_binit disk zeros) hrun
  refine ⟨hi.linked, fun b b' => hi.unique, hi.count, hi.block, ?_,
    fun b huse => hi.valid_of_inUse huse, fun b href => ⟨?_, ?_⟩, fun b hvalid => ?_⟩
  · intro r hr r' hr' hne hdev hblock
    obtain ⟨hd, hb⟩ := hi.block r hr
    obtain ⟨hd', hb'⟩ := hi.block r' hr'
    refine hi.unique (hd ▸ hne) ?_ ?_
    · rw [hd, hd', hdev]
    · rw [hb, hb', hblock]
  · exact fun e s' hstep => (hstep.does hi.linked).kept (hi.refcnt_ne_zero href)
  · exact fun tr' s' hvalid hrun' => kept_run hi href hvalid hrun'
  · refine filled_run (inv_binit disk zeros) (fun b hready => ?_) hrun (.inl hvalid)
    rcases hready with h | ⟨_, _, h, _⟩ <;> cases h

/-! ### Two readers and a pin -/

/-- Two processes read block 5 of device 1; the first pins it and is in `brelse`. -/
def twoReaders : List (BioEv ℕ) :=
  [.bget 0 1 5, .go 0, .go 0, .go 0, .bpin 0 ⟨0, 1, 5⟩, .bget 1 1 5, .brelse 0 ⟨0, 1, 5⟩, .go 1]

/-- The second process has the lock before the first has dropped its reference, and
the buffer has what the disk has in sector 10. -/
theorem bcache_ok_twoReaders : ∃ s, Run Step (binit UInt32.toNat 0) twoReaders s ∧
    (s.buf 0).refcnt = 3 ∧ s.refs.countP (·.buf = 0) = 3 ∧ (s.buf 0).data = 10 ∧
    Filled (binit UInt32.toNat 0) twoReaders s 0 := by
  obtain ⟨s, hs, hcnt, hdata, hvalid⟩ :
      ∃ s, twoReaders.foldlM next (binit UInt32.toNat 0) = some s ∧ (s.buf 0).refcnt = 3 ∧
        (s.buf 0).data = 10 ∧ (s.buf 0).valid = true := exists_of_decide (by decide +kernel)
  have hrun := Run.of_foldlM (fun h => h) twoReaders hs
  refine ⟨s, hrun, hcnt, ?_, hdata, (bcache_ok hrun).2.2.2.2.2.2.2 0 hvalid⟩
  rw [← (bcache_ok hrun).2.2.1 0, hcnt]
  rfl

end Bcache

end Xv6Zig
