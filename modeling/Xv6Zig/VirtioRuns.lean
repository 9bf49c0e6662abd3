/-
Xv6Zig/VirtioRuns.lean

The requests of the disk driver in every run (`kernel/virtio_disk.c`).

The head of a chain is what goes around: it is in the avail ring, with the device, in the
used ring, or its request has finished.  `Rings` says that the first three hold the
heads of the requests that have not finished, each once.  So a ring never holds more
heads than there are descriptors, and what `virtio_disk_intr` finds is the head of a
request that the device has completed.

Main result: `requests_tracked`.
-/
import Mathlib.Data.List.Perm.Subperm
import Xv6Zig.Lib.Run
import Xv6Zig.Lib.Updates
import Xv6Zig.VirtioInv

namespace Xv6Zig

open Lib Function

namespace Virtio

variable {P B : Type}

/-- The chains in flight. -/
def flight (s : Virtio P B) (p : P) : Option (B × DescChain) := (s.pc p).flight

/-- `i` is the head of a request that has been published and has not finished. -/
def Pending (s : Virtio P B) (i : ℕ) : Prop :=
  ∃ p b idx, s.pc p = .wait b idx ∧ s.busy b = true ∧ (idx.fst : ℕ) = i

/-- Where the heads are: in the avail ring (`av`), with the device, in the used ring (`us`). -/
structure Rings (s : Virtio P B) (av us : List ℕ) : Prop where
  avail : Entries s.disk.avail.ring 8 s.lastAvail s.disk.avail.idx av
  used : Entries s.disk.used.ring 8 s.disk.usedIdx s.disk.used.idx us
  nodup : (av ++ s.taken ++ us).Nodup
  mem : ∀ i, i ∈ av ++ s.taken ++ us ↔ s.Pending i
  status : ∀ {p b idx}, s.pc p = .wait b idx → (idx.fst : ℕ) ∈ us →
    (s.disk.info idx.fst).status = 0

/-- What holds in every state. -/
structure Inv (s : Virtio P B) : Prop where
  caller : ∀ {p b}, (s.pc p).buf? = some b → s.caller b = some p
  chains : Chains s.disk s.flight
  owner : ∀ {p}, s.lock = some (.proc p) ↔ ∃ b idx, s.pc p = .publish b idx
  publish : ∀ {p b idx}, s.pc p = .publish b idx → s.busy b = true ∧
    s.disk.avail.ring (s.disk.avail.idx.toNat % 8) = idx.fst
  rings : ∃ av us, s.Rings av us

variable {s s' : Virtio P B} {p q : P} {b c : B} {idx idx' : DescChain} {av us : List ℕ} {i : ℕ}

theorem flight_of_wait (hp : s.pc p = .wait b idx) : s.flight p = some (b, idx) :=
  congrArg DiskPc.flight hp

theorem Pending.lt (h : s.Pending i) : i < 8 := by
  obtain ⟨p, b, idx, -, -, rfl⟩ := h
  exact idx.fst.isLt

/-- There are no more heads than descriptors. -/
theorem length_le_of_nodup {l : List ℕ} (hnodup : l.Nodup) (hlt : ∀ i ∈ l, i < 8) :
    l.length ≤ 8 := by
  have hsub : l ⊆ List.range 8 := fun i hi => List.mem_range.mpr (hlt i hi)
  have hlen := (List.subperm_of_subset hnodup hsub).length_le
  rwa [List.length_range] at hlen

/-- There is room for a head that is not there yet. -/
theorem Rings.room (h : s.Rings av us) (hi : i < 8) (hnot : ¬ s.Pending i) :
    (av ++ s.taken ++ us).length < 8 := by
  have hnodup : (i :: (av ++ s.taken ++ us)).Nodup :=
    List.nodup_cons.mpr ⟨fun hmem => hnot ((h.mem i).mp hmem), h.nodup⟩
  exact length_le_of_nodup hnodup
    (List.forall_mem_cons.mpr ⟨hi, fun j hj => ((h.mem j).mp hj).lt⟩)

/-- Two processes do not work on one buffer. -/
theorem Inv.eq_of_buf? (h : s.Inv) (hp : (s.pc p).buf? = some b) (hq : (s.pc q).buf? = some b) :
    p = q :=
  Option.some.inj ((h.caller hp).symm.trans (h.caller hq))

theorem Inv.buf_ne (h : s.Inv) (hp : (s.pc p).buf? = some b) (hq : (s.pc q).buf? = some c)
    (hne : q ≠ p) : c ≠ b := by
  rintro rfl
  exact hne (h.eq_of_buf? hq hp)

/-- The head of a request that is not published yet is not pending. -/
theorem Inv.not_pending (h : s.Inv) (hp : s.pc p = .publish b idx) : ¬ s.Pending idx.fst := by
  rintro ⟨q, c, idx', hq, -, hfst⟩
  obtain rfl := h.chains.eq_of_fst (flight_of_wait hq) (congrArg DiskPc.flight hp) (Fin.ext hfst)
  cases hp.symm.trans hq

theorem Inv.not_pending_of_free (h : s.Inv) {i : DescIx} (hi : s.disk.free i = true) :
    ¬ s.Pending i := by
  rintro ⟨q, c, idx', hq, -, heq⟩
  have htaken := (h.chains.chained (flight_of_wait hq)).taken idx'.fst (by simp [DescChain.list])
  rw [Fin.ext heq, hi] at htaken
  cases htaken

theorem Rings.avail_room (h : s.Rings av us) (hi : i < 8) (hnot : ¬ s.Pending i) :
    av.length < 8 := by
  have hlen := h.room hi hnot
  rw [List.length_append, List.length_append] at hlen
  omega

variable [DecidableEq P] [DecidableEq B]

/-! ### What a step does -/

/-- The steps, with what is known when they are taken. -/
inductive Does (blockno : B → UInt32) (s : Virtio P B) : Virtio P B → Prop
  | call {p : P} {b : B} {write : Bool} : s.pc p = .out → s.caller b = none →
      Does blockno s { s with
        pc := update s.pc p (.alloc b write)
        caller := update s.caller b (some p) }
  | sleep {d : Disk B} : s.disk.Cleared d → Does blockno s { s with disk := d }
  | request {p : P} {b : B} {write : Bool} {idx : DescChain} : s.pc p = .alloc b write →
      s.lock = none → idx.list.Nodup → (∀ i ∈ idx.list, s.disk.free i = true) →
      Does blockno s { s with
        disk := ((((s.disk.takeDesc idx.fst).takeDesc idx.snd).takeDesc idx.trd).format idx b
          (blockno b) write).offer idx.fst
        busy := update s.busy b true
        pc := update s.pc p (.publish b idx)
        lock := some (.proc p) }
  | publish {p : P} {b : B} {idx : DescChain} : s.pc p = .publish b idx →
      Does blockno s { s with
        disk := s.disk.publish, pc := update s.pc p (.wait b idx), lock := none }
  | finish {p : P} {b : B} {idx : DescChain} : s.pc p = .wait b idx → s.busy b = false →
      s.lock = none →
      Does blockno s { s with
        disk := (((s.disk.dropBuf idx.fst).clearDesc idx.fst).clearDesc idx.snd).clearDesc idx.trd
        pc := update s.pc p .out
        caller := update s.caller b none
        lock := none }
  | lock {l : Option (DiskOwner P)} : (∀ p, s.lock ≠ some (.proc p)) →
      (∀ p, l ≠ some (.proc p)) → Does blockno s { s with lock := l }
  | seen {p : P} {b : B} {idx : DescChain} : s.pc p = .wait b idx → s.busy b = true →
      s.disk.usedIdx ≠ s.disk.used.idx →
      s.disk.used.ring (s.disk.usedIdx.toNat % 8) = idx.fst →
      Does blockno s { s with
        disk := { s.disk with usedIdx := s.disk.usedIdx + 1 }
        busy := update s.busy b false }
  | take : s.lastAvail ≠ s.disk.avail.idx →
      Does blockno s { s with
        taken := s.disk.avail.ring (s.lastAvail.toNat % 8) :: s.taken
        lastAvail := s.lastAvail + 1 }
  | complete {i : ℕ} : i ∈ s.taken →
      Does blockno s { s with disk := (s.disk.succeed i).use i, taken := s.taken.erase i }

variable {blockno : B → UInt32}

omit [DecidableEq P] [DecidableEq B] in
/-- **What `virtio_disk_intr` finds**: a request that was completed and not yet seen. -/
theorem Inv.completed (h : s.Inv) (hne : s.disk.usedIdx ≠ s.disk.used.idx) :
    ∃ p b idx, s.pc p = .wait b idx ∧ s.busy b = true ∧
      s.disk.used.ring (s.disk.usedIdx.toNat % 8) = idx.fst ∧
      (s.disk.info idx.fst).status = 0 ∧ (s.disk.info idx.fst).b = some b := by
  obtain ⟨av, us, hrings⟩ := h.rings
  cases us with
  | nil => exact absurd ((hrings.used.eq_nil_iff (by decide)).mp rfl) hne
  | cons i us =>
    have hmem : i ∈ av ++ s.taken ++ i :: us := List.mem_append_right _ List.mem_cons_self
    obtain ⟨p, b, idx, hp, hbusy, rfl⟩ := (hrings.mem i).mp hmem
    exact ⟨p, b, idx, hp, hbusy, hrings.used.head, hrings.status hp List.mem_cons_self,
      (h.chains.chained (flight_of_wait hp)).buf⟩

theorem Inv.intrRound_ok (h : s.Inv) (hne : s.disk.usedIdx ≠ s.disk.used.idx) :
    ∃ s', s.intrRound = .ok s' ∧ s.Does blockno s' := by
  obtain ⟨p, b, idx, hp, hbusy, hring, hstatus, hbuf⟩ := h.completed hne
  refine ⟨_, ?_, .seen hp hbusy hne hring⟩
  unfold intrRound
  simp only [hring, Fin.is_lt, dif_pos, Fin.eta, hstatus, hbuf, ne_eq, not_true_eq_false, if_false]

theorem request_ok {write : Bool} (hp : s.pc p = .alloc b write)
    (hlock : s.lock = none) : ∃ s', s.request blockno p b write = .ok s' ∧ s.Does blockno s' := by
  unfold request
  rcases s.disk.alloc3Desc_ok with ⟨d, hd, hcleared⟩ | ⟨idx, hnodup, hfree, hd⟩
  · rw [hd]
    exact ⟨_, rfl, .sleep hcleared⟩
  · rw [hd]
    exact ⟨_, rfl, .request hp hlock hnodup hfree⟩

/-- **No step panics.** -/
theorem Inv.next_ok (h : s.Inv) {e : DiskAct P B} {r : Except DiskPanic (Virtio P B)}
    (hr : s.next blockno e = some r) : ∃ s', r = .ok s' ∧ (s' = s ∨ s.Does blockno s') := by
  cases e with
  | call p b write =>
    rw [next] at hr
    split at hr
    · rename_i hp
      split_ifs at hr with hcaller
      cases hr
      exact ⟨_, rfl, .inr (.call hp hcaller)⟩
    · cases hr
  | go p =>
    change s.go blockno p = some r at hr
    unfold go at hr
    rcases hp : s.pc p with _ | ⟨b, write⟩ | ⟨b, idx⟩ | ⟨b, idx⟩ <;> rw [hp] at hr
    · cases hr
    · dsimp only at hr
      split_ifs at hr with hlock
      cases hr
      obtain ⟨s', hs', hdoes⟩ := request_ok hp hlock
      exact ⟨s', hs', .inr hdoes⟩
    · cases hr
      refine ⟨_, ?_, .inr (.publish hp)⟩
      unfold waitLoop
      rw [if_pos (h.publish hp).1]
    · dsimp only at hr
      split_ifs at hr with hlock
      cases hr
      unfold waitLoop
      by_cases hbusy : s.busy b = true
      · refine ⟨s, ?_, .inl rfl⟩
        rw [if_pos hbusy, ← hp, update_eq_self, ← hlock]
      · rw [if_neg hbusy, (h.chains.chained (flight_of_wait hp)).finish_ok]
        exact ⟨_, rfl, .inr (.finish hp (Bool.eq_false_iff.mpr hbusy) hlock)⟩
  | intr =>
    change s.intr = some r at hr
    unfold intr at hr
    rcases hlock : s.lock with _ | ⟨p⟩ | _ <;> rw [hlock] at hr
    · cases hr
      refine ⟨_, rfl, .inr (.lock ?_ nofun)⟩
      rw [hlock]
      nofun
    · cases hr
    · dsimp only at hr
      split_ifs at hr with hne
      · cases hr
        obtain ⟨s', hs', hdoes⟩ := h.intrRound_ok hne
        exact ⟨s', hs', .inr hdoes⟩
      · cases hr
        refine ⟨_, rfl, .inr (.lock ?_ nofun)⟩
        rw [hlock]
        nofun
  | take =>
    rw [next] at hr
    split_ifs at hr with hne
    cases hr
    exact ⟨_, rfl, .inr (.take hne)⟩
  | complete i =>
    rw [next] at hr
    split_ifs at hr with hi
    cases hr
    exact ⟨_, rfl, .inr (.complete hi)⟩

/-! ### Every step keeps the invariant -/

omit [DecidableEq P] [DecidableEq B] in
theorem Rings.congr (h : s.Rings av us) (havail : s'.disk.avail = s.disk.avail)
    (hused : s'.disk.used = s.disk.used) (hidx : s'.disk.usedIdx = s.disk.usedIdx)
    (hlast : s'.lastAvail = s.lastAvail) (htaken : s'.taken = s.taken)
    (hpending : ∀ i, s'.Pending i ↔ s.Pending i)
    (hstatus : ∀ {p b idx}, s'.pc p = .wait b idx → s.pc p = .wait b idx ∧
      (s'.disk.info idx.fst).status = (s.disk.info idx.fst).status) : s'.Rings av us := by
  refine ⟨?_, ?_, ?_, fun i => ?_, fun hp hmem => ?_⟩
  · rw [havail, hlast]
    exact h.avail
  · rw [hused, hidx]
    exact h.used
  · rw [htaken]
    exact h.nodup
  · rw [htaken, hpending]
    exact h.mem i
  · obtain ⟨hp, heq⟩ := hstatus hp
    rw [heq]
    exact h.status hp hmem

omit [DecidableEq B] in
theorem flight_update (s' : Virtio P B) {pc : DiskPc B} (hpc : s'.pc = update s.pc p pc) :
    s'.flight = update s.flight p pc.flight := by
  funext q
  unfold flight
  rw [hpc]
  rcases eq_or_ne q p with rfl | hne
  · rw [update_self, update_self]
  · rw [update_of_ne hne, update_of_ne hne]

omit [DecidableEq B] in
/-- A process moves, neither from nor to `wait`: what waits is the same. -/
theorem wait_iff {pc : DiskPc B} (hpc : s'.pc = update s.pc p pc)
    (hold : ∀ b idx, s.pc p ≠ .wait b idx) (hnew : ∀ b idx, pc ≠ .wait b idx) :
    s'.pc q = .wait c idx' ↔ s.pc q = .wait c idx' := by
  rw [hpc]
  rcases eq_or_ne q p with rfl | hne
  · rw [update_self]
    exact iff_of_false (hnew c idx') (hold c idx')
  · rw [update_of_ne hne]

omit [DecidableEq P] [DecidableEq B] in
theorem pending_congr (hwait : ∀ q c idx', s'.pc q = .wait c idx' ↔ s.pc q = .wait c idx')
    (hbusy : ∀ q c idx', s.pc q = .wait c idx' → s'.busy c = s.busy c) (i : ℕ) :
    s'.Pending i ↔ s.Pending i := by
  constructor
  · rintro ⟨q, c, idx', hq, hc, hi⟩
    have hq' := (hwait q c idx').mp hq
    exact ⟨q, c, idx', hq', by rw [← hbusy q c idx' hq', hc], hi⟩
  · rintro ⟨q, c, idx', hq, hc, hi⟩
    exact ⟨q, c, idx', (hwait q c idx').mpr hq, by rw [hbusy q c idx' hq, hc], hi⟩

omit [DecidableEq B] in
theorem of_update {x y : DiskPc B} (hq : update s.pc p x q = y) (hne : x ≠ y) :
    q ≠ p ∧ s.pc q = y :=
  (update_cases hq).resolve_left fun heq => hne heq.2

theorem Inv.call (h : s.Inv) {write : Bool} (hp : s.pc p = .out) (hb : s.caller b = none)
    (hs' : s' = { s with
      pc := update s.pc p (.alloc b write)
      caller := update s.caller b (some p) }) : s'.Inv := by
  subst hs'
  refine ⟨fun {q c} hq => ?_, ?_, fun {q} => ?_,
    fun {q c idx'} hq => h.publish (of_update hq nofun).2, ?_⟩
  · dsimp only at hq ⊢
    rcases eq_or_ne q p with rfl | hne
    · rw [update_self] at hq
      cases hq
      exact update_self _ _ _
    · rw [update_of_ne hne] at hq
      have hcaller := h.caller hq
      have hcb : c ≠ b := by
        rintro rfl
        rw [hb] at hcaller
        cases hcaller
      rw [update_of_ne hcb]
      exact hcaller
  · have hflight : s.flight p = none := congrArg DiskPc.flight hp
    rw [flight_update _ rfl, DiskPc.flight, ← hflight, update_eq_self]
    exact h.chains
  · dsimp only
    rw [h.owner]
    constructor
    · rintro ⟨c, idx', hq⟩
      have hne : q ≠ p := by
        rintro rfl
        cases hp.symm.trans hq
      exact ⟨c, idx', by rw [update_of_ne hne, hq]⟩
    · rintro ⟨c, idx', hq⟩
      exact ⟨c, idx', (of_update hq nofun).2⟩
  · obtain ⟨av, us, hrings⟩ := h.rings
    have hold : ∀ c idx', s.pc p ≠ .wait c idx' := by
      rw [hp]
      nofun
    refine ⟨av, us, hrings.congr rfl rfl rfl rfl rfl ?_ fun hq => ⟨(of_update hq nofun).2, rfl⟩⟩
    exact pending_congr (fun q c idx' => wait_iff rfl hold nofun) fun _ _ _ _ => rfl

omit [DecidableEq P] [DecidableEq B] in
theorem Inv.sleep (h : s.Inv) {d : Disk B} (hd : s.disk.Cleared d) :
    ({ s with disk := d } : Virtio P B).Inv := by
  obtain ⟨havail, hused, hidx, hinfo⟩ := hd.rest
  obtain ⟨av, us, hrings⟩ := h.rings
  refine ⟨h.caller, h.chains.congr hd.free hd.desc fun i => by rw [hinfo], h.owner, fun hp => ?_,
    av, us, hrings.congr havail hused hidx rfl rfl (fun _ => Iff.rfl) fun hp => ⟨hp, ?_⟩⟩
  · show _ ∧ d.avail.ring _ = _
    rw [havail]
    exact h.publish hp
  · show (d.info _).status = _
    rw [hinfo]

omit [DecidableEq P] [DecidableEq B] in
/-- The lock goes to the interrupt handler, or back. -/
theorem Inv.setLock (h : s.Inv) {l : Option (DiskOwner P)} (hold : ∀ p, s.lock ≠ some (.proc p))
    (hnew : ∀ p, l ≠ some (.proc p)) : ({ s with lock := l } : Virtio P B).Inv := by
  obtain ⟨av, us, hrings⟩ := h.rings
  refine ⟨h.caller, h.chains, fun {p} => iff_of_false (hnew p) fun hp => hold p (h.owner.mpr hp),
    h.publish, av, us, hrings.congr rfl rfl rfl rfl rfl (fun _ => Iff.rfl) fun hp => ⟨hp, rfl⟩⟩

omit [DecidableEq P] [DecidableEq B] in
/-- Nobody is about to publish while the lock is free. -/
theorem Inv.pc_ne_publish (h : s.Inv) (hlock : s.lock = none) : s.pc q ≠ .publish c idx' := by
  intro hq
  cases hlock.symm.trans (h.owner.mpr ⟨c, idx', hq⟩)

omit [DecidableEq B] in
/-- A process moves on with its buffer. -/
theorem Inv.caller_of_move (h : s.Inv) {x : DiskPc B} (hx : x.buf? = (s.pc p).buf?)
    (hq : (update s.pc p x q).buf? = some c) : s.caller c = some q :=
  h.caller ((update_field DiskPc.buf? hx q).symm.trans hq)

theorem Inv.request (h : s.Inv) {write : Bool} (hp : s.pc p = .alloc b write)
    (hlock : s.lock = none) (hnodup : idx.list.Nodup)
    (hfree : ∀ i ∈ idx.list, s.disk.free i = true)
    (hs' : s' = { s with
      disk := ((((s.disk.takeDesc idx.fst).takeDesc idx.snd).takeDesc idx.trd).format idx b
        (blockno b) write).offer idx.fst
      busy := update s.busy b true
      pc := update s.pc p (.publish b idx)
      lock := some (.proc p) }) : s'.Inv := by
  have hbuf : (s.pc p).buf? = some b := congrArg DiskPc.buf? hp
  have hflight : s.flight p = none := congrArg DiskPc.flight hp
  -- the descriptors were free, so no chain has them
  have hfst : ∀ {q c idx'}, s.pc q = .wait c idx' → idx'.fst ≠ idx.fst := by
    intro q c idx' hq heq
    have htaken := (h.chains.chained (flight_of_wait hq)).taken idx'.fst (by simp [DescChain.list])
    rw [heq, hfree idx.fst (by simp [DescChain.list])] at htaken
    cases htaken
  have hnot : ¬ s.Pending idx.fst := h.not_pending_of_free (hfree _ (by simp [DescChain.list]))
  have hpending : ∀ i, s'.Pending i ↔ s.Pending i := by
    subst hs'
    refine pending_congr (fun q c idx' => wait_iff rfl ?_ (by rintro _ _ ⟨⟩)) fun q c idx' hq => ?_
    · rw [hp]
      rintro _ _ ⟨⟩
    · have hqp : q ≠ p := by
        rintro rfl
        cases hp.symm.trans hq
      exact update_of_ne (h.buf_ne hbuf (congrArg DiskPc.buf? hq) hqp) _ _
  subst hs'
  refine ⟨h.caller_of_move (hbuf.symm ▸ rfl), ?_, fun {q} => ?_, fun {q c idx'} hq => ?_, ?_⟩
  · rw [flight_update _ rfl]
    exact (h.chains.add hflight hnodup hfree (blockno b) write).congr rfl (fun _ _ => rfl)
      fun _ => rfl
  · dsimp only
    constructor
    · intro heq
      cases heq
      exact ⟨b, idx, update_self _ _ _⟩
    · rintro ⟨c, idx', hq⟩
      rcases update_cases hq with ⟨rfl, -⟩ | ⟨-, hq⟩
      · rfl
      · exact absurd hq (h.pc_ne_publish hlock)
  · rcases update_cases hq with ⟨rfl, heq⟩ | ⟨-, hq⟩
    · cases heq
      exact ⟨update_self _ _ _, update_self _ _ _⟩
    · exact absurd hq (h.pc_ne_publish hlock)
  · obtain ⟨av, us, hrings⟩ := h.rings
    have hroom := hrings.avail_room idx.fst.isLt hnot
    refine ⟨av, us, hrings.avail.store (by decide) hroom _, hrings.used, hrings.nodup, fun i => ?_,
      fun {q c idx'} hq hmem => ?_⟩
    · rw [hpending]
      exact hrings.mem i
    · obtain ⟨-, hq⟩ := of_update hq (by rintro ⟨⟩)
      have hsame : (((((s.disk.takeDesc idx.fst).takeDesc idx.snd).takeDesc idx.trd).format idx b
          (blockno b) write).offer idx.fst).info idx'.fst = s.disk.info idx'.fst :=
        update_of_ne (hfst hq) _ _
      rw [hsame]
      exact hrings.status hq hmem

omit [DecidableEq B] in
theorem Inv.publishStep (h : s.Inv) (hp : s.pc p = .publish b idx)
    (hs' : s' = { s with
      disk := s.disk.publish, pc := update s.pc p (.wait b idx), lock := none }) :
    s'.Inv := by
  obtain ⟨hbusy, hring⟩ := h.publish hp
  have hnot := h.not_pending hp
  have hflight : s.flight p = some (b, idx) := congrArg DiskPc.flight hp
  -- the lock is the process's own
  have hother : ∀ {q c idx'}, update s.pc p (.wait b idx) q ≠ .publish c idx' := by
    intro q c idx' hq
    obtain ⟨hne, hq⟩ := of_update hq nofun
    cases (h.owner.mpr ⟨b, idx, hp⟩).symm.trans (h.owner.mpr ⟨c, idx', hq⟩)
    exact hne rfl
  -- one more request is pending
  have hpending : ∀ i, s'.Pending i ↔ s.Pending i ∨ i = idx.fst := by
    subst hs'
    intro i
    constructor
    · rintro ⟨q, c, idx', hq, hc, rfl⟩
      rcases update_cases hq with ⟨rfl, heq⟩ | ⟨-, hq⟩
      · cases heq
        exact .inr rfl
      · exact .inl ⟨q, c, idx', hq, hc, rfl⟩
    · rintro (⟨q, c, idx', hq, hc, rfl⟩ | rfl)
      · have hne : q ≠ p := by
          rintro rfl
          cases hp.symm.trans hq
        refine ⟨q, c, idx', ?_, hc, rfl⟩
        dsimp only
        rw [update_of_ne hne, hq]
      · exact ⟨p, b, idx, update_self _ _ _, hbusy, rfl⟩
  subst hs'
  refine ⟨h.caller_of_move (by rw [hp]; rfl), ?_, fun {q} => ?_, fun {q c idx'} hq => ?_, ?_⟩
  · rw [flight_update _ rfl, DiskPc.flight, ← hflight, update_eq_self]
    exact h.chains.congr rfl (fun _ _ => rfl) fun _ => rfl
  · refine iff_of_false nofun ?_
    rintro ⟨c, idx', hq⟩
    exact hother hq
  · exact absurd hq hother
  · obtain ⟨av, us, hrings⟩ := h.rings
    have hroom := hrings.avail_room idx.fst.isLt hnot
    have hperm : (av ++ [(idx.fst : ℕ)] ++ s.taken ++ us).Perm (idx.fst :: (av ++ s.taken ++ us)) := by
      rw [List.append_assoc, List.append_assoc, List.append_assoc]
      exact List.perm_middle
    refine ⟨av ++ [(idx.fst : ℕ)], us, hrings.avail.push (by decide) hroom hring, hrings.used, ?_,
      fun i => ?_, fun {q c idx'} hq hmem => ?_⟩
    · rw [hperm.nodup_iff, List.nodup_cons, hrings.mem]
      exact ⟨hnot, hrings.nodup⟩
    · rw [hpending, hperm.mem_iff, List.mem_cons, hrings.mem, or_comm]
    · rcases update_cases hq with ⟨rfl, heq⟩ | ⟨-, hq⟩
      · cases heq
        exact absurd ((hrings.mem _).mp (List.mem_append_right _ hmem)) hnot
      · exact hrings.status hq hmem

theorem Inv.finishStep (h : s.Inv) (hp : s.pc p = .wait b idx) (hbusy : s.busy b = false)
    (hlock : s.lock = none)
    (hs' : s' = { s with
      disk := (((s.disk.dropBuf idx.fst).clearDesc idx.fst).clearDesc idx.snd).clearDesc idx.trd
      pc := update s.pc p .out
      caller := update s.caller b none
      lock := none }) : s'.Inv := by
  have hpending : ∀ i, s'.Pending i ↔ s.Pending i := by
    subst hs'
    intro i
    constructor
    · rintro ⟨q, c, idx', hq, hc, rfl⟩
      exact ⟨q, c, idx', (of_update hq nofun).2, hc, rfl⟩
    · rintro ⟨q, c, idx', hq, hc, rfl⟩
      have hne : q ≠ p := by
        rintro rfl
        cases hp.symm.trans hq
        rw [hbusy] at hc
        cases hc
      refine ⟨q, c, idx', ?_, hc, rfl⟩
      dsimp only
      rw [update_of_ne hne, hq]
  subst hs'
  refine ⟨fun {q c} hq => ?_, ?_, fun {q} => ?_, fun {q c idx'} hq => ?_, ?_⟩
  · dsimp only at hq ⊢
    rcases eq_or_ne q p with rfl | hne
    · rw [update_self] at hq
      cases hq
    · rw [update_of_ne hne] at hq
      have hcb := h.buf_ne (p := p) (by rw [hp]; rfl) hq hne
      rw [update_of_ne hcb]
      exact h.caller hq
  · rw [flight_update _ rfl]
    exact h.chains.remove (flight_of_wait hp)
  · refine iff_of_false nofun ?_
    rintro ⟨c, idx', hq⟩
    exact h.pc_ne_publish hlock (of_update hq nofun).2
  · exact absurd (of_update hq nofun).2 (h.pc_ne_publish hlock)
  · obtain ⟨av, us, hrings⟩ := h.rings
    refine ⟨av, us, hrings.congr rfl rfl rfl rfl rfl hpending fun {q c idx'} hq => ?_⟩
    refine ⟨(of_update hq nofun).2, ?_⟩
    show (update s.disk.info idx.fst { s.disk.info idx.fst with b := none }
      idx'.fst).status = _
    refine update_field DiskInfo.status ?_ idx'.fst
    rfl

omit [DecidableEq P] in
/-- The interrupt handler has seen that a request was completed. -/
theorem Inv.seen (h : s.Inv) (hp : s.pc p = .wait b idx) (hbusy : s.busy b = true)
    (hne : s.disk.usedIdx ≠ s.disk.used.idx)
    (hring : s.disk.used.ring (s.disk.usedIdx.toNat % 8) = idx.fst)
    (hs' : s' = { s with
      disk := { s.disk with usedIdx := s.disk.usedIdx + 1 }
      busy := update s.busy b false }) : s'.Inv := by
  have hbuf : (s.pc p).buf? = some b := congrArg DiskPc.buf? hp
  have hpending : ∀ i, s'.Pending i ↔ s.Pending i ∧ i ≠ idx.fst := by
    subst hs'
    intro i
    constructor
    · rintro ⟨q, c, idx', hq, hc, rfl⟩
      dsimp only at hq hc
      have hcb : c ≠ b := by
        rintro rfl
        rw [update_self] at hc
        cases hc
      rw [update_of_ne hcb] at hc
      refine ⟨⟨q, c, idx', hq, hc, rfl⟩, fun heq => hcb ?_⟩
      obtain rfl := h.chains.eq_of_fst (flight_of_wait hq) (flight_of_wait hp) (Fin.ext heq)
      cases hp.symm.trans hq
      rfl
    · rintro ⟨⟨q, c, idx', hq, hc, rfl⟩, hi⟩
      have hqp : q ≠ p := by
        rintro rfl
        cases hp.symm.trans hq
        exact hi rfl
      have hcb := h.buf_ne hbuf (congrArg DiskPc.buf? hq) hqp
      exact ⟨q, c, idx', hq, by rw [← hc]; exact update_of_ne hcb _ _, rfl⟩
  subst hs'
  refine ⟨h.caller, h.chains.congr rfl (fun _ _ => rfl) fun _ => rfl, h.owner,
    fun {q c idx'} hq => ?_, ?_⟩
  · have hqp : q ≠ p := by
      rintro rfl
      cases hp.symm.trans hq
    have hcb := h.buf_ne hbuf (congrArg DiskPc.buf? hq) hqp
    refine ⟨?_, (h.publish hq).2⟩
    rw [← (h.publish hq).1]
    exact update_of_ne hcb _ _
  · obtain ⟨av, us, hrings⟩ := h.rings
    cases us with
    | nil => exact absurd ((hrings.used.eq_nil_iff (by decide)).mp rfl) hne
    | cons i us =>
      obtain rfl : (idx.fst : ℕ) = i := hring.symm.trans hrings.used.head
      have hperm : (av ++ s.taken ++ (idx.fst : ℕ) :: us).Perm (idx.fst :: (av ++ s.taken ++ us)) :=
        List.perm_middle
      have hnodup := hperm.nodup_iff.mp hrings.nodup
      rw [List.nodup_cons] at hnodup
      refine ⟨av, us, hrings.avail, hrings.used.pop (by decide), hnodup.2, fun i => ?_,
        fun hq hmem => hrings.status hq (List.mem_cons_of_mem _ hmem)⟩
      rw [hpending, ← hrings.mem, hperm.mem_iff, List.mem_cons]
      constructor
      · exact fun hi => ⟨.inr hi, fun heq => hnodup.1 (heq ▸ hi)⟩
      · exact fun hi => hi.1.resolve_left hi.2

omit [DecidableEq P] [DecidableEq B] in
theorem Inv.takeStep (h : s.Inv) (hne : s.lastAvail ≠ s.disk.avail.idx) :
    ({ s with
      taken := s.disk.avail.ring (s.lastAvail.toNat % 8) :: s.taken
      lastAvail := s.lastAvail + 1 } : Virtio P B).Inv := by
  obtain ⟨av, us, hrings⟩ := h.rings
  refine ⟨h.caller, h.chains, h.owner, h.publish, ?_⟩
  cases av with
  | nil => exact absurd ((hrings.avail.eq_nil_iff (by decide)).mp rfl) hne
  | cons i av =>
    have hperm : (av ++ (i :: s.taken) ++ us).Perm (i :: av ++ s.taken ++ us) := by
      rw [List.append_assoc, List.append_assoc, List.cons_append]
      exact List.perm_middle
    refine ⟨av, us, hrings.avail.pop (by decide), hrings.used, ?_, fun j => ?_, hrings.status⟩
    · dsimp only
      rw [hrings.avail.head, hperm.nodup_iff]
      exact hrings.nodup
    · dsimp only
      rw [hrings.avail.head, hperm.mem_iff]
      exact hrings.mem j

omit [DecidableEq P] [DecidableEq B] in
/-- The device finds the byte for the status. -/
theorem Inv.succeed_eq (h : s.Inv) (hp : s.pc p = .wait b idx) : s.disk.succeed idx.fst
    = { s.disk with
      info := update s.disk.info idx.fst { s.disk.info idx.fst with status := 0 } } := by
  have hchain := h.chains.chained (flight_of_wait hp)
  have hat : ∀ i : DescIx, s.disk.descAt i = s.disk.desc i := fun i => dif_pos i.isLt
  unfold Disk.succeed
  rw [hat, hchain.fst.2, hat, hchain.snd.2, hat, hchain.trd.2]

omit [DecidableEq P] [DecidableEq B] in
theorem Inv.completeStep (h : s.Inv) (hi : i ∈ s.taken) :
    ({ s with disk := (s.disk.succeed i).use i, taken := s.taken.erase i } : Virtio P B).Inv := by
  obtain ⟨av, us, hrings⟩ := h.rings
  have hmem : i ∈ av ++ s.taken ++ us := List.mem_append_left _ (List.mem_append_right _ hi)
  obtain ⟨p, b, idx, hp, hbusy, rfl⟩ := (hrings.mem i).mp hmem
  have hinfo : ∀ j, (((s.disk.succeed idx.fst).use idx.fst).info j).b = (s.disk.info j).b := by
    intro j
    rw [h.succeed_eq hp]
    refine update_field DiskInfo.b ?_ j
    rfl
  have hroom : us.length < 8 := by
    have hlen := length_le_of_nodup hrings.nodup fun j hj => ((hrings.mem j).mp hj).lt
    have hpos := List.length_pos_of_mem hi
    rw [List.length_append, List.length_append] at hlen
    omega
  have hperm : (av ++ s.taken.erase idx.fst ++ (us ++ [(idx.fst : ℕ)])).Perm
      (av ++ s.taken ++ us) := by
    rw [List.append_assoc, List.append_assoc]
    refine List.Perm.append_left av ?_
    have hlast : (s.taken.erase idx.fst ++ (us ++ [(idx.fst : ℕ)])).Perm
        (s.taken.erase idx.fst ++ ((idx.fst : ℕ) :: us)) :=
      List.Perm.append_left _ (List.perm_append_singleton _ us)
    exact (hlast.trans List.perm_middle).trans ((List.perm_cons_erase hi).symm.append_right us)
  refine ⟨h.caller, h.chains.congr ?_ (fun i _ => ?_) hinfo, h.owner, fun {q c idx'} hq => ?_, av,
    us ++ [(idx.fst : ℕ)], ?_, ?_, ?_, fun j => ?_, fun {q c idx'} hq hj => ?_⟩
  · show (s.disk.succeed idx.fst).free = _
    rw [h.succeed_eq hp]
  · show (s.disk.succeed idx.fst).desc i = _
    rw [h.succeed_eq hp]
  · show _ ∧ (s.disk.succeed idx.fst).avail.ring ((s.disk.succeed idx.fst).avail.idx.toNat % 8) = _
    rw [h.succeed_eq hp]
    exact h.publish hq
  · show Entries (s.disk.succeed idx.fst).avail.ring 8 _ (s.disk.succeed idx.fst).avail.idx av
    rw [h.succeed_eq hp]
    exact hrings.avail
  · rw [h.succeed_eq hp]
    exact (hrings.used.store (by decide) hroom _).push (by decide) hroom (update_self _ _ _)
  · exact hperm.nodup_iff.mpr hrings.nodup
  · rw [hperm.mem_iff]
    exact hrings.mem j
  · show ((s.disk.succeed idx.fst).info idx'.fst).status = 0
    rw [h.succeed_eq hp]
    dsimp only
    rcases eq_or_ne idx'.fst idx.fst with heq | hne
    · rw [heq, update_self]
    · rw [update_of_ne hne]
      refine hrings.status hq ((List.mem_append.mp hj).resolve_right fun hlast => hne ?_)
      exact Fin.ext (List.mem_singleton.mp hlast)

theorem Inv.step (h : s.Inv) (hstep : s.Does blockno s') : s'.Inv := by
  cases hstep with
  | call hp hb => exact h.call hp hb rfl
  | sleep hd => exact h.sleep hd
  | request hp hlock hnodup hfree => exact h.request hp hlock hnodup hfree rfl
  | publish hp => exact h.publishStep hp rfl
  | finish hp hbusy hlock => exact h.finishStep hp hbusy hlock rfl
  | lock hold hnew => exact h.setLock hold hnew
  | seen hp hbusy hne hring => exact h.seen hp hbusy hne hring rfl
  | take hne => exact h.takeStep hne
  | complete hi => exact h.completeStep hi

omit [DecidableEq P] [DecidableEq B] in
theorem init_inv (ops : DescIx → VirtioBlkReq) : (init ops : Virtio P B).Inv := by
  refine ⟨nofun, ⟨nofun, nofun, nofun⟩, fun {p} => iff_of_false nofun ?_, nofun, [], [],
    Entries.nil _ _ _, Entries.nil _ _ _, List.nodup_nil, fun i => iff_of_false ?_ ?_, nofun⟩
  · rintro ⟨b, idx, hp⟩
    cases hp
  · exact List.not_mem_nil
  · rintro ⟨p, b, idx, hp, -⟩
    cases hp

/-! ### Every run -/

/-- What is promised in a state. -/
structure Tracked (blockno : B → UInt32) (s : Virtio P B) : Prop where
  /-- a descriptor is free, or in the chain of one request in flight -/
  partition : ∀ i, (s.disk.free i = true ∧ ∀ p b idx, s.flight p = some (b, idx) → i ∉ idx.list) ∨
    (s.disk.free i = false ∧
      ∃! p, ∃ b idx, s.flight p = some (b, idx) ∧ i ∈ idx.list)
  /-- a chain has three descriptors, which are linked -/
  chain : ∀ p b idx, s.flight p = some (b, idx) → s.disk.Chained idx b
  /-- an entry of the avail ring stays as it is until the device has taken it -/
  avail : ∀ e s', s.Step blockno e s' → ∀ k < (s.disk.avail.idx - s.lastAvail).toNat,
    s'.disk.avail.ring ((s.lastAvail.toNat + k) % 8)
      = s.disk.avail.ring ((s.lastAvail.toNat + k) % 8)
  /-- what the interrupt handler finds is the head of a request that the device has completed -/
  completed : s.disk.usedIdx ≠ s.disk.used.idx → ∃ p b idx, s.pc p = .wait b idx ∧
    s.disk.used.ring (s.disk.usedIdx.toNat % 8) = idx.fst ∧
    (s.disk.info idx.fst).b = some b ∧ (s.disk.info idx.fst).status = 0
  /-- and the flag of no other buffer is cleared -/
  cleared : ∀ e s' b, s.Step blockno e s' → s.busy b = true → s'.busy b = false →
    ∃ p idx, s.pc p = .wait b idx ∧ (s.disk.info idx.fst).status = 0
  /-- nothing panics -/
  safe : ∀ e err, s.next blockno e ≠ some (.error err)

omit [DecidableEq P] [DecidableEq B] in
theorem Inv.partition (h : s.Inv) (i : DescIx) :
    (s.disk.free i = true ∧ ∀ p b idx, s.flight p = some (b, idx) → i ∉ idx.list) ∨
      (s.disk.free i = false ∧ ∃! p, ∃ b idx, s.flight p = some (b, idx) ∧ i ∈ idx.list) := by
  rcases hi : s.disk.free i with _ | _
  · obtain ⟨p, b, idx, hp, hmem⟩ := h.chains.covered i hi
    refine .inr ⟨rfl, p, ⟨b, idx, hp, hmem⟩, ?_⟩
    rintro q ⟨c, idx', hq, hmem'⟩
    by_contra hne
    exact h.chains.disjoint hq hp hne i hmem' hmem
  · refine .inl ⟨rfl, fun p b idx hp hmem => ?_⟩
    have htaken := (h.chains.chained hp).taken i hmem
    rw [hi] at htaken
    cases htaken

theorem Inv.avail_kept (h : s.Inv) (hstep : s.Does blockno s') {k : ℕ}
    (hk : k < (s.disk.avail.idx - s.lastAvail).toNat) :
    s'.disk.avail.ring ((s.lastAvail.toNat + k) % 8)
      = s.disk.avail.ring ((s.lastAvail.toNat + k) % 8) := by
  cases hstep with
  | @request p b write idx hp hlock hnodup hfree =>
    obtain ⟨av, us, hrings⟩ := h.rings
    have hroom := hrings.avail_room idx.fst.isLt
      (h.not_pending_of_free (hfree idx.fst (by simp [DescChain.list])))
    rw [hrings.avail.toNat_sub (by decide)] at hk
    refine update_of_ne ?_ _ _
    show (s.lastAvail.toNat + k) % 8 ≠ s.disk.avail.idx.toNat % 8
    rw [hrings.avail.hi_mod (by decide)]
    exact mod_ne_of_lt (by omega) (by omega)
  | sleep hd => rw [hd.rest.1]
  | @complete i hi =>
    have hsame : (s.disk.succeed i).avail = s.disk.avail := by
      unfold Disk.succeed
      split <;> rfl
    show (s.disk.succeed i).avail.ring _ = _
    rw [hsame]
  | call | publish | finish | lock | seen | take => rfl

theorem Inv.busy_cleared (h : s.Inv) (hstep : s.Does blockno s') (hbusy : s.busy b = true)
    (hbusy' : s'.busy b = false) : ∃ p idx, s.pc p = .wait b idx ∧
      (s.disk.info idx.fst).status = 0 := by
  cases hstep with
  | @seen p c idx hp hc hne hring =>
    have hbc : b = c := by
      by_contra hbc
      change update s.busy c false b = false at hbusy'
      rw [update_of_ne hbc, hbusy] at hbusy'
      cases hbusy'
    subst hbc
    obtain ⟨q, c', idx', hq, -, hring', hstatus, -⟩ := h.completed hne
    have hfst : idx'.fst = idx.fst := Fin.ext (hring'.symm.trans hring)
    rw [hfst] at hstatus
    exact ⟨p, idx, hp, hstatus⟩
  | @request p c write idx hp hlock hnodup hfree =>
    change update s.busy c true b = false at hbusy'
    rcases eq_or_ne b c with rfl | hbc
    · rw [update_self] at hbusy'
      cases hbusy'
    · rw [update_of_ne hbc, hbusy] at hbusy'
      cases hbusy'
  | call | sleep | publish | finish | lock | take | complete => cases hbusy.symm.trans hbusy'

theorem Inv.tracked (h : s.Inv) : s.Tracked blockno := by
  refine ⟨h.partition, fun p b idx => h.chains.chained, fun e s' hstep k hk => ?_, fun hne => ?_,
    fun e s' b hstep hbusy hbusy' => ?_, fun e err herr => ?_⟩
  · obtain ⟨s₁, hs₁, hcases⟩ := h.next_ok hstep
    cases hs₁
    rcases hcases with rfl | hdoes
    · rfl
    · exact h.avail_kept hdoes hk
  · obtain ⟨p, b, idx, hp, -, hring, hstatus, hbuf⟩ := h.completed hne
    exact ⟨p, b, idx, hp, hring, hbuf, hstatus⟩
  · obtain ⟨s₁, hs₁, hcases⟩ := h.next_ok hstep
    cases hs₁
    rcases hcases with rfl | hdoes
    · cases hbusy.symm.trans hbusy'
    · exact h.busy_cleared hdoes hbusy hbusy'
  · obtain ⟨s₁, hs₁, -⟩ := h.next_ok herr
    cases hs₁

variable {tr : List (DiskAct P B)} {ops : DescIx → VirtioBlkReq}

/-- **Requests are tracked** in every run, however many and in whatever order they are
completed. -/
theorem requests_tracked (hrun : Run (Step blockno) (init ops) tr s) : s.Tracked blockno := by
  have hinv : s.Inv := by
    refine hrun.invariant (I := Inv) (init_inv ops) ?_
    intro s e s' h hstep
    obtain ⟨s₁, hs₁, hcases⟩ := h.next_ok hstep
    cases hs₁
    rcases hcases with rfl | hdoes
    · exact h
    · exact h.step hdoes
  exact hinv.tracked

/-- Two requests, the second one completed first, and a third process that waits for
descriptors. -/
def outOfOrder : List (DiskAct (Fin 3) (Fin 3)) :=
  [.call 0 0 false, .go 0, .call 1 1 true, .go 0, .go 1, .call 2 2 false, .take, .go 1, .take,
    .go 2, .complete 3, .intr, .complete 0, .intr]

theorem requests_tracked_outOfOrder : ∃ s : Virtio (Fin 3) (Fin 3),
    Run (Step fun _ => 0) (init fun _ => ⟨0, 0, 0⟩) outOfOrder s ∧ s.Tracked (fun _ => 0) ∧
      s.busy 0 = true ∧ s.busy 1 = false := by
  have hnext : ∀ {s : Virtio (Fin 3) (Fin 3)} {e s'},
      ((s.next (fun _ => 0) e).bind Except.toOption) = some s' → s.Step (fun _ => 0) e s' := by
    intro s e s' h
    obtain ⟨r, hr, hs'⟩ := Option.bind_eq_some_iff.mp h
    rw [toOption_eq_some hs'] at hr
    exact hr
  obtain ⟨s, hs, hbusy⟩ := exists_of_decide
    (o := outOfOrder.foldlM (fun s e => (s.next (fun _ => 0) e).bind Except.toOption)
      (init fun _ => ⟨0, 0, 0⟩))
    (P := fun s => s.busy 0 = true ∧ s.busy 1 = false) (by decide +kernel)
  have hrun := Run.of_foldlM hnext _ hs
  exact ⟨s, hrun, requests_tracked hrun, hbusy⟩

end Virtio

end Xv6Zig
