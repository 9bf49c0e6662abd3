/-
Xv6Zig/VirtioInv.lean

The descriptors of the disk driver (`kernel/virtio_disk.c`).

A request in flight is a process at `publish` or `wait`, with its chain of three
descriptors.  `Chains` says that the descriptors which are not free are those of the
chains, each in one; `alloc3_desc` and `free_chain` keep it and do not panic.
-/
import Xv6Zig.Lib.Outcome
import Xv6Zig.Virtio

namespace Xv6Zig

open Lib Function

/-! ### Descriptors -/

namespace DescChain

/-- The descriptors of a chain. -/
def list (idx : DescChain) : List DescIx := [idx.fst, idx.snd, idx.trd]

end DescChain

namespace Disk

variable {B : Type} {d d' : Disk B} {idx : DescChain} {i j : DescIx}

/-- Descriptor `i` is taken. -/
@[simps] def takeDesc (d : Disk B) (i : DescIx) : Disk B :=
  { d with free := update d.free i false }

/-- Descriptor `i` is freed. -/
@[simps] def clearDesc (d : Disk B) (i : DescIx) : Disk B :=
  { d with desc := update d.desc i .zero, free := update d.free i true }

theorem allocDesc_some (h : d.allocDesc = some (i, d')) : d.free i = true ∧ d' = d.takeDesc i := by
  obtain ⟨j, hj, heq⟩ := Option.map_eq_some_iff.mp h
  cases heq
  exact ⟨List.find?_some hj, rfl⟩

theorem freeDesc_ok (h : d.free i = false) : d.freeDesc i = .ok (d.clearDesc i) := by
  unfold freeDesc
  rw [dif_pos i.isLt, if_neg (by simp [h])]
  rfl

/-- What `alloc3_desc` does to the disk when there are too few descriptors: it clears
descriptors that are free. -/
structure Cleared (d d' : Disk B) : Prop where
  free : d'.free = d.free
  desc : ∀ i, d.free i = false → d'.desc i = d.desc i
  rest : d'.avail = d.avail ∧ d'.used = d.used ∧ d'.usedIdx = d.usedIdx ∧ d'.info = d.info

theorem Cleared.refl (d : Disk B) : d.Cleared d := ⟨rfl, fun _ _ => rfl, rfl, rfl, rfl, rfl⟩

theorem Cleared.clearDesc (h : d.Cleared d') (hi : d.free i = true) : d.Cleared (d'.clearDesc i) := by
  refine ⟨?_, fun j hj => ?_, h.rest⟩
  · show update d'.free i true = d.free
    rw [h.free, ← hi, update_eq_self]
  · have hne : j ≠ i := by
      rintro rfl
      rw [hi] at hj
      cases hj
    rw [clearDesc_desc, update_of_ne hne]
    exact h.desc j hj

/-- Descriptors that were taken one after the other differ. -/
theorem ne_of_takeDesc (h : (d.takeDesc i).free j = true) : j ≠ i ∧ d.free j = true := by
  rw [takeDesc_free] at h
  rcases eq_or_ne j i with rfl | hne
  · rw [update_self] at h
    cases h
  · rw [update_of_ne hne] at h
    exact ⟨hne, h⟩

/-- **`alloc3_desc` does not panic**: it takes three descriptors that were free, or
leaves as many free as before. -/
theorem alloc3Desc_ok (d : Disk B) :
    (∃ d', d.alloc3Desc = .ok (none, d') ∧ d.Cleared d') ∨
      ∃ idx : DescChain, idx.list.Nodup ∧ (∀ i ∈ idx.list, d.free i = true) ∧
        d.alloc3Desc = .ok (some idx, ((d.takeDesc idx.fst).takeDesc idx.snd).takeDesc idx.trd) := by
  unfold alloc3Desc
  rcases h₁ : d.allocDesc with _ | ⟨i, d₁⟩
  · exact .inl ⟨d, rfl, .refl d⟩
  obtain ⟨hi, rfl⟩ := allocDesc_some h₁
  dsimp only
  rcases h₂ : (d.takeDesc i).allocDesc with _ | ⟨j, d₂⟩
  · refine .inl ⟨(d.takeDesc i).clearDesc i, ?_, ?_⟩
    · dsimp only
      rw [freeDesc_ok (update_self _ _ _)]
      rfl
    · have hback : (d.takeDesc i).clearDesc i = d.clearDesc i := by
        unfold clearDesc takeDesc
        simp
      rw [hback]
      exact (Cleared.refl d).clearDesc hi
  obtain ⟨hj, rfl⟩ := allocDesc_some h₂
  obtain ⟨hji, hj⟩ := ne_of_takeDesc hj
  dsimp only
  rcases h₃ : ((d.takeDesc i).takeDesc j).allocDesc with _ | ⟨k, d₃⟩
  · refine .inl ⟨(((d.takeDesc i).takeDesc j).clearDesc i).clearDesc j, ?_, ?_⟩
    · dsimp only
      have hi' : ((d.takeDesc i).takeDesc j).free i = false := by
        simp [hji.symm]
      have hj' : (((d.takeDesc i).takeDesc j).clearDesc i).free j = false := by
        simp [hji]
      rw [freeDesc_ok hi', ok_bind, freeDesc_ok hj', ok_bind]
    · have hback : (((d.takeDesc i).takeDesc j).clearDesc i).clearDesc j
          = (d.clearDesc i).clearDesc j := by
        unfold clearDesc takeDesc
        simp [update_comm hji]
      rw [hback]
      exact ((Cleared.refl d).clearDesc hi).clearDesc hj
  obtain ⟨hk, rfl⟩ := allocDesc_some h₃
  obtain ⟨hkj, hk⟩ := ne_of_takeDesc hk
  obtain ⟨hki, hk⟩ := ne_of_takeDesc hk
  refine .inr ⟨⟨i, j, k⟩, ?_, ?_, rfl⟩
  · simp [DescChain.list, hji.symm, hki.symm, hkj.symm]
  · simp [DescChain.list, hi, hj, hk]

/-- The chain of a request, as the device and `free_chain` find it. -/
structure Chained (d : Disk B) (idx : DescChain) (b : B) : Prop where
  nodup : idx.list.Nodup
  taken : ∀ i ∈ idx.list, d.free i = false
  fst : (d.desc idx.fst).flags &&& descNext ≠ 0 ∧ (d.desc idx.fst).next = idx.snd
  snd : (d.desc idx.snd).flags &&& descNext ≠ 0 ∧ (d.desc idx.snd).next = idx.trd
  trd : (d.desc idx.trd).flags &&& descNext = 0 ∧ (d.desc idx.trd).addr = .status idx.fst
  buf : (d.info idx.fst).b = some b

theorem Chained.congr {b : B} (h : d.Chained idx b)
    (hsame : ∀ i ∈ idx.list, d'.free i = d.free i ∧ d'.desc i = d.desc i)
    (hinfo : (d'.info idx.fst).b = (d.info idx.fst).b) : d'.Chained idx b := by
  have hfst := (hsame idx.fst (by simp [DescChain.list])).2
  have hsnd := (hsame idx.snd (by simp [DescChain.list])).2
  have htrd := (hsame idx.trd (by simp [DescChain.list])).2
  refine ⟨h.nodup, fun i hi => ?_, ?_, ?_, ?_, ?_⟩
  · rw [(hsame i hi).1]
    exact h.taken i hi
  · rw [hfst]
    exact h.fst
  · rw [hsnd]
    exact h.snd
  · rw [htrd]
    exact h.trd
  · rw [hinfo]
    exact h.buf

/-- The descriptors that `virtio_disk_rw` has formatted are a chain. -/
theorem chained_format {b : B} {blockno : UInt32} {write : Bool} (hnodup : idx.list.Nodup)
    (htaken : ∀ i ∈ idx.list, d.free i = false) :
    (d.format idx b blockno write).Chained idx b := by
  have hne : idx.fst ≠ idx.snd ∧ idx.fst ≠ idx.trd ∧ idx.snd ≠ idx.trd := by
    simpa [DescChain.list, and_assoc] using hnodup
  obtain ⟨h₁₂, h₁₃, h₂₃⟩ := hne
  refine ⟨hnodup, htaken, ?_, ?_, ?_, ?_⟩
  · simp [format, h₁₂, h₁₃, descNext]
  · simp only [format, update_of_ne h₂₃, update_self, and_true]
    cases write <;> decide
  · simp only [format, update_self, and_true]
    decide
  · simp [format]

theorem freeChain_succ (h : d.free i = false) (n : ℕ) : d.freeChain i (n + 1)
    = if (d.desc i).flags &&& descNext ≠ 0 then (d.clearDesc i).freeChain (d.desc i).next n
      else .ok (d.clearDesc i) := by
  rw [freeChain, dif_pos i.isLt, freeDesc_ok h]
  rfl

/-- `disk.info[i].b = 0` -/
@[simps] def dropBuf (d : Disk B) (i : DescIx) : Disk B :=
  { d with info := update d.info i { d.info i with b := none } }

/-- **`free_chain` does not panic**, and frees the three descriptors. -/
theorem Chained.finish_ok {b : B} (h : d.Chained idx b) : d.finish idx
    = .ok ((((d.dropBuf idx.fst).clearDesc idx.fst).clearDesc idx.snd).clearDesc idx.trd) := by
  have hne : idx.fst ≠ idx.snd ∧ idx.fst ≠ idx.trd ∧ idx.snd ≠ idx.trd := by
    simpa [DescChain.list, and_assoc] using h.nodup
  obtain ⟨h₁₂, h₁₃, h₂₃⟩ := hne
  have htaken : d.free idx.fst = false ∧ d.free idx.snd = false ∧ d.free idx.trd = false := by
    simpa [DescChain.list] using h.taken
  obtain ⟨hfst, hsnd, htrd⟩ := htaken
  set d₁ := (d.dropBuf idx.fst).clearDesc idx.fst with hd₁
  set d₂ := d₁.clearDesc idx.snd with hd₂
  have hsnd₁ : d₁.free idx.snd = false ∧ d₁.desc idx.snd = d.desc idx.snd := by
    simp [hd₁, h₁₂.symm, hsnd]
  have htrd₂ : d₂.free idx.trd = false ∧ d₂.desc idx.trd = d.desc idx.trd := by
    simp [hd₂, hd₁, h₁₃.symm, h₂₃.symm, htrd]
  calc d.finish idx
      = (d.dropBuf idx.fst).freeChain idx.fst 9 := rfl
    _ = d₁.freeChain idx.snd 8 := by
        rw [freeChain_succ (d := d.dropBuf idx.fst) hfst, dropBuf_desc, if_pos h.fst.1, h.fst.2]
    _ = d₂.freeChain idx.trd 7 := by
        rw [freeChain_succ hsnd₁.1, hsnd₁.2, if_pos h.snd.1, h.snd.2]
    _ = .ok (d₂.clearDesc idx.trd) := by
        rw [freeChain_succ htrd₂.1, htrd₂.2, if_neg (not_not.mpr h.trd.1)]

end Disk

/-! ### Requests in flight -/

namespace DiskPc

variable {B : Type}

/-- The buffer a process has called `virtio_disk_rw` with. -/
def buf? : DiskPc B → Option B
  | .out => none
  | .alloc b _ | .publish b _ | .wait b _ => some b

/-- The buffer and the chain of a request in flight. -/
def flight : DiskPc B → Option (B × DescChain)
  | .out | .alloc _ _ => none
  | .publish b idx | .wait b idx => some (b, idx)

end DiskPc

/-- The chains of the requests in flight: the descriptors that are not free, each in one. -/
structure Chains {P B : Type} (d : Disk B) (flight : P → Option (B × DescChain)) : Prop where
  chained : ∀ {p b idx}, flight p = some (b, idx) → d.Chained idx b
  disjoint : ∀ {p q b c idx idx'}, flight p = some (b, idx) → flight q = some (c, idx') → p ≠ q →
    ∀ i ∈ idx.list, i ∉ idx'.list
  covered : ∀ i, d.free i = false → ∃ p b idx, flight p = some (b, idx) ∧ i ∈ idx.list

namespace Chains

variable {P B : Type} [DecidableEq P] {d d' : Disk B} {flight : P → Option (B × DescChain)}
variable {p q : P} {b c : B} {idx idx' : DescChain}

omit [DecidableEq P] in
theorem congr (h : Chains d flight) (hfree : d'.free = d.free)
    (hdesc : ∀ i, d.free i = false → d'.desc i = d.desc i)
    (hinfo : ∀ i, (d'.info i).b = (d.info i).b) : Chains d' flight := by
  refine ⟨fun {p b idx} hp => ?_, h.disjoint, ?_⟩
  · have hchain := h.chained hp
    refine hchain.congr (fun i hi => ⟨?_, hdesc i (hchain.taken i hi)⟩) (hinfo _)
    rw [hfree]
  · rw [hfree]
    exact h.covered

omit [DecidableEq P] in
/-- The head of a chain tells the request. -/
theorem eq_of_fst (h : Chains d flight) (hp : flight p = some (b, idx))
    (hq : flight q = some (c, idx')) (hfst : idx.fst = idx'.fst) : p = q := by
  by_contra hne
  refine h.disjoint hp hq hne idx.fst (by simp [DescChain.list]) ?_
  rw [hfst]
  simp [DescChain.list]

theorem add (h : Chains d flight) (hp : flight p = none) (hnodup : idx.list.Nodup)
    (hfree : ∀ i ∈ idx.list, d.free i = true) (blockno : UInt32) (write : Bool) :
    Chains ((((d.takeDesc idx.fst).takeDesc idx.snd).takeDesc idx.trd).format idx b blockno write)
      (update flight p (some (b, idx))) := by
  set d₁ := ((d.takeDesc idx.fst).takeDesc idx.snd).takeDesc idx.trd with hd₁
  have hfree₁ : ∀ i, d₁.free i = false ↔ d.free i = false ∨ i ∈ idx.list := by
    intro i
    rw [hd₁]
    simp only [Disk.takeDesc_free, DescChain.list, List.mem_cons, List.not_mem_nil, or_false,
      update_apply]
    split_ifs <;> simp_all
  have hold : ∀ {q c idx'}, flight q = some (c, idx') → ∀ i ∈ idx'.list, i ∉ idx.list := by
    intro q c idx' hq i hi hmem
    have htaken := (h.chained hq).taken i hi
    rw [hfree i hmem] at htaken
    cases htaken
  have hdesc : ∀ i, i ∉ idx.list → (d₁.format idx b blockno write).desc i = d.desc i := by
    intro i hi
    simp only [DescChain.list, List.mem_cons, List.not_mem_nil, or_false, not_or] at hi
    obtain ⟨h₁, h₂, h₃⟩ := hi
    simp [Disk.format, hd₁, h₁, h₂, h₃]
  refine ⟨fun {q c idx'} hq => ?_, fun {q q' c c' idx₁ idx₂} hq hq' hne => ?_, fun i hi => ?_⟩
  · rcases eq_or_ne q p with rfl | hqp
    · rw [update_self] at hq
      cases hq
      exact Disk.chained_format hnodup fun i hi => (hfree₁ i).mpr (.inr hi)
    · rw [update_of_ne hqp] at hq
      have hchain := h.chained hq
      refine hchain.congr (fun i hi => ⟨?_, hdesc i (hold hq i hi)⟩) ?_
      · have htaken := hchain.taken i hi
        rw [htaken]
        exact (hfree₁ i).mpr (.inl htaken)
      · have hfst : idx'.fst ≠ idx.fst := by
          intro heq
          refine hold hq idx'.fst (by simp [DescChain.list]) ?_
          rw [heq]
          simp [DescChain.list]
        simp [Disk.format, hd₁, hfst]
  · rcases eq_or_ne q p with rfl | hqp
    · rw [update_self] at hq
      rw [update_of_ne hne.symm] at hq'
      cases hq
      exact fun i hi hi' => hold hq' i hi' hi
    · rw [update_of_ne hqp] at hq
      rcases eq_or_ne q' p with rfl | hqp'
      · rw [update_self] at hq'
        cases hq'
        exact hold hq
      · rw [update_of_ne hqp'] at hq'
        exact h.disjoint hq hq' hne
  · rcases (hfree₁ i).mp hi with hi | hi
    · obtain ⟨q, c, idx', hq, hmem⟩ := h.covered i hi
      have hqp : q ≠ p := by
        rintro rfl
        rw [hp] at hq
        cases hq
      exact ⟨q, c, idx', by rw [update_of_ne hqp, hq], hmem⟩
    · exact ⟨p, b, idx, update_self _ _ _, hi⟩

theorem remove (h : Chains d flight) (hp : flight p = some (b, idx)) :
    Chains ((((d.dropBuf idx.fst).clearDesc idx.fst).clearDesc idx.snd).clearDesc idx.trd)
      (update flight p none) := by
  set d₁ := (((d.dropBuf idx.fst).clearDesc idx.fst).clearDesc idx.snd).clearDesc idx.trd with hd₁
  have hfree₁ : ∀ i, d₁.free i = false ↔ d.free i = false ∧ i ∉ idx.list := by
    intro i
    rw [hd₁]
    simp only [Disk.clearDesc_free, Disk.dropBuf_free, DescChain.list, List.mem_cons,
      List.not_mem_nil, or_false, update_apply]
    split_ifs <;> simp_all
  have hdesc : ∀ i, i ∉ idx.list → d₁.desc i = d.desc i := by
    intro i hi
    simp only [DescChain.list, List.mem_cons, List.not_mem_nil, or_false, not_or] at hi
    obtain ⟨h₁, h₂, h₃⟩ := hi
    simp [hd₁, h₁, h₂, h₃]
  have hold : ∀ {q c idx'}, update flight p none q = some (c, idx') →
      q ≠ p ∧ flight q = some (c, idx') := by
    intro q c idx' hq
    rcases eq_or_ne q p with rfl | hqp
    · rw [update_self] at hq
      cases hq
    · rw [update_of_ne hqp] at hq
      exact ⟨hqp, hq⟩
  refine ⟨fun {q c idx'} hq => ?_, fun hq hq' hne => h.disjoint (hold hq).2 (hold hq').2 hne,
    fun i hi => ?_⟩
  · obtain ⟨hqp, hq⟩ := hold hq
    have hdisjoint := h.disjoint hq hp hqp
    refine (h.chained hq).congr (fun i hi => ⟨?_, hdesc i (hdisjoint i hi)⟩) ?_
    · have htaken := (h.chained hq).taken i hi
      rw [htaken]
      exact (hfree₁ i).mpr ⟨htaken, hdisjoint i hi⟩
    · have hfst : idx'.fst ≠ idx.fst := fun heq => hqp (h.eq_of_fst hq hp heq)
      simp [hd₁, hfst]
  · obtain ⟨hi, hnot⟩ := (hfree₁ i).mp hi
    obtain ⟨q, c, idx', hq, hmem⟩ := h.covered i hi
    have hqp : q ≠ p := by
      rintro rfl
      rw [hp] at hq
      cases hq
      exact hnot hmem
    exact ⟨q, c, idx', by rw [update_of_ne hqp, hq], hmem⟩

end Chains

end Xv6Zig
