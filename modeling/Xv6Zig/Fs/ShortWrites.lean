/-
Xv6Zig/Fs/ShortWrites.lean

What a short `writei` leaves behind.

If the disk is full the bytes that are not counted are not in the file either.  If
`copyin` fails in the middle of a block, the bytes in front of the failure are in the
buffer of that block, which is released without `log_write`: the file has bytes that
were not reported, and unless the block was allocated by this call or was in the log
before, the buffer differs from the disk and nothing will write it there.

`Torn` says when this happens, in terms of what the call finds.  Whether it gets to
the block depends on the free blocks: it needs one for each of the places it passes
that are empty (`missing`).
-/
import Mathlib.Order.Interval.Finset.Nat
import Xv6Zig.Fs.FileBytes

namespace Xv6Zig

open Lib Function

namespace Blocks

variable {B B' : Blocks} {D : ℕ → Dinode} {d d' : Dinode} {i j k n b off tot put : ℕ}
variable {log : List ℕ} {src : List (Option UInt8)}

/-! ### Free blocks and empty places -/

def freeBlocks (B : Blocks) : Finset ℕ := (Finset.range fsSize).filter fun b => B.used b = false

/-- The places of the blocks from `k` up to `k'`, with that of the indirect block if it is needed
for one of them. -/
def places (k k' : ℕ) : Finset ℕ :=
  Finset.Ico k k' ∪ if k < k' ∧ nDirect < k' then {maxFile} else ∅

/-- Those that are empty. -/
def missing (B : Blocks) (d : Dinode) (k k' : ℕ) : Finset ℕ :=
  (places k k').filter fun j => d.ptr B.data j = 0

theorem mem_places {k' : ℕ} : j ∈ places k k' ↔
    k ≤ j ∧ j < k' ∨ j = maxFile ∧ k < k' ∧ nDirect < k' := by
  unfold places
  rw [Finset.mem_union, Finset.mem_Ico]
  split
  · rename_i hin
    simp [hin]
  · rename_i hout
    simp [hout]

theorem missing_mono {k' k'' : ℕ} (h : k' ≤ k'') : missing B d k k' ⊆ missing B d k k'' := by
  apply Finset.filter_subset_filter
  intro j hj
  rw [mem_places] at hj ⊢
  omega

section Alloc

variable (h : Owns B (update D i d)) (hd : d.type ≠ 0)
  (hw : Wrote D i B d off src tot put B' d' log)
include h hd hw

theorem Wrote.was_free (h0 : d.ptr B.data j = 0) (hne : d'.ptr B'.data j ≠ 0) :
    B.used (d'.ptr B'.data j) = false := by
  have hd' : d'.type ≠ 0 := hw.same.type ▸ hd
  have hDi : update D i d i = d := update_self _ _ _
  have hDi' : update D i d' i = d' := update_self _ _ _
  by_contra hused
  obtain ⟨⟨i', j'⟩, hptr⟩ := (h.excl.used_iff (hw.owns.inArea_self hd' hne)).mp
    (Bool.eq_true_of_not_eq_false hused)
  rcases eq_or_ne i' i with rfl | hi
  · rw [ptrs_of_type (hDi.symm ▸ hd), hDi] at hptr
    have hj' : d.ptr B.data j' ≠ 0 := hptr ▸ hne
    obtain rfl : j' = j := by
      apply hw.owns.inj_self hd'
      · rw [hw.kept hj']
        exact hj'
      · rw [hw.kept hj', hptr]
    exact hj' h0
  · have htype : (D i').type ≠ 0 := by
      intro hzero
      unfold ptrs at hptr
      rw [update_of_ne hi, if_pos hzero] at hptr
      exact hne hptr.symm
    have hDj : ∀ d, update D i d i' = D i' := fun d => update_of_ne hi _ _
    rw [ptrs_of_type (hDj d ▸ htype), hDj] at hptr
    have hapart := (hw.apart i' hi htype j').1
    have heq : (update D i d' i').ptr B'.data j'
        = (update D i d' i).ptr B'.data j := by
      rw [hDj, hDi', hapart, hptr]
    refine hi (hw.owns.inj (hDj d' ▸ htype) (hDi'.symm ▸ hd') ?_ heq).1
    rw [hDj, hapart, hptr]
    exact hne

/-- The blocks in front of the end were found. -/
theorem Wrote.missing_le (hmax : off + src.length ≤ maxFile * bSize) :
    (missing B d (off / bSize) ((off + tot) / bSize)).card ≤ (freeBlocks B).card := by
  have hd' : d'.type ≠ 0 := hw.same.type ▸ hd
  have hend := hw.end_le hmax
  have hblock : ∀ {j}, j < (off + tot) / bSize → d'.ptr B'.data j ≠ 0 := by
    intro j hj
    apply hw.cov
    have hle := Nat.div_mul_le_self (off + tot) bSize
    have hmul : (j + 1) * bSize ≤ (off + tot) / bSize * bSize := Nat.mul_le_mul_right _ hj
    rw [Nat.add_mul] at hmul
    have := bSize_pos
    omega
  have hset : ∀ j ∈ missing B d (off / bSize) ((off + tot) / bSize), d'.ptr B'.data j ≠ 0 := by
    intro j hj
    rcases mem_places.mp (Finset.mem_filter.mp hj).1 with ⟨-, hlt⟩ | ⟨rfl, -, hlt⟩
    · exact hblock hlt
    · -- a block behind the indirect block was found
      have hmaxFile : maxFile = 268 := rfl
      have hdirect : nDirect = 12 := rfl
      have hindirect : nIndirect = 256 := rfl
      have hle : (off + tot) / bSize ≤ maxFile := Nat.div_le_of_le_mul (by rwa [mul_comm])
      obtain ⟨k, hk⟩ := Nat.exists_eq_add_of_lt hlt
      have hlast := hblock (show nDirect + k < (off + tot) / bSize by omega)
      rw [Dinode.ptr_indirect (by omega)] at hlast
      rw [Dinode.ptr_maxFile]
      intro hzero
      exact hlast (if_pos hzero)
  apply Finset.card_le_card_of_injOn (d'.ptr B'.data)
  · intro j hj
    have hne := hset j hj
    have hfree := hw.was_free h hd (Finset.mem_filter.mp hj).2 hne
    exact Finset.mem_filter.mpr
      ⟨Finset.mem_range.mpr (hw.owns.inArea_self hd' hne).2, hfree⟩
  · intro j hj j' hj' heq
    exact hw.owns.inj_self hd' (hset j hj) heq

/-- A write that stopped for want of a block had too few of them. -/
theorem Wrote.lt_missing (hmax : off + src.length ≤ maxFile * bSize) (htot : tot < src.length)
    (h0 : d'.ptr B'.data ((off + tot) / bSize) = 0) :
    (freeBlocks B).card < (missing B d (off / bSize) ((off + tot) / bSize + 1)).card := by
  have hd' : d'.type ≠ 0 := hw.same.type ▸ hd
  have hle : off / bSize ≤ (off + tot) / bSize := Nat.div_le_div_right (Nat.le_add_right _ _)
  have hlt : (off + tot) / bSize < maxFile := (Nat.div_lt_iff_lt_mul bSize_pos).mpr (by omega)
  have hstop : (off + tot) / bSize ∈ missing B d (off / bSize) ((off + tot) / bSize + 1) := by
    refine Finset.mem_filter.mpr ⟨mem_places.mpr (.inl ⟨hle, Nat.lt_succ_self _⟩), ?_⟩
    by_contra hne
    exact hne ((hw.kept hne).symm.trans h0)
  have hsub : freeBlocks B ⊆ ((missing B d (off / bSize) ((off + tot) / bSize + 1)).erase
      ((off + tot) / bSize)).image (d'.ptr B'.data) := by
    intro b hb
    obtain ⟨hb, hfree⟩ := Finset.mem_filter.mp hb
    have hbsize := Finset.mem_range.mp hb
    have hstart : dataStart ≤ b := by
      by_contra hhead
      rw [h.head (not_le.mp hhead)] at hfree
      cases hfree
    have hne : b ≠ 0 := InArea.ne_zero ⟨hstart, hbsize⟩
    -- no place had it before
    have hempty : ∀ {j}, b = d'.ptr B'.data j → d.ptr B.data j = 0 := by
      intro j hj
      by_contra hne
      have hused := h.used_self hd hne
      rw [← hw.kept hne, ← hj, hfree] at hused
      cases hused
    have hlog : b ∈ log := by
      by_contra hout
      have hused := hw.full htot h0 b hbsize
      rw [hw.alloc hout, hfree] at hused
      cases hused
    rw [Finset.mem_image]
    rcases hw.logged b hlog with rfl | hmaxFile | ⟨k, hk, -, hptr, hwhere⟩
    · exact absurd hstart (by decide)
    · refine ⟨maxFile, Finset.mem_erase.mpr ⟨hlt.ne', ?_⟩, hmaxFile.symm⟩
      refine Finset.mem_filter.mpr ⟨mem_places.mpr (.inr ⟨rfl, by omega, ?_⟩), hempty hmaxFile⟩
      by_contra hdirect
      have hzero := hempty hmaxFile
      rw [Dinode.ptr_maxFile, hw.direct (by omega), ← @Dinode.ptr_maxFile B.data, hzero] at hmaxFile
      exact hne hmaxFile
    · have hkle : k ≤ (off + tot) / bSize := by
        rcases hwhere with hlt' | ⟨-, hle'⟩
        · exact (Nat.le_div_iff_mul_le bSize_pos).mpr hlt'.2.le
        · exact hle'
      refine ⟨k, Finset.mem_erase.mpr ⟨?_, ?_⟩, hptr.symm⟩
      · rintro rfl
        exact hne (hptr.trans h0)
      · exact Finset.mem_filter.mpr ⟨mem_places.mpr (.inl ⟨hk, by omega⟩), hempty hptr⟩
  calc (freeBlocks B).card
      ≤ _ := Finset.card_le_card hsub
    _ ≤ _ := Finset.card_image_le
    _ < _ := Finset.card_lt_card (Finset.erase_ssubset hstop)

end Alloc

/-! ### Contents, cache and disk -/

/-- `readi` reads the bytes `c`. -/
def Reads (B : Blocks) (d : Dinode) (c : List UInt8) : Prop :=
  ∀ off n room, n ≤ room → B.readi d off n room = .ok (some (if off + n < 2 ^ 32 then
    (c.drop off).take n else []), B, d)

theorem Owns.reads_iff {c : List UInt8} (h : Owns B (update D i d)) (hd : d.type ≠ 0)
    (hc : c.length = d.size.toNat) : Reads B d c ↔ d.contents B.data = c := by
  constructor
  · intro hreads
    have hlt := d.size.toNat_lt
    have hall := hreads 0 d.size.toNat d.size.toNat le_rfl
    rw [h.readi_eq hd le_rfl, if_pos (by omega), if_pos (by omega)] at hall
    have heq := Option.some.inj (Prod.mk.inj (Except.ok.inj hall)).1
    rwa [List.drop_zero, List.drop_zero, ← hc, List.take_length, hc,
      List.take_of_length_le (d.length_contents B.data).le] at heq
  · rintro rfl off n room hroom
    exact h.readi_eq hd hroom

/-- The copies on the disk of the blocks that a write concerns. -/
structure OnDisk where
  data : ℕ → Bytes
  used : ℕ → Bool
  inode : Dinode

/-- The cached blocks that are not in the log are as on the disk; `d` is the inode in its
block. -/
structure Clean (disk : OnDisk) (i : ℕ) (B : Blocks) (d : Dinode) (log : List ℕ) : Prop where
  data : ∀ b, InArea b → b ∉ log → ∀ y < bSize, B.data b y = disk.data b y
  bitmap : bblock 0 ∉ log → B.used = disk.used
  inode : iblock i ∉ log → d = disk.inode

/-- The block in which the mapped part of the user's bytes ends. -/
def lastBlock (off : ℕ) (src : List (Option UInt8)) : ℕ := (off + (copied src).length) / bSize

/-- **When bytes are left behind**: not all of `src` is mapped, the write gets to the block in
which the mapped part ends, this block is there already, and a byte for it is not the one that is
there; it is seen in the file, or the block is not in the log. -/
structure Torn (B : Blocks) (d : Dinode) (off : ℕ) (src : List (Option UInt8)) (log : List ℕ) :
    Prop where
  short : (copied src).length < src.length
  space : (missing B d (off / bSize) (lastBlock off src)).card ≤ (freeBlocks B).card
  there : d.ptr B.data (lastBlock off src) ≠ 0
  differs : ∃ x, lastBlock off src * bSize ≤ x ∧ off ≤ x ∧ x < off + (copied src).length ∧
    (copied src)[x - off]? ≠ some (d.byte B.data x) ∧
      (x < d.size.toNat ∨ d.ptr B.data (lastBlock off src) ∉ log)

section Bytes

variable (hw : Wrote D i B d off src tot put B' d' log)
include hw

theorem Wrote.byte_put {x : ℕ} (hge : off ≤ x) (hlt : x < off + put) :
    (copied src)[x - off]? = some (d'.byte B'.data x) := by
  have hput := hw.ended.le.2.1
  rw [hw.bytes x (.inr ⟨hge, hlt⟩)]
  obtain ⟨y, rfl⟩ := Nat.exists_eq_add_of_le hge
  rw [Bytes.write_add _ _ (by rw [List.length_take]; omega), List.getElem_take,
    Nat.add_sub_cancel_left, List.getElem?_eq_getElem]

theorem Wrote.byte_kept {x : ℕ} (hx : x / bSize < maxFile) (hne : d.ptr B.data (x / bSize) ≠ 0)
    (hout : x < off ∨ off + put ≤ x) : d'.byte B'.data x = d.byte B.data x := by
  have hput := hw.ended.le.2.1
  rw [hw.bytes x (.inl ⟨hx, hne⟩)]
  rcases hout with hlt | hge
  · exact Bytes.write_of_lt _ hlt
  · exact Bytes.write_of_le _ (by rw [List.length_take]; omega)

end Bytes

/-! ### Short writes -/

section Short

variable {disk : OnDisk} {log₀ : List ℕ} {dc : Dinode}
variable (h : Owns B (update D i d)) (hd : d.type ≠ 0)
  (hmax : off + src.length ≤ maxFile * bSize) (hw : Wrote D i B d off src tot put B' d' log)
include h hd hmax hw

/-- A write that stops for want of a block does not get to the block in which the mapped part
ends. -/
theorem Wrote.not_torn_of_full (htot : tot < src.length) (hle : tot ≤ (copied src).length)
    (h0 : d'.ptr B'.data ((off + tot) / bSize) = 0) : ¬ Torn B d off src log₀ := by
  intro htorn
  have hblock : (off + tot) / bSize ≤ lastBlock off src := Nat.div_le_div_right (by omega)
  have hne : (off + tot) / bSize ≠ lastBlock off src := by
    intro heq
    have hthere := htorn.there
    rw [← heq] at hthere
    exact hthere ((hw.kept hthere).symm.trans h0)
  have hlt := hw.lt_missing h hd hmax htot h0
  have hsub : (missing B d (off / bSize) ((off + tot) / bSize + 1)).card
      ≤ (missing B d (off / bSize) (lastBlock off src)).card :=
    Finset.card_le_card (missing_mono (by omega))
  have hspace := htorn.space
  omega

omit h hd hmax in
/-- A block that is not changed is as on the disk. -/
theorem Wrote.clean (hclean : Clean disk i B dc log₀) {e : Dinode}
    (htorn : tot < put → InArea (d'.ptr B'.data ((off + tot) / bSize)) →
      d'.ptr B'.data ((off + tot) / bSize) ∉ log₀ → d'.ptr B'.data ((off + tot) / bSize) ∉ log →
      ∀ y < bSize, B'.data (d'.ptr B'.data ((off + tot) / bSize)) y
        = B.data (d'.ptr B'.data ((off + tot) / bSize)) y) :
    Clean disk i B' e (log₀ ++ (log ++ [iblock i])) := by
  refine ⟨fun b harea hb y hy => ?_, fun hb => ?_, fun hb => ?_⟩
  · rw [List.mem_append, List.mem_append, not_or, not_or] at hb
    obtain ⟨hb₀, hb, -⟩ := hb
    rw [← hclean.data b harea hb₀ y hy]
    by_cases htear : tot < put ∧ b = d'.ptr B'.data ((off + tot) / bSize)
    · obtain ⟨hlt, rfl⟩ := htear
      exact htorn hlt harea hb₀ hb y hy
    · rw [hw.data hb fun hlt heq => htear ⟨hlt, heq⟩]
  · rw [List.mem_append, List.mem_append, not_or, not_or] at hb
    rw [hw.used hb.2.1, hclean.bitmap hb.1]
  · exact absurd (by simp) hb

omit hmax in
theorem Wrote.mem_log (h0 : d.ptr B.data j = 0) (hne : d'.ptr B'.data j ≠ 0) :
    d'.ptr B'.data j ∈ log := by
  have hd' : d'.type ≠ 0 := hw.same.type ▸ hd
  by_contra hout
  have hused := hw.owns.used_self hd' hne
  rw [hw.alloc hout, hw.was_free h hd h0 hne] at hused
  cases hused

omit h hmax in
/-- A block that was there before and is not written as a whole is not in the log. -/
theorem Wrote.not_mem_log (hi : i < nInodes) (hk : k < maxFile) (hne : d.ptr B.data k ≠ 0)
    (hend : 0 < tot → off + tot ≤ k * bSize) : d.ptr B.data k ∉ log ++ [iblock i] := by
  have hd' : d'.type ≠ 0 := hw.same.type ▸ hd
  have hkept := hw.kept hne
  have harea : InArea (d.ptr B.data k) := by
    rw [← hkept] at hne ⊢
    exact hw.owns.inArea_self hd' hne
  have hstart : dataStart = 46 := rfl
  have hinode : iblock i = i / 16 + 32 := rfl
  have hbitmap : bblock 0 = 45 := rfl
  have hnum : nInodes = 200 := rfl
  rw [List.mem_append, List.mem_singleton]
  rintro (hlog | heq)
  · rcases hw.logged _ hlog with heq | heq | ⟨k', -, -, heq, hwhere⟩
    · have := harea.1
      omega
    · rw [← hkept] at heq hne
      exact absurd (hw.owns.inj_self hd' hne heq) hk.ne
    · rw [← hkept] at heq
      obtain rfl := hw.owns.inj_self hd' (hkept ▸ hne) heq
      rcases hwhere with ⟨hpos, hlt⟩ | ⟨h0, -⟩
      · have := hend hpos
        omega
      · exact hne h0
  · have := harea.1
    omega

end Short

theorem mul_add_div {y : ℕ} (hy : y < bSize) : (k * bSize + y) / bSize = k := by
  rw [mul_comm, Nat.mul_add_div bSize_pos, Nat.div_eq_of_lt hy, Nat.add_zero]

theorem mul_add_mod {y : ℕ} (hy : y < bSize) : (k * bSize + y) % bSize = y := by
  rw [mul_comm, Nat.mul_add_mod, Nat.mod_eq_of_lt hy]

/-- `copyin` fails in the block of the first byte that is not counted. -/
theorem lastBlock_of_fault (hle : tot ≤ (copied src).length)
    (hblock : tot = 0 ∨ (off + tot) % bSize = 0)
    (hin : (copied src).length < tot + (bSize - (off + tot) % bSize)) :
    lastBlock off src = (off + tot) / bSize ∧
      ∀ x, lastBlock off src * bSize ≤ x ∧ off ≤ x ↔ off + tot ≤ x := by
  have hdiv := Nat.div_add_mod (off + tot) bSize
  have hmod := Nat.mod_lt (off + tot) bSize_pos
  have heq : lastBlock off src = (off + tot) / bSize := by
    unfold lastBlock
    rw [Nat.div_eq_iff bSize_pos, mul_comm ((off + tot) / bSize)]
    omega
  refine ⟨heq, fun x => ?_⟩
  rw [heq, mul_comm]
  rcases hblock with rfl | hblock
  · rw [Nat.add_zero] at *
    omega
  · omega

section Fault

variable {disk : OnDisk} {log₀ : List ℕ} {dc : Dinode}
variable (h : Owns B (update D i d)) (hd : d.type ≠ 0) (hoff : off ≤ d.size.toNat)
  (hmax : off + src.length ≤ maxFile * bSize) (hlt : (copied src).length < src.length)
  (hw : Wrote D i B d off src tot (copied src).length B' d' log)
  (hlast : lastBlock off src = (off + tot) / bSize)
  (hx : ∀ x, lastBlock off src * bSize ≤ x ∧ off ≤ x ↔ off + tot ≤ x)
include h hd hoff hmax hlt hw hlast hx

omit hoff in
/-- The bytes that are left behind are those that were there. -/
theorem Wrote.torn_byte (hnot : ¬ Torn B d off src log₀) {x : ℕ} (hge : off + tot ≤ x)
    (hput : x < off + (copied src).length) (hne : d.ptr B.data (lastBlock off src) ≠ 0)
    (hseen : x < d.size.toNat ∨ d.ptr B.data (lastBlock off src) ∉ log₀) :
    d'.byte B'.data x = d.byte B.data x := by
  obtain ⟨hblock, hoffx⟩ := (hx x).mpr hge
  by_contra hdiff
  refine hnot ⟨hlt, hlast ▸ hw.missing_le h hd hmax, hne, x, hblock, hoffx, hput, ?_, hseen⟩
  rw [hw.byte_put hoffx hput]
  exact fun heq => hdiff (Option.some.inj heq)

theorem Wrote.of_not_torn (hclean : Clean disk i B dc log₀) (hnot : ¬ Torn B d off src log₀) :
    (grown d' (off + tot)).contents B'.data
        = Bytes.overwrite (d.contents B.data) off ((copied src).take tot) ∧
      Clean disk i B' (grown d' (off + tot)) (log₀ ++ (log ++ [iblock i])) := by
  have hd' : d'.type ≠ 0 := hw.same.type ▸ hd
  have hsize := h.size_le_self hd
  have htot := hw.ended.le.1
  have hkmax : lastBlock off src < maxFile := (Nat.div_lt_iff_lt_mul bSize_pos).mpr (by omega)
  constructor
  · have hlen : ((copied src).take tot).length = tot := by
      rw [List.length_take, min_eq_left htot]
    rw [Dinode.contents_eq_slice, Dinode.contents_eq_slice, Bytes.overwrite_slice _ _ hoff, hlen,
      hw.size_grown hmax]
    apply Bytes.slice_congr
    intro x hxlt
    rw [Nat.zero_add]
    by_cases hin : off + tot ≤ x ∧ x < off + (copied src).length
    · -- such a byte is in the block, and was there before
      have hxsize : x < d.size.toNat := by omega
      have hxblock : x / bSize = lastBlock off src := by
        obtain ⟨hge, -⟩ := (hx x).mpr hin.1
        apply Nat.le_antisymm
        · exact Nat.div_le_div_right hin.2.le
        · exact (Nat.le_div_iff_mul_le bSize_pos).mpr hge
      have hne : d.ptr B.data (lastBlock off src) ≠ 0 := by
        rw [← hxblock]
        exact h.below_self hd (lt_of_le_of_lt (Nat.div_mul_le_self _ _) hxsize)
      have hbyte := hw.torn_byte h hd hmax hlt hlast hx hnot hin.1 hin.2 hne (.inl hxsize)
      rw [Bytes.write_of_le _ (by omega), ← hbyte]
      unfold Dinode.byte
      rw [ptr_grown]
    · have hdrop : ((copied src).drop tot).length = (copied src).length - tot := List.length_drop
      rw [hw.byte h hd hoff hxlt, List.take_length]
      conv_lhs => rw [← List.take_append_drop tot (copied src), ← Bytes.write_append, hlen]
      rcases Nat.lt_or_ge x (off + tot) with hbefore | hbehind
      · exact Bytes.write_of_lt _ hbefore
      · exact Bytes.write_of_le _ (by omega)
  · refine hw.clean hclean fun hlt' harea hb₀ hb y hy => ?_
    rw [← hlast] at harea hb₀ hb ⊢
    have hne' := harea.ne_zero
    by_cases h0 : d.ptr B.data (lastBlock off src) = 0
    · exact absurd (hw.mem_log h hd h0 hne') hb
    · have hkept := hw.kept h0
      rw [hkept] at hb₀ ⊢
      have hbyte : d'.byte B'.data (lastBlock off src * bSize + y)
          = d.byte B.data (lastBlock off src * bSize + y) := by
        by_cases hin : off ≤ lastBlock off src * bSize + y ∧
            lastBlock off src * bSize + y < off + (copied src).length
        · exact hw.torn_byte h hd hmax hlt hlast hx hnot
            ((hx _).mp ⟨Nat.le_add_right _ _, hin.1⟩) hin.2 h0 (.inr hb₀)
        · refine hw.byte_kept ?_ ?_ (by omega)
          · rwa [mul_add_div hy]
          · rwa [mul_add_div hy]
      unfold Dinode.byte at hbyte
      rwa [mul_add_div hy, mul_add_mod hy, hkept] at hbyte

theorem Wrote.not_torn (hi : i < nInodes) (hclean : Clean disk i B dc log₀)
    (hblock : tot = 0 ∨ (off + tot) % bSize = 0)
    (hcontents : (grown d' (off + tot)).contents B'.data
      = Bytes.overwrite (d.contents B.data) off ((copied src).take tot))
    (hafter : Clean disk i B' (grown d' (off + tot)) (log₀ ++ (log ++ [iblock i]))) :
    ¬ Torn B d off src log₀ := by
  rintro ⟨-, -, hne, x, hxblock, hoffx, hput, hdiff, hseen⟩
  have hge : off + tot ≤ x := (hx x).mp ⟨hxblock, hoffx⟩
  have htot := hw.ended.le.1
  have hkmax : lastBlock off src < maxFile := (Nat.div_lt_iff_lt_mul bSize_pos).mpr (by omega)
  have hdiv : x / bSize = lastBlock off src := by
    apply Nat.le_antisymm
    · exact Nat.div_le_div_right hput.le
    · exact (Nat.le_div_iff_mul_le bSize_pos).mpr hxblock
  rw [hw.byte_put hoffx hput] at hdiff
  apply hdiff
  congr 1
  rcases hseen with hsize | hb₀
  · -- the byte is one of the file
    have hlen : ((copied src).take tot).length = tot := by
      rw [List.length_take, min_eq_left htot]
    have hdrop := congrArg (fun l => (l.drop x)[0]?) hcontents
    rw [Bytes.drop_overwrite (by rwa [Dinode.length_contents]) (by omega), List.getElem?_drop,
      List.getElem?_drop, Nat.add_zero,
      List.getElem?_eq_getElem (by rw [Dinode.length_contents, hw.size_grown hmax]; omega),
      List.getElem?_eq_getElem (by rwa [Dinode.length_contents]), Dinode.getElem_contents,
      Dinode.getElem_contents] at hdrop
    have hbyte := Option.some.inj hdrop
    unfold Dinode.byte at hbyte ⊢
    rwa [ptr_grown] at hbyte
  · -- the block is not in the log
    have hkept := hw.kept hne
    have harea := h.inArea_self hd hne
    have hend : 0 < tot → off + tot ≤ lastBlock off src * bSize := by
      intro hpos
      have hmod := hblock.resolve_left hpos.ne'
      have hmul := Nat.div_add_mod (off + tot) bSize
      rw [hlast, mul_comm]
      omega
    have hb := hw.not_mem_log hd hi hkmax hne hend
    have hmod := Nat.mod_lt x bSize_pos
    have hafter' := hafter.data _ harea
      (fun hmem => (List.mem_append.mp hmem).elim hb₀ hb) (x % bSize) hmod
    rw [← hclean.data _ harea hb₀ (x % bSize) hmod] at hafter'
    unfold Dinode.byte
    rwa [hdiv, hkept]

end Fault

/-- **A short write changes only what it reports, and leaves cache and disk together, iff** no
bytes are left behind. -/
theorem short_write_iff {disk : OnDisk} {log₀ : List ℕ} {dc : Dinode} {r : ℕ}
    (h : Owns B (update D i d)) (hd : d.type ≠ 0) (hi : i < nInodes)
    (hclean : Clean disk i B dc log₀)
    (hwrite : writeiLogged i B d src off = .ok ((some r, B', d'), log)) (hr : r < src.length) :
    Reads B' d' (Bytes.overwrite (d.contents B.data) off ((copied src).take r)) ∧
        Clean disk i B' d' (log₀ ++ log) ↔ ¬ Torn B d off src log₀ := by
  by_cases hin : d.size.toNat < off ∨ 2 ^ 32 ≤ off + src.length ∨ maxFile * bSize < off + src.length
  · rw [writeiLogged_none hin] at hwrite
    cases hwrite
  have hoff : off ≤ d.size.toNat := by omega
  have hmax : off + src.length ≤ maxFile * bSize := by omega
  obtain ⟨tot, put, B₁, d₁, log₁, hwritei, hw⟩ := h.writeiLogged hd hoff hmax
  obtain ⟨hres, rfl⟩ := Prod.mk.inj (Except.ok.inj (hwritei.symm.trans hwrite))
  obtain ⟨hrtot, hres⟩ := Prod.mk.inj hres
  obtain ⟨rfl, rfl⟩ := Prod.mk.inj hres
  obtain rfl : tot = r := Option.some.inj hrtot
  have hd₁ : (grown d₁ (off + tot)).type ≠ 0 := by
    rw [(sameKind_grown d₁ _).type, hw.same.type]
    exact hd
  have hlen : (Bytes.overwrite (d.contents B.data) off ((copied src).take tot)).length
      = (grown d₁ (off + tot)).size.toNat := by
    have hle := hw.ended.le
    rw [Bytes.length_overwrite _ (by rwa [Dinode.length_contents]), Dinode.length_contents,
      List.length_take, hw.size_grown hmax, min_eq_left (by omega)]
  rw [(hw.owns_grown hmax).reads_iff hd₁ hlen]
  have hended := hw.ended
  generalize hnext : d₁.ptr B₁.data ((off + tot) / bSize) = b at hended
  rcases hended with ⟨-, -⟩ | ⟨hle, hlt, -⟩ | ⟨hlt, hle, hblock, hin', hb⟩
  · exact absurd hr (lt_irrefl _)
  · -- no block was left: what is there is what is counted
    refine ⟨fun _ => hw.not_torn_of_full h hd hmax hlt hle hnext, fun _ => ⟨?_, ?_⟩⟩
    · exact hw.contents h hd hoff hmax rfl
    · exact hw.clean hclean fun hlt => absurd hlt (lt_irrefl _)
  · obtain ⟨hlast, hx⟩ := lastBlock_of_fault hle hblock hin'
    exact ⟨fun hafter => hw.not_torn h hd hoff hmax hlt hlast hx hi hclean hblock hafter.1 hafter.2,
      hw.of_not_torn h hd hoff hmax hlt hlast hx hclean⟩

/-- Bytes for a whole block, and one that is not mapped. -/
def blockAndFault : List (Option UInt8) := List.replicate bSize (some 1) ++ [none]

/-- The write ends with the block. -/
theorem short_write_iff_oneFile : ∃ B' d' log,
    writeiLogged 2 oneFileBlocks oneFile blockAndFault 0 = .ok ((some bSize, B', d'), log) ∧
      Reads B' d' (List.replicate bSize 1) ∧
      Clean ⟨oneFileBlocks.data, oneFileBlocks.used, oneFile⟩ 2 B' d' log := by
  have hclean : Clean ⟨oneFileBlocks.data, oneFileBlocks.used, oneFile⟩ 2 oneFileBlocks oneFile [] :=
    ⟨fun _ _ _ _ _ => rfl, fun _ => rfl, fun _ => rfl⟩
  obtain ⟨⟨⟨r, B', d'⟩, log⟩, hwrite, hr⟩ : ∃ x,
      (writeiLogged 2 oneFileBlocks oneFile blockAndFault 0).toOption = some x ∧
        x.1.1 = some bSize := exists_of_decide (by decide +kernel)
  obtain rfl : r = some bSize := hr
  have hwrite := toOption_eq_some hwrite
  have hcopied : copied blockAndFault = List.replicate bSize 1 := by decide +kernel
  have hlen : (copied blockAndFault).length = bSize := by rw [hcopied, List.length_replicate]
  have hbytes : Bytes.overwrite (oneFile.contents oneFileBlocks.data) 0
      ((copied blockAndFault).take bSize) = List.replicate bSize 1 := by
    rw [List.take_of_length_le hlen.le, Bytes.overwrite, List.take_zero, List.nil_append,
      List.drop_eq_nil_of_le (by rw [Dinode.length_contents, hlen]; decide), List.append_nil, hcopied]
  have hiff := short_write_iff oneFile_owns (by decide) (by decide) hclean hwrite
    (by rw [blockAndFault, List.length_append, List.length_replicate]; exact Nat.lt_succ_self _)
  rw [hbytes] at hiff
  obtain ⟨hreads, hafter⟩ := hiff.mpr (by
    -- in the second block there is no byte
    rintro ⟨-, -, -, x, hle, -, hlt, -⟩
    rw [lastBlock, hlen, Nat.zero_add, Nat.div_self bSize_pos] at hle
    rw [hlen] at hlt
    omega)
  exact ⟨B', d', log, hwrite, hreads, hafter⟩

/-- **Bytes left behind**: of two bytes the first is mapped.  The write returns 0, the file has the
byte, and its block is not in the log. -/
theorem short_write_leaves_byte : ∃ B' d' log,
    oneFile.contents oneFileBlocks.data = [7, 7, 7] ∧
      writeiLogged 2 oneFileBlocks oneFile [some 1, none] 0 = .ok ((some 0, B', d'), log) ∧
        d'.contents B'.data = [1, 7, 7] ∧ oneFile.ptr oneFileBlocks.data 0 = 46 ∧ 46 ∉ log ∧
          B'.data 46 0 ≠ oneFileBlocks.data 46 0 :=
  ⟨_, _, _, rfl, rfl, rfl, rfl, by decide, by decide⟩

end Blocks

end Xv6Zig
