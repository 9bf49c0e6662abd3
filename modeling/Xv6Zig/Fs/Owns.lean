/-
Xv6Zig/Fs/Owns.lean

Who owns which block.

`Owns B D`: the data blocks that the bitmap marks as used are those an inode of `D`
points to, each from one place only, and the contents of an inode are in blocks up to
its size.  `D` are the inodes as they are in effect: the one that a function works
on is in `D` with its copy in memory.

`bmap` sets a place that was empty to a block that was free (`Grows`); `itrunc`
clears all places of an inode and frees their blocks; a store to a block of one
inode is seen in no other.
-/
import Xv6Zig.Fs.Blocks
import Xv6Zig.Lib.Outcome
import Xv6Zig.Lib.Pointers

namespace Xv6Zig

open Lib Function

variable {data data' : ℕ → Bytes} {d d' : Dinode} {i j k b n off : ℕ}

/-! ### Places of an inode -/

namespace Dinode

theorem ptr_direct (h : k < nDirect) : d.ptr data k = d.addr k := if_pos h

theorem ptr_maxFile : d.ptr data maxFile = d.addr nDirect := by
  unfold ptr
  rw [if_neg (by decide), if_neg (lt_irrefl _), if_pos rfl]

theorem ptr_indirect (h : j < nIndirect) : d.ptr data (nDirect + j)
    = if d.addr nDirect = 0 then 0 else (data (d.addr nDirect)).load (4 * j) 4 := by
  have hmax : maxFile = 268 := rfl
  have hdirect : nDirect = 12 := rfl
  have hind : nIndirect = 256 := rfl
  unfold ptr
  rw [if_neg (by omega), if_pos (by omega), Nat.add_sub_cancel_left]

/-- The places depend on the indirect block only. -/
theorem ptr_congr (h : d.addr nDirect ≠ 0 → data' (d.addr nDirect) = data (d.addr nDirect))
    (k : ℕ) : d.ptr data' k = d.ptr data k := by
  unfold ptr
  by_cases h0 : d.addr nDirect = 0
  · simp only [h0, if_true]
  · simp only [h h0]

theorem ptr_setAddr (hk : k < nDirect) (hb : b < 2 ^ 32) :
    (d.setAddr k b).ptr data = update (d.ptr data) k b := by
  have hdirect : nDirect = 12 := rfl
  have hind : (d.setAddr k b).addr nDirect = d.addr nDirect := addr_setAddr_of_ne (by omega)
  funext j
  rcases eq_or_ne j k with rfl | hjk
  · rw [update_self, ptr_direct hk, addr_setAddr_self (by omega) hb]
  · rw [update_of_ne hjk]
    unfold ptr
    rw [hind, addr_setAddr_of_ne hjk]

/-- The indirect block is set, to a block of zeros. -/
theorem ptr_setAddr_indirect (h0 : d.addr nDirect = 0) (hb : b < 2 ^ 32)
    (hzero : data' b = fun _ => 0) :
    (d.setAddr nDirect b).ptr data' = update (d.ptr data) maxFile b := by
  have hind : (d.setAddr nDirect b).addr nDirect = b := addr_setAddr_self (by decide) hb
  funext j
  rcases eq_or_ne j maxFile with rfl | hj
  · rw [update_self, ptr_maxFile, hind]
  · rw [update_of_ne hj]
    unfold ptr
    split
    · exact addr_setAddr_of_ne (by omega)
    · rw [hind, hzero, Bytes.load_of_zero fun _ _ _ => rfl, ite_self]

theorem ptr_store (h0 : d.addr nDirect ≠ 0) (hj : j < nIndirect) (hb : b < 2 ^ 32)
    (hstore : data' (d.addr nDirect) = (data (d.addr nDirect)).store (4 * j) 4 b) :
    d.ptr data' = update (d.ptr data) (nDirect + j) b := by
  have hmax : maxFile = 268 := rfl
  have hdirect : nDirect = 12 := rfl
  have hind : nIndirect = 256 := rfl
  funext k
  rcases eq_or_ne k (nDirect + j) with rfl | hk
  · rw [update_self, ptr_indirect hj, if_neg h0, hstore, Bytes.load_store _ _ hb]
  · rw [update_of_ne hk]
    unfold ptr
    split
    · rfl
    · split
      · rw [hstore]
        -- another entry is in other bytes
        apply Bytes.load_congr
        intro x hlo hhi
        rcases Nat.lt_or_ge x (4 * j) with hlt | hge
        · exact Bytes.store_of_lt hlt
        · exact Bytes.store_of_le (by omega)
      · rfl

/-- What does not concern the contents is the same. -/
structure SameKind (d d' : Dinode) : Prop where
  type : d'.type = d.type
  major : d'.major = d.major
  minor : d'.minor = d.minor
  nlink : d'.nlink = d.nlink

/-- All but the block numbers are the same. -/
structure SameMeta (d d' : Dinode) : Prop extends SameKind d d' where
  size : d'.size = d.size

theorem SameKind.refl (d : Dinode) : SameKind d d := ⟨rfl, rfl, rfl, rfl⟩

theorem SameMeta.refl (d : Dinode) : SameMeta d d := ⟨.refl d, rfl⟩

theorem SameKind.trans {d'' : Dinode} (h : SameKind d d') (h' : SameKind d' d'') :
    SameKind d d'' :=
  ⟨h'.type.trans h.type, h'.major.trans h.major, h'.minor.trans h.minor, h'.nlink.trans h.nlink⟩

theorem SameMeta.trans {d'' : Dinode} (h : SameMeta d d') (h' : SameMeta d' d'') :
    SameMeta d d'' :=
  ⟨h.toSameKind.trans h'.toSameKind, h'.size.trans h.size⟩

theorem sameMeta_setAddr (d : Dinode) (k b : ℕ) : SameMeta d (d.setAddr k b) :=
  ⟨⟨rfl, rfl, rfl, rfl⟩, rfl⟩

theorem contents_eq_slice (d : Dinode) (data : ℕ → Bytes) :
    d.contents data = Bytes.slice (d.byte data) 0 d.size.toNat := by
  unfold contents Bytes.slice
  simp only [Nat.zero_add]

end Dinode

namespace Blocks

variable {B B' B'' : Blocks} {D : ℕ → Dinode}

theorem InArea.ne_zero (h : InArea b) : b ≠ 0 := by
  have hstart : dataStart = 46 := rfl
  obtain ⟨hlo, -⟩ := h
  omega

theorem InArea.lt (h : InArea b) : b < 2 ^ 32 := by
  have hsize : fsSize = 2000 := rfl
  obtain ⟨-, hhi⟩ := h
  omega

/-- The block number at a place of an inode that is allocated. -/
def ptrs (data : ℕ → Bytes) (D : ℕ → Dinode) (x : ℕ × ℕ) : ℕ :=
  if (D x.1).type = 0 then 0 else (D x.1).ptr data x.2

theorem ptrs_of_type (h : (D i).type ≠ 0) (k : ℕ) : ptrs data D (i, k) = (D i).ptr data k :=
  if_neg h

/-- **Ownership of blocks.** -/
structure Owns (B : Blocks) (D : ℕ → Dinode) : Prop where
  excl : Exclusive InArea B.used (ptrs B.data D)
  head : ∀ {b}, b < dataStart → B.used b = true
  size_le : ∀ {i}, (D i).type ≠ 0 → (D i).size.toNat ≤ maxFile * bSize
  below : ∀ {i k}, (D i).type ≠ 0 → k * bSize < (D i).size.toNat → (D i).ptr B.data k ≠ 0

namespace Owns

theorem inArea (h : Owns B D) (hi : (D i).type ≠ 0) (hk : (D i).ptr B.data k ≠ 0) :
    InArea ((D i).ptr B.data k) := by
  rw [← ptrs_of_type hi] at hk ⊢
  exact h.excl.mem hk

theorem used (h : Owns B D) (hi : (D i).type ≠ 0) (hk : (D i).ptr B.data k ≠ 0) :
    B.used ((D i).ptr B.data k) = true := by
  rw [← ptrs_of_type hi] at hk ⊢
  exact h.excl.used_ptr hk

theorem inj {k' : ℕ} (h : Owns B D) (hi : (D i).type ≠ 0) (hj : (D j).type ≠ 0)
    (hk : (D i).ptr B.data k ≠ 0) (heq : (D i).ptr B.data k = (D j).ptr B.data k') :
    i = j ∧ k = k' := by
  rw [← ptrs_of_type hi] at hk heq
  rw [← ptrs_of_type hj] at heq
  exact Prod.mk.inj (h.excl.inj hk heq)

/-! The same for the inode at work. -/

section Self

variable (h : Owns B (update D i d)) (hd : d.type ≠ 0)
include h hd

theorem inArea_self (hk : d.ptr B.data k ≠ 0) : InArea (d.ptr B.data k) := by
  have hi := h.inArea (i := i) (k := k)
  rw [update_self] at hi
  exact hi hd hk

theorem used_self (hk : d.ptr B.data k ≠ 0) : B.used (d.ptr B.data k) = true := by
  have hi := h.used (i := i) (k := k)
  rw [update_self] at hi
  exact hi hd hk

theorem used_addr (hind : d.addr nDirect ≠ 0) : B.used (d.addr nDirect) = true := by
  rw [← @Dinode.ptr_maxFile B.data] at hind ⊢
  exact h.used_self hd hind

theorem inj_self {k' : ℕ} (hk : d.ptr B.data k ≠ 0) (heq : d.ptr B.data k = d.ptr B.data k') :
    k = k' := by
  have hi : ∀ k', _ → _ → _ → _ → _ ∧ k = k' := fun k' => h.inj (i := i) (j := i) (k := k)
  rw [update_self] at hi
  exact (hi k' hd hd hk heq).2

theorem size_le_self : d.size.toNat ≤ maxFile * bSize := by
  have hi := h.size_le (i := i)
  rw [update_self] at hi
  exact hi hd

theorem below_self (hlt : k * bSize < d.size.toNat) : d.ptr B.data k ≠ 0 := by
  have hi := h.below (i := i) (k := k)
  rw [update_self] at hi
  exact hi hd hlt

end Self

end Owns

/-- What is done to the blocks of the inode `i` does not concern the others: they have the same
blocks, with the same bytes. -/
def Apart (D : ℕ → Dinode) (i : ℕ) (B B' : Blocks) : Prop :=
  ∀ j ≠ i, (D j).type ≠ 0 → ∀ k, (D j).ptr B'.data k = (D j).ptr B.data k ∧
    ((D j).ptr B.data k ≠ 0 → B'.data ((D j).ptr B.data k) = B.data ((D j).ptr B.data k))

namespace Apart

theorem refl (D : ℕ → Dinode) (i : ℕ) (B : Blocks) : Apart D i B B :=
  fun _ _ _ _ => ⟨rfl, fun _ => rfl⟩

theorem trans (h : Apart D i B B') (h' : Apart D i B' B'') : Apart D i B B'' := by
  intro j hj htype k
  obtain ⟨hptr, hdata⟩ := h j hj htype k
  obtain ⟨hptr', hdata'⟩ := h' j hj htype k
  rw [hptr] at hptr' hdata'
  exact ⟨hptr', fun hk => (hdata' hk).trans (hdata hk)⟩

/-- Only blocks that other inodes do not have get other bytes. -/
theorem of_data (h : ∀ b, B.used b = true → (∀ k, b ≠ d.ptr B.data k) → B'.data b = B.data b)
    (howns : Owns B (update D i d)) (hd : d.type ≠ 0) : Apart D i B B' := by
  intro j hj htype
  have hDj : update D i d j = D j := update_of_ne hj _ _
  have hDi : update D i d i = d := update_self _ _ _
  have hkept : ∀ k, (D j).ptr B.data k ≠ 0 →
      B'.data ((D j).ptr B.data k) = B.data ((D j).ptr B.data k) := by
    intro k hk
    rw [← hDj] at hk htype ⊢
    apply h _ (howns.used htype hk)
    intro k' heq
    have heq' : (update D i d j).ptr B.data k = (update D i d i).ptr B.data k' := by
      rw [hDi]
      exact heq
    exact hj (howns.inj htype (hDi.symm ▸ hd) hk heq').1
  intro k
  refine ⟨Dinode.ptr_congr (fun hind => ?_) k, hkept k⟩
  rw [← @Dinode.ptr_maxFile B.data] at hind ⊢
  exact hkept _ hind

theorem contents (h : Apart D i B B') (hj : j ≠ i) (htype : (D j).type ≠ 0)
    (hbelow : ∀ k, k * bSize < (D j).size.toNat → (D j).ptr B.data k ≠ 0) :
    (D j).contents B'.data = (D j).contents B.data := by
  unfold Dinode.contents
  apply List.map_congr_left
  intro x hx
  have hlt : x / bSize * bSize < (D j).size.toNat :=
    lt_of_le_of_lt (Nat.div_mul_le_self _ _) (List.mem_range.mp hx)
  obtain ⟨hptr, hdata⟩ := h j hj htype (x / bSize)
  unfold Dinode.byte
  rw [hptr, hdata (hbelow _ hlt)]

end Apart

/-! ### Allocation -/

/-- `balloc` gives a data block that was free, full of zeros, if there is one. -/
theorem Owns.balloc (h : Owns B D) : ∃ b B', B.balloc = .ok (b, B') ∧ (b = 0 ∧ B' = B ∨
    InArea b ∧ B.used b = false ∧ B'.used = update B.used b true ∧
      B'.data = update B.data b fun _ => 0) := by
  unfold Blocks.balloc
  rcases hfind : (List.range fsSize).find? fun b => !B.used b with - | b
  · exact ⟨0, B, rfl, .inl ⟨rfl, rfl⟩⟩
  · have hfree : B.used b = false := by simpa using List.find?_some hfind
    have harea : InArea b := by
      refine ⟨?_, List.mem_range.mp (List.mem_of_find?_eq_some hfind)⟩
      by_contra hlt
      rw [h.head (not_le.mp hlt)] at hfree
      cases hfree
    simp only [if_pos harea]
    exact ⟨b, _, rfl, .inr ⟨harea, hfree, rfl, rfl⟩⟩

/-- Places of the inode `i` that were empty are set to blocks that were free. -/
structure Grows (D : ℕ → Dinode) (i : ℕ) (B : Blocks) (d : Dinode) (B' : Blocks) (d' : Dinode) :
    Prop where
  owns : Owns B' (update D i d')
  same : d.SameMeta d'
  kept : ∀ {k}, d.ptr B.data k ≠ 0 → d'.ptr B'.data k = d.ptr B.data k
  data : ∀ {k}, k < maxFile → d.ptr B.data k ≠ 0 →
    B'.data (d.ptr B.data k) = B.data (d.ptr B.data k)
  apart : Apart D i B B'

namespace Grows

theorem refl (h : Owns B (update D i d)) : Grows D i B d B d :=
  ⟨h, .refl d, fun _ => rfl, fun _ _ => rfl, .refl D i B⟩

theorem trans {d'' : Dinode} (h : Grows D i B d B' d') (h' : Grows D i B' d' B'' d'') :
    Grows D i B d B'' d'' := by
  refine ⟨h'.owns, h.same.trans h'.same, fun {k} hk => ?_, fun {k} hlt hk => ?_, h.apart.trans h'.apart⟩
  · have heq := h.kept hk
    rw [h'.kept (heq ▸ hk), heq]
  · have heq := h.kept hk
    rw [← h.data hlt hk, ← heq, h'.data hlt (heq ▸ hk)]

/-- **One place is set.**  Of the blocks in use only the indirect block of the inode may have
got other bytes. -/
theorem set (h : Owns B (update D i d)) (hd : d.type ≠ 0) (hk : k ≤ maxFile)
    (h0 : d.ptr B.data k = 0) (hb : InArea b) (hfree : B.used b = false) (hmeta : d.SameMeta d')
    (hptr : d'.ptr B'.data = update (d.ptr B.data) k b)
    (hused : B'.used = update B.used b true)
    (hdata : ∀ c, B.used c = true → c ≠ d.addr nDirect → B'.data c = B.data c) :
    Grows D i B d B' d' := by
  have hDi : update D i d i = d := update_self _ _ _
  have hDi' : update D i d' i = d' := update_self _ _ _
  have hDj : ∀ d j, j ≠ i → update D i d j = D j := fun d j hj => update_of_ne hj _ _
  have hd' : d'.type ≠ 0 := hmeta.type ▸ hd
  have hapart : Apart D i B B' := by
    refine .of_data (fun c hc hne => hdata c hc ?_) h hd
    have hind := hne maxFile
    rwa [Dinode.ptr_maxFile] at hind
  have hkept : ∀ {k'}, d.ptr B.data k' ≠ 0 → d'.ptr B'.data k' = d.ptr B.data k' := by
    intro k' hk'
    rw [hptr, update_of_ne]
    rintro rfl
    exact hk' h0
  have hptrs : ptrs B'.data (update D i d')
      = update (ptrs B.data (update D i d)) (i, k) b := by
    funext ⟨j, k'⟩
    rcases eq_or_ne j i with rfl | hj
    · rw [ptrs_of_type (hDi'.symm ▸ hd'), hDi', hptr]
      rcases eq_or_ne k' k with rfl | hkk
      · rw [update_self, update_self]
      · rw [update_of_ne hkk, update_of_ne (fun heq => hkk (Prod.mk.inj heq).2),
          ptrs_of_type (hDi.symm ▸ hd), hDi]
    · rw [update_of_ne (fun heq => hj (Prod.mk.inj heq).1)]
      unfold ptrs
      simp only [hDj _ j hj]
      split
      · rfl
      · rename_i htype
        exact (hapart j hj htype k').1
  constructor
  · constructor
    · rw [hptrs, hused]
      refine h.excl.set ?_ hb hfree
      rw [ptrs_of_type (hDi.symm ▸ hd), hDi]
      exact h0
    · intro c hc
      rw [hused, update_apply]
      split
      · rfl
      · exact h.head hc
    · intro j hj
      rcases eq_or_ne j i with rfl | hji
      · rw [hDi', hmeta.size]
        exact h.size_le_self hd
      · rw [hDj _ j hji, ← hDj d j hji] at hj ⊢
        exact h.size_le hj
    · intro j k' hj hlt
      rcases eq_or_ne j i with rfl | hji
      · rw [hDi'] at hlt ⊢
        rw [hmeta.size] at hlt
        have hold := h.below_self hd hlt
        rwa [hkept hold]
      · rw [hDj _ j hji] at hj hlt ⊢
        rw [(hapart j hji hj k').1]
        rw [← hDj d j hji] at hj hlt ⊢
        exact h.below hj hlt
  · exact hmeta
  · exact hkept
  · intro k' hlt hk'
    refine hdata _ (h.used_self hd hk') fun heq => ?_
    rw [← @Dinode.ptr_maxFile B.data] at heq
    exact absurd (h.inj_self hd hk' heq) (ne_of_lt hlt)
  · exact hapart

end Grows

/-- Where `addrs[k]` is among the places. -/
def place (k : ℕ) : ℕ := if k = nDirect then maxFile else k

theorem ptr_place (hk : k ≤ nDirect) : d.ptr data (place k) = d.addr k := by
  unfold place
  split
  · rename_i heq
    rw [Dinode.ptr_maxFile, heq]
  · rename_i hne
    exact Dinode.ptr_direct (by omega)

theorem Owns.addrOf (h : Owns B (update D i d)) (hd : d.type ≠ 0) (hk : k ≤ nDirect) :
    ∃ B' d', B.addrOf d k = .ok (d'.addr k, B', d') ∧ Grows D i B d B' d' := by
  have hmax : maxFile = 268 := rfl
  have hdirect : nDirect = 12 := rfl
  unfold Blocks.addrOf
  split
  · exact ⟨B, d, rfl, .refl h⟩
  · rename_i h0
    have h0 : d.addr k = 0 := not_not.mp h0
    obtain ⟨b, B', hballoc, ⟨rfl, rfl⟩ | ⟨hb, hfree, hused, hdata⟩⟩ := h.balloc
    · rw [hballoc]
      refine ⟨B', d, ?_, .refl h⟩
      rw [h0]
      rfl
    · have hkept : ∀ c, B.used c = true → B'.data c = B.data c := by
        intro c hc
        rw [hdata, update_of_ne]
        rintro rfl
        rw [hfree] at hc
        cases hc
      rw [hballoc]
      refine ⟨B', d.setAddr k b, ?_, ?_⟩
      · rw [ok_bind, Dinode.addr_setAddr_self (by omega) hb.lt]
        exact if_neg hb.ne_zero
      · refine .set (k := place k) h hd ?_ ?_ hb hfree (d.sameMeta_setAddr k b) ?_ hused ?_
        · unfold place
          split <;> omega
        · rw [ptr_place hk, h0]
        · unfold place
          split
          · rename_i heq
            subst heq
            refine Dinode.ptr_setAddr_indirect h0 hb.lt ?_
            rw [hdata, update_self]
          · rename_i hne
            have hsame : d.ptr B'.data = d.ptr B.data := by
              funext k'
              refine Dinode.ptr_congr (fun hind => hkept _ ?_) k'
              exact h.used_addr hd hind
            rw [Dinode.ptr_setAddr (by omega) hb.lt, hsame]
        · exact fun c hc _ => hkept c hc

theorem bread_ok (h : InArea b) : B.bread b = .ok (B.data b) := if_pos h

/-- **`bmap`** gives the block at a place, after it has allocated what was missing; 0 if there
was nothing left. -/
theorem Owns.bmap (h : Owns B (update D i d)) (hd : d.type ≠ 0) (hk : k < maxFile) :
    ∃ B' d', B.bmap d k = .ok (d'.ptr B'.data k, B', d') ∧ Grows D i B d B' d' := by
  have hmax : maxFile = 268 := rfl
  have hdirect : nDirect = 12 := rfl
  have hindirect : nIndirect = 256 := rfl
  unfold Blocks.bmap
  split
  · rename_i hlt
    obtain ⟨B', d', hok, hgrows⟩ := h.addrOf hd hlt.le
    refine ⟨B', d', ?_, hgrows⟩
    rw [hok, Dinode.ptr_direct hlt]
  · rename_i hge
    obtain ⟨j, rfl⟩ := Nat.exists_eq_add_of_le (not_lt.mp hge)
    have hj : j < nIndirect := by omega
    rw [Nat.add_sub_cancel_left, if_pos hj]
    obtain ⟨B₁, d₁, hok, hgrows⟩ := h.addrOf hd le_rfl
    rw [hok, ok_bind]
    have hd₁ : d₁.type ≠ 0 := hgrows.same.type ▸ hd
    by_cases hind : d₁.addr nDirect = 0
    · refine ⟨B₁, d₁, ?_, hgrows⟩
      rw [Dinode.ptr_indirect hj, if_pos hind]
      exact if_pos hind
    · have harea : InArea (d₁.addr nDirect) := by
        rw [← @Dinode.ptr_maxFile B₁.data] at hind ⊢
        exact hgrows.owns.inArea_self hd₁ hind
      simp only [if_neg hind, bread_ok harea, ok_bind]
      have hptr : d₁.ptr B₁.data (nDirect + j) = (B₁.data (d₁.addr nDirect)).load (4 * j) 4 := by
        rw [Dinode.ptr_indirect hj, if_neg hind]
      split
      · exact ⟨B₁, d₁, by rw [hptr], hgrows⟩
      · rename_i h0
        have h0 := not_not.mp h0
        obtain ⟨b, B₂, hballoc, ⟨rfl, rfl⟩ | ⟨hb, hfree, hused, hdata⟩⟩ := hgrows.owns.balloc
        · refine ⟨B₂, d₁, ?_, hgrows⟩
          rw [hballoc, hptr, h0]
          rfl
        · rw [hballoc, ok_bind, if_neg hb.ne_zero]
          -- the new block is another one than the indirect block
          have hne : d₁.addr nDirect ≠ b := by
            rintro rfl
            rw [hgrows.owns.used_addr hd₁ hind] at hfree
            cases hfree
          let B₃ := B₂.set (d₁.addr nDirect) ((B₂.data (d₁.addr nDirect)).store (4 * j) 4 b)
          have hstore : B₃.data (d₁.addr nDirect) = (B₁.data (d₁.addr nDirect)).store (4 * j) 4 b := by
            show update _ _ _ _ = _
            rw [update_self, hdata, update_of_ne hne]
          have hset : d₁.ptr B₃.data = update (d₁.ptr B₁.data) (nDirect + j) b :=
            Dinode.ptr_store hind hj hb.lt hstore
          refine ⟨B₃, d₁, ?_, hgrows.trans (.set hgrows.owns hd₁ (k := nDirect + j) (by omega)
            (hptr.trans h0) hb hfree (.refl d₁) hset hused ?_)⟩
          · rw [hset, update_self]
          · intro c hc hcind
            show update B₂.data _ _ c = _
            rw [update_of_ne hcind, hdata, update_of_ne]
            rintro rfl
            rw [hfree] at hc
            cases hc

theorem Owns.bmap_of_ne (h : Owns B (update D i d)) (hd : d.type ≠ 0) (hk : k < maxFile)
    (hne : d.ptr B.data k ≠ 0) : B.bmap d k = .ok (d.ptr B.data k, B, d) := by
  have hmax : maxFile = 268 := rfl
  have hdirect : nDirect = 12 := rfl
  have hindirect : nIndirect = 256 := rfl
  have haddr : ∀ k, d.addr k ≠ 0 → B.addrOf d k = .ok (d.addr k, B, d) := fun k hk => if_pos hk
  unfold Blocks.bmap
  split
  · rename_i hlt
    rw [Dinode.ptr_direct hlt] at hne ⊢
    exact haddr k hne
  · rename_i hge
    obtain ⟨j, rfl⟩ := Nat.exists_eq_add_of_le (not_lt.mp hge)
    have hj : j < nIndirect := by omega
    rw [Dinode.ptr_indirect hj] at hne ⊢
    split at hne
    · exact absurd rfl hne
    · rename_i hind
      have harea : InArea (d.addr nDirect) := by
        rw [← @Dinode.ptr_maxFile B.data] at hind ⊢
        exact h.inArea_self hd hind
      rw [Nat.add_sub_cancel_left, if_pos hj, haddr _ hind, ok_bind]
      simp only [if_neg hind, bread_ok harea, ok_bind, if_pos hne]

end Blocks

end Xv6Zig
