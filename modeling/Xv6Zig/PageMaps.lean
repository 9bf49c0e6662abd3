/-
Xv6Zig/PageMaps.lean

Page tables in memory implement finite maps.

`WellFormed` is about any family of page tables at once: no page is a table of
two trees or twice a table of one, and no table lies on a free page.
`translate` is the entry `walk` finds.  `mappages` and `uvmunmap` change the
translation of the pages they are asked for, in the table they are given, and
nothing else, whichever tables `walk` shares or makes on the way.
-/
import Xv6Zig.PageMem

namespace Xv6Zig

open Lib Function

variable {ι α : Type} {enc : α → ℕ} {kend : ℕ} {s : Heap} {free : List ℕ}
  {t : ι → Radix 512 ℕ α 2} {root : ι → ℕ} {i : ι}

/-- **Trees of page tables in memory that share nothing.**  `free` is the free
list, `enc` how the trees' values are written as entries. -/
structure WellFormed (enc : α → ℕ) (kend : ℕ) (s : Heap) (free : List ℕ)
    (t : ι → Radix 512 ℕ α 2) (root : ι → ℕ) : Prop where
  heap : s.Rep ⟨kend, free⟩
  table : ∀ i, Table enc s.mem (t i) (root i)
  page : ∀ i, ∀ p ∈ (t i).pages, p % pgSize = 0 ∧ p ≠ 0
  once : ∀ i, (t i).pages.Nodup
  apart : ∀ i j, i ≠ j → List.Disjoint (t i).pages (t j).pages
  used : ∀ i, List.Disjoint (t i).pages free

/-- The valid entry `walk` finds for an address. -/
def Heap.translate (s : Heap) (pagetable va : ℕ) : Option ℕ :=
  match s.walk pagetable va false with
  | .error _ => none
  | .ok (s, pte) =>
      if pte = 0 then none
      else if s.mem.load pte 8 &&& pteV = 0 then none
      else some (s.mem.load pte 8)

/-- `walkaddr` is the translation of a user page. -/
theorem Heap.walkaddr_eq (s : Heap) (pagetable va : ℕ) :
    s.walkaddr pagetable va = .ok (match s.translate pagetable va with
      | none => 0
      | some e => if e &&& pteU = 0 then 0 else pte2pa e) := by
  unfold Heap.walkaddr Heap.translate Heap.walk
  by_cases hva : maxVA ≤ va
  · rw [if_pos hva, if_pos hva]
  · rw [if_neg hva, if_neg hva]
    rcases walkLoop false va 2 s pagetable with ⟨s', pte⟩
    simp only [ok_bind]
    split_ifs <;> simp_all

/-! ### Looking up -/

/-- Two addresses have the same three indices if and only if they are on the
same page. -/
theorem px_agree_iff {va a : ℕ} (hva : va < maxVA) (ha : a < maxVA) :
    (∀ k ≤ 2, px va k = px a k) ↔ va / pgSize = a / pgSize := by
  rw [← px_eq_iff (lt_of_lt_vpnMax (lt_maxVA_iff.mp hva)) (lt_of_lt_vpnMax (lt_maxVA_iff.mp ha)),
    px_page, px_page]

section Lookup

variable {x : Radix 512 ℕ α 2} {page : ℕ}

/-- The address of an entry is not null. -/
theorem entryAddr_ne_zero (h : ∀ p ∈ x.pages, p ≠ 0) {d : ℕ → Fin 512} {a : ℕ}
    (ha : entryAddr x d = some a) : a ≠ 0 := by
  obtain ⟨p, hp, rfl⟩ := entryAddr_mem ha
  have := h p hp
  omega

/-- **`walk` looks the tree up.** -/
theorem Table.translate_eq (h : Table enc s.mem x page) (hpage : ∀ p ∈ x.pages, p ≠ 0) {va : ℕ}
    (hva : va < maxVA) : s.translate page va = (x.get (px va)).map enc := by
  unfold Heap.translate Heap.walk
  rw [if_neg (not_le.mpr hva), walkLoop_find va h]
  rcases ha : entryAddr x (px va) with - | a
  · have hnone := (entryAddr_eq_none_iff x (px va)).mp ha
    unfold Radix.get
    rw [hnone]
    rfl
  · obtain ⟨o, hfind, hentry⟩ := h.entryIs ha
    unfold Radix.get
    rw [hfind]
    simp only [Option.getD_some, and_pteV]
    rw [if_neg (entryAddr_ne_zero hpage ha)]
    cases o with
    | none =>
      rw [if_pos (show s.mem.load a 8 % 2 = 0 from hentry)]
      rfl
    | some y =>
      obtain ⟨hload, hodd⟩ := hentry
      rw [hload, if_neg (by omega)]
      rfl

end Lookup

namespace WellFormed

theorem entryAddr_ne_zero (h : WellFormed enc kend s free t root) {d : ℕ → Fin 512} {a : ℕ}
    (ha : entryAddr (t i) d = some a) : a ≠ 0 :=
  Xv6Zig.entryAddr_ne_zero (fun p hp => (h.page i p hp).2) ha

theorem translate_eq (h : WellFormed enc kend s free t root) {va : ℕ} (hva : va < maxVA) :
    s.translate (root i) va = ((t i).get (px va)).map enc :=
  (h.table i).translate_eq (fun p hp => (h.page i p hp).2) hva

/-! ### Changing one tree -/

/-- One tree changes in memory, on its own pages or on free ones. -/
protected theorem update (h : WellFormed enc kend s free t root) {s' : Heap} {free' : List ℕ}
    {x : Radix 512 ℕ α 2} [DecidableEq ι] (hheap : s'.Rep ⟨kend, free'⟩)
    (htable : Table enc s'.mem x (root i))
    (hpages : (free' : Multiset ℕ) + x.pages = free + (t i).pages)
    (hframe : ∀ ps, (∀ p ∈ ps, p % pgSize = 0) → List.Disjoint (t i).pages ps →
      List.Disjoint free ps → SameOn s.mem s'.mem ps) (hend : kernBase ≤ kend) :
    WellFormed enc kend s' free' (update t i x) root := by
  -- no page is new
  have hmem : ∀ p, p ∈ free' ∨ p ∈ x.pages ↔ p ∈ free ∨ p ∈ (t i).pages := fun p => by
    simpa using iff_of_eq (congrArg (p ∈ ·) hpages)
  have hnodup : ((free' : Multiset ℕ) + x.pages).Nodup := by
    rw [hpages, Multiset.coe_add, Multiset.coe_nodup, List.nodup_append']
    exact ⟨h.heap.nodup, h.once i, (h.used i).symm⟩
  rw [Multiset.coe_add, Multiset.coe_nodup, List.nodup_append'] at hnodup
  have hother : ∀ j ≠ i, List.Disjoint x.pages (t j).pages := by
    intro j hj p hp hpj
    rcases (hmem p).mp (.inr hp) with hin | hin
    · exact h.used j hpj hin
    · exact h.apart i j hj.symm hin hpj
  refine ⟨hheap, fun j => ?_, fun j => ?_, fun j => ?_, fun j k hjk => ?_, fun j => ?_⟩
  · by_cases hj : j = i
    · rw [hj, update_self]
      exact htable
    · rw [update_of_ne hj]
      exact (h.table j).congr (hframe _ (fun p hp => (h.page j p hp).1)
        (h.apart i j (Ne.symm hj)) (h.used j).symm)
  · by_cases hj : j = i
    · rw [hj, update_self]
      intro p hp
      rcases (hmem p).mp (.inr hp) with hin | hin
      · have hv := h.heap.valid p hin
        exact ⟨hv.1, hv.ne_zero hend⟩
      · exact h.page i p hin
    · rw [update_of_ne hj]
      exact h.page j
  · by_cases hj : j = i
    · rw [hj, update_self]
      exact hnodup.2.1
    · rw [update_of_ne hj]
      exact h.once j
  · by_cases hj : j = i
    · subst hj
      rw [update_self, update_of_ne (Ne.symm hjk)]
      exact hother k (Ne.symm hjk)
    · rw [update_of_ne hj]
      by_cases hk : k = i
      · rw [hk, update_self]
        exact (hother j hj).symm
      · rw [update_of_ne hk]
        exact h.apart j k hjk
  · by_cases hj : j = i
    · rw [hj, update_self]
      exact hnodup.2.2.symm
    · rw [update_of_ne hj]
      intro p hp hpf
      rcases (hmem p).mp (.inl hpf) with hin | hin
      · exact h.used j hp hin
      · exact h.apart j i hj hp hin

/-- **`walk` with allocation** grows one tree. -/
theorem walk [DecidableEq ι] (h : WellFormed enc kend s free t root) (hend : kernBase ≤ kend)
    {a : ℕ} (ha : a < maxVA) (i : ι) :
    ∃ s', s.walk (root i) a true
        = .ok (s', (entryAddr ((t i).grow free (px a)).2.1 (px a)).getD 0) ∧
      WellFormed enc kend s' ((t i).grow free (px a)).1
        (update t i ((t i).grow free (px a)).2.1) root := by
  have hw := walkLoop_grow hend a (h.table i) h.heap
    (List.nodup_append'.mpr ⟨h.once i, h.heap.nodup, h.used i⟩) fun p hp => (h.page i p hp).1
  refine ⟨(Heap.walkLoop true a 2 s (root i)).1, ?_, h.update hw.rep hw.table ?_ hw.frame hend⟩
  · unfold Heap.walk
    rw [if_neg (not_le.mpr ha), ← hw.pte]
  · exact Radix.coe_pages_grow (t i) free (px a)

/-- **A store to an entry.** -/
theorem store [DecidableEq ι] (h : WellFormed enc kend s free t root) (hend : kernBase ≤ kend)
    {d : ℕ → Fin 512} {a v : ℕ} {o : Option α} (ha : entryAddr (t i) d = some a)
    (hv : EntryIs enc (s.mem.store a 8 v) a o) :
    WellFormed enc kend { s with mem := s.mem.store a 8 v } free
      (update t i ((t i).set d o)) root := by
  obtain ⟨p, hp, rfl⟩ := entryAddr_mem ha
  have hpmod := (h.page i p hp).1
  refine h.update ?_ ?_ ?_ ?_ hend
  · refine h.heap.congr ?_ ?_
    · rfl
    · exact sameOn_store (d 0) hpmod (fun q hq => (h.heap.valid q hq).1) (h.used i hp)
  · exact (h.table i).set (h.once i) (fun q hq => (h.page i q hq).1) ha hv
  · rw [Radix.pages_set]
  · intro ps hps hd _
    exact sameOn_store (d 0) hpmod hps (hd hp)

end WellFormed

/-! ### `mappages` -/

theorem add64_page {a : ℕ} (ha : a < maxVA) : add64 a pgSize = a + pgSize := by
  unfold add64
  rw [Nat.mod_eq_of_lt]
  unfold maxVA pgSize at *
  omega

/-- **One round of `mappages`**: the tree grows, and if that could be done the
entry says what was mapped, and can be written. -/
theorem mapRound [DecidableEq ι] (h : WellFormed enc kend s free t root)
    (hend : kernBase ≤ kend) {a : ℕ} {v : α} (ha : a < maxVA) (hodd : enc v % 2 = 1)
    (hlt : enc v < 256 ^ 8) :
    ∃ s' pte, s.walk (root i) a true = .ok (s', pte) ∧
      ((((t i).grow free (px a)).2.2 = false ∧ pte = 0 ∧
          WellFormed enc kend s' ((t i).grow free (px a)).1
            (update t i ((t i).grow free (px a)).2.1) root) ∨
        (((t i).grow free (px a)).2.2 = true ∧ pte ≠ 0 ∧ EntryIs enc s'.mem pte ((t i).get (px a)) ∧
          WellFormed enc kend { s' with mem := s'.mem.store pte 8 (enc v) }
            ((t i).grow free (px a)).1
            (update t i (((t i).grow free (px a)).2.1.set (px a) (some v))) root)) := by
  obtain ⟨s', hr, hwf⟩ := h.walk hend ha i
  have hget := Radix.get_grow (t i) free (px a) (px a)
  have hfound : ((t i).grow free (px a)).2.2 = true →
      ((t i).grow free (px a)).2.1.find (px a) ≠ none := by
    intro hok hno
    have := Radix.find_grow_isSome (t i) hok
    rw [hno] at this
    cases this
  have hmissing : ((t i).grow free (px a)).2.2 = false →
      ((t i).grow free (px a)).2.1.find (px a) = none := Radix.find_grow_eq_none (t i)
  refine ⟨s', _, hr, ?_⟩
  generalize (t i).grow free (px a) = r at hwf hget hfound hmissing ⊢
  obtain ⟨free', x, ok⟩ := r
  cases ok with
  | false =>
    have haddr := (entryAddr_eq_none_iff x (px a)).mpr (hmissing rfl)
    refine .inl ⟨rfl, ?_, hwf⟩
    rw [haddr]
    rfl
  | true =>
    obtain ⟨e, haddr⟩ : ∃ e, entryAddr x (px a) = some e := by
      rw [← Option.ne_none_iff_exists', Ne, entryAddr_eq_none_iff]
      exact hfound rfl
    have haddr' : entryAddr (update t i x i) (px a) = some e := by
      rw [update_self]
      exact haddr
    obtain ⟨o, hfind, hentry⟩ := (hwf.table i).entryIs haddr'
    -- the entry found is the one there was, as growing maps nothing
    have ho : (t i).get (px a) = o := by
      rw [update_self] at hfind
      rw [← hget, Radix.get, show x.find (px a) = some o from hfind]
      rfl
    subst ho
    simp only [haddr, Option.getD_some]
    refine .inr ⟨trivial, hwf.entryAddr_ne_zero haddr', hentry, ?_⟩
    have hstore := hwf.store hend (o := some v) (v := enc v) haddr'
      ⟨Bytes.load_store _ _ hlt, hodd⟩
    rwa [update_self, update_idem] at hstore

theorem get_mapRound {x : Radix 512 ℕ α 2} {a va : ℕ} {v : α} (hva : va < maxVA) (ha : a < maxVA)
    (hok : (x.grow free (px a)).2.2 = true) :
    ((x.grow free (px a)).2.1.set (px a) (some v)).get (px va)
      = if va / pgSize = a / pgSize then some v else x.get (px va) := by
  have hfound : (x.grow free (px a)).2.1.find (px a) ≠ none := by
    intro hno
    have := Radix.find_grow_isSome x hok
    rw [hno] at this
    cases this
  rw [Radix.get_set _ hfound, Radix.get_grow]
  simp only [px_agree_iff hva ha]

/-- **One round of `uvmunmap`** on a page that is mapped. -/
theorem unmapRound [DecidableEq ι] (h : WellFormed enc kend s free t root)
    (hend : kernBase ≤ kend) {a limit : ℕ} (n : ℕ) {e : α} (ha : a < limit) (hlt : limit ≤ maxVA)
    (hf : (t i).find (px a) = some (some e)) (hflags : pteFlags (enc e) ≠ pteV) :
    ∃ s', Heap.unmapLoop kend (root i) limit false (n + 1) s a
        = Heap.unmapLoop kend (root i) limit false n s' (a + pgSize) ∧
      WellFormed enc kend s' free (update t i ((t i).set (px a) none)) root := by
  obtain ⟨pte, hpte⟩ : ∃ pte, entryAddr (t i) (px a) = some pte := by
    rw [← Option.ne_none_iff_exists', Ne, entryAddr_eq_none_iff, hf]
    exact Option.some_ne_none _
  obtain ⟨o, hf', hentry⟩ := (h.table i).entryIs hpte
  obtain rfl : some e = o := Option.some.inj (hf.symm.trans hf')
  obtain ⟨hload, hodd⟩ := hentry
  refine ⟨_, ?_, h.store hend (o := none) (v := 0) hpte ?_⟩
  · conv_lhs => unfold Heap.unmapLoop Heap.walk
    rw [if_pos ha, if_neg (by omega), walkLoop_find a (h.table i), hpte]
    simp only [ok_bind, Option.getD_some, and_pteV, hload, Bool.false_eq_true, if_false]
    rw [if_neg (h.entryAddr_ne_zero hpte), if_neg (by omega), if_neg hflags,
      add64_page (ha.trans_le hlt)]
  · show Bytes.load _ _ _ % 2 = 0
    rw [Bytes.load_store _ _ (by decide)]

/-- The entry for the `k`th page of a range. -/
def mapEntry (pa perm k : ℕ) : ℕ := pa2pte (add64 pa (k * pgSize)) ||| perm ||| pteV

theorem mapEntry_eq (pa perm k : ℕ) :
    mapEntry pa perm k = pa2pte (add64 pa (k * pgSize)) ||| (perm ||| pteV) := Nat.or_assoc _ _ _

theorem mapEntry_zero {pa : ℕ} (hpa : pa < 2 ^ 64) (perm : ℕ) :
    mapEntry pa perm 0 = pa2pte pa ||| perm ||| pteV := by
  unfold mapEntry
  rw [Nat.zero_mul, add64, Nat.add_zero, Nat.mod_eq_of_lt hpa]

theorem mapEntry_succ (pa perm k : ℕ) :
    mapEntry (add64 pa pgSize) perm k = mapEntry pa perm (k + 1) := by
  unfold mapEntry
  rw [add64_add64, Nat.succ_mul, Nat.add_comm pgSize]

theorem mapEntry_odd (pa perm k : ℕ) : mapEntry pa perm k % 2 = 1 :=
  Nat.or_mod_two_eq_one.mpr (.inr rfl)

theorem mapEntry_lt (pa : ℕ) {perm : ℕ} (hperm : perm < 1024) (k : ℕ) :
    mapEntry pa perm k < 256 ^ 8 := by
  rw [mapEntry_eq]
  exact pa2pte_or_lt (add64_lt _ _) (or_pteV_lt hperm)

theorem add64_mod {x y : ℕ} (hx : x % pgSize = 0) (hy : y % pgSize = 0) :
    add64 x y % pgSize = 0 := by
  unfold add64 pgSize at *
  omega

/-- What is written for the `k`th page: its address and the flags. -/
theorem mapEntry_spec {pa perm : ℕ} (hpa : pa % pgSize = 0) (hperm : perm < 1024) (k : ℕ) :
    pte2pa (mapEntry pa perm k) = add64 pa (k * pgSize) ∧
      pteFlags (mapEntry pa perm k) = perm ||| pteV := by
  rw [mapEntry_eq]
  refine ⟨pte2pa_eq (add64_mod hpa (Nat.mul_mod_left _ _)) (add64_lt _ _) (or_pteV_lt hperm), ?_⟩
  exact pteFlags_eq (or_pteV_lt hperm)

section Raw

variable [DecidableEq ι] {t : ι → Radix 512 ℕ ℕ 2}

/-- The values of a tree after `m` pages from `a` on have been mapped. -/
def MappedTo (x x' : Radix 512 ℕ ℕ 2) (a pa perm m : ℕ) : Prop :=
  ∀ va < maxVA, x'.get (px va) =
    if a / pgSize ≤ va / pgSize ∧ va / pgSize < a / pgSize + m then
      some (mapEntry pa perm (va / pgSize - a / pgSize))
    else x.get (px va)

theorem MappedTo.zero {x x' : Radix 512 ℕ ℕ 2} (h : ∀ d, x'.get d = x.get d) (a pa perm : ℕ) :
    MappedTo x x' a pa perm 0 := by
  intro va _
  rw [if_neg (by omega), h]

theorem MappedTo.succ {x y x' : Radix 512 ℕ ℕ 2} {a pa perm m : ℕ}
    (h : MappedTo y x' (a + pgSize) (add64 pa pgSize) perm m)
    (hone : ∀ va < maxVA, y.get (px va) =
      if va / pgSize = a / pgSize then some (mapEntry pa perm 0) else x.get (px va)) :
    MappedTo x x' a pa perm (m + 1) := by
  intro va hva
  have hnext : (a + pgSize) / pgSize = a / pgSize + 1 := Nat.add_div_right a pgSize_pos
  rw [h va hva, hone va hva, hnext, mapEntry_succ]
  by_cases heq : va / pgSize = a / pgSize
  · rw [if_neg (by omega), if_pos heq, if_pos (by omega), heq, Nat.sub_self]
  · rw [if_neg heq]
    by_cases hin : a / pgSize + 1 ≤ va / pgSize ∧ va / pgSize < a / pgSize + 1 + m
    · rw [if_pos hin, if_pos (by omega)]
      congr 2
      omega
    · rw [if_neg hin, if_neg (by omega)]

/-- **The loop of `mappages`** maps the range, or stops after a part of it. -/
theorem mapLoop_spec (h : WellFormed id kend s free t root) (hend : kernBase ≤ kend)
    {a last pa perm : ℕ} (n : ℕ) (hlast : last = a + n * pgSize) (hlt : last < maxVA)
    (hpa : pa < 2 ^ 64) (hperm : perm < 1024)
    (hnone : ∀ k ≤ n, (t i).get (px (a + k * pgSize)) = none) :
    ∃ s' ok m free' x, Heap.mapLoop (root i) last perm (n + 1) s a pa = .ok (s', ok) ∧
      (if ok then m = n + 1 else m ≤ n) ∧
      WellFormed id kend s' free' (update t i x) root ∧
      MappedTo (t i) x a pa perm m := by
  -- on the rounds, of which there is at least one
  generalize hfuel : n + 1 = fuel
  induction fuel generalizing s free t a pa n with
  | zero => cases hfuel
  | succ fuel ih =>
    obtain rfl := Nat.succ.inj hfuel
    have ha : a < maxVA := by omega
    obtain ⟨s₁, pte, hr, hcase⟩ := mapRound h hend (a := a) (v := mapEntry pa perm 0) ha
      (mapEntry_odd _ _ _) (mapEntry_lt _ hperm _)
    rw [show (t i).get (px a) = none by simpa using hnone 0 (Nat.zero_le _)] at hcase
    unfold Heap.mapLoop
    rw [hr]
    simp only [ok_bind, and_pteV, ← mapEntry_zero hpa]
    rcases hcase with ⟨-, rfl, hwf⟩ | ⟨hok, hpte, hv, hwf⟩
    · rw [if_pos rfl]
      exact ⟨s₁, false, 0, _, _, rfl, by simp, hwf,
        MappedTo.zero (Radix.get_grow _ _ _) a pa perm⟩
    · change _ % 2 = 0 at hv
      rw [if_neg hpte, if_neg (by omega), add64_page ha]
      have hget : ∀ va < maxVA, _ := fun va hva =>
        get_mapRound (v := mapEntry pa perm 0) hva ha hok
      rcases n with - | n
      · rw [if_pos (by omega)]
        exact ⟨_, true, 1, _, _, rfl, by simp, hwf,
          (MappedTo.zero (fun _ => rfl) _ _ _).succ hget⟩
      -- the rest of the range is not on the page just mapped
      have hne : a ≠ last := by
        have := pgSize_pos
        rw [hlast, Nat.succ_mul]
        omega
      have hrange : ∀ k ≤ n, a + pgSize + k * pgSize = a + (k + 1) * pgSize := by
        intro k _
        rw [Nat.succ_mul]
        omega
      have hlt' : ∀ k ≤ n, a + pgSize + k * pgSize < maxVA := by
        intro k hk
        rw [hrange k hk]
        have : (k + 1) * pgSize ≤ (n + 1) * pgSize := Nat.mul_le_mul_right _ (by omega)
        omega
      rw [if_neg hne]
      obtain ⟨s', ok, m, free'', x', hr', hm, hwf', hmapped⟩ := ih hwf (a := a + pgSize) n
        (by rw [hlast, ← hrange n le_rfl]) (add64_lt pa pgSize) (by
          intro k hk
          rw [update_self, hget _ (hlt' k hk), if_neg, hrange k hk]
          · exact hnone (k + 1) (by omega)
          · rw [Nat.add_assoc, Nat.add_comm pgSize, ← Nat.succ_mul, Nat.add_mul_div_right _ _ pgSize_pos]
            omega) rfl
      rw [update_idem] at hwf'
      rw [update_self] at hmapped
      refine ⟨s', ok, m + 1, free'', x', hr', ?_, hwf', hmapped.succ hget⟩
      cases ok
      · simp only [Bool.false_eq_true, if_false] at hm ⊢
        omega
      · simp only [if_true] at hm ⊢
        omega

/-- **The loop of `uvmunmap`** without freeing clears the range. -/
theorem unmapLoop_spec (h : WellFormed id kend s free t root) (hend : kernBase ≤ kend)
    {a limit : ℕ} (n : ℕ) (hlimit : limit = a + n * pgSize) (hlt : limit ≤ maxVA)
    (hmapped : ∀ k < n, ∃ e, (t i).get (px (a + k * pgSize)) = some e ∧ pteFlags e ≠ pteV) :
    ∃ s' x, Heap.unmapLoop kend (root i) limit false n s a = .ok s' ∧
      WellFormed id kend s' free (update t i x) root ∧
      ∀ va < maxVA, x.get (px va) =
        if a / pgSize ≤ va / pgSize ∧ va / pgSize < a / pgSize + n then none
        else (t i).get (px va) := by
  induction n generalizing s t a with
  | zero =>
    refine ⟨s, t i, rfl, ?_, fun va _ => by rw [if_neg (by omega)]⟩
    rwa [update_eq_self]
  | succ n ih =>
    have ha : a < limit := by
      have := pgSize_pos
      rw [hlimit, Nat.succ_mul]
      omega
    have hamax : a < maxVA := by omega
    obtain ⟨e, hget, hflags⟩ := hmapped 0 (by omega)
    rw [Nat.zero_mul, Nat.add_zero] at hget
    have hfind : (t i).find (px a) = some (some e) := Option.join_eq_some_iff.mp hget
    obtain ⟨s₁, hround, hwf⟩ := unmapRound h hend n ha hlt hfind hflags
    have hafter : ∀ va < maxVA, ((t i).set (px a) none).get (px va)
        = if va / pgSize = a / pgSize then none else (t i).get (px va) := by
      intro va hva
      rw [Radix.get_set (t i) (by rw [hfind]; exact Option.some_ne_none _)]
      simp only [px_agree_iff hva hamax]
    have hdiv : (a + pgSize) / pgSize = a / pgSize + 1 := Nat.add_div_right a pgSize_pos
    obtain ⟨s', x, hr, hwf', hx⟩ := ih hwf (a := a + pgSize)
      (by rw [hlimit, Nat.succ_mul]; omega) (by
        intro k hk
        have hrange : a + pgSize + k * pgSize = a + (k + 1) * pgSize := by
          rw [Nat.succ_mul]
          omega
        have hle : (k + 2) * pgSize ≤ (n + 1) * pgSize := Nat.mul_le_mul_right _ (by omega)
        have hpos := pgSize_pos
        have hin : a + (k + 1) * pgSize < maxVA := by
          rw [show (k + 2) * pgSize = (k + 1) * pgSize + pgSize from Nat.succ_mul _ _] at hle
          omega
        obtain ⟨e', he', hf'⟩ := hmapped (k + 1) (by omega)
        refine ⟨e', ?_, hf'⟩
        rw [update_self, hrange, hafter _ hin, if_neg, he']
        rw [Nat.add_mul_div_right _ _ pgSize_pos]
        omega)
    rw [update_idem] at hwf'
    refine ⟨s', x, hround.trans hr, hwf', fun va hva => ?_⟩
    · rw [hx va hva, update_self, hafter va hva, hdiv]
      by_cases heq : va / pgSize = a / pgSize
      · rw [if_neg (by omega), if_pos heq, if_pos (by omega)]
      · rw [if_neg heq]
        by_cases hin : a / pgSize + 1 ≤ va / pgSize ∧ va / pgSize < a / pgSize + 1 + n
        · rw [if_pos hin, if_pos (by omega)]
        · rw [if_neg hin, if_neg (by omega)]

/-! ### Finite maps -/

/-- The pages of a range that is not empty. -/
def rangePages (va size : ℕ) : ℕ := (va + size - 1) / pgSize - va / pgSize + 1

/-- `mappages` on pages that are not mapped returns, and the translation of all
pages of the range, or of a part at its beginning, is what was asked for. -/
theorem mappages_spec (h : WellFormed id kend s free t root) (hend : kernBase ≤ kend) (i : ι)
    {va size pa perm : ℕ} (hsize : 0 < size) (hrange : va + size ≤ maxVA) (hpa : pa < 2 ^ 64)
    (hperm : perm < 1024)
    (hnone : ∀ k < rangePages va size, (t i).get (px ((va / pgSize + k) * pgSize)) = none) :
    ∃ s' ok m free' x, s.mappages (root i) va size pa perm = .ok (s', ok) ∧
      (if ok then m = rangePages va size else m < rangePages va size) ∧
      WellFormed id kend s' free' (update t i x) root ∧
      MappedTo (t i) x va pa perm m := by
  have hsum : sub64 (add64 va size) 1 = va + size - 1 := by
    unfold sub64 add64 maxVA at *
    omega
  have hle : va / pgSize ≤ (va + size - 1) / pgSize := Nat.div_le_div_right (by omega)
  have hlast : (va + size - 1) / pgSize * pgSize
      = va / pgSize * pgSize + (rangePages va size - 1) * pgSize := by
    have hn : (va + size - 1) / pgSize = va / pgSize + (rangePages va size - 1) := by
      unfold rangePages
      omega
    rw [hn, Nat.add_mul]
  have hcount : ((va + size - 1) / pgSize * pgSize - va / pgSize * pgSize) / pgSize + 1
      = rangePages va size - 1 + 1 := by
    rw [← Nat.sub_mul, Nat.mul_div_cancel _ pgSize_pos]
    rfl
  have hbelow : (va + size - 1) / pgSize * pgSize < maxVA := by
    have := Nat.div_mul_le_self (va + size - 1) pgSize
    omega
  obtain ⟨s', ok, m, free', x, hr, hm, hwf, hmapped⟩ := mapLoop_spec (i := i) h hend
    (rangePages va size - 1) hlast hbelow hpa hperm (by
      intro k hk
      rw [← Nat.add_mul]
      apply hnone
      unfold rangePages at hk ⊢
      omega)
  refine ⟨s', ok, m, free', x, ?_, ?_, hwf, ?_⟩
  · unfold Heap.mappages
    rw [if_neg (by omega), hsum]
    show Heap.mapLoop (root i) ((va + size - 1) / pgSize * pgSize) perm
      (((va + size - 1) / pgSize * pgSize - va / pgSize * pgSize) / pgSize + 1) s
      (va / pgSize * pgSize) pa = _
    rw [hcount]
    exact hr
  · have hpos : 0 < rangePages va size := Nat.succ_pos _
    cases ok
    · simp only [Bool.false_eq_true, if_false] at hm ⊢
      omega
    · simp only [if_true] at hm ⊢
      omega
  · intro va' hva'
    have := hmapped va' hva'
    rwa [Nat.mul_div_cancel _ pgSize_pos] at this

/-- **Page tables implement finite maps.**  Of any trees that share nothing, one
is changed and the others are not: `mappages` on pages that are not mapped
returns, and all the pages of the range, or with -1 a part at its beginning,
have the consecutive physical pages with the flags asked for; `uvmunmap` without
freeing takes exactly its pages out.  The trees stay well formed. -/
theorem page_tables_are_maps (hend : kernBase ≤ kend) (h : WellFormed id kend s free t root)
    (i : ι) :
    (∀ va size pa perm, 0 < size → va + size ≤ maxVA → pa % pgSize = 0 → pa < 2 ^ 64 →
      perm < 1024 →
      (∀ v, va / pgSize ≤ v → v ≤ (va + size - 1) / pgSize →
        s.translate (root i) (v * pgSize) = none) →
      ∃ s' ok m, s.mappages (root i) va size pa perm = .ok (s', ok) ∧
        (if ok then m = rangePages va size else m < rangePages va size) ∧
        (∀ j va', va' < maxVA →
          (j = i → va / pgSize ≤ va' / pgSize → va' / pgSize < va / pgSize + m →
            ∃ e, s'.translate (root j) va' = some e ∧
              pte2pa e = add64 pa ((va' / pgSize - va / pgSize) * pgSize) ∧
              pteFlags e = perm ||| pteV) ∧
          (¬ (j = i ∧ va / pgSize ≤ va' / pgSize ∧ va' / pgSize < va / pgSize + m) →
            s'.translate (root j) va' = s.translate (root j) va')) ∧
        ∃ free' t', WellFormed id kend s' free' t' root) ∧
    ∀ va n, va % pgSize = 0 → va + n * pgSize ≤ maxVA →
      (∀ v, va / pgSize ≤ v → v < va / pgSize + n → ∃ e,
        s.translate (root i) (v * pgSize) = some e ∧ pteFlags e ≠ pteV) →
      ∃ s', s.uvmunmap kend (root i) va n false = .ok s' ∧
        (∀ j va', va' < maxVA → s'.translate (root j) va' =
          if j = i ∧ va / pgSize ≤ va' / pgSize ∧ va' / pgSize < va / pgSize + n then none
          else s.translate (root j) va') ∧
        ∃ free' t', WellFormed id kend s' free' t' root := by
  constructor
  · intro va size pa perm hsize hrange hpa hlt hperm hnone
    obtain ⟨s', ok, m, free', x, hr, hm, hwf, hmapped⟩ := mappages_spec h hend i hsize hrange hlt
      hperm (by
        intro k hk
        have hle : (va + size - 1) / pgSize * pgSize < maxVA := by
          have := Nat.div_mul_le_self (va + size - 1) pgSize
          omega
        have hk' : va / pgSize + k ≤ (va + size - 1) / pgSize := by
          have : va / pgSize ≤ (va + size - 1) / pgSize := Nat.div_le_div_right (by omega)
          unfold rangePages at hk
          omega
        have hin : (va / pgSize + k) * pgSize < maxVA :=
          lt_of_le_of_lt (Nat.mul_le_mul_right _ hk') hle
        have htr := hnone (va / pgSize + k) (by omega) hk'
        rw [h.translate_eq hin] at htr
        exact Option.map_eq_none_iff.mp htr)
    refine ⟨s', ok, m, hr, hm, fun j va' hva' => ⟨?_, fun hout => ?_⟩, free', _, hwf⟩
    · rintro rfl h₁ h₂
      refine ⟨mapEntry pa perm (va' / pgSize - va / pgSize), ?_, mapEntry_spec hpa hperm _⟩
      rw [hwf.translate_eq hva', update_self, hmapped va' hva', if_pos ⟨h₁, h₂⟩]
      rfl
    · rw [hwf.translate_eq hva', h.translate_eq hva']
      by_cases hj : j = i
      · subst hj
        rw [update_self, hmapped va' hva', if_neg fun hin => hout ⟨rfl, hin⟩]
      · rw [update_of_ne hj]
  · intro va n hva hrange hmapped
    have hbase : va / pgSize * pgSize = va := Nat.div_mul_cancel (Nat.dvd_of_mod_eq_zero hva)
    have hlimit : add64 va (n * pgSize % 2 ^ 64) = va + n * pgSize := by
      unfold add64 maxVA at *
      omega
    obtain ⟨s', x, hr, hwf, hx⟩ := unmapLoop_spec (i := i) h hend n rfl hrange (by
      intro k hk
      obtain ⟨e, he, hflags⟩ := hmapped (va / pgSize + k) (by omega) (by omega)
      have hle : (k + 1) * pgSize ≤ n * pgSize := Nat.mul_le_mul_right _ (by omega)
      have hpos := pgSize_pos
      have hin : va + k * pgSize < maxVA := by
        rw [Nat.succ_mul] at hle
        omega
      rw [Nat.add_mul, hbase, h.translate_eq hin, Option.map_id, id] at he
      exact ⟨e, he, hflags⟩)
    refine ⟨s', ?_, fun j va' hva' => ?_, free, _, hwf⟩
    · unfold Heap.uvmunmap
      rw [if_neg (not_not.mpr hva), hlimit]
      exact hr
    · rw [hwf.translate_eq hva', h.translate_eq hva']
      by_cases hj : j = i
      · subst hj
        rw [update_self, hx va' hva']
        by_cases hin : va / pgSize ≤ va' / pgSize ∧ va' / pgSize < va / pgSize + n
        · rw [if_pos hin, if_pos ⟨rfl, hin⟩]
          rfl
        · rw [if_neg hin, if_neg fun hin' => hin hin'.2]
      · rw [update_of_ne hj, if_neg fun hin => hj hin.1]

end Raw

/-- Memory of zeros with two free pages below the last one. -/
def demoHeap : Heap :=
  ⟨Bytes.store (fun _ => 0) (physTop - 2 * pgSize) 8 (physTop - 3 * pgSize), physTop - 2 * pgSize⟩

theorem demoHeap_ok :
    WellFormed enc kernBase demoHeap [physTop - 2 * pgSize, physTop - 3 * pgSize]
      (fun _ : Unit => emptyTable 2 (physTop - pgSize)) fun _ => physTop - pgSize := by
  have hzero : ∀ x, physTop - 2 * pgSize + 8 ≤ x ∨ x < physTop - 2 * pgSize →
      demoHeap.mem x = 0 := by
    rintro x (hx | hx)
    · exact (Bytes.store_of_le hx : Bytes.store (fun _ => 0) _ _ _ x = 0)
    · exact (Bytes.store_of_lt hx : Bytes.store (fun _ => 0) _ _ _ x = 0)
  refine ⟨⟨⟨rfl, by decide, ?_⟩, by decide, by decide⟩, fun _ => ?_, ?_, ?_, ?_, ?_⟩
  · show Chain demoHeap.mem (demoHeap.mem.load (physTop - 2 * pgSize) 8) [physTop - 3 * pgSize]
    rw [show demoHeap.mem.load (physTop - 2 * pgSize) 8 = physTop - 3 * pgSize from
      Bytes.load_store _ _ (by decide)]
    refine ⟨rfl, by decide, ?_⟩
    apply Bytes.load_of_zero
    intro x _ hx
    exact hzero x (.inr (lt_of_lt_of_le hx (by decide)))
  · apply Table.empty
    intro x hx _
    exact hzero x (.inl (le_trans (by decide) hx))
  · intro _ p hp
    rw [pages_emptyTable, List.mem_singleton] at hp
    subst hp
    decide
  · intro _
    rw [pages_emptyTable]
    exact List.nodup_singleton _
  · exact fun i j hij => absurd (Subsingleton.elim i j) hij
  · intro _ p hp
    rw [pages_emptyTable, List.mem_singleton] at hp
    subst hp
    decide

/-- The first page of an empty address space, for which two tables are made. -/
theorem page_tables_are_maps_demo :
    ∃ s' ok m, demoHeap.mappages (physTop - pgSize) 0 1 kernBase 22 = .ok (s', ok) ∧
      (if ok then m = rangePages 0 1 else m < rangePages 0 1) ∧
      ∃ free' t', WellFormed id kernBase s' free' t' fun _ : Unit => physTop - pgSize := by
  obtain ⟨hmap, -⟩ := page_tables_are_maps (le_refl kernBase) (@demoHeap_ok ℕ id) ()
  obtain ⟨s', ok, m, hr, hm, -, hwf⟩ := hmap 0 1 kernBase 22 (by decide) (by decide) (by decide)
    (by decide) (by decide) (by
      intro v h₁ h₂
      obtain rfl : v = 0 := by
        have : (0 + 1 - 1) / pgSize = 0 := by decide
        omega
      rw [(@demoHeap_ok ℕ id).translate_eq (i := ()) (by decide)]
      rfl)
  exact ⟨s', ok, m, hr, hm, hwf⟩

/-! ### The trees of `Vm.lean` -/

/-- `PTE_R`, `PTE_W`, `PTE_X` and `PTE_U` of a permission. -/
def permBits (r w x u : Bool) : ℕ :=
  (if r then 1 <<< 1 else 0) ||| (if w then 1 <<< 2 else 0) ||| (if x then 1 <<< 3 else 0) |||
    (if u then pteU else 0)

def Perm.bits (p : Perm) : ℕ := permBits p.r p.w p.x p.u

/-- A leaf entry as it is written. -/
def Pte.word (e : Pte) : ℕ := pa2pte e.pa ||| e.perm.bits ||| pteV

theorem permBits_lt : ∀ r w x u, permBits r w x u < 1024 := by decide

theorem Perm.bits_lt (p : Perm) : p.bits < 1024 := permBits_lt _ _ _ _

theorem Pte.word_eq (e : Pte) : e.word = pa2pte e.pa ||| (e.perm.bits ||| pteV) :=
  Nat.or_assoc _ _ _

theorem Pte.word_odd (e : Pte) : e.word % 2 = 1 := Nat.or_mod_two_eq_one.mpr (.inr rfl)

theorem Pte.word_lt {e : Pte} (h : e.pa < 2 ^ 64) : e.word < 256 ^ 8 := by
  rw [Pte.word_eq]
  exact pa2pte_or_lt h (or_pteV_lt e.perm.bits_lt)

section Trees

variable [DecidableEq ι] {m m' : Kmem} {t : ι → PageTable} {pt' : PageTable} {a pa : ℕ}
  {perm : Perm}

/-- **`mappages` of a page in memory is `mappages` on the tree**: it returns the
same and leaves the tree in memory, or panics in the same way. -/
theorem mappages_refines (h : WellFormed Pte.word m.kend s m.free t root)
    (hend : kernBase ≤ m.kend) (hpa : pa < 2 ^ 64) (ha : a % pgSize = 0) :
    (∀ m' pt' ok, mappages m (t i) a pgSize pa perm = .ok (m', pt', ok) →
      ∃ s', s.mappages (root i) a pgSize pa perm.bits = .ok (s', ok) ∧
        WellFormed Pte.word m'.kend s' m'.free (update t i pt') root) ∧
    ∀ e, mappages m (t i) a pgSize pa perm = .error e →
      s.mappages (root i) a pgSize pa perm.bits = .error e := by
  have hbase : pgRoundDown a = a := Nat.div_mul_cancel (Nat.dvd_of_mod_eq_zero ha)
  rw [mappages_page m (t i) ha]
  by_cases hlt : a < maxVA
  swap
  · -- both panic in `walk`
    have hmem : s.mappages (root i) a pgSize pa perm.bits = .error .walk := by
      unfold Heap.mappages Heap.mapLoop Heap.walk
      rw [if_neg pgSize_pos.ne', hbase]
      simp only [if_pos (not_lt.mp hlt)]
      rfl
    have htree : mapPage m (t i) a pa perm = .error .walk := by
      unfold mapPage walkAlloc
      rw [if_pos (not_lt.mp hlt)]
      rfl
    rw [htree, hmem]
    refine ⟨fun _ _ _ hr => (by cases hr), fun e hr => ?_⟩
    cases hr
    rfl
  have hloop : s.mappages (root i) a pgSize pa perm.bits
      = Heap.mapLoop (root i) a perm.bits 1 s a pa := by
    have hlast : sub64 (add64 a pgSize) 1 / pgSize = a / pgSize := by
      unfold sub64 add64 maxVA pgSize at *
      omega
    unfold pgRoundDown at hbase
    unfold Heap.mappages
    rw [if_neg pgSize_pos.ne']
    simp only [pgRoundDown, hlast, hbase, Nat.sub_self, Nat.zero_div, Nat.zero_add]
  rw [hloop]
  unfold Heap.mapLoop
  obtain ⟨s', pte, hwalk, hcase⟩ :=
    mapRound h hend (i := i) (v := ⟨pa, perm⟩) hlt (Pte.word_odd _) (Pte.word_lt hpa)
  have hbits : pa2pte pa ||| perm.bits ||| pteV = Pte.word ⟨pa, perm⟩ := rfl
  unfold mapPage walkAlloc
  rw [hwalk, if_neg (not_le.mpr hlt)]
  simp only [ok_bind, and_pteV, hbits, Radix.get_grow]
  rcases hcase with ⟨hok, rfl, hwf⟩ | ⟨hok, hpte, hentry, hwf⟩
  · simp only [hok, Bool.false_eq_true, if_false, if_true]
    refine ⟨fun _ _ _ hr => ?_, fun e hr => (by cases hr)⟩
    cases hr
    exact ⟨s', rfl, hwf⟩
  rcases hget : (t i).get (px a) with - | e
  · rw [hget] at hentry
    change _ % 2 = 0 at hentry
    simp only [hok, Option.isSome_none, Bool.false_eq_true, if_false, if_true]
    rw [if_neg hpte, if_neg (not_not.mpr hentry)]
    refine ⟨fun _ _ _ hr => ?_, fun e hr => (by cases hr)⟩
    cases hr
    exact ⟨_, rfl, hwf⟩
  · -- a valid entry
    rw [hget] at hentry
    have hodd : s'.mem.load pte 8 % 2 ≠ 0 := by
      rw [hentry.1, hentry.2]
      decide
    simp only [hok, Option.isSome_some, if_true]
    rw [if_neg hpte, if_pos hodd]
    refine ⟨fun _ _ _ hr => (by cases hr), fun e hr => ?_⟩
    cases hr
    rfl

/-- The same first page as above. -/
theorem mappages_refines_demo :
    ∃ s' ok t, ∃ m' : Kmem,
      demoHeap.mappages (physTop - pgSize) 0 pgSize kernBase 22 = .ok (s', ok) ∧
      WellFormed Pte.word m'.kend s' m'.free t fun _ : Unit => physTop - pgSize := by
  let m : Kmem := ⟨kernBase, [physTop - 2 * pgSize, physTop - 3 * pgSize]⟩
  rcases hr : mappages m (emptyTable 2 (physTop - pgSize)) 0 pgSize kernBase
    ⟨true, true, false, true, rfl⟩ with e | ⟨m', pt, ok⟩
  · cases hr
  · have hend : kernBase ≤ m.kend := le_rfl
    obtain ⟨s', hs', hwf⟩ := (mappages_refines (m := m) (i := ()) demoHeap_ok hend (by decide)
      (by decide)).1 _ _ _ hr
    exact ⟨s', ok, _, m', hs', hwf⟩

end Trees

end Xv6Zig
