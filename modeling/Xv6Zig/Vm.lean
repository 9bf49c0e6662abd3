/-
Xv6Zig/Vm.lean

User page tables (`kernel/vm.c`).

A page table is a radix tree of three levels with 512 entries a table; a
table is the page it lies on and what its entries point to, so two tables
never share a page by mistake of the model, only if the allocator hands one
out twice.  `walk`, `mappages`, `uvmunmap` and the functions over them follow
the source loop by loop.  Addresses are numbers of bytes, `walk` stops the
kernel at `MAXVA`.  What user pages contain is not modelled: `copyin` and
`copyout` tell whether the range is mapped for the user.

What the rest of the kernel sees of a page table is `leafAt`, the map from
virtual page numbers to leaf entries, `pages`, the page-table pages, and
`missing`, the page-table pages a mapping would have to allocate first.
-/
import Mathlib.Tactic.IntervalCases
import Xv6Zig.Kalloc
import Xv6Zig.Lib.Radix

namespace Xv6Zig

open Lib Function

/-! ### Entries and addresses -/

/-- The bits of a leaf entry.  One of R, W, X is set: `freewalk` and the
hardware take an entry without them for a pointer to a table. -/
structure Perm where
  r : Bool
  w : Bool
  x : Bool
  u : Bool
  leaf : (r || w || x) = true
  deriving DecidableEq, Repr

theorem Perm.readWrite : (true || true || false) = true := rfl

theorem Perm.readExec : (true || false || true) = true := rfl

/-- A valid leaf entry. -/
structure Pte where
  pa : ℕ
  perm : Perm
  deriving DecidableEq, Repr

abbrev PageTable := Radix 512 ℕ Pte 2

/-- `PX(level, va)`: the index into the table at a level. -/
def px (va level : ℕ) : Fin 512 :=
  ⟨va / pgSize / 512 ^ level % 512, Nat.mod_lt _ (by decide)⟩

/-- `PGROUNDUP` in pages. -/
def npages (sz : ℕ) : ℕ :=
  (sz + pgSize - 1) / pgSize

def pgRoundUp (sz : ℕ) : ℕ :=
  npages sz * pgSize

def pgRoundDown (a : ℕ) : ℕ :=
  a / pgSize * pgSize

/-! ### `walk` and the functions over it -/

/-- `walk(pagetable, va, 0)`: the entry, or `none` if a table is missing. -/
def walk (pt : PageTable) (va : ℕ) : Except Panic (Option (Option Pte)) :=
  if maxVA ≤ va then .error .walk
  else .ok (pt.find (px va))

/-- `walk(pagetable, va, 1)`: the missing tables are allocated; `false` when
`kalloc` failed. -/
def walkAlloc (m : Kmem) (pt : PageTable) (va : ℕ) : Except Panic (Kmem × PageTable × Bool) :=
  if maxVA ≤ va then .error .walk
  else
    let (free, pt, ok) := pt.grow m.free (px va)
    .ok ({ m with free := free }, pt, ok)

/-- `walkaddr`: the physical page the user sees at `va`. -/
def walkaddr (pt : PageTable) (va : ℕ) : Option ℕ :=
  if maxVA ≤ va then none
  else match pt.find (px va) with
    | some (some pte) => if pte.perm.u then some pte.pa else none
    | _ => none

/-- One round of the loop in `mappages`. -/
def mapPage (m : Kmem) (pt : PageTable) (a pa : ℕ) (perm : Perm) :
    Except Panic (Kmem × PageTable × Bool) := do
  let (m, pt, ok) ← walkAlloc m pt a
  if ok then
    if (pt.get (px a)).isSome then .error .mappagesRemap
    else .ok (m, pt.set (px a) (some ⟨pa, perm⟩), true)
  else .ok (m, pt, false)

/-- The loop of `mappages` over `n` pages. -/
def mapLoop (perm : Perm) : ℕ → Kmem → PageTable → ℕ → ℕ → Except Panic (Kmem × PageTable × Bool)
  | 0, m, pt, _, _ => .ok (m, pt, true)
  | n + 1, m, pt, a, pa => do
      let (m, pt, ok) ← mapPage m pt a pa perm
      if ok then mapLoop perm n m pt (a + pgSize) (pa + pgSize) else .ok (m, pt, false)

/-- `mappages`; `false` stands for -1. -/
def mappages (m : Kmem) (pt : PageTable) (va size pa : ℕ) (perm : Perm) :
    Except Panic (Kmem × PageTable × Bool) :=
  if size = 0 then .error .mappagesSize
  else
    let a := pgRoundDown va
    let last := pgRoundDown (va + size - 1)
    mapLoop perm ((last - a) / pgSize + 1) m pt a pa

/-- The loop of `uvmunmap` over `n` pages. -/
def unmapLoop (doFree : Bool) : ℕ → Kmem → PageTable → ℕ → Except Panic (Kmem × PageTable)
  | 0, m, pt, _ => .ok (m, pt)
  | n + 1, m, pt, a => do
      match ← walk pt a with
      | none => .error .uvmunmapWalk
      | some none => .error .uvmunmapNotMapped
      | some (some pte) =>
          let m ← (if doFree then m.kfree pte.pa else .ok m)
          unmapLoop doFree n m (pt.set (px a) none) (a + pgSize)

def uvmunmap (m : Kmem) (pt : PageTable) (va n : ℕ) (doFree : Bool) :
    Except Panic (Kmem × PageTable) :=
  if va % pgSize ≠ 0 then .error .uvmunmapNotAligned
  else unmapLoop doFree n m pt va

/-- `uvmcreate`: an empty root table. -/
def uvmcreate (m : Kmem) : Option (PageTable × Kmem) :=
  m.allocPage.map fun (pa, m) => (.node pa fun _ => .absent, m)

/-- `uvmdealloc`; the last component is the size returned. -/
def uvmdealloc (m : Kmem) (pt : PageTable) (oldsz newsz : ℕ) :
    Except Panic (Kmem × PageTable × ℕ) :=
  if oldsz ≤ newsz then .ok (m, pt, oldsz)
  else do
    let (m, pt) ←
      (if pgRoundUp newsz < pgRoundUp oldsz then
        uvmunmap m pt (pgRoundUp newsz) ((pgRoundUp oldsz - pgRoundUp newsz) / pgSize) true
      else .ok (m, pt))
    .ok (m, pt, newsz)

/-- The loop of `uvmalloc` over `n` pages; `oldsz` is the rounded one. -/
def uvmallocLoop (oldsz : ℕ) (perm : Perm) :
    ℕ → Kmem → PageTable → ℕ → Except Panic (Kmem × PageTable × Bool)
  | 0, m, pt, _ => .ok (m, pt, true)
  | n + 1, m, pt, a =>
      match m.allocPage with
      | none => do
          let (m, pt, _) ← uvmdealloc m pt a oldsz
          .ok (m, pt, false)
      | some (mem, m) => do
          let (m, pt, ok) ← mappages m pt a pgSize mem perm
          if ok then uvmallocLoop oldsz perm n m pt (a + pgSize)
          else do
            let m ← m.kfree mem
            let (m, pt, _) ← uvmdealloc m pt a oldsz
            .ok (m, pt, false)

/-- `uvmalloc`; the last component is the new size, 0 on error. -/
def uvmalloc (m : Kmem) (pt : PageTable) (oldsz newsz : ℕ) (w x : Bool) :
    Except Panic (Kmem × PageTable × ℕ) :=
  if newsz < oldsz then .ok (m, pt, oldsz)
  else do
    let (m, pt, ok) ← uvmallocLoop (pgRoundUp oldsz) ⟨true, w, x, true, rfl⟩
      (npages (newsz - pgRoundUp oldsz)) m pt (pgRoundUp oldsz)
    .ok (m, pt, if ok then newsz else 0)

/-- `freewalk`. -/
def freewalk : {n : ℕ} → Radix 512 ℕ Pte n → Kmem → Except Panic Kmem
  | _, .absent, m => .ok m
  | _, .leaf page entry, m =>
      if (List.finRange 512).any fun i => (entry i).isSome then .error .freewalkLeaf
      else m.kfree page
  | _, .node page child, m => do
      let m ← (List.finRange 512).foldlM (fun m i => freewalk (child i) m) m
      m.kfree page

def uvmfree (m : Kmem) (pt : PageTable) (sz : ℕ) : Except Panic Kmem := do
  let (m, pt) ← (if 0 < sz then uvmunmap m pt 0 (npages sz) true else .ok (m, pt))
  freewalk pt m

/-- The loop of `uvmcopy` over `n` pages. -/
def uvmcopyLoop (old : PageTable) :
    ℕ → Kmem → PageTable → ℕ → Except Panic (Kmem × PageTable × Bool)
  | 0, m, new, _ => .ok (m, new, true)
  | n + 1, m, new, i => do
      match ← walk old i with
      | none => .error .uvmcopyPte
      | some none => .error .uvmcopyPage
      | some (some pte) =>
          match m.allocPage with
          | none => do
              let (m, new) ← uvmunmap m new 0 (i / pgSize) true
              .ok (m, new, false)
          | some (mem, m) => do
              let (m, new, ok) ← mappages m new i pgSize mem pte.perm
              if ok then uvmcopyLoop old n m new (i + pgSize)
              else do
                let m ← m.kfree mem
                let (m, new) ← uvmunmap m new 0 (i / pgSize) true
                .ok (m, new, false)

/-- `uvmcopy`; `false` stands for -1. -/
def uvmcopy (m : Kmem) (old new : PageTable) (sz : ℕ) :
    Except Panic (Kmem × PageTable × Bool) :=
  uvmcopyLoop old (npages sz) m new 0

/-- `uvmclear`: take a page from the user. -/
def uvmclear (pt : PageTable) (va : ℕ) : Except Panic PageTable := do
  match ← walk pt va with
  | none => .error .uvmclear
  | some e => .ok (pt.set (px va) (e.map fun pte => { pte with perm := { pte.perm with u := false } }))

/-- The loop of `copyin` and `copyout`, which takes at least one byte a round. -/
def copyLoop (pt : PageTable) : ℕ → ℕ → ℕ → Bool
  | 0, _, len => len = 0
  | fuel + 1, va, len =>
      if len = 0 then true
      else
        let va0 := pgRoundDown va
        match walkaddr pt va0 with
        | none => false
        | some _ => copyLoop pt fuel (va0 + pgSize) (len - min (pgSize - (va - va0)) len)

/-- `copyout` of `len` bytes; `false` stands for -1. -/
def copyout (pt : PageTable) (dstva len : ℕ) : Bool :=
  copyLoop pt len dstva len

/-- `copyin` of `len` bytes; `false` stands for -1. -/
def copyin (pt : PageTable) (srcva len : ℕ) : Bool :=
  copyLoop pt len srcva len

/-! ### The map of leaf entries -/

/-- The leaf entry of virtual page `v`. -/
def leafAt (pt : PageTable) (v : ℕ) : Option Pte :=
  if v < 512 ^ 3 then pt.get (px (v * pgSize)) else none

/-- The pages below `MAXVA`. -/
def vpnMax : ℕ := maxVA / pgSize

theorem lt_maxVA_iff {a : ℕ} : a < maxVA ↔ a / pgSize < vpnMax := by
  unfold vpnMax maxVA pgSize
  omega

theorem lt_of_lt_vpnMax {v : ℕ} (h : v < vpnMax) : v < 512 ^ 3 := by
  unfold vpnMax maxVA pgSize at h
  omega

/-- The three indices determine the page. -/
theorem px_eq_iff {v w : ℕ} (hv : v < 512 ^ 3) (hw : w < 512 ^ 3) :
    (∀ k ≤ 2, px (v * pgSize) k = px (w * pgSize) k) ↔ v = w := by
  constructor
  · intro h
    have h₀ := congrArg Fin.val (h 0 (by decide))
    have h₁ := congrArg Fin.val (h 1 (by decide))
    have h₂ := congrArg Fin.val (h 2 (by decide))
    simp only [px, pgSize] at h₀ h₁ h₂
    omega
  · rintro rfl k _
    rfl

theorem px_page (a : ℕ) : px (a / pgSize * pgSize) = px a := by
  funext k
  apply Fin.ext
  show a / pgSize * pgSize / pgSize / 512 ^ k % 512 = a / pgSize / 512 ^ k % 512
  rw [Nat.mul_div_cancel _ pgSize_pos]

variable {m m' : Kmem} {pt pt' : PageTable} {a va pa : ℕ} {perm : Perm}

theorem leafAt_of_lt (ha : a < maxVA) : leafAt pt (a / pgSize) = pt.get (px a) := by
  unfold leafAt
  rw [if_pos (lt_of_lt_vpnMax (lt_maxVA_iff.mp ha)), px_page]

theorem walk_eq (pt : PageTable) (ha : a < maxVA) : walk pt a = .ok (pt.find (px a)) := by
  unfold walk
  rw [if_neg (by omega)]

theorem of_walk {e : Option (Option Pte)} (h : walk pt a = .ok e) :
    a < maxVA ∧ pt.find (px a) = e := by
  unfold walk at h
  split_ifs at h with hge
  exact ⟨not_le.mp hge, Except.ok.inj h⟩

theorem leafAt_of_find {pte : Pte} (ha : a < maxVA) (h : pt.find (px a) = some (some pte)) :
    leafAt pt (a / pgSize) = some pte := by
  rw [leafAt_of_lt ha]
  unfold Radix.get
  rw [h]
  rfl

theorem find_of_leafAt {pte : Pte} (ha : a < maxVA) (h : leafAt pt (a / pgSize) = some pte) :
    pt.find (px a) = some (some pte) := by
  rw [leafAt_of_lt ha] at h
  unfold Radix.get at h
  exact Option.join_eq_some_iff.mp h

/-- With no leaf entry at any page, no key of the tree has a value. -/
theorem get_of_leafAt_none (h : ∀ v, leafAt pt v = none) (d : ℕ → Fin 512) : pt.get d = none := by
  have hd₀ := (d 0).isLt
  have hd₁ := (d 1).isLt
  have hd₂ := (d 2).isLt
  let v := (d 2).val * 512 ^ 2 + (d 1).val * 512 + (d 0).val
  have hv : v < 512 ^ 3 := by
    show (d 2).val * 512 ^ 2 + (d 1).val * 512 + (d 0).val < 512 ^ 3
    omega
  have hpx : ∀ k ≤ 2, d k = px (v * pgSize) k := by
    intro k hk
    apply Fin.ext
    show (d k).val = v * pgSize / pgSize / 512 ^ k % 512
    rw [Nat.mul_div_cancel _ pgSize_pos]
    show (d k).val = ((d 2).val * 512 ^ 2 + (d 1).val * 512 + (d 0).val) / 512 ^ k % 512
    interval_cases k <;> omega
  have hnone := h v
  unfold leafAt at hnone
  rw [if_pos hv] at hnone
  rw [Radix.get_congr pt hpx]
  exact hnone

/-- **A store changes the entry of one page.** -/
theorem leafAt_set (ha : a < maxVA) (hf : pt.find (px a) ≠ none) (x : Option Pte) :
    leafAt (pt.set (px a) x) = update (leafAt pt) (a / pgSize) x := by
  funext v
  have hva := lt_of_lt_vpnMax (lt_maxVA_iff.mp ha)
  by_cases hv : v < 512 ^ 3
  · unfold leafAt
    rw [if_pos hv, Radix.get_set pt hf, ← px_page a]
    simp only [px_eq_iff hv hva]
    by_cases hva' : v = a / pgSize
    · rw [if_pos hva', hva', update_self]
    · rw [if_neg hva', update_of_ne hva', if_pos hv]
  · have hne : v ≠ a / pgSize := fun h => hv (h ▸ hva)
    rw [update_of_ne hne]
    unfold leafAt
    rw [if_neg hv, if_neg hv]

theorem leafAt_grow (pt : PageTable) (free : List ℕ) (d : ℕ → Fin 512) :
    leafAt (pt.grow free d).2.1 = leafAt pt := by
  funext v
  unfold leafAt
  rw [Radix.get_grow]

/-! ### `mappages` -/

/-- The page-table pages a mapping of `va` would have to allocate. -/
def missingAt (pt : PageTable) (va : ℕ) : Finset (List (Fin 512)) :=
  pt.missing (px va)

/-- Pages were only moved between the free list and the page table. -/
structure Moved (m : Kmem) (pt : PageTable) (m' : Kmem) (pt' : PageTable) : Prop where
  kend : m'.kend = m.kend
  pages : (m'.free : Multiset ℕ) + pt'.pages = m.free + pt.pages

theorem Moved.refl (m : Kmem) (pt : PageTable) : Moved m pt m pt := ⟨rfl, rfl⟩

theorem Moved.trans {m'' : Kmem} {pt'' : PageTable} (h : Moved m pt m' pt')
    (h' : Moved m' pt' m'' pt'') : Moved m pt m'' pt'' :=
  ⟨h'.kend.trans h.kend, h'.pages.trans h.pages⟩

/-- What one round of `mappages` does, in every case. -/
theorem mapPage_eq (m : Kmem) (pt : PageTable) (a pa : ℕ) (perm : Perm) :
    mapPage m pt a pa perm =
      if maxVA ≤ a then .error .walk
      else if m.free.length < (missingAt pt a).card then
        .ok ({ m with free := m.free.drop (missingAt pt a).card }, (pt.grow m.free (px a)).2.1, false)
      else if (leafAt pt (a / pgSize)).isSome then .error .mappagesRemap
      else .ok ({ m with free := m.free.drop (missingAt pt a).card },
        (pt.grow m.free (px a)).2.1.set (px a) (some ⟨pa, perm⟩), true) := by
  unfold mapPage walkAlloc
  by_cases ha : maxVA ≤ a
  · rw [if_pos ha, if_pos ha]
    rfl
  · rw [if_neg ha, if_neg ha]
    have hok := Radix.grow_ok_iff pt m.free (px a)
    show (if (pt.grow m.free (px a)).2.2 = true then _ else _) = _
    rw [Radix.grow_free, Radix.get_grow, leafAt_of_lt (by omega)]
    by_cases hlt : m.free.length < (missingAt pt a).card
    · rw [if_pos hlt, if_neg]
      · rfl
      · rw [hok]
        exact not_le.mpr hlt
    · rw [if_neg hlt, if_pos (hok.mpr (not_lt.mp hlt))]
      rfl

/-- A page was mapped. -/
structure Mapped (m : Kmem) (pt : PageTable) (va : ℕ) (pte : Pte) (m' : Kmem) (pt' : PageTable) :
    Prop where
  lt : va < maxVA
  fresh : leafAt pt (va / pgSize) = none
  leaf : leafAt pt' = update (leafAt pt) (va / pgSize) (some pte)
  moved : Moved m pt m' pt'
  enough : (missingAt pt va).card ≤ m.free.length
  free : m'.free = m.free.drop (missingAt pt va).card
  missing : ∀ x, missingAt pt' x = missingAt pt x \ missingAt pt va

/-- There was no memory for a page-table page. -/
structure MapFailed (m : Kmem) (pt : PageTable) (va : ℕ) (m' : Kmem) (pt' : PageTable) :
    Prop where
  lt : va < maxVA
  leaf : leafAt pt' = leafAt pt
  moved : Moved m pt m' pt'
  short : m.free.length < (missingAt pt va).card

theorem moved_grow (m : Kmem) (pt : PageTable) (va : ℕ) :
    Moved m pt { m with free := m.free.drop (missingAt pt va).card }
      (pt.grow m.free (px va)).2.1 := by
  refine ⟨rfl, ?_⟩
  have hpages := Radix.coe_pages_grow pt m.free (px va)
  rw [Radix.grow_free] at hpages
  exact hpages

theorem of_mapPage_true (h : mapPage m pt a pa perm = .ok (m', pt', true)) :
    Mapped m pt a ⟨pa, perm⟩ m' pt' := by
  rw [mapPage_eq] at h
  split_ifs at h with ha hlt hsome
  · cases (Prod.mk.inj (Prod.mk.inj (Except.ok.inj h)).2).2
  cases h
  have hlt' : a < maxVA := not_le.mp ha
  have hok := (Radix.grow_ok_iff pt m.free (px a)).mpr (not_lt.mp hlt)
  have hfind : (pt.grow m.free (px a)).2.1.find (px a) ≠ none := by
    rw [← Option.isSome_iff_ne_none]
    exact Radix.find_grow_isSome pt hok
  have hmoved := moved_grow m pt a
  refine ⟨hlt', Option.not_isSome_iff_eq_none.mp hsome, ?_, ⟨rfl, ?_⟩, not_lt.mp hlt, rfl, ?_⟩
  · rw [leafAt_set hlt' hfind, leafAt_grow]
  · rw [Radix.pages_set]
    exact hmoved.pages
  · intro x
    unfold missingAt
    rw [Radix.missing_set, Radix.missing_grow pt (px x) hok]

theorem of_mapPage_false (h : mapPage m pt a pa perm = .ok (m', pt', false)) :
    MapFailed m pt a m' pt' := by
  rw [mapPage_eq] at h
  split_ifs at h with ha hlt hsome
  · cases h
    exact ⟨not_le.mp ha, leafAt_grow _ _ _, moved_grow m pt a, hlt⟩
  · obtain ⟨-, hrest⟩ := Prod.mk.inj (Except.ok.inj h)
    cases (Prod.mk.inj hrest).2

/-- Every caller in the kernel maps one aligned page. -/
theorem mappages_page (m : Kmem) (pt : PageTable) (hva : va % pgSize = 0) (pa : ℕ) (perm : Perm) :
    mappages m pt va pgSize pa perm = mapPage m pt va pa perm := by
  have hdown : pgRoundDown va = va := by
    have hdvd : pgSize ∣ va := Nat.dvd_of_mod_eq_zero hva
    exact Nat.div_mul_cancel hdvd
  have hlast : pgRoundDown (va + pgSize - 1) = va := by
    have hdiv : (va + pgSize - 1) / pgSize = va / pgSize := by
      simp only [pgSize] at hva ⊢
      omega
    show (va + pgSize - 1) / pgSize * pgSize = va
    rw [hdiv]
    exact hdown
  unfold mappages
  rw [if_neg pgSize_pos.ne']
  simp only [hdown, hlast, Nat.sub_self, Nat.zero_div, Nat.zero_add]
  show (mapPage m pt va pa perm >>= fun r => if r.2.2 = true then .ok (r.1, r.2.1, true)
    else .ok (r.1, r.2.1, false)) = _
  rcases mapPage m pt va pa perm with e | ⟨m', pt', ok⟩
  · rfl
  · cases ok <;> rfl

/-! ### `uvmunmap` -/

/-- The physical pages mapped at `n` virtual pages from `v` on. -/
def leafPages (pt : PageTable) (v n : ℕ) : List ℕ :=
  (List.range' v n).filterMap fun v => (leafAt pt v).map Pte.pa

theorem leafPages_congr {v n : ℕ} (h : ∀ w, v ≤ w → w < v + n → leafAt pt' w = leafAt pt w) :
    leafPages pt' v n = leafPages pt v n := by
  unfold leafPages
  apply List.filterMap_congr
  intro w hw
  rw [List.mem_range'_1] at hw
  rw [h w hw.1 hw.2]

@[simp] theorem leafPages_zero (pt : PageTable) (v : ℕ) : leafPages pt v 0 = [] := rfl

theorem leafPages_succ {v n : ℕ} {pte : Pte} (h : leafAt pt v = some pte) :
    leafPages pt v (n + 1) = pte.pa :: leafPages pt (v + 1) n := by
  unfold leafPages
  rw [List.range'_succ, List.filterMap_cons, h]
  rfl

theorem leafPages_add (pt : PageTable) (v n k : ℕ) :
    leafPages pt v (n + k) = leafPages pt v n ++ leafPages pt (v + n) k := by
  unfold leafPages
  rw [← List.range'_append_1, List.filterMap_append]

theorem leafPages_split (pt : PageTable) {n k : ℕ} (h : n ≤ k) :
    leafPages pt 0 k = leafPages pt 0 n ++ leafPages pt n (k - n) := by
  have hadd := leafPages_add pt 0 n (k - n)
  rwa [Nat.add_sub_cancel' h, Nat.zero_add] at hadd

theorem mem_leafPages {v n p : ℕ} :
    p ∈ leafPages pt v n ↔ ∃ w pte, v ≤ w ∧ w < v + n ∧ leafAt pt w = some pte ∧ pte.pa = p := by
  unfold leafPages
  rw [List.mem_filterMap]
  constructor
  · rintro ⟨w, hw, hp⟩
    rw [List.mem_range'_1] at hw
    obtain ⟨pte, hpte, rfl⟩ := Option.map_eq_some_iff.mp hp
    exact ⟨w, pte, hw.1, hw.2, hpte, rfl⟩
  · rintro ⟨w, pte, hle, hlt, hpte, rfl⟩
    exact ⟨w, List.mem_range'_1.mpr ⟨hle, hlt⟩, by rw [hpte]; rfl⟩

/-- Where no page occurs twice a page stands at one place. -/
theorem leafPages_injective {v w n p : ℕ} (h : (leafPages pt 0 n).Nodup) (hv : v < n) (hw : w < n)
    (hpv : (leafAt pt v).map Pte.pa = some p) (hpw : (leafAt pt w).map Pte.pa = some p) :
    v = w := by
  have hlt : ∀ {v w : ℕ}, v < w → w < n → (leafAt pt v).map Pte.pa = some p →
      (leafAt pt w).map Pte.pa ≠ some p := by
    intro v w hvw hw hpv hpw
    obtain ⟨a, ha, hpa⟩ := Option.map_eq_some_iff.mp hpv
    obtain ⟨b, hb, hpb⟩ := Option.map_eq_some_iff.mp hpw
    rw [show n = w + (n - w) by omega, leafPages_add] at h
    apply (List.nodup_append'.mp h).2.2
    · exact mem_leafPages.mpr ⟨v, a, Nat.zero_le v, by omega, ha, hpa⟩
    · exact mem_leafPages.mpr ⟨w, b, by omega, by omega, hb, hpb⟩
  rcases Nat.lt_trichotomy v w with hvw | hvw | hvw
  · exact absurd hpw (hlt hvw hw hpv)
  · exact hvw
  · exact absurd hpv (hlt hvw hv hpw)

/-- `n` pages from page `v` on were unmapped. -/
structure Unmapped (m : Kmem) (pt : PageTable) (v n : ℕ) (doFree : Bool) (m' : Kmem)
    (pt' : PageTable) : Prop where
  mapped : ∀ w, v ≤ w → w < v + n → leafAt pt w ≠ none
  leaf : ∀ w, leafAt pt' w = if v ≤ w ∧ w < v + n then none else leafAt pt w
  pages : pt'.pages = pt.pages
  missing : ∀ x, missingAt pt' x = missingAt pt x
  kend : m'.kend = m.kend
  free : m'.free = if doFree then (leafPages pt v n).reverse ++ m.free else m.free

theorem Unmapped.zero (m : Kmem) (pt : PageTable) (v : ℕ) (doFree : Bool) :
    Unmapped m pt v 0 doFree m pt := by
  refine ⟨?_, ?_, rfl, fun _ => rfl, rfl, ?_⟩
  · intro w h₁ h₂
    omega
  · intro w
    rw [if_neg (by omega)]
  · cases doFree <;> rfl

/-- One more page in front. -/
theorem Unmapped.succ {v n : ℕ} {doFree : Bool} {pte : Pte} {m₁ : Kmem} {pt₁ : PageTable}
    (h : Unmapped m₁ pt₁ (v + 1) n doFree m' pt') (hpte : leafAt pt v = some pte)
    (hleaf : leafAt pt₁ = update (leafAt pt) v none) (hpages : pt₁.pages = pt.pages)
    (hmissing : ∀ x, missingAt pt₁ x = missingAt pt x) (hkend : m₁.kend = m.kend)
    (hfree : m₁.free = if doFree then pte.pa :: m.free else m.free) :
    Unmapped m pt v (n + 1) doFree m' pt' := by
  have hsame : ∀ w, w ≠ v → leafAt pt₁ w = leafAt pt w := by
    intro w hw
    rw [hleaf, update_of_ne hw]
  refine ⟨?_, ?_, h.pages.trans hpages, fun x => (h.missing x).trans (hmissing x),
    h.kend.trans hkend, ?_⟩
  · intro w h₁ h₂
    rcases Nat.eq_or_lt_of_le h₁ with rfl | h₁
    · simp [hpte]
    · rw [← hsame w (by omega)]
      exact h.mapped w h₁ (by omega)
  · intro w
    rw [h.leaf w]
    by_cases hw : w = v
    · rw [if_neg (by omega), if_pos (by omega), hleaf, hw, update_self]
    · have hiff : (v + 1 ≤ w ∧ w < v + 1 + n) ↔ (v ≤ w ∧ w < v + (n + 1)) := by omega
      rw [hsame w hw]
      simp only [hiff]
  · rw [h.free, hfree, leafPages_succ hpte,
      leafPages_congr (fun w h₁ h₂ => hsame w (by omega))]
    cases doFree
    · rfl
    · simp

theorem of_unmapLoop {n : ℕ} {doFree : Bool} (hva : a % pgSize = 0)
    (h : unmapLoop doFree n m pt a = .ok (m', pt')) :
    Unmapped m pt (a / pgSize) n doFree m' pt' := by
  induction n generalizing m pt a with
  | zero =>
    obtain ⟨rfl, rfl⟩ := Prod.mk.inj (Except.ok.inj h)
    exact Unmapped.zero m pt _ _
  | succ n ih =>
    obtain ⟨e, he, h⟩ := bind_eq_ok.mp h
    obtain ⟨ha, hf⟩ := of_walk he
    rcases e with - | - | pte
    · cases h
    · cases h
    obtain ⟨m₁, hm₁, h⟩ := bind_eq_ok.mp h
    have hnext : (a + pgSize) / pgSize = a / pgSize + 1 := Nat.add_div_right a pgSize_pos
    have hrest := ih (by unfold pgSize at *; omega) h
    rw [hnext] at hrest
    have hpte := leafAt_of_find ha hf
    have hleaf := leafAt_set ha (by rw [hf]; simp) (none : Option Pte)
    have hmissing : ∀ x, missingAt (pt.set (px a) none) x = missingAt pt x := fun x =>
      Radix.missing_set pt (px a) none (px x)
    cases doFree
    · obtain rfl : m = m₁ := Except.ok.inj hm₁
      exact hrest.succ hpte hleaf (Radix.pages_set _ _ _) hmissing rfl rfl
    · obtain ⟨-, rfl⟩ := Kmem.of_kfree_ok hm₁
      exact hrest.succ hpte hleaf (Radix.pages_set _ _ _) hmissing rfl rfl

/-- The loop returns when the pages are mapped and, if they are to be freed,
can be. -/
theorem unmapLoop_returns {n : ℕ} {doFree : Bool} (hva : a % pgSize = 0)
    (hlt : a / pgSize + n ≤ vpnMax)
    (hmapped : ∀ w, a / pgSize ≤ w → w < a / pgSize + n → leafAt pt w ≠ none)
    (hvalid : doFree = true → ∀ p ∈ leafPages pt (a / pgSize) n, ValidPage m.kend p) :
    ∃ r, unmapLoop doFree n m pt a = .ok r := by
  induction n generalizing m pt a with
  | zero => exact ⟨_, rfl⟩
  | succ n ih =>
    have hnone := hmapped (a / pgSize) le_rfl (by omega)
    have ha : a < maxVA := lt_maxVA_iff.mpr (by omega)
    obtain ⟨pte, hpte⟩ := Option.ne_none_iff_exists'.mp hnone
    have hf := find_of_leafAt ha hpte
    have hnext : (a + pgSize) / pgSize = a / pgSize + 1 := Nat.add_div_right a pgSize_pos
    have hleaf := leafAt_set ha (by rw [hf]; simp) (none : Option Pte)
    have hsame : ∀ w, a / pgSize + 1 ≤ w → leafAt (pt.set (px a) none) w = leafAt pt w := by
      intro w hw
      rw [hleaf, update_of_ne (by omega)]
    have hgo : ∀ m₁ : Kmem, m₁.kend = m.kend →
        ∃ r, unmapLoop doFree n m₁ (pt.set (px a) none) (a + pgSize) = .ok r := by
      intro m₁ hk
      apply ih
      · unfold pgSize at *
        omega
      · rw [hnext]
        omega
      · intro w h₁ h₂
        rw [hnext] at h₁ h₂
        rw [hsame w h₁]
        exact hmapped w (by omega) (by omega)
      · intro hfree p hp
        rw [hk]
        apply hvalid hfree
        rw [hnext, leafPages_congr (fun w h₁ _ => hsame w h₁)] at hp
        rw [leafPages_succ hpte]
        exact List.mem_cons_of_mem _ hp
    have hstep : unmapLoop doFree (n + 1) m pt a
        = ((if doFree then m.kfree pte.pa else .ok m) >>= fun m =>
            unmapLoop doFree n m (pt.set (px a) none) (a + pgSize)) := by
      show (walk pt a >>= _) = _
      rw [walk_eq pt ha, hf]
      rfl
    rw [hstep]
    cases doFree
    · exact hgo m rfl
    · have hv : ValidPage m.kend pte.pa := by
        apply hvalid rfl
        rw [leafPages_succ hpte]
        exact List.mem_cons_self
      rw [if_pos rfl, Kmem.kfree_ok m hv]
      exact hgo _ rfl

theorem of_uvmunmap {n : ℕ} {doFree : Bool} (h : uvmunmap m pt va n doFree = .ok (m', pt')) :
    Unmapped m pt (va / pgSize) n doFree m' pt' := by
  unfold uvmunmap at h
  split_ifs at h with hva
  exact of_unmapLoop (not_not.mp hva) h

theorem uvmunmap_returns {n : ℕ} {doFree : Bool} (hva : va % pgSize = 0)
    (hlt : va / pgSize + n ≤ vpnMax)
    (hmapped : ∀ w, va / pgSize ≤ w → w < va / pgSize + n → leafAt pt w ≠ none)
    (hvalid : doFree = true → ∀ p ∈ leafPages pt (va / pgSize) n, ValidPage m.kend p) :
    ∃ m' pt', uvmunmap m pt va n doFree = .ok (m', pt') ∧
      Unmapped m pt (va / pgSize) n doFree m' pt' := by
  obtain ⟨⟨m', pt'⟩, hr⟩ := unmapLoop_returns hva hlt hmapped hvalid
  have hu : uvmunmap m pt va n doFree = .ok (m', pt') := by
    unfold uvmunmap
    rw [if_neg (not_not.mpr hva), hr]
  exact ⟨m', pt', hu, of_uvmunmap hu⟩

end Xv6Zig
