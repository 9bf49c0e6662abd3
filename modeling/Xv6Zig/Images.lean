/-
Xv6Zig/Images.lean

Address spaces that are built and torn down.

`fork` and `exec` build an address space before a process has it.  `Image`
says what it is at every moment: it maps the trampoline, the trapframe and the
pages of its size and nothing else, and it is made of pages that were free.
Everything the kernel does to it keeps that, so it can be torn down at any
moment, and what was taken for it is free again.

`proc_freepagetable` returns exactly from such address spaces: anything else
that is mapped stops the kernel.
-/
import Xv6Zig.KernelInv

namespace Xv6Zig

open Lib Function

variable {m m' : Kmem} {pt pt' : PageTable} {tr tf kend sz sz' a : ℕ} {F : Multiset ℕ}

/-! ### Address spaces that grow -/

theorem AddressSpace.allocated {P : ℕ → Perm → Prop} (h : AddressSpace tr tf pt sz)
    (ha : Allocated P m pt (npages sz) (npages sz' - npages sz) m' pt') :
    AddressSpace tr tf pt' sz' := by
  have hgrown := ha.grown
  refine ⟨hgrown _ _ h.trampoline, hgrown _ _ h.trapframe, ?_, ?_⟩
  · intro v hv
    by_cases hold : v < npages sz
    · obtain ⟨pte, hpte⟩ := Option.ne_none_iff_exists'.mp (h.user v hold)
      simp [hgrown v pte hpte]
    · obtain ⟨pte, hpte, -⟩ := ha.mapped v (by omega) (by omega)
      simp [hpte]
  · -- growing does not reach the trapframe, which was mapped before
    have hle := h.le
    by_contra hgt
    have hfresh := ha.fresh trapframeVpn hle (by omega)
    rw [h.trapframe] at hfresh
    cases hfresh

theorem leafPages_allocated {P : ℕ → Perm → Prop} (hle : sz ≤ sz')
    (ha : Allocated P m pt (npages sz) (npages sz' - npages sz) m' pt') :
    leafPages pt' 0 (npages sz')
      = leafPages pt 0 (npages sz) ++ leafPages pt' (npages sz) (npages sz' - npages sz) := by
  have hpages := npages_mono hle
  have hlow : leafPages pt' 0 (npages sz) = leafPages pt 0 (npages sz) :=
    leafPages_congr fun w _ hw => ha.rest w (by omega)
  rw [leafPages_split pt' hpages, hlow]

/-! ### Images -/

/-- Nothing is mapped but what every process has. -/
def Exact (pt : PageTable) (sz : ℕ) : Prop :=
  ∀ v, leafAt pt v ≠ none → v = trampolineVpn ∨ v = trapframeVpn ∨ v < npages sz

/-- An address space of size `sz` that was made of the pages `F`; what is left
of them is free. -/
structure Image (tr tf kend : ℕ) (F : Multiset ℕ) (m : Kmem) (pt : PageTable) (sz : ℕ) : Prop where
  space : AddressSpace tr tf pt sz
  exact : Exact pt sz
  kend : m.kend = kend
  pages : (m.free : Multiset ℕ) + pt.pages + leafPages pt 0 (npages sz) = F

namespace Image

theorem valid (h : Image tr tf kend F m pt sz) (hF : ∀ pa ∈ F, ValidPage kend pa) :
    (∀ pa ∈ m.free, ValidPage m.kend pa) ∧ (∀ pa ∈ pt.pages, ValidPage m.kend pa) ∧
      ∀ pa ∈ leafPages pt 0 (npages sz), ValidPage m.kend pa := by
  rw [h.kend]
  simp only [← h.pages, Multiset.mem_add, Multiset.mem_coe] at hF
  exact ⟨fun pa hpa => hF pa (.inl (.inl hpa)), fun pa hpa => hF pa (.inl (.inr hpa)),
    fun pa hpa => hF pa (.inr hpa)⟩

theorem npages_le (h : Image tr tf kend F m pt sz) : npages sz ≤ vpnMax :=
  le_trans h.space.le (by decide)

theorem moved (h : Image tr tf kend F m pt sz) (hleaf : leafAt pt' = leafAt pt)
    (hmoved : Moved m pt m' pt') : Image tr tf kend F m' pt' sz := by
  obtain ⟨hspace, hexact, hkend, hpages⟩ := h
  refine ⟨hspace.of_same fun v _ => congrFun hleaf v, ?_, hmoved.kend.trans hkend, ?_⟩
  · unfold Exact
    rw [hleaf]
    exact hexact
  · rw [hmoved.pages, leafPages_congr fun w _ _ => congrFun hleaf w, hpages]

theorem allocated {P : ℕ → Perm → Prop} (h : Image tr tf kend F m pt sz) (hle : sz ≤ sz')
    (ha : Allocated P m pt (npages sz) (npages sz' - npages sz) m' pt') :
    Image tr tf kend F m' pt' sz' := by
  have hmono := npages_mono hle
  refine ⟨h.space.allocated ha, ?_, ha.kend.trans h.kend, ?_⟩
  · intro v hv
    by_cases hin : npages sz ≤ v ∧ v < npages sz + (npages sz' - npages sz)
    · exact .inr (.inr (by omega))
    · rw [ha.rest v hin] at hv
      rcases h.exact v hv with hv | hv | hv
      · exact .inl hv
      · exact .inr (.inl hv)
      · exact .inr (.inr (by omega))
  · rw [leafPages_allocated hle ha, ← h.pages, ← ha.pages, ← Multiset.coe_add]
    ac_rfl

theorem of_npages (h : Image tr tf kend F m pt sz) (hsz : npages sz' = npages sz) :
    Image tr tf kend F m pt sz' := by
  obtain ⟨⟨h₁, h₂, h₃, h₄⟩, hexact, hkend, hpages⟩ := h
  rw [← hsz] at h₃ h₄ hpages
  unfold Exact at hexact
  rw [← hsz] at hexact
  exact ⟨⟨h₁, h₂, h₃, h₄⟩, hexact, hkend, hpages⟩

/-- Growing gives an image of the new size, or the old one back. -/
theorem of_uvmalloc {newsz r : ℕ} {w x : Bool} (h : Image tr tf kend F m pt sz)
    (halloc : uvmalloc m pt sz newsz w x = .ok (m', pt', r)) :
    Image tr tf kend F m' pt' (if r = 0 then sz else r) := by
  rcases Xv6Zig.of_uvmalloc halloc with ⟨rfl, hleaf, hmoved⟩ | ⟨rfl, ha⟩
  · rw [if_pos rfl]
    exact h.moved hleaf hmoved
  · have himage := h.allocated (le_max_left sz newsz) ha
    split_ifs with hzero
    · have hsz : sz = 0 := Nat.le_zero.mp (hzero ▸ le_max_left sz newsz)
      rw [hsz, ← hzero]
      exact himage
    · exact himage

theorem of_uvmclear {va : ℕ} (h : Image tr tf kend F m pt sz) (hva : va < sz)
    (hclear : uvmclear pt va = .ok pt') : Image tr tf kend F m pt' sz := by
  obtain ⟨hpa, hrest, hpages⟩ := Xv6Zig.of_uvmclear hclear
  have hnone : ∀ v, leafAt pt' v ≠ none ↔ leafAt pt v ≠ none := by
    intro v
    have hv := congrArg Option.isSome (hpa v)
    rw [Option.isSome_map, Option.isSome_map] at hv
    rw [← Option.isSome_iff_ne_none, ← Option.isSome_iff_ne_none, hv]
  have hpage : va / pgSize < npages sz := by
    simp only [npages, pgSize]
    omega
  have hle := h.space.le
  have htop : trapframeVpn < trampolineVpn := by decide
  refine ⟨⟨?_, ?_, ?_, hle⟩, ?_, h.kend, ?_⟩
  · rw [hrest _ (by omega), h.space.trampoline]
  · rw [hrest _ (by omega), h.space.trapframe]
  · exact fun v hv => (hnone v).mpr (h.space.user v hv)
  · exact fun v hv => h.exact v ((hnone v).mp hv)
  · rw [hpages, leafPages_of_pa hpa, h.pages]

end Image

/-! ### `proc_pagetable` -/

theorem leafAt_root (pa v : ℕ) : leafAt (.node pa fun _ => .absent) v = none := by
  unfold leafAt
  split_ifs
  · rfl
  · rfl

theorem pages_root (pa : ℕ) : (Radix.node pa fun _ => .absent : PageTable).pages = [pa] := by
  rw [Radix.pages_node]
  simp [Radix.pages]

/-- A page that is not mapped can be, unless memory runs out. -/
theorem mapPage_fresh (m : Kmem) (pa : ℕ) (perm : Perm) (ha : a < maxVA)
    (hfresh : leafAt pt (a / pgSize) = none) :
    ∃ m' pt' ok, mapPage m pt a pa perm = .ok (m', pt', ok) ∧
      if ok then Mapped m pt a ⟨pa, perm⟩ m' pt' else MapFailed m pt a m' pt' := by
  rcases hmap : mapPage m pt a pa perm with e | ⟨m', pt', ok⟩
  · rw [mapPage_eq, if_neg (not_le.mpr ha), hfresh] at hmap
    split_ifs at hmap with h₁ h₂
    exact absurd h₂ Bool.false_ne_true
  · refine ⟨m', pt', ok, rfl, ?_⟩
    cases ok
    · exact of_mapPage_false hmap
    · exact of_mapPage_true hmap

/-- A page that is mapped can be unmapped. -/
theorem uvmunmap_page (m : Kmem) (hva : a % pgSize = 0) (hlt : a / pgSize + 1 ≤ vpnMax)
    (h : leafAt pt (a / pgSize) ≠ none) :
    ∃ m' pt', uvmunmap m pt a 1 false = .ok (m', pt') ∧ m'.kend = m.kend ∧ m'.free = m.free ∧
      pt'.pages = pt.pages ∧ ∀ v, leafAt pt' v = if v = a / pgSize then none else leafAt pt v := by
  obtain ⟨m', pt', hr, hu⟩ := uvmunmap_returns (m := m) hva hlt
    (fun w h₁ h₂ => Nat.le_antisymm h₁ (Nat.le_of_lt_succ h₂) ▸ h)
    fun hfree : false = true => absurd hfree Bool.false_ne_true
  refine ⟨m', pt', hr, hu.kend, hu.free, hu.pages, fun v => ?_⟩
  rw [hu.leaf v]
  exact if_congr (by omega) rfl rfl

/-- An address space in which nothing is mapped can be freed. -/
theorem uvmfree_empty (hleaf : ∀ v, leafAt pt v = none)
    (hvalid : ∀ pa ∈ pt.pages, ValidPage m.kend pa) :
    ∃ m', uvmfree m pt 0 = .ok m' ∧ m'.kend = m.kend ∧
      (m'.free : Multiset ℕ) = m.free + pt.pages := by
  have hsz : npages 0 = 0 := npages_zero
  obtain ⟨m', hr⟩ : ∃ m', uvmfree m pt 0 = .ok m' := by
    apply uvmfree_returns _ _ hvalid
    · rw [hsz]
      exact fun pa hpa => absurd hpa List.not_mem_nil
    · intro v
      rw [hsz, hleaf v]
      simp
    · rw [hsz]
      exact Nat.zero_le _
  obtain ⟨-, hkend, hfree⟩ := of_uvmfree hr
  rw [hsz, leafPages_zero, Multiset.coe_nil, add_zero] at hfree
  exact ⟨m', hr, hkend, hfree⟩

/-- **`proc_pagetable` returns**: an image of size 0, or the memory it took. -/
theorem procPagetable_spec (hfree : ∀ pa ∈ m.free, ValidPage m.kend pa) (tr tf : ℕ) :
    ∃ m' pt, Kernel.procPagetable m tr tf = .ok (m', pt) ∧
      ((pt = .absent ∧ m'.kend = m.kend ∧ (m'.free : Multiset ℕ) = m.free) ∨
        Image tr tf m.kend m.free m' pt 0) := by
  unfold Kernel.procPagetable uvmcreate
  rcases halloc : m.allocPage with - | ⟨root, m₀⟩
  · exact ⟨m, .absent, rfl, .inl ⟨rfl, rfl, rfl⟩⟩
  obtain ⟨hm₀, hk₀⟩ := Kmem.of_allocPage halloc
  simp only [Option.map_some]
  generalize hroot : (Radix.node root fun _ => .absent : PageTable) = pt₀
  have hleaf₀ : ∀ v, leafAt pt₀ v = none := hroot ▸ leafAt_root root
  have hpages₀ : (m₀.free : Multiset ℕ) + pt₀.pages = m.free := by
    rw [← hroot, pages_root, hm₀, Multiset.coe_singleton, ← Multiset.cons_coe,
      ← Multiset.singleton_add, add_comm]
  -- whatever happens to the table from here on, it is made of pages that were free
  have hfreed : ∀ {m₁ : Kmem} {pt₁ : PageTable}, Moved m₀ pt₀ m₁ pt₁ →
      (∀ v, leafAt pt₁ v = none) → ∃ m₂, uvmfree m₁ pt₁ 0 = .ok m₂ ∧ m₂.kend = m.kend ∧
        (m₂.free : Multiset ℕ) = m.free := by
    intro m₁ pt₁ hmoved hnone
    have hpages := hmoved.pages.trans hpages₀
    have hkend := hmoved.kend.trans hk₀
    obtain ⟨m₂, hr, hk₂, hfree₂⟩ := uvmfree_empty (m := m₁) hnone fun pa hpa => by
      rw [hkend]
      apply hfree
      rw [← Multiset.mem_coe, ← hpages]
      exact Multiset.mem_add.mpr (.inr hpa)
    exact ⟨m₂, hr, hk₂.trans hkend, hfree₂.trans hpages⟩
  have htr : trampolineVA % pgSize = 0 := by decide
  have htf : trapframeVA % pgSize = 0 := by decide
  obtain ⟨m₁, pt₁, ok, hmap₁, hspec₁⟩ :=
    mapPage_fresh m₀ tr Kernel.trampolinePerm (show trampolineVA < maxVA by decide)
      (hleaf₀ (trampolineVA / pgSize))
  simp only [mappages_page m₀ pt₀ htr, hmap₁, ok_bind]
  cases ok with
  | false =>
    -- no memory for the trampoline
    obtain ⟨m₂, hr, hback⟩ := hfreed hspec₁.moved fun v => by rw [hspec₁.leaf, hleaf₀]
    simp only [Bool.false_eq_true, if_false, hr, ok_bind]
    exact ⟨m₂, .absent, rfl, .inl ⟨rfl, hback⟩⟩
  | true =>
    have hne : trapframeVA / pgSize ≠ trampolineVA / pgSize := by decide
    have hfresh : leafAt pt₁ (trapframeVA / pgSize) = none := by
      rw [hspec₁.leaf, update_of_ne hne, hleaf₀]
    obtain ⟨m₂, pt₂, ok, hmap₂, hspec₂⟩ :=
      mapPage_fresh m₁ tf Kernel.trapframePerm (show trapframeVA < maxVA by decide) hfresh
    simp only [if_true, mappages_page m₁ pt₁ htf, hmap₂, ok_bind]
    cases ok with
    | false =>
      -- no memory for the trapframe: the trampoline is unmapped again
      have hleaf₂ : leafAt pt₂ = update (leafAt pt₀) (trampolineVA / pgSize)
          (some ⟨tr, Kernel.trampolinePerm⟩) := by
        rw [hspec₂.leaf, hspec₁.leaf]
      obtain ⟨m₃, pt₃, hun, hk₃, hfree₃, hpages₃, hleaf₃⟩ :=
        uvmunmap_page m₂ htr (by decide) (show leafAt pt₂ _ ≠ none by
          rw [hleaf₂, update_self]
          exact Option.some_ne_none _)
      have hmoved₃ : Moved m₂ pt₂ m₃ pt₃ := ⟨hk₃, by rw [hfree₃, hpages₃]⟩
      obtain ⟨m₄, hr, hback⟩ := hfreed ((hspec₁.moved.trans hspec₂.moved).trans hmoved₃) fun v => by
        rw [hleaf₃, hleaf₂]
        split_ifs with hv
        · rfl
        · rw [update_of_ne hv, hleaf₀]
      simp only [Bool.false_eq_true, if_false, hun, hr, ok_bind]
      exact ⟨m₄, .absent, rfl, .inl ⟨rfl, hback⟩⟩
    | true =>
      have hmoved₂ := hspec₁.moved.trans hspec₂.moved
      simp only [if_true]
      refine ⟨m₂, pt₂, rfl, .inr ⟨⟨?_, ?_, ?_, ?_⟩, ?_, hmoved₂.kend.trans hk₀, ?_⟩⟩
      · rw [hspec₂.leaf, update_of_ne (show trampolineVpn ≠ _ from hne.symm), hspec₁.leaf]
        exact update_self _ _ _
      · rw [hspec₂.leaf]
        exact update_self _ _ _
      · rw [npages_zero]
        exact fun v hv => absurd hv (Nat.not_lt_zero v)
      · rw [npages_zero]
        exact Nat.zero_le _
      · intro v hv
        by_contra hno
        rw [not_or, not_or] at hno
        apply hv
        rw [hspec₂.leaf, update_of_ne (show v ≠ trapframeVA / pgSize from hno.2.1), hspec₁.leaf,
          update_of_ne (show v ≠ trampolineVA / pgSize from hno.1), hleaf₀]
      · rw [npages_zero, leafPages_zero, Multiset.coe_nil, add_zero, hmoved₂.pages, hpages₀]

/-! ### `proc_freepagetable` -/

namespace Kernel

variable {k k' : Kernel}

/-- `proc_freepagetable` returned. -/
def TornDown (k : Kernel) (pt : PageTable) (sz : ℕ) (k' : Kernel) : Prop :=
  ∃ m' : Kmem, m'.kend = k.mem.kend ∧
    (m'.free : Multiset ℕ) = k.mem.free + pt.pages + leafPages pt 0 (npages sz) ∧
    k' = { k with
      mem := m'
      teardowns := k.teardowns ++ [⟨pt, sz, k.mem.free, m'.free⟩] }

/-- **`proc_freepagetable` returns if and only if nothing else is mapped.** -/
theorem procFreepagetable_ends (hspace : AddressSpace tr tf pt sz)
    (hpages : ∀ pa ∈ pt.pages, ValidPage k.mem.kend pa)
    (huser : ∀ pa ∈ leafPages pt 0 (npages sz), ValidPage k.mem.kend pa) :
    Ends (k.procFreepagetable pt sz) (fun e => e.Teardown ∧ ¬ Exact pt sz)
      fun k' => Exact pt sz ∧ TornDown k pt sz k' := by
  have hle := hspace.le
  have hlt : trapframeVpn < trampolineVpn := by decide
  obtain ⟨m₁, pt₁, hr₁, hk₁, hfree₁, hpages₁, hleaf₁⟩ :=
    uvmunmap_page k.mem (a := trampolineVA) (by decide) (by decide)
      (hspace.trampoline.trans_ne (Option.some_ne_none _))
  obtain ⟨m₂, pt₂, hr₂, hk₂, hfree₂, hpages₂, hleaf₂⟩ :=
    uvmunmap_page m₁ (a := trapframeVA) (by decide) (by decide) (show leafAt pt₁ _ ≠ none by
      rw [hleaf₁, if_neg (by decide)]
      exact hspace.trapframe.trans_ne (Option.some_ne_none _))
  -- what is left is the user's memory and anything else
  have hleaf : ∀ v, leafAt pt₂ v = if v = trapframeVpn ∨ v = trampolineVpn then none
      else leafAt pt v := by
    intro v
    rw [hleaf₂, hleaf₁, ← ite_or]
    rfl
  have huser₂ : ∀ v < npages sz, leafAt pt₂ v = leafAt pt v := by
    intro v hv
    rw [hleaf v, if_neg (by omega)]
  have hkend := hk₂.trans hk₁
  have hleaves : leafPages pt₂ 0 (npages sz) = leafPages pt 0 (npages sz) :=
    leafPages_congr fun w _ hw => huser₂ w (by omega)
  have hmapped : ∀ v < npages sz, leafAt pt₂ v ≠ none := by
    intro v hv
    rw [huser₂ v hv]
    exact hspace.user v hv
  have hmax : npages sz ≤ vpnMax := le_trans hle (by decide)
  have hvalid : ∀ pa ∈ leafPages pt₂ 0 (npages sz), ValidPage m₂.kend pa := by
    rw [hleaves, hkend]
    exact huser
  unfold procFreepagetable
  simp only [hr₁, hr₂, ok_bind]
  rcases hr₃ : uvmfree m₂ pt₂ sz with e | m₃
  · refine ⟨uvmfree_error hmapped hmax hvalid hr₃, ?_⟩
    intro hexact
    obtain ⟨m₃, hok⟩ : ∃ m₃, uvmfree m₂ pt₂ sz = .ok m₃ := by
      apply uvmfree_returns _ hmax _ hvalid
      · intro v
        refine ⟨?_, hmapped v⟩
        intro hv
        rw [hleaf v] at hv
        split_ifs at hv with h₁
        · exact absurd rfl hv
        · rcases hexact v hv with h | h | h
          · exact absurd (.inr h) h₁
          · exact absurd (.inl h) h₁
          · exact h
      · rw [hpages₂, hpages₁, hkend]
        exact hpages
    rw [hok] at hr₃
    cases hr₃
  · obtain ⟨hexact, hk₃, hfree₃⟩ := of_uvmfree hr₃
    refine ⟨?_, m₃, hk₃.trans hkend, ?_, rfl⟩
    · intro v hv
      by_cases h₁ : v = trapframeVpn ∨ v = trampolineVpn
      · rcases h₁ with h | h
        · exact .inr (.inl h)
        · exact .inl h
      · refine .inr (.inr ((hexact v).mp ?_))
        rwa [hleaf v, if_neg h₁]
    · rw [hfree₃, hfree₂, hfree₁, hpages₂, hpages₁, hleaves]

/-- What is torn down is recorded as it should be. -/
theorem TornDown.clean (h : TornDown k pt sz k') (hspace : AddressSpace tr tf pt sz)
    (hexact : Exact pt sz) (hnodup : (k'.mem.free : Multiset ℕ).Nodup)
    (hlog : ∀ t ∈ k.teardowns, Clean t) : ∀ t ∈ k'.teardowns, Clean t := by
  obtain ⟨m', -, hfree, rfl⟩ := h
  intro t ht
  rcases List.mem_append.mp ht with ht | ht
  · exact hlog t ht
  · obtain rfl := List.mem_singleton.mp ht
    refine ⟨?_, hfree, hnodup⟩
    intro v
    refine ⟨hexact v, ?_⟩
    rintro (rfl | rfl | hv)
    · rw [hspace.trampoline]
      exact Option.some_ne_none _
    · rw [hspace.trapframe]
      exact Option.some_ne_none _
    · exact hspace.user v hv

/-! ### Loading a program -/

theorem loadLoop_error {n va reads : ℕ} {e : Panic} (h : loadLoop pt n va reads = .error e) :
    ¬ e.Teardown := by
  induction n generalizing va reads with
  | zero => cases h
  | succ n ih =>
    unfold loadLoop at h
    split at h
    · cases h
      decide
    · split at h
      · cases h
      · exact ih h

theorem uvmalloc_ends (hF : ∀ pa ∈ F, ValidPage kend pa) (h : Image tr tf kend F m pt sz)
    (newsz : ℕ) (w x : Bool) :
    Ends (uvmalloc m pt sz newsz w x) (fun e => ¬ e.Teardown) fun s =>
      Image tr tf kend F s.1 s.2.1 (if s.2.2 = 0 then sz else s.2.2) := by
  obtain ⟨hfree, hpages, -⟩ := h.valid hF
  apply Ends.intro
  · exact fun s hs => h.of_uvmalloc hs
  · exact fun e he => uvmalloc_error hfree hpages h.npages_le he

theorem loadProgram_ends (hF : ∀ pa ∈ F, ValidPage kend pa) (phs : List Phdr)
    (h : Image tr tf kend F m pt sz) :
    Ends (loadProgram phs m pt sz) (fun e => ¬ e.Teardown) fun s =>
      Image tr tf kend F s.1 s.2.1 s.2.2.1 := by
  induction phs generalizing m pt sz with
  | nil => exact h
  | cons ph phs ih =>
    cases ph with
    | unreadable => exact h
    | other => exact ih h
    | load vaddr memsz filesz w x reads =>
      unfold loadProgram
      split_ifs
      · exact h
      · exact h
      · exact h
      · refine Ends.bind (uvmalloc_ends hF h _ w x) ?_
        rintro ⟨m₁, pt₁, sz₁⟩ himage
        simp only at himage ⊢
        split_ifs at himage ⊢ with hzero
        · exact himage
        · refine Ends.bind (Q := fun _ => True) ?_ ?_
          · exact Ends.intro (fun _ _ => trivial) fun e he => loadLoop_error he
          · intro ok _
            cases ok
            · exact himage
            · exact ih himage

/-- **`exec` works on an image until it commits or gives up.** -/
theorem buildImage_ends (hF : ∀ pa ∈ F, ValidPage kend pa) (phs : List Phdr) (argv : List ℕ)
    (h : Image tr tf kend F m pt 0) :
    Ends (buildImage phs argv m pt) (fun e => ¬ e.Teardown) fun s =>
      Image tr tf kend F s.1 s.2.1 s.2.2.1 := by
  unfold buildImage
  refine Ends.bind (loadProgram_ends hF phs h) ?_
  rintro ⟨m₁, pt₁, sz₁, ok⟩ himage
  cases ok with
  | false => exact himage
  | true =>
    simp only [if_true]
    have hround := himage.of_npages (npages_pgRoundUp sz₁)
    refine Ends.bind (uvmalloc_ends hF hround _ true false) ?_
    rintro ⟨m₂, pt₂, sz₂⟩ himage₂
    simp only at himage₂ ⊢
    split_ifs at himage₂ ⊢ with hzero
    · exact himage₂
    · rcases hclear : uvmclear pt₂ (sz₂ - 2 * pgSize) with e | pt₃
      · exact uvmclear_error hclear
      · apply himage₂.of_uvmclear _ hclear
        simp only [pgSize]
        omega

end Kernel

end Xv6Zig
