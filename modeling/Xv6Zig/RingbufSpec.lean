/-
Xv6Zig/RingbufSpec.lean

What the functions of the ring-buffer manager do.

`Holds rb f book` names the pages of an active ring buffer.  An open maps
them one below the other: the sixteen buffer pages twice and the book page
last, so that from the book page upwards they stand in the order `slot`.
`MappedDown` describes the mappings made, `mapDown_outcome` tells from the page
table and the length of the free list how an attempt ends.  `Attached` is the
region an owner sees afterwards, and `disown_eq` takes it away again.
-/
import Mathlib.Tactic.FinCases
import Xv6Zig.Ringbuf

namespace Xv6Zig

open Lib Function

/-! ### Words -/

theorem sub64_lt (x y : ℕ) : sub64 x y < 2 ^ 64 :=
  Nat.mod_lt _ (by decide)

theorem sub64_sub64 (x a b : ℕ) : sub64 (sub64 x a) b = sub64 x (a + b) := by
  simp only [sub64]
  omega

theorem sub64_of_le {x y : ℕ} (h : y ≤ x) (hx : x < 2 ^ 64) : sub64 x y = x - y := by
  simp only [sub64]
  omega

theorem sub64_mod {x : ℕ} (hx : x % pgSize = 0) : sub64 x pgSize % pgSize = 0 := by
  simp only [sub64, pgSize] at hx ⊢
  omega

theorem sub64_mul_mod {x : ℕ} (hx : x % pgSize = 0) (n : ℕ) :
    sub64 x (n * pgSize) % pgSize = 0 := by
  simp only [sub64, pgSize] at hx ⊢
  omega

theorem ptrFromInt_of_pos {x : ℕ} (h : 0 < x) : ptrFromInt x = some x :=
  if_neg h.ne'

/-! ### Pages of a ring buffer -/

namespace Ringbuf

/-- The pages of a ring buffer, in the order `deactivate` frees them. -/
def pages (rb : Ringbuf) : List ℕ :=
  (List.ofFn rb.bufPages).reduceOption ++ rb.bookPage.toList

/-- The page that stands `j` pages above the book page. -/
def slot (rb : Ringbuf) (j : ℕ) : Option ℕ :=
  if j = 0 then rb.bookPage else rb.bufPages ⟨(32 - j) % 16, Nat.mod_lt _ (by decide)⟩

/-- The pages of an active ring buffer. -/
structure Holds (rb : Ringbuf) (f : Fin 16 → ℕ) (book : ℕ) : Prop where
  buf : rb.bufPages = fun i => some (f i)
  book : rb.bookPage = some book

variable {rb : Ringbuf} {f : Fin 16 → ℕ} {book : ℕ}

theorem reduceOption_map_some (l : List ℕ) : (l.map some).reduceOption = l := by
  unfold List.reduceOption
  rw [List.filterMap_map]
  exact List.filterMap_some

theorem Holds.pages_eq (h : rb.Holds f book) : rb.pages = List.ofFn f ++ [book] := by
  have hbufs : List.ofFn rb.bufPages = (List.ofFn f).map some := by
    rw [h.buf, List.map_ofFn]
    rfl
  unfold pages
  rw [hbufs, reduceOption_map_some, h.book]
  rfl

theorem pages_empty : empty.pages = [] := by
  decide

/-- The order in which an open maps the pages. -/
def order (f : Fin 16 → ℕ) (book : ℕ) : List ℕ :=
  List.ofFn f ++ List.ofFn f ++ [book]

theorem length_order (f : Fin 16 → ℕ) (book : ℕ) : (order f book).length = 33 := by
  simp [order]

theorem mem_order {pa : ℕ} : pa ∈ order f book ↔ pa ∈ List.ofFn f ++ [book] := by
  unfold order
  rw [List.mem_append, List.mem_append, List.mem_append]
  tauto

theorem Holds.slot_eq (h : rb.Holds f book) {j : ℕ} (hj : j ≤ 32) :
    rb.slot j = (order f book)[32 - j]? := by
  unfold slot
  rw [h.buf, h.book]
  interval_cases j <;> simp [order]

theorem Holds.slot_isSome (h : rb.Holds f book) {j : ℕ} (hj : j ≤ 32) :
    ∃ pa ∈ rb.pages, rb.slot j = some pa := by
  have hlen : 32 - j < (order f book).length := by
    rw [length_order]
    omega
  refine ⟨(order f book)[32 - j], ?_, ?_⟩
  · rw [h.pages_eq, ← mem_order]
    exact List.getElem_mem hlen
  · rw [h.slot_eq hj]
    exact List.getElem?_eq_getElem hlen

end Ringbuf

/-! ### The allocator in bulk -/

namespace Kmem

variable {m : Kmem} {pa : ℕ}

theorem freeRingPage_ok (m : Kmem) (h : ValidPage m.kend pa) :
    m.freeRingPage pa = .ok { m with free := pa :: m.free } := by
  unfold freeRingPage
  rw [freePage_ok m h]

/-- Freeing a list of pages, with `kfree` or through the ring-buffer manager. -/
theorem foldlM_free {free : Kmem → ℕ → Except Panic Kmem}
    (hf : ∀ (m : Kmem) (pa : ℕ), ValidPage m.kend pa →
      free m pa = .ok { m with free := pa :: m.free })
    {l : List ℕ} (h : ∀ pa ∈ l, ValidPage m.kend pa) :
    l.foldlM free m = .ok { m with free := l.reverse ++ m.free } := by
  induction l generalizing m with
  | nil => rfl
  | cons pa l ih =>
    rw [List.foldlM_cons, hf m pa (h pa List.mem_cons_self), ok_bind, ih]
    · simp
    · exact fun q hq => h q (List.mem_cons_of_mem pa hq)

theorem allocPages_eq (n : ℕ) (m : Kmem) :
    m.allocPages n = (m.free.take n, { m with free := m.free.drop n }) := by
  induction n generalizing m with
  | zero => rfl
  | succ n ih =>
    unfold allocPages allocPage
    rcases hf : m.free with - | ⟨pa, free⟩
    · simp only [List.take_nil, List.drop_nil]
      rw [← hf]
    · simp only [ih, List.take_succ_cons, List.drop_succ_cons]

end Kmem

/-! ### `activate` and `deactivate` -/

namespace Ringbuf

variable {rb : Ringbuf} {m : Kmem} {f : Fin 16 → ℕ} {book : ℕ} {name : List UInt8}

/-- A ring buffer without pages. -/
structure NoPages (rb : Ringbuf) : Prop where
  buf : rb.bufPages = fun _ => none
  book : rb.bookPage = none

theorem NoPages.pages_eq (h : rb.NoPages) : rb.pages = [] := by
  unfold pages
  rw [h.buf, h.book]
  decide

/-- With seventeen free pages a ring buffer takes them. -/
theorem activate_ok (hidle : rb.refcount = 0) (hlen : ¬ (name.length > maxNameLen ∨ name.length = 0))
    (hfree : 17 ≤ m.free.length) :
    ∃ f book, m.free = List.ofFn f ++ [book] ++ m.free.drop 17 ∧
      rb.activate m name = .ok ({ m with free := m.free.drop 17 },
        { rb with
          nameBuf := nameBufOf name
          bufPages := fun i => some (f i)
          bookPage := some book }, .ok ()) := by
  let f : Fin 16 → ℕ := fun i => m.free[i.val]
  refine ⟨f, m.free[16], ?_, ?_⟩
  · have htake : List.ofFn f = m.free.take 16 := by
      apply List.ext_getElem
      · simp
        omega
      · intro i h₁ h₂
        rw [List.getElem_ofFn, List.getElem_take]
    rw [htake, List.append_assoc, List.singleton_append, ← List.drop_eq_getElem_cons,
      List.take_append_drop]
  · have hbook : ({ m with free := m.free.drop 16 } : Kmem).allocPage
        = some (m.free[16], { m with free := m.free.drop 17 }) := by
      unfold Kmem.allocPage
      rw [List.drop_eq_getElem_cons (show 16 < m.free.length by omega)]
    have hgot : ¬ ((m.free.take 16).length < 16 ∨ some m.free[16] = none) := by
      simp
      omega
    unfold activate
    rw [if_neg (by omega), if_neg hlen, Kmem.allocPages_eq]
    simp only [hbook]
    rw [if_neg hgot]
    congr 3
    congr 1
    funext i
    have hi : i.val < (m.free.take 16).length := by
      simp
      omega
    rw [List.getElem?_eq_getElem hi, List.getElem_take]
    rfl

/-- With fewer it gives them back. -/
theorem activate_outOfMemory (hidle : rb.refcount = 0) (hpages : rb.NoPages)
    (hlen : ¬ (name.length > maxNameLen ∨ name.length = 0)) (hfree : m.free.length < 17)
    (hvalid : ∀ pa ∈ m.free, ValidPage m.kend pa) :
    ∃ free, free.Perm m.free ∧
      rb.activate m name = .ok ({ m with free := free }, { rb with nameBuf := nameBufOf name },
        .error .outOfMemory) := by
  have hgot : ∀ pa ∈ m.free.take 16, ValidPage m.kend pa := fun pa hpa =>
    hvalid pa (List.mem_of_mem_take hpa)
  have hrb : ∀ (got : List ℕ), ({ rb with
      nameBuf := nameBufOf name
      bufPages := fun i => if i.val < got.length then none else got[i.val]? <|> rb.bufPages i
      bookPage := none } : Ringbuf) = { rb with nameBuf := nameBufOf name } := by
    intro got
    have hbuf : (fun i : Fin 16 => if i.val < got.length then none
        else got[i.val]? <|> rb.bufPages i) = rb.bufPages := by
      funext i
      rw [hpages.buf]
      split_ifs with hi
      · rfl
      · rw [List.getElem?_eq_none (by omega)]
        rfl
    rw [hbuf, ← hpages.book]
  unfold activate
  rw [if_neg (by omega), if_neg hlen, Kmem.allocPages_eq]
  rcases hbook : m.free.drop 16 with - | ⟨book, rest⟩
  · refine ⟨(m.free.take 16).reverse, ?_, ?_⟩
    · have hall : m.free.take 16 = m.free := by
        rw [← List.append_nil (m.free.take 16), ← hbook, List.take_append_drop]
      rw [hall]
      exact List.reverse_perm _
    · have hnone : ({ m with free := [] } : Kmem).allocPage = none := rfl
      simp only [hnone]
      rw [if_pos (.inr trivial)]
      simp only [ok_bind]
      rw [Kmem.foldlM_free (m := { m with free := [] }) (fun m _ => Kmem.freeRingPage_ok m) hgot,
        ok_bind, hrb, List.append_nil]
  · -- sixteen pages and a book page are seventeen
    have hlen := congrArg List.length hbook
    simp only [List.length_drop, List.length_cons] at hlen
    omega

/-- What `deactivate` does to a ring buffer that has its pages. -/
theorem deactivate_eq (h : rb.Holds f book) (hvalid : ∀ pa ∈ rb.pages, ValidPage m.kend pa) :
    rb.deactivate m =
      if (rb.owners 0).proc ≠ none ∨ (rb.owners 1).proc ≠ none then .error .ringbufHasOwners
      else .ok ({ m with free := rb.pages.reverse ++ m.free }, empty) := by
  have hbufs : (List.ofFn rb.bufPages).reduceOption = List.ofFn f := by
    have hmap : List.ofFn rb.bufPages = (List.ofFn f).map some := by
      rw [h.buf, List.map_ofFn]
      rfl
    rw [hmap, reduceOption_map_some]
  rw [h.pages_eq] at hvalid ⊢
  have hf : ∀ pa ∈ List.ofFn f, ValidPage m.kend pa := fun pa hpa =>
    hvalid pa (List.mem_append_left _ hpa)
  have hb : ValidPage m.kend book := hvalid book (List.mem_append_right _ List.mem_cons_self)
  unfold deactivate
  rw [hbufs, Kmem.foldlM_free (fun m _ => Kmem.freeRingPage_ok m) hf, ok_bind, h.book]
  simp only
  rw [Kmem.freeRingPage_ok ⟨m.kend, (List.ofFn f).reverse ++ m.free⟩ hb, ok_bind]
  simp

/-- The same once owner `i` has been taken out: all depends on the other. -/
theorem deactivate_orphan {i : Fin 2} {o : Owner} (ho : o.proc = none) (n : ℕ)
    (h : rb.Holds f book) (hvalid : ∀ pa ∈ rb.pages, ValidPage m.kend pa) :
    ({ rb with refcount := n, owners := update rb.owners i o } : Ringbuf).deactivate m
      = if (rb.owners (1 - i)).proc ≠ none then .error .ringbufHasOwners
        else .ok ({ m with free := rb.pages.reverse ++ m.free }, empty) := by
  have hiff : ((update rb.owners i o 0).proc ≠ none ∨
      (update rb.owners i o 1).proc ≠ none) ↔ (rb.owners (1 - i)).proc ≠ none := by
    fin_cases i <;> simp [ho]
  have hholds : ({ rb with refcount := n, owners := update rb.owners i o } :
      Ringbuf).Holds f book := ⟨h.buf, h.book⟩
  rw [deactivate_eq hholds hvalid]
  simp only [hiff]
  rfl

/-- The ring buffer after owner `i`, whose book page was at page `b`, was
detached. -/
def withoutOwner (rb : Ringbuf) (i : Fin 2) (b : ℕ) : Ringbuf :=
  if rb.refcount = 1 then empty
  else { rb with
    owners := update rb.owners i ⟨none, none, some (b * pgSize)⟩
    refcount := rb.refcount - 1 }

end Ringbuf

/-! ### Mapping a ring buffer -/

namespace Kernel

variable {m m' m₁ : Kmem} {pt pt' pt₁ : PageTable} {top top' v : ℕ} {null : Panic} {l : List ℕ}

theorem mapDown_some (null : Panic) (pa : ℕ) (l : List (Option ℕ)) (m : Kmem) (pt : PageTable)
    (top : ℕ) :
    mapDown null (some pa :: l) m pt top = (mappages m pt top pgSize pa ringPerm >>= fun r =>
      if r.2.2 then mapDown null l r.1 r.2.1 (sub64 top pgSize)
      else .ok (r.1, r.2.1, top, false)) := rfl

theorem mapDown_append (null : Panic) (l₁ l₂ : List (Option ℕ)) (m : Kmem) (pt : PageTable)
    (top : ℕ) :
    mapDown null (l₁ ++ l₂) m pt top = (mapDown null l₁ m pt top >>= fun r =>
      if r.2.2.2 then mapDown null l₂ r.1 r.2.1 r.2.2.1 else .ok r) := by
  induction l₁ generalizing m pt top with
  | nil => rfl
  | cons pa l₁ ih =>
    rcases pa with - | pa
    · rfl
    · rw [List.cons_append, mapDown_some, mapDown_some]
      rcases mappages m pt top pgSize pa ringPerm with e | ⟨m₁, pt₁, ok⟩
      · simp only [error_bind]
      · cases ok
        · simp only [ok_bind, Bool.false_eq_true, if_false]
        · simp only [ok_bind, if_true, ih]

/-- Without null pointers it does not matter which panic they would cause. -/
theorem mapDown_null (null null' : Panic) (l : List ℕ) (m : Kmem) (pt : PageTable) (top : ℕ) :
    mapDown null (l.map some) m pt top = mapDown null' (l.map some) m pt top := by
  induction l generalizing m pt top with
  | nil => rfl
  | cons pa l ih =>
    rw [List.map_cons, mapDown_some, mapDown_some]
    simp only [ih]

/-- **An open maps the pages of the ring buffer in their order.** -/
theorem mapRing_eq {rb : Ringbuf} {f : Fin 16 → ℕ} {book : ℕ} (h : rb.Holds f book) (m : Kmem)
    (pt : PageTable) (top : ℕ) :
    mapRing rb m pt top = mapDown .bufPageNull ((Ringbuf.order f book).map some) m pt top := by
  have hbufs : List.ofFn rb.bufPages = (List.ofFn f).map some := by
    rw [h.buf, List.map_ofFn]
    rfl
  unfold mapRing Ringbuf.order
  rw [List.map_append, List.map_append, mapDown_append, hbufs, h.book]
  have hbook : ∀ (m : Kmem) (pt : PageTable) (top : ℕ),
      mapDown .bookPageNull [some book] m pt top = mapDown .bufPageNull [some book] m pt top :=
    mapDown_null _ _ [book]
  simp only [hbook]
  rcases mapDown .bufPageNull ((List.ofFn f).map some ++ (List.ofFn f).map some) m pt top with
    e | ⟨m₁, pt₁, top₁, ok⟩
  · rfl
  · cases ok <;> rfl

theorem mapDown_cons (hva : top % pgSize = 0) (pa : ℕ) :
    mapDown null ((pa :: l).map some) m pt top = (mapPage m pt top pa ringPerm >>= fun r =>
      if r.2.2 then mapDown null (l.map some) r.1 r.2.1 (sub64 top pgSize)
      else .ok (r.1, r.2.1, top, false)) := by
  rw [← mappages_page m pt hva, List.map_cons, mapDown_some]

theorem mapDown_error {e : Panic} (hva : top % pgSize = 0)
    (h : mapDown null (l.map some) m pt top = .error e) : ¬ e.Teardown := by
  induction l generalizing m pt top with
  | nil => cases h
  | cons pa l ih =>
    rw [mapDown_cons hva] at h
    rcases hmap : mapPage m pt top pa ringPerm with x | ⟨m₁, pt₁, ok⟩
    · rw [hmap] at h
      cases h
      exact (mapPage_error hmap).1
    · rw [hmap, ok_bind] at h
      cases ok
      · cases h
      · exact ih (sub64_mod hva) h

/-- The pages `l` were mapped at `v`, `v - 1` and so on. -/
structure MappedDown (l : List ℕ) (m : Kmem) (pt : PageTable) (v : ℕ) (m' : Kmem)
    (pt' : PageTable) : Prop where
  lt : l ≠ [] → v < vpnMax
  room : l.length ≤ v + 1
  fresh : ∀ t < l.length, leafAt pt (v - t) = none
  leaf : ∀ t < l.length, leafAt pt' (v - t) = l[t]?.map fun pa => ⟨pa, ringPerm⟩
  rest : ∀ w, v < w ∨ w + l.length ≤ v → leafAt pt' w = leafAt pt w
  moved : Moved m pt m' pt'

theorem MappedDown.nil (m : Kmem) (pt : PageTable) (v : ℕ) : MappedDown [] m pt v m pt := by
  refine ⟨fun h => absurd rfl h, Nat.zero_le _, ?_, ?_, fun _ _ => rfl, Moved.refl m pt⟩
  · exact fun t ht => absurd ht (Nat.not_lt_zero t)
  · exact fun t ht => absurd ht (Nat.not_lt_zero t)

theorem MappedDown.cons {pa : ℕ} (hmap : Mapped m pt (v * pgSize) ⟨pa, ringPerm⟩ m₁ pt₁)
    (hroom : l ≠ [] → 0 < v) (h : MappedDown l m₁ pt₁ (v - 1) m' pt') :
    MappedDown (pa :: l) m pt v m' pt' := by
  have hv : v * pgSize / pgSize = v := Nat.mul_div_cancel v pgSize_pos
  have hlt := lt_maxVA_iff.mp hmap.lt
  have hfresh := hmap.fresh
  have hleaf := hmap.leaf
  rw [hv] at hlt hfresh hleaf
  have hsame : ∀ w, w ≠ v → leafAt pt₁ w = leafAt pt w := by
    intro w hw
    rw [hleaf, update_of_ne hw]
  have hpos : 0 < l.length → 0 < v := fun hl => hroom (List.ne_nil_of_length_pos hl)
  have hlen := h.room
  refine ⟨fun _ => hlt, ?_, ?_, ?_, ?_, hmap.moved.trans h.moved⟩
  · rw [List.length_cons]
    rcases Nat.eq_zero_or_pos l.length with hl | hl
    · omega
    · have := hpos hl
      omega
  · intro t ht
    rw [List.length_cons] at ht
    rcases t with - | t
    · exact hfresh
    · have := hpos (by omega)
      rw [← hsame _ (by omega), show v - (t + 1) = v - 1 - t by omega]
      exact h.fresh t (by omega)
  · intro t ht
    rw [List.length_cons] at ht
    rcases t with - | t
    · show leafAt pt' v = _
      rw [h.rest v ?_, hleaf, update_self]
      · rfl
      · rcases Nat.eq_zero_or_pos l.length with hl | hl
        · omega
        · have := hpos hl
          omega
    · rw [show v - (t + 1) = v - 1 - t by omega, h.leaf t (by omega), List.getElem?_cons_succ]
  · intro w hw
    rw [List.length_cons] at hw
    have hw' : v - 1 < w ∨ w + l.length ≤ v - 1 := by
      rcases hw with hw | hw
      · exact .inl (by omega)
      · exact .inr (by omega)
    rw [h.rest w hw', hsame w (by omega)]

/-- Where the mapping stopped, if it did. -/
def MapEnded (l : List ℕ) (m : Kmem) (pt : PageTable) (top : ℕ) (m' : Kmem) (pt' : PageTable)
    (top' : ℕ) (ok : Bool) : Prop :=
  if ok then MappedDown l m pt (top / pgSize) m' pt' ∧ top' = sub64 top (l.length * pgSize)
  else ∃ n m₁ pt₁, n < l.length ∧ MappedDown (l.take n) m pt (top / pgSize) m₁ pt₁ ∧
    top' = sub64 top (n * pgSize) ∧ MapFailed m₁ pt₁ top' m' pt'

theorem of_mapDown {ok : Bool} (hva : top % pgSize = 0) (hlt : top < 2 ^ 64)
    (h : mapDown null (l.map some) m pt top = .ok (m', pt', top', ok)) :
    MapEnded l m pt top m' pt' top' ok := by
  induction l generalizing m pt top with
  | nil =>
    simp only [List.map_nil, mapDown, Except.ok.injEq, Prod.mk.injEq] at h
    obtain ⟨rfl, rfl, rfl, rfl⟩ := h
    refine ⟨MappedDown.nil m pt _, ?_⟩
    rw [List.length_nil, Nat.zero_mul, sub64_of_le (Nat.zero_le _) hlt, Nat.sub_zero]
  | cons pa l ih =>
    rw [mapDown_cons hva] at h
    obtain ⟨⟨m₁, pt₁, okm⟩, hmap, h⟩ := bind_eq_ok.mp h
    have htop : top / pgSize * pgSize = top := Nat.div_mul_cancel (Nat.dvd_of_mod_eq_zero hva)
    cases okm
    · simp only [Bool.false_eq_true, if_false, Except.ok.injEq, Prod.mk.injEq] at h
      obtain ⟨rfl, rfl, rfl, rfl⟩ := h
      refine ⟨0, m, pt, Nat.succ_pos _, MappedDown.nil m pt _, ?_, of_mapPage_false hmap⟩
      rw [Nat.zero_mul, sub64_of_le (Nat.zero_le _) hlt, Nat.sub_zero]
    · have hmapped := of_mapPage_true hmap
      rw [← htop] at hmapped
      have hend := ih (sub64_mod hva) (sub64_lt _ _) h
      have hmax : top < maxVA := by
        rw [← htop]
        exact hmapped.lt
      -- below page 0 the address wraps around to the top, where nothing can be mapped
      have hnext : sub64 top pgSize < maxVA →
          0 < top / pgSize ∧ sub64 top pgSize / pgSize = top / pgSize - 1 := by
        simp only [sub64, pgSize, maxVA] at hva hmax ⊢
        omega
      have hdown : ∀ {l' : List ℕ} {m₂ : Kmem} {pt₂ : PageTable},
          MappedDown l' m₁ pt₁ (sub64 top pgSize / pgSize) m₂ pt₂ →
          MappedDown (pa :: l') m pt (top / pgSize) m₂ pt₂ := by
        intro l' m₂ pt₂ hl'
        by_cases hnil : l' = []
        · refine MappedDown.cons hmapped (fun hne => absurd hnil hne) ?_
          subst hnil
          exact ⟨fun hne => absurd rfl hne, Nat.zero_le _,
            fun t ht => absurd ht (Nat.not_lt_zero t), fun t ht => absurd ht (Nat.not_lt_zero t),
            fun w _ => hl'.rest w (by simp only [List.length_nil]; omega), hl'.moved⟩
        · obtain ⟨hpos, hdiv⟩ := hnext (lt_maxVA_iff.mpr (hl'.lt hnil))
          rw [hdiv] at hl'
          exact MappedDown.cons hmapped (fun _ => hpos) hl'
      cases ok
      · obtain ⟨n, m₂, pt₂, hn, hl', htop', hfail⟩ := hend
        refine ⟨n + 1, m₂, pt₂, ?_, ?_, ?_, hfail⟩
        · rw [List.length_cons]
          omega
        · rw [List.take_succ_cons]
          exact hdown hl'
        · rw [htop', sub64_sub64, Nat.succ_mul, Nat.add_comm]
      · obtain ⟨hl', htop'⟩ := hend
        refine ⟨hdown hl', ?_⟩
        rw [htop', sub64_sub64, List.length_cons, Nat.succ_mul, Nat.add_comm]

/-! ### How a mapping ends -/

/-- The addresses of `n` pages downwards. -/
def downFrom : ℕ → ℕ → List ℕ
  | 0, _ => []
  | n + 1, top => top :: downFrom n (sub64 top pgSize)

/-- A legal address at which nothing is mapped. -/
def Mappable (pt : PageTable) (va : ℕ) : Prop :=
  va < maxVA ∧ leafAt pt (va / pgSize) = none

instance (pt : PageTable) (va : ℕ) : Decidable (Mappable pt va) :=
  inferInstanceAs (Decidable (_ ∧ _))

/-- The page-table pages that mapping the addresses takes, up to the first one
that cannot be mapped. -/
def needed (pt : PageTable) (vas : List ℕ) : ℕ :=
  ((vas.takeWhile fun va => Mappable pt va).toFinset.biUnion (missingAt pt)).card

/-- How mapping the addresses ends with that many free pages: all mapped, out
of memory, or not at all. -/
def mapOutcome (pt : PageTable) (free : ℕ) (vas : List ℕ) : Option Bool :=
  if free < needed pt vas then some false
  else if ∀ va ∈ vas, Mappable pt va then some true
  else none

theorem missingAt_of_leafAt {va : ℕ} (hva : va < maxVA)
    (h : (leafAt pt (va / pgSize)).isSome) : missingAt pt va = ∅ := by
  obtain ⟨pte, hpte⟩ := Option.isSome_iff_exists.mp h
  unfold missingAt
  rw [Radix.missing_eq_empty_iff, find_of_leafAt hva hpte]
  rfl

theorem needed_of_not_mappable {vas : List ℕ} (h : ¬ Mappable pt top) :
    needed pt (top :: vas) = 0 := by
  unfold needed
  rw [List.takeWhile_cons_of_neg (by simpa using h)]
  rfl

theorem needed_cons {vas : List ℕ} (h : Mappable pt top) :
    needed pt (top :: vas) = (missingAt pt top ∪
      (vas.takeWhile fun va => Mappable pt va).toFinset.biUnion (missingAt pt)).card := by
  unfold needed
  rw [List.takeWhile_cons_of_pos (by simpa using h), List.toFinset_cons, Finset.biUnion_insert]

theorem mem_downFrom {n va : ℕ} (hlt : top < 2 ^ 64) (h : va ∈ downFrom n top) :
    ∃ t < n, va = sub64 top (t * pgSize) := by
  induction n generalizing top with
  | zero => exact absurd h List.not_mem_nil
  | succ n ih =>
    rcases List.mem_cons.mp h with rfl | h
    · refine ⟨0, Nat.succ_pos n, ?_⟩
      rw [Nat.zero_mul, sub64_of_le (Nat.zero_le _) hlt, Nat.sub_zero]
    · obtain ⟨t, ht, rfl⟩ := ih (sub64_lt _ _) h
      refine ⟨t + 1, Nat.succ_lt_succ ht, ?_⟩
      rw [sub64_sub64, Nat.succ_mul, Nat.add_comm]

/-- Addresses further down lie on other pages. -/
theorem page_ne_of_mem_downFrom {n va : ℕ} (hn : n < 33) (hva : top % pgSize = 0)
    (hlt : top < 2 ^ 64) (h : va ∈ downFrom n (sub64 top pgSize)) :
    va / pgSize ≠ top / pgSize := by
  obtain ⟨t, ht, heq⟩ := mem_downFrom (sub64_lt _ _) h
  rw [sub64_sub64] at heq
  simp only [heq, sub64, pgSize] at hva ⊢
  omega

/-- What is left to do after the first page was mapped. -/
theorem needed_mapped {n : ℕ} {pte : Pte} (hn : n < 33) (hva : top % pgSize = 0)
    (hlt : top < 2 ^ 64) (h : Mapped m pt top pte m' pt') :
    needed pt (top :: downFrom n (sub64 top pgSize))
        = (missingAt pt top).card + needed pt' (downFrom n (sub64 top pgSize)) ∧
      ((∀ va ∈ top :: downFrom n (sub64 top pgSize), Mappable pt va) ↔
        ∀ va ∈ downFrom n (sub64 top pgSize), Mappable pt' va) := by
  have hsame : ∀ va ∈ downFrom n (sub64 top pgSize), (Mappable pt' va ↔ Mappable pt va) := by
    intro va hmem
    unfold Mappable
    rw [h.leaf, update_of_ne (page_ne_of_mem_downFrom hn hva hlt hmem)]
  have htop : Mappable pt top := ⟨h.lt, h.fresh⟩
  refine ⟨?_, ?_⟩
  · have hwhile : (downFrom n (sub64 top pgSize)).takeWhile (fun va => Mappable pt' va)
        = (downFrom n (sub64 top pgSize)).takeWhile fun va => Mappable pt va := by
      have hcongr : ∀ {vas : List ℕ}, (∀ va ∈ vas, (Mappable pt' va ↔ Mappable pt va)) →
          vas.takeWhile (fun va => Mappable pt' va) = vas.takeWhile fun va => Mappable pt va := by
        intro vas hvas
        induction vas with
        | nil => rfl
        | cons va vas ih =>
          simp only [List.takeWhile_cons, hvas va List.mem_cons_self,
            ih fun x hx => hvas x (List.mem_cons_of_mem va hx)]
      exact hcongr hsame
    have hunion : ∀ s : Finset ℕ, s.biUnion (missingAt pt') = s.biUnion (missingAt pt) \
        missingAt pt top := by
      intro s
      ext x
      simp only [Finset.mem_biUnion, h.missing, Finset.mem_sdiff]
      constructor
      · rintro ⟨va, hva, hx, hne⟩
        exact ⟨⟨va, hva, hx⟩, hne⟩
      · rintro ⟨⟨va, hva, hx⟩, hne⟩
        exact ⟨va, hva, hx, hne⟩
    rw [needed_cons htop, needed, hwhile, hunion, ← Finset.union_sdiff_self_eq_union,
      Finset.card_union_of_disjoint Finset.disjoint_sdiff]
  · rw [List.forall_mem_cons]
    constructor
    · exact fun hall va hmem => (hsame va hmem).mpr (hall.2 va hmem)
    · exact fun hall => ⟨htop, fun va hmem => (hsame va hmem).mp (hall va hmem)⟩

/-- **The page table and the number of free pages decide how a mapping ends.** -/
theorem mapDown_outcome (null : Panic) (m : Kmem) (pt : PageTable) (hn : l.length ≤ 33)
    (hva : top % pgSize = 0) (hlt : top < 2 ^ 64) :
    (mapDown null (l.map some) m pt top).toOption.map (fun r => r.2.2.2)
      = mapOutcome pt m.free.length (downFrom l.length top) := by
  induction l generalizing m pt top with
  | nil => rfl
  | cons pa l ih =>
    have hcons : downFrom (pa :: l).length top = top :: downFrom l.length (sub64 top pgSize) := rfl
    have hlen : l.length < 33 := hn
    rw [mapDown_cons hva, hcons]
    have hnot : ¬ Mappable pt top → mapOutcome pt m.free.length
        (top :: downFrom l.length (sub64 top pgSize)) = none := by
      intro h
      unfold mapOutcome
      rw [needed_of_not_mappable h, if_neg (Nat.not_lt_zero _), if_neg]
      exact fun hall => h (hall top List.mem_cons_self)
    rcases hmap : mapPage m pt top pa ringPerm with e | ⟨m₁, pt₁, ok⟩
    · -- an illegal address or a page that is mapped already
      rw [hnot]
      · rfl
      · rintro ⟨htop, hfresh⟩
        rw [mapPage_eq, if_neg (not_le.mpr htop), hfresh] at hmap
        split_ifs at hmap with h₁ h₂
        exact absurd h₂ Bool.false_ne_true
    · cases ok
      · have hfail := of_mapPage_false hmap
        have hfresh : leafAt pt (top / pgSize) = none := by
          by_contra hne
          have hempty := missingAt_of_leafAt hfail.lt (Option.isSome_iff_ne_none.mpr hne)
          have hshort := hfail.short
          rw [hempty] at hshort
          exact Nat.not_lt_zero _ hshort
        have hle : (missingAt pt top).card ≤ needed pt
            (top :: downFrom l.length (sub64 top pgSize)) := by
          rw [needed_cons ⟨hfail.lt, hfresh⟩]
          exact Finset.card_le_card Finset.subset_union_left
        unfold mapOutcome
        rw [if_pos (lt_of_lt_of_le hfail.short hle)]
        rfl
      · have hmapped := of_mapPage_true hmap
        obtain ⟨hneeded, hall⟩ := needed_mapped hlen hva hlt hmapped
        rw [ok_bind]
        simp only [if_true]
        rw [ih m₁ pt₁ (Nat.le_of_lt hlen) (sub64_mod hva) (sub64_lt _ _)]
        have hfree : m₁.free.length = m.free.length - (missingAt pt top).card := by
          rw [hmapped.free, List.length_drop]
        have henough := hmapped.enough
        have hiff : m₁.free.length < needed pt₁ (downFrom l.length (sub64 top pgSize)) ↔
            m.free.length < needed pt (top :: downFrom l.length (sub64 top pgSize)) := by
          rw [hneeded, hfree]
          omega
        unfold mapOutcome
        simp only [hiff, hall]

/-! ### Attaching and detaching an owner -/

/-- What an owner of ring buffer `rb` has mapped, from page `b` on. -/
structure Attached (rb : Ringbuf) (o : Owner) (pt : PageTable) (b : ℕ) : Prop where
  pos : 0 < b
  lt : b + 33 ≤ vpnMax
  vbook : o.vbook = some (b * pgSize)
  vbuf : o.vbuf = some ((b + 1) * pgSize)
  leaf : ∀ j < 33, leafAt pt (b + j) = (rb.slot j).map fun pa => ⟨pa, ringPerm⟩

variable {k k' : Kernel} {p : ProcIx} {r : RingIx} {i : Fin 2} {addr b : ℕ} {rb : Ringbuf}
  {f : Fin 16 → ℕ} {book : ℕ}

/-- The kernel after an open that succeeded. -/
def opened (k : Kernel) (p : ProcIx) (r : RingIx) (i : Fin 2) (m : Kmem) (pt : PageTable)
    (top : ℕ) : Kernel :=
  ({ k with mem := m }.setProc p
    { k.procs p with
      pagetable := pt
      topFreeUvmPg := sub64 top pgSize
      ownedRingbufs := (k.procs p).ownedRingbufs + 1 }).setRing r
    { k.ringbufs r with
      owners := update (k.ringbufs r).owners i
        ⟨some p, ptrFromInt (add64 top (2 * pgSize)), ptrFromInt (add64 top (1 * pgSize))⟩
      refcount := (k.ringbufs r).refcount + 1 }

/-- The kernel after an open that the `errdefer` undid. -/
def undone (k : Kernel) (p : ProcIx) (r : RingIx) (m : Kmem) (pt : PageTable) (top : ℕ) : Kernel :=
  ({ k with mem := { m with free := (k.ringbufs r).pages.reverse ++ m.free } }.setProc p
    { k.procs p with
      pagetable := pt
      topFreeUvmPg := top
      ownedRingbufs := (k.procs p).ownedRingbufs + 1 }).setRing r Ringbuf.empty

/-- **The ways `attach` ends.**  The `errdefer` frees the pages whoever else
uses them; with another owner it stops the kernel. -/
theorem attach_eq (hholds : (k.ringbufs r).Holds f book)
    (hvalid : ∀ pa ∈ (k.ringbufs r).pages, ValidPage k.mem.kend pa)
    (hva : (k.procs p).topFreeUvmPg % pgSize = 0) (hlt : (k.procs p).topFreeUvmPg < 2 ^ 64) :
    k.attach p r i addr =
      (mapRing (k.ringbufs r) k.mem (k.procs p).pagetable (k.procs p).topFreeUvmPg >>= fun s =>
        if s.2.2.2 = true ∧ copyout s.2.1 addr 8 = true then
          .ok (k.opened p r i s.1 s.2.1 s.2.2.1, .ok ())
        else if ((k.ringbufs r).owners (1 - i)).proc ≠ none then .error .ringbufHasOwners
        else .ok (k.undone p r s.1 s.2.1 s.2.2.1,
          .error (if s.2.2.2 then .copyOutFailed else .mapPagesFailed))) := by
  have hundo : ∀ (vbuf vbook : Option ℕ) (m : Kmem), m.kend = k.mem.kend →
      ({ k.ringbufs r with owners := update (k.ringbufs r).owners i ⟨none, vbuf, vbook⟩ }
        : Ringbuf).deactivate m
      = if ((k.ringbufs r).owners (1 - i)).proc ≠ none then .error .ringbufHasOwners
        else .ok ({ m with free := (k.ringbufs r).pages.reverse ++ m.free }, Ringbuf.empty) :=
    fun _ _ m hm => Ringbuf.deactivate_orphan rfl _ hholds fun pa hpa => hm ▸ hvalid pa hpa
  unfold attach
  rcases hmap : mapRing (k.ringbufs r) k.mem (k.procs p).pagetable (k.procs p).topFreeUvmPg with
    e | ⟨m, pt, top, ok⟩
  · simp only [hmap, error_bind]
  have hkend : m.kend = k.mem.kend := by
    rw [mapRing_eq hholds] at hmap
    have hend := of_mapDown hva hlt hmap
    cases ok
    · obtain ⟨n, m₁, pt₁, -, hmapped, -, hfail⟩ := hend
      exact hfail.moved.kend.trans hmapped.moved.kend
    · exact hend.1.moved.kend
  simp only [hmap, ok_bind]
  cases ok
  · simp only [Bool.false_eq_true, if_false, false_and]
    rw [hundo _ _ m hkend]
    split_ifs
    · rfl
    · rfl
  · simp only [if_true, true_and]
    by_cases hcopy : copyout pt addr 8 = true
    · rw [if_pos hcopy, if_pos hcopy]
      rfl
    · rw [if_neg hcopy, if_neg hcopy, hundo _ _ m hkend]
      split_ifs
      · rfl
      · rfl

theorem of_attach_ok (h : k.attach p r i addr = .ok (k', .ok ())) :
    ∃ m pt top, k' = k.opened p r i m pt top := by
  unfold attach at h
  obtain ⟨⟨m, pt, top, ok⟩, -, h⟩ := bind_eq_ok.mp h
  refine ⟨m, pt, top, ?_⟩
  cases ok with
  | false =>
    obtain ⟨_, -, h⟩ := bind_eq_ok.mp h
    cases (Prod.mk.inj (Except.ok.inj h)).2
  | true =>
    simp only [if_true] at h
    by_cases hcopy : copyout pt addr 8 = true
    · rw [if_pos hcopy] at h
      exact (Prod.mk.inj (Except.ok.inj h)).1.symm
    · rw [if_neg hcopy] at h
      obtain ⟨_, -, h⟩ := bind_eq_ok.mp h
      cases (Prod.mk.inj (Except.ok.inj h)).2

/-- The region of an owner that has just opened the ring buffer. -/
theorem attached_of_mapped (hholds : rb.Holds f book)
    (h : MappedDown (Ringbuf.order f book) m pt (top / pgSize) m' pt') (hva : top % pgSize = 0)
    (hlt : top < 2 ^ 64) (hzero : leafAt pt 0 ≠ none) (o : Option ProcIx) :
    Attached rb ⟨o, ptrFromInt (add64 (sub64 top (33 * pgSize)) (2 * pgSize)),
      ptrFromInt (add64 (sub64 top (33 * pgSize)) (1 * pgSize))⟩ pt' (top / pgSize - 32) := by
  have hlen : (Ringbuf.order f book).length = 33 := Ringbuf.length_order f book
  have hroom := h.room
  rw [hlen] at hroom
  have hv : top / pgSize < vpnMax := h.lt (List.ne_nil_of_length_pos (by rw [hlen]; omega))
  have hpos : 0 < top / pgSize - 32 := by
    rw [Nat.pos_iff_ne_zero]
    intro h0
    apply hzero
    rw [← h0]
    exact h.fresh 32 (by rw [hlen]; omega)
  have hbook : add64 (sub64 top (33 * pgSize)) (1 * pgSize) = (top / pgSize - 32) * pgSize := by
    simp only [vpnMax, maxVA, add64, sub64, pgSize] at hpos hv hva hlt ⊢
    omega
  have hbuf : add64 (sub64 top (33 * pgSize)) (2 * pgSize) = (top / pgSize - 32 + 1) * pgSize := by
    simp only [vpnMax, maxVA, add64, sub64, pgSize] at hpos hv hva hlt ⊢
    omega
  refine ⟨hpos, by omega, ?_, ?_, ?_⟩
  · rw [hbook]
    exact ptrFromInt_of_pos (Nat.mul_pos hpos pgSize_pos)
  · rw [hbuf]
    exact ptrFromInt_of_pos (Nat.mul_pos (Nat.succ_pos _) pgSize_pos)
  · intro j hj
    rw [show top / pgSize - 32 + j = top / pgSize - (32 - j) by omega,
      h.leaf (32 - j) (by rw [hlen]; omega), hholds.slot_eq (by omega)]

/-- The region from page `b` on was unmapped. -/
structure Detached (pt : PageTable) (b : ℕ) (pt' : PageTable) : Prop where
  leaf : ∀ v, leafAt pt' v = if b ≤ v ∧ v < b + 33 then none else leafAt pt v
  pages : pt'.pages = pt.pages

/-- The kernel after an owner was detached; the last one takes the pages along. -/
def disowned (k : Kernel) (r : RingIx) (p : ProcIx) (i : Fin 2) (b : ℕ) (pt : PageTable) : Kernel :=
  ({ k with mem := ⟨k.mem.kend,
      if (k.ringbufs r).refcount = 1 then (k.ringbufs r).pages.reverse ++ k.mem.free
      else k.mem.free⟩ }.setProc p
    { k.procs p with
      pagetable := pt
      ownedRingbufs := (k.procs p).ownedRingbufs - 1 }).setRing r
    ((k.ringbufs r).withoutOwner i b)

/-- **An owner whose region is in place can be detached.** -/
theorem disown_eq (hholds : (k.ringbufs r).Holds f book)
    (hvalid : ∀ pa ∈ (k.ringbufs r).pages, ValidPage k.mem.kend pa)
    (hatt : Attached (k.ringbufs r) ((k.ringbufs r).owners i) (k.procs p).pagetable b)
    (hactive : (k.ringbufs r).refcount ≠ 0)
    (hlast : (k.ringbufs r).refcount = 1 → ((k.ringbufs r).owners (1 - i)).proc = none) :
    ∃ pt, Detached (k.procs p).pagetable b pt ∧ k.disown r p i = .ok (k.disowned r p i b pt) := by
  have hsome : ∀ j < 33, leafAt (k.procs p).pagetable (b + j) ≠ none := by
    intro j hj
    obtain ⟨pa, -, hpa⟩ := hholds.slot_isSome (show j ≤ 32 by omega)
    rw [hatt.leaf j hj, hpa]
    simp
  have hlt := hatt.lt
  have hdivbuf : (b + 1) * pgSize / pgSize = b + 1 := Nat.mul_div_cancel _ pgSize_pos
  have hdivbook : b * pgSize / pgSize = b := Nat.mul_div_cancel _ pgSize_pos
  obtain ⟨m₁, pt₁, hr₁, hu₁⟩ : ∃ m₁ pt₁,
      uvmunmap k.mem (k.procs p).pagetable ((b + 1) * pgSize) (2 * ringbufSize) false
        = .ok (m₁, pt₁) ∧
      Unmapped k.mem (k.procs p).pagetable ((b + 1) * pgSize / pgSize) (2 * ringbufSize) false
        m₁ pt₁ := by
    apply uvmunmap_returns (Nat.mul_mod_left _ _)
    · rw [hdivbuf]
      show b + 1 + 32 ≤ vpnMax
      omega
    · intro w h₁ h₂
      rw [hdivbuf] at h₁ h₂
      change w < b + 1 + 32 at h₂
      have hw := hsome (w - b) (by omega)
      rwa [show b + (w - b) = w by omega] at hw
    · exact fun h => nomatch h
  rw [hdivbuf] at hu₁
  have hm₁ : m₁ = k.mem := by
    have hkend := hu₁.kend
    have hfree := hu₁.free
    simp only [Bool.false_eq_true, if_false] at hfree
    cases m₁
    simp only at hkend hfree
    rw [hkend, hfree]
  subst hm₁
  obtain ⟨m₂, pt₂, hr₂, hu₂⟩ : ∃ m₂ pt₂,
      uvmunmap k.mem pt₁ (b * pgSize) 1 false = .ok (m₂, pt₂) ∧
      Unmapped k.mem pt₁ (b * pgSize / pgSize) 1 false m₂ pt₂ := by
    apply uvmunmap_returns (Nat.mul_mod_left _ _)
    · rw [hdivbook]
      omega
    · intro w h₁ h₂
      rw [hdivbook] at h₁ h₂
      obtain rfl : w = b := by omega
      rw [hu₁.leaf w, if_neg (by omega)]
      exact hsome 0 (by omega)
    · exact fun h => nomatch h
  rw [hdivbook] at hu₂
  have hm₂ : m₂ = k.mem := by
    have hkend := hu₂.kend
    have hfree := hu₂.free
    simp only [Bool.false_eq_true, if_false] at hfree
    cases m₂
    simp only at hkend hfree
    rw [hkend, hfree]
  subst hm₂
  refine ⟨pt₂, ⟨?_, hu₂.pages.trans hu₁.pages⟩, ?_⟩
  · intro v
    rw [hu₂.leaf v, hu₁.leaf v]
    show (if b ≤ v ∧ v < b + 1 then none else if b + 1 ≤ v ∧ v < b + 1 + 32 then none else _) = _
    by_cases hv : b ≤ v ∧ v < b + 33
    · rw [if_pos hv]
      split_ifs
      · rfl
      · rfl
      · omega
    · rw [if_neg hv, if_neg (by omega), if_neg (by omega)]
  · unfold disown disowned Ringbuf.withoutOwner
    simp only [hatt.vbuf, hatt.vbook, hr₁, hr₂, ok_bind]
    by_cases hone : (k.ringbufs r).refcount = 1
    · rw [if_pos hone, if_pos hone, if_pos (show (k.ringbufs r).refcount - 1 = 0 by omega),
        Ringbuf.deactivate_orphan rfl _ hholds hvalid, if_neg (not_not.mpr (hlast hone))]
      rfl
    · rw [if_neg hone, if_neg hone, if_neg (show ¬ (k.ringbufs r).refcount - 1 = 0 by omega)]
      rfl

end Kernel

end Xv6Zig
