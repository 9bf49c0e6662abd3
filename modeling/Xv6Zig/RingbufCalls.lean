/-
Xv6Zig/RingbufCalls.lean

The ring-buffer system call as a whole: what it returns, what it leaves and
when it stops the kernel.

`Early` is when an open fails before it touches the caller; it is decided by
the name, the owners and the number of free pages.  `CleanOpen` is when an
open leaves nothing half-done, `SafeOpen` when it returns at all.  A close
always returns.
-/
import Xv6Zig.RingbufInv

namespace Xv6Zig

open Lib Function

/-- Behind the name the caller has only zeros. -/
theorem nameBufOf_eq {name : List UInt8} (h : name.length ≤ maxNameLen) :
    nameBufOf name = name ++ List.replicate (maxNameLen - name.length) 0 := by
  unfold nameBufOf callerName
  rw [List.append_assoc, List.take_append, List.take_of_length_le h, List.singleton_append,
    List.drop_replicate, ← List.replicate_succ, List.take_replicate]
  congr 2
  omega

/-- The name in a name buffer is the one that was copied there. -/
theorem takeWhile_nameBufOf {name : List UInt8} (h : 0 ∉ name) (hlen : name.length ≤ maxNameLen) :
    (nameBufOf name).takeWhile (· ≠ 0) = name := by
  have hpos : ∀ c ∈ name, decide (c ≠ 0) = true := by
    intro c hc
    rw [decide_eq_true_eq]
    exact fun h0 => h (h0 ▸ hc)
  rw [nameBufOf_eq hlen, List.takeWhile_append_of_pos hpos]
  rcases maxNameLen - name.length with - | n
  · exact List.append_nil name
  · rw [List.replicate_succ, List.takeWhile_cons_of_neg (by simp)]
    exact List.append_nil name

theorem CStr.not_badLength {name : CStr} (h : name.bytes ≠ []) :
    ¬ (name.bytes.length > maxNameLen ∨ name.bytes.length = 0) := by
  rintro (hlong | hempty)
  · exact absurd name.short (by omega)
  · exact h (List.length_eq_zero_iff.mp hempty)

namespace Kernel

variable {k k' : Kernel} {p : ProcIx} {r : RingIx} {name : List UInt8} {addr vaddr : ℕ}

/-! ### Finding a ring buffer -/

theorem of_findRingbufByName (h : k.findRingbufByName name = some r) :
    (k.ringbufs r).refcount ≠ 0 ∧ (k.ringbufs r).name = name := by
  have hr := List.find?_some h
  simpa using hr

theorem findRingbufByName_eq_none (h : k.findRingbufByName name = none) (s : RingIx)
    (hs : (k.ringbufs s).refcount ≠ 0) : (k.ringbufs s).name ≠ name := by
  have hnone := List.find?_eq_none.mp h s (List.mem_finRange s)
  simp only [decide_eq_true_eq, not_and] at hnone
  exact hnone hs

theorem of_findFreeRingbuf (h : k.findFreeRingbuf = some r) : (k.ringbufs r).refcount = 0 := by
  have hr := List.find?_some h
  simpa using hr

/-- The test of the code for an owner. -/
theorem owns_iff : k.Owns p r ↔
    ((k.ringbufs r).owners 0).proc = some p ∨ ((k.ringbufs r).owners 1).proc = some p :=
  Fin.exists_fin_two

/-! ### Opens that fail early -/

/-- The open fails before it touches the caller. -/
def Early (k : Kernel) (p : ProcIx) (name : List UInt8) : Prop :=
  match k.findRingbufByName name with
  | some r => k.Owns p r ∨ ∀ i, ((k.ringbufs r).owners i).proc ≠ none
  | none => k.findFreeRingbuf = none ∨ k.mem.free.length < 17

instance (k : Kernel) (p : ProcIx) (name : List UInt8) : Decidable (k.Early p name) :=
  match h : k.findRingbufByName name with
  | some r => decidable_of_iff (k.Owns p r ∨ ∀ i, ((k.ringbufs r).owners i).proc ≠ none) (by
      simp only [Early, h])
  | none => decidable_of_iff (k.findFreeRingbuf = none ∨ k.mem.free.length < 17) (by
      simp only [Early, h])

/-- What the caller of a failed open, the other processes and the ring buffers
have is what they had. -/
structure Unchanged (k : Kernel) (p : ProcIx) (k' : Kernel) : Prop where
  refcount : ∀ r, (k'.ringbufs r).refcount = (k.ringbufs r).refcount
  owners : ∀ r, (k'.ringbufs r).owners = (k.ringbufs r).owners
  bufPages : ∀ r, (k'.ringbufs r).bufPages = (k.ringbufs r).bufPages
  bookPage : ∀ r, (k'.ringbufs r).bookPage = (k.ringbufs r).bookPage
  leaf : leafAt (k'.procs p).pagetable = leafAt (k.procs p).pagetable
  top : (k'.procs p).topFreeUvmPg = (k.procs p).topFreeUvmPg
  owned : (k'.procs p).ownedRingbufs = (k.procs p).ownedRingbufs
  others : ∀ j ≠ p, leafAt (k'.procs j).pagetable = leafAt (k.procs j).pagetable

theorem Unchanged.refl (k : Kernel) (p : ProcIx) : Unchanged k p k :=
  ⟨fun _ => rfl, fun _ => rfl, fun _ => rfl, fun _ => rfl, rfl, rfl, rfl, fun _ _ => rfl⟩

/-- The kernel after an activation that ran out of memory. -/
def renamed (k : Kernel) (r : RingIx) (name : List UInt8) (free : List ℕ) : Kernel :=
  { k with mem := { k.mem with free := free } }.setRing r
    { k.ringbufs r with nameBuf := nameBufOf name }

theorem renamed_ring (k : Kernel) (r s : RingIx) (name : List UInt8) (free : List ℕ) :
    ∃ buf, (k.renamed r name free).ringbufs s = { k.ringbufs s with nameBuf := buf } := by
  by_cases hs : s = r
  · subst hs
    exact ⟨nameBufOf name, update_self _ _ _⟩
  · exact ⟨(k.ringbufs s).nameBuf, update_of_ne hs _ _⟩

theorem inv_renamed (h : Inv k) (hidle : (k.ringbufs r).refcount = 0) {free : List ℕ}
    (hperm : free.Perm k.mem.free) : Inv (k.renamed r name free) := by
  have hself : (k.renamed r name free).ringbufs r
      = { k.ringbufs r with nameBuf := nameBufOf name } := update_self _ _ _
  have hne : ∀ s ≠ r, (k.renamed r name free).ringbufs s = k.ringbufs s := fun s hs =>
    update_of_ne hs _ _
  refine h.of_changes (p := 0) (r := r) ?_ rfl rfl (fun _ _ => rfl) hne (h.proc 0) ?_ ?_ ?_ ?_ ?_
    h.teardown
  · refine pages_eq_of_moved (p := 0) (r := r) ?_ (fun _ _ => rfl) hne rfl
    rw [hself]
    show (free : Multiset ℕ) + _ + _ = _
    rw [Multiset.coe_eq_coe.mpr hperm]
    rfl
  · have hring := h.ring r
    rw [hself]
    exact ⟨hring.count, hring.distinct, fun h0 => ⟨(hring.idle h0).buf, (hring.idle h0).book⟩,
      fun h0 => absurd hidle h0⟩
  · rw [hself]
    exact fun h0 => absurd hidle h0
  · rw [hself]
    intro i j hown
    exact absurd hidle ((h.ring r).active_of_owner hown)
  · intro s _ i b hown hatt
    exact ⟨(h.owner s i 0 hown).1, hatt⟩
  · intro j
    have hsame : (k.renamed r name free).ringsOf j = k.ringsOf j := by
      ext s
      rw [mem_ringsOf, mem_ringsOf]
      unfold Owns
      obtain ⟨buf, hs⟩ := renamed_ring k r s name free
      rw [hs]
    rw [hsame]
    exact h.owned j

/-- **An open that fails early leaves everything as it was**, and what is in use to the byte. -/
theorem open_early (addr : ℕ) (h : Inv k) (hname : ¬ (name.length > maxNameLen ∨ name.length = 0))
    (hearly : k.Early p name) :
    ∃ k' e, k.openRingbuf p name addr = .ok (k', .error e) ∧ Inv k' ∧ Unchanged k p k' ∧
      Tidy k k' ∧ k'.procs = k.procs ∧
      ∀ r, (k.ringbufs r).refcount ≠ 0 → k'.ringbufs r = k.ringbufs r := by
  unfold Early at hearly
  unfold openRingbuf
  rcases hfind : k.findRingbufByName name with - | r
  · rw [hfind] at hearly
    rcases hfree : k.findFreeRingbuf with - | r
    · exact ⟨k, _, rfl, h, Unchanged.refl k p, Tidy.refl k, rfl, fun _ _ => rfl⟩
    · have hlt : k.mem.free.length < 17 := by
        rcases hearly with hnone | hlt
        · rw [hfree] at hnone
          cases hnone
        · exact hlt
      have hidle := of_findFreeRingbuf hfree
      obtain ⟨free, hperm, hact⟩ := Ringbuf.activate_outOfMemory hidle ((h.ring r).idle hidle)
        hname hlt fun pa hpa => h.valid_free hpa
      simp only [hact, ok_bind]
      refine ⟨k.renamed r name free, _, rfl, inv_renamed h hidle hperm, ?_, ?_, rfl,
        fun s hs => update_of_ne (fun heq : s = r => hs (heq ▸ hidle)) _ _⟩
      · have hring := fun s => renamed_ring k r s name free
        refine ⟨fun s => ?_, fun s => ?_, fun s => ?_, fun s => ?_, rfl, rfl, rfl, fun _ _ => rfl⟩
        all_goals
          obtain ⟨buf, hs⟩ := hring s
          rw [hs]
      · rintro j v ⟨h₁, h₂, h₃, h₄, hnew⟩
        refine ⟨h₁, h₂, h₃, h₄, ?_⟩
        intro s c b hc hb
        obtain ⟨buf, hs⟩ := renamed_ring k r s name free
        have hsame : ((k.renamed r name free).ringbufs s).owners c = (k.ringbufs s).owners c := by
          rw [hs]
        exact hnew s c b (hsame ▸ hc) (hsame ▸ hb)
  · rw [hfind] at hearly
    by_cases hown : k.Owns p r
    · refine ⟨k, .alreadyIsOwner, ?_, h, Unchanged.refl k p, Tidy.refl k, rfl, fun _ _ => rfl⟩
      exact if_pos (owns_iff.mp hown)
    · have hboth : ∀ i, ((k.ringbufs r).owners i).proc ≠ none := hearly.resolve_left hown
      refine ⟨k, .alreadyTwoOwners, ?_, h, Unchanged.refl k p, Tidy.refl k, rfl, fun _ _ => rfl⟩
      simp only
      rw [if_neg (owns_iff.not.mp hown), if_neg (fun h => hboth 0 h.1),
        if_pos ⟨hboth 0, hboth 1⟩]

/-! ### Opens that come to attach the caller -/

/-- How many pages the open has left to map with. -/
def freeToMap (k : Kernel) (name : List UInt8) : ℕ :=
  if (k.findRingbufByName name).isSome then k.mem.free.length else k.mem.free.length - 17

/-- **Any other open attaches the caller to a ring buffer that is ready.** -/
theorem open_late (addr : ℕ) (h : Inv k) (hname : ¬ (name.length > maxNameLen ∨ name.length = 0))
    (hzero : 0 ∉ name) (hlate : ¬ k.Early p name) :
    ∃ k₁ r i f book, Ready k k₁ r f book ∧ (k₁.ringbufs r).name = name ∧
      (k.findRingbufByName name = none → k.findFreeRingbuf = some r ∧ i = 0 ∧
        k.mem.free = List.ofFn f ++ [book] ++ k.mem.free.drop 17) ∧
      ((k.ringbufs r).owners i).proc = none ∧ ¬ k.Owns p r ∧
      (((k.ringbufs r).owners (1 - i)).proc = none ↔ k.findRingbufByName name = none) ∧
      k₁.mem.free.length = k.freeToMap name ∧
      k.openRingbuf p name addr = k₁.attach p r i addr := by
  unfold Early at hlate
  unfold openRingbuf freeToMap
  rcases hfind : k.findRingbufByName name with - | r
  · rw [hfind] at hlate
    rcases hfree : k.findFreeRingbuf with - | r
    · exact absurd (.inl hfree) hlate
    have h17 : 17 ≤ k.mem.free.length := not_lt.mp fun hlt => hlate (.inr hlt)
    have hidle := of_findFreeRingbuf hfree
    have hnone := h.not_owned hidle
    obtain ⟨f, book, hsplit, hact⟩ := Ringbuf.activate_ok hidle hname h17
    have htaken : (k.mem.free : Multiset ℕ)
        = (List.ofFn f ++ [book] : List ℕ) + (k.mem.free.drop 17 : List ℕ) := by
      rw [Multiset.coe_add, ← hsplit]
    simp only [hact, ok_bind, hnone]
    -- the slot as `activate` leaves it, still without an owner
    let rb : Ringbuf := { k.ringbufs r with
      nameBuf := nameBufOf name
      bufPages := fun i => some (f i)
      bookPage := some book }
    let k₁ : Kernel := { k with mem := { k.mem with free := k.mem.free.drop 17 } }.setRing r rb
    have hself : k₁.ringbufs r = rb := update_self _ _ _
    have hne : ∀ s ≠ r, k₁.ringbufs s = k.ringbufs s := fun s hs => update_of_ne hs _ _
    have hholds : rb.Holds f book := ⟨rfl, rfl⟩
    have hnm : (k₁.ringbufs r).name = name := by
      rw [hself]
      exact takeWhile_nameBufOf hzero (by omega)
    refine ⟨k₁, r, 0, f, book, ⟨rfl, hne, ?_, rfl, rfl, rfl, hself ▸ hholds, by rw [hself],
      by rw [hself], fun h0 => absurd hidle h0, ?_⟩, hnm, fun _ => ⟨rfl, rfl, hsplit⟩, hnone 0, ?_,
      ?_, ?_, ?_⟩
    · refine pages_eq_of_moved (p := 0) (r := r) ?_ (fun _ _ => rfl) hne rfl
      rw [hself, hholds.pages_eq, ((h.ring r).idle hidle).pages_eq]
      show ((k.mem.free.drop 17 : List ℕ) : Multiset ℕ) + (k.procs 0).pages + _ = _
      rw [htaken, Multiset.coe_nil, add_zero]
      ac_rfl
    · rw [hnm]
      exact fun s _ hs => findRingbufByName_eq_none hfind s hs
    · rintro ⟨c, hc⟩
      rw [hnone c] at hc
      cases hc
    · exact ⟨fun _ => trivial, fun _ => hnone _⟩
    · show (k.mem.free.drop 17).length = _
      rw [List.length_drop]
      rfl
    · show (if (none : Option ProcIx) ≠ none ∨ (none : Option ProcIx) ≠ none then _ else _) = _
      rw [if_neg (by simp)]
  · rw [hfind] at hlate
    obtain ⟨hactive, hnm⟩ := of_findRingbufByName hfind
    obtain ⟨f, book, hholds⟩ := (h.ring r).active hactive
    have hnot : ¬ k.Owns p r := fun hown => hlate (.inl hown)
    have hone : ((k.ringbufs r).owners 0).proc = none ∨ ((k.ringbufs r).owners 1).proc = none := by
      by_contra hno
      exact hlate (.inr (Fin.forall_fin_two.mpr (not_or.mp hno)))
    -- it is in use, so it has an owner, and there is room for one more
    have hcount := (h.ring r).count
    rw [(k.ringbufs r).ownerCount_eq 0] at hcount
    have horphan : ¬ (((k.ringbufs r).owners 0).proc = none ∧
        ((k.ringbufs r).owners 1).proc = none) := by
      rintro ⟨h0, h1⟩
      change _ = _ + (if ((k.ringbufs r).owners 1).proc ≠ none then 1 else 0) at hcount
      rw [h0, h1] at hcount
      exact hactive (by simpa using hcount)
    simp only
    have htwo : ¬ (_ ≠ none ∧ _ ≠ none) := fun hboth => hone.elim hboth.1 hboth.2
    rw [if_neg (owns_iff.not.mp hnot), if_neg horphan, if_neg htwo]
    by_cases h1 : ((k.ringbufs r).owners 1).proc = none
    · have h0 : ((k.ringbufs r).owners (1 - 1)).proc ≠ none := fun h0 => horphan ⟨h0, h1⟩
      refine ⟨k, r, 1, f, book, Ready.of_active h hholds hactive, hnm, (fun h => nomatch h), h1,
        hnot, ?_, rfl, ?_⟩
      · exact ⟨fun h => absurd h h0, fun h => nomatch h⟩
      · rw [if_pos h1]
    · have h0 := hone.resolve_right h1
      refine ⟨k, r, 0, f, book, Ready.of_active h hholds hactive, hnm, (fun h => nomatch h), h0,
        hnot, ?_, rfl, ?_⟩
      · exact ⟨fun h => absurd h h1, fun h => nomatch h⟩
      · rw [if_neg h1]

/-! ### How an open ends -/

section Open

variable {pt pt' : PageTable} {m m' : Kmem} {f : Fin 16 → ℕ} {book top : ℕ}
  {res : Except RingbufError Unit}

/-- The eight bytes at `addr` lie in pages the user has, or will have once the
ring buffer is mapped below `top`. -/
def OutOk (pt : PageTable) (top addr : ℕ) : Prop :=
  ∀ b < 8, UserPage pt ((addr + b) / pgSize) ∨
    ((addr + b) / pgSize ≤ top / pgSize ∧ top / pgSize < (addr + b) / pgSize + 33)

theorem copyout_mapped
    (h : MappedDown (Ringbuf.order f book) m pt (top / pgSize) m' pt') :
    copyout pt' addr 8 = true ↔ OutOk pt top addr := by
  have hlen := Ringbuf.length_order f book
  have hroom := h.room
  have hlt : top / pgSize < vpnMax := h.lt (List.ne_nil_of_length_pos (by omega))
  rw [copyout_iff]
  unfold OutOk
  apply forall₂_congr
  intro b _
  generalize (addr + b) / pgSize = w
  by_cases hw : w ≤ top / pgSize ∧ top / pgSize < w + 33
  · refine ⟨fun _ => .inr hw, fun _ => ⟨by omega, ?_⟩⟩
    have hleaf := h.leaf (top / pgSize - w) (by omega)
    have hget : top / pgSize - w < (Ringbuf.order f book).length := by omega
    rw [show top / pgSize - (top / pgSize - w) = w by omega, List.getElem?_eq_getElem hget] at hleaf
    exact ⟨_, hleaf, rfl⟩
  · have hrest := h.rest w (by omega)
    unfold UserPage
    rw [hrest]
    exact ⟨fun hu => .inl hu, fun hu => hu.resolve_right hw⟩

/-- **When an open returns.** -/
def SafeOpen (k : Kernel) (p : ProcIx) (name : List UInt8) (addr : ℕ) : Prop :=
  k.Early p name ∨
    match k.findRingbufByName name with
    | some _ =>
        mapOutcome (k.procs p).pagetable (k.freeToMap name) (downFrom 33 (k.procs p).topFreeUvmPg)
          = some true ∧ OutOk (k.procs p).pagetable (k.procs p).topFreeUvmPg addr
    | none =>
        mapOutcome (k.procs p).pagetable (k.freeToMap name) (downFrom 33 (k.procs p).topFreeUvmPg)
          ≠ none

/-- When an open leaves nothing half-done: it succeeds, or it fails before the
first page of a new ring buffer is mapped. -/
def CleanOpen (k : Kernel) (p : ProcIx) (name : List UInt8) (addr : ℕ) : Prop :=
  k.Early p name ∨ k.findRingbufByName name ≠ none ∨
    (needed (k.procs p).pagetable (downFrom 33 (k.procs p).topFreeUvmPg) ≤ k.freeToMap name ∧
      OutOk (k.procs p).pagetable (k.procs p).topFreeUvmPg addr) ∨
    k.freeToMap name < (missingAt (k.procs p).pagetable (k.procs p).topFreeUvmPg).card

/-- An open that was undone after it came to map a new ring buffer. -/
structure Undone (k : Kernel) (p : ProcIx) (name : List UInt8) (addr : ℕ) (k₁ : Kernel) (r : RingIx)
    (f : Fin 16 → ℕ) (book : ℕ) (m : Kmem) (pt : PageTable) (top : ℕ) (ok : Bool) : Prop where
  notFound : k.findRingbufByName name = none
  idle : (k.ringbufs r).refcount = 0
  mapped : mapDown .bufPageNull ((Ringbuf.order f book).map some) k₁.mem (k.procs p).pagetable
    (k.procs p).topFreeUvmPg = .ok (m, pt, top, ok)
  out : ok = true → ¬ OutOk (k.procs p).pagetable (k.procs p).topFreeUvmPg addr

/-- Whether all of a ring buffer is mapped. -/
theorem mapDown_order {k₁ : Kernel} (f : Fin 16 → ℕ) (book : ℕ) (h : Inv k) (p : ProcIx)
    (hlen : k₁.mem.free.length = k.freeToMap name) :
    (mapDown .bufPageNull ((Ringbuf.order f book).map some) k₁.mem (k.procs p).pagetable
      (k.procs p).topFreeUvmPg).toOption.map (·.2.2.2)
      = mapOutcome (k.procs p).pagetable (k.freeToMap name)
        (downFrom 33 (k.procs p).topFreeUvmPg) := by
  have hout := mapDown_outcome .bufPageNull k₁.mem (k.procs p).pagetable
    (le_of_eq (Ringbuf.length_order f book)) (h.proc p).aligned (h.proc p).word
  rwa [Ringbuf.length_order, hlen] at hout

namespace Undone

variable {k₁ : Kernel} {ok : Bool} (h : Inv k)
  (hundone : Undone k p name addr k₁ r f book m pt top ok)

include h hundone

theorem ended :
    MapEnded (Ringbuf.order f book) k₁.mem (k.procs p).pagetable (k.procs p).topFreeUvmPg m pt top
      ok :=
  of_mapDown (h.proc p).aligned (h.proc p).word hundone.mapped

/-- When the first page cannot be mapped nothing has been mapped. -/
theorem leaf_eq (hshort : k₁.mem.free.length <
      (missingAt (k.procs p).pagetable (k.procs p).topFreeUvmPg).card) :
    leafAt pt = leafAt (k.procs p).pagetable ∧ top = (k.procs p).topFreeUvmPg := by
  obtain ⟨pa, l, hl⟩ := List.exists_cons_of_length_pos
    (show 0 < (Ringbuf.order f book).length by rw [Ringbuf.length_order]; omega)
  have hmap := hundone.mapped
  rw [hl, mapDown_cons (h.proc p).aligned, mapPage_eq, if_pos hshort] at hmap
  split_ifs at hmap with hva
  · cases hmap
  · simp only [ok_bind, Bool.false_eq_true, if_false, Except.ok.injEq, Prod.mk.injEq] at hmap
    obtain ⟨-, rfl, rfl, -⟩ := hmap
    exact ⟨leafAt_grow _ _ _, rfl⟩

/-- An open that was undone and is clean has changed neither mappings nor top. -/
theorem of_clean (hlate : ¬ k.Early p name) (hlen : k₁.mem.free.length = k.freeToMap name)
    (hclean : k.CleanOpen p name addr) :
    leafAt pt = leafAt (k.procs p).pagetable ∧ top = (k.procs p).topFreeUvmPg := by
  rcases hclean with hearly | hfound | ⟨henough, hout⟩ | hshort
  · exact absurd hearly hlate
  · exact absurd hundone.notFound hfound
  · -- enough memory to map all of it, so the bytes at `addr` were the trouble
    have hoc := mapDown_order f book h p hlen
    rw [hundone.mapped, mapOutcome] at hoc
    rw [if_neg (not_lt.mpr henough)] at hoc
    split_ifs at hoc
    · exact absurd hout (hundone.out (Option.some.inj hoc))
    · cases hoc
  · exact hundone.leaf_eq h (hlen ▸ hshort)

/-- When the first page can be mapped it stays mapped. -/
theorem leaf_first (henough : (missingAt (k.procs p).pagetable (k.procs p).topFreeUvmPg).card ≤
      k₁.mem.free.length) :
    leafAt pt ((k.procs p).topFreeUvmPg / pgSize) = some ⟨f 0, ringPerm⟩ := by
  have hfirst : ∃ l, Ringbuf.order f book = f 0 :: l := ⟨_, by
    rw [Ringbuf.order, List.ofFn_succ, List.cons_append, List.cons_append]⟩
  obtain ⟨l, hl⟩ := hfirst
  have hmap := hundone.mapped
  rw [hl, mapDown_cons (h.proc p).aligned] at hmap
  obtain ⟨⟨m₁, pt₁, okm⟩, hone, hrest⟩ := bind_eq_ok.mp hmap
  cases okm with
  | false => exact absurd (of_mapPage_false hone).short (not_lt.mpr henough)
  | true =>
    -- later mappings only add
    have hgrown := (of_mapDown (sub64_mod (h.proc p).aligned) (sub64_lt _ _) hrest).grown.1
    apply hgrown
    rw [(of_mapPage_true hone).leaf, update_self]

end Undone

variable (h : Inv k) (hname : ¬ (name.length > maxNameLen ∨ name.length = 0)) (hzero : 0 ∉ name)

include h hname hzero

theorem open_returns_iff : (∃ s, k.openRingbuf p name addr = .ok s) ↔ k.SafeOpen p name addr := by
  by_cases hearly : k.Early p name
  · obtain ⟨k', e, hr, -⟩ := open_early addr h hname hearly
    exact ⟨fun _ => .inl hearly, fun _ => ⟨_, hr⟩⟩
  obtain ⟨k₁, r, i, f, book, hready, -, -, -, -, hother, hlen, hr⟩ :=
    open_late addr h hname hzero hearly
  have hok := h.proc p
  unfold SafeOpen
  rw [or_iff_right hearly, hr, attach_eq hready.holds (hready.valid h)
    (hready.procs ▸ hok.aligned) (hready.procs ▸ hok.word), mapRing_eq hready.holds, hready.procs,
    hready.owners, ← mapDown_order f book h p hlen]
  rcases hmap : mapDown .bufPageNull ((Ringbuf.order f book).map some) k₁.mem (k.procs p).pagetable
      (k.procs p).topFreeUvmPg with e | ⟨m, pt, top, ok⟩
  · have hno : ∀ f : _ → Except Panic (Kernel × Except RingbufError Unit),
        ¬ ∃ s, ((.error e : Except Panic (Kmem × PageTable × ℕ × Bool)) >>= f) = .ok s := by
      rintro f ⟨s, hs⟩
      cases hs
    refine ⟨fun hs => absurd hs (hno _), ?_⟩
    rcases k.findRingbufByName name with - | r'
    · exact fun hs => absurd rfl hs
    · exact fun hs => nomatch hs.1
  · rw [ok_bind]
    have hend := of_mapDown hok.aligned hok.word hmap
    have hcopy : ok = true → (copyout pt addr 8 = true ↔
        OutOk (k.procs p).pagetable (k.procs p).topFreeUvmPg addr) := by
      rintro rfl
      exact copyout_mapped hend.1
    rcases hfind : k.findRingbufByName name with - | r'
    · refine ⟨fun _ => by simp [Except.toOption], fun _ => ?_⟩
      by_cases hboth : ok = true ∧ copyout pt addr 8 = true
      · rw [if_pos hboth]
        exact ⟨_, rfl⟩
      · rw [if_neg hboth, if_neg (not_not.mpr (hother.mpr hfind))]
        exact ⟨_, rfl⟩
    · have hne : ((k.ringbufs r).owners (1 - i)).proc ≠ none := by
        intro hnone
        rw [hother.mp hnone] at hfind
        cases hfind
      by_cases hboth : ok = true ∧ copyout pt addr 8 = true
      · rw [if_pos hboth]
        refine ⟨fun _ => ⟨?_, (hcopy hboth.1).mp hboth.2⟩, fun _ => ⟨_, rfl⟩⟩
        rw [hboth.1]
        rfl
      · -- the other owner is still there
        rw [if_neg hboth, if_pos hne]
        constructor
        · rintro ⟨s, hs⟩
          cases hs
        · rintro ⟨hok', hout'⟩
          have hok'' : ok = true := Option.some.inj hok'
          exact absurd ⟨hok'', (hcopy hok'').mpr hout'⟩ hboth

/-- **What an open that returns has done.** -/
theorem open_cases (hopen : k.openRingbuf p name addr = .ok (k', res)) :
    (k.Early p name ∧ Inv k' ∧ Unchanged k p k' ∧ Tidy k k' ∧ k'.procs = k.procs ∧
      res ≠ .ok ()) ∨
    (¬ k.Early p name ∧ ∃ k₁ r i f book m pt, Ready k k₁ r f book ∧
      ((k.ringbufs r).owners i).proc = none ∧ ¬ k.Owns p r ∧
      k₁.mem.free.length = k.freeToMap name ∧
      ((mapDown .bufPageNull ((Ringbuf.order f book).map some) k₁.mem (k.procs p).pagetable
          (k.procs p).topFreeUvmPg
            = .ok (m, pt, sub64 (k.procs p).topFreeUvmPg (33 * pgSize), true) ∧
          OutOk (k.procs p).pagetable (k.procs p).topFreeUvmPg addr ∧ res = .ok () ∧
          k' = k₁.opened p r i m pt (sub64 (k.procs p).topFreeUvmPg (33 * pgSize))) ∨
        ∃ top ok, Undone k p name addr k₁ r f book m pt top ok ∧ res ≠ .ok () ∧
          k' = k₁.undone p r m pt top)) := by
  by_cases hearly : k.Early p name
  · obtain ⟨k'', e, hr, hinv, hun, htidy, hprocs, -⟩ := open_early addr h hname hearly
    rw [hr] at hopen
    cases hopen
    exact .inl ⟨hearly, hinv, hun, htidy, hprocs, fun h => nomatch h⟩
  obtain ⟨k₁, r, i, f, book, hready, -, -, hempty, hnot, hother, hlen, hr⟩ :=
    open_late addr h hname hzero hearly
  have hok := h.proc p
  rw [hr, attach_eq hready.holds (hready.valid h) (hready.procs ▸ hok.aligned)
    (hready.procs ▸ hok.word), mapRing_eq hready.holds, hready.procs, hready.owners] at hopen
  obtain ⟨⟨m, pt, top, ok⟩, hmap, hopen⟩ := bind_eq_ok.mp hopen
  have hend := of_mapDown hok.aligned hok.word hmap
  refine .inr ⟨hearly, k₁, r, i, f, book, m, pt, hready, hempty, hnot, hlen, ?_⟩
  simp only at hopen
  by_cases hboth : ok = true ∧ copyout pt addr 8 = true
  · rw [if_pos hboth] at hopen
    obtain ⟨rfl, hcopy⟩ := hboth
    cases hopen
    have htop : top = sub64 (k.procs p).topFreeUvmPg (33 * pgSize) := by
      rw [hend.2, Ringbuf.length_order]
    rw [htop] at hmap ⊢
    exact .inl ⟨hmap, (copyout_mapped hend.1).mp hcopy, rfl, rfl⟩
  · rw [if_neg hboth] at hopen
    by_cases hne : ((k.ringbufs r).owners (1 - i)).proc = none
    · rw [if_neg (not_not.mpr hne)] at hopen
      have hidle : (k.ringbufs r).refcount = 0 := by
        rw [(h.ring r).count, (k.ringbufs r).ownerCount_eq i, hempty, hne]
        rfl
      cases hopen
      refine .inr ⟨top, ok, ⟨hother.mp hne, hidle, hmap, ?_⟩, (fun h => nomatch h), rfl⟩
      rintro rfl hout
      exact hboth ⟨rfl, (copyout_mapped hend.1).mpr hout⟩
    · rw [if_pos hne] at hopen
      cases hopen

theorem inv_open (hrun : k.Running p) (hopen : k.openRingbuf p name addr = .ok (k', res)) :
    Inv k' := by
  have hok := h.proc p
  rcases open_cases h hname hzero hopen with ⟨-, hinv, -⟩ | ⟨-, k₁, r, i, f, book, m, pt, hready,
    hempty, hnot, -, ⟨hmap, -, -, rfl⟩ | ⟨top, ok, hundone, -, rfl⟩⟩
  · exact hinv
  · exact inv_opened hready h hempty hnot (of_mapDown hok.aligned hok.word hmap).1 hrun
  · have hend := hundone.ended h
    obtain ⟨hgrown, hmoved⟩ := hend.grown
    have htop : ∃ n, top = sub64 (k.procs p).topFreeUvmPg (n * pgSize) := by
      cases ok with
      | true => exact ⟨_, hend.2⟩
      | false =>
        obtain ⟨n, -, -, -, -, htop, -⟩ := hend
        exact ⟨n, htop⟩
    obtain ⟨n, rfl⟩ := htop
    exact inv_undone hready h hrun (sub64_mul_mod hok.aligned n) (sub64_lt _ _) hgrown hmoved

theorem tidy_open (hrun : k.Running p) (hopen : k.openRingbuf p name addr = .ok (k', res))
    (hclean : k.CleanOpen p name addr) : Tidy k k' := by
  rcases open_cases h hname hzero hopen with ⟨-, -, -, htidy, -⟩ | ⟨hlate, k₁, r, i, f, book, m, pt,
    hready, hempty, hnot, hlen, ⟨hmap, -, -, rfl⟩ | ⟨top, ok, hundone, -, rfl⟩⟩
  · exact htidy
  · have hend := of_mapDown (h.proc p).aligned (h.proc p).word hmap
    exact tidy_opened hready h hempty hnot hend.1 hrun
  · exact tidy_undone hready h hundone.idle (hundone.of_clean h hlate hlen hclean).1

/-- **An open that is not clean leaves a page of the user on the free list.** -/
theorem open_not_clean (hopen : k.openRingbuf p name addr = .ok (k', res))
    (hnot : ¬ k.CleanOpen p name addr) :
    res ≠ .ok () ∧ ∃ v pa, leafAt (k'.procs p).pagetable v = some ⟨pa, ringPerm⟩ ∧
      pa ∈ k'.mem.free := by
  rcases open_cases h hname hzero hopen with ⟨hearly, -⟩ | ⟨hlate, k₁, r, i, f, book, m, pt,
    hready, -, -, hlen, ⟨hmap, hout, -, rfl⟩ | ⟨top, ok, hundone, hres, rfl⟩⟩
  · exact absurd (.inl hearly) hnot
  · -- an open that succeeds had all it needs
    have hoc := mapDown_order f book h p hlen
    rw [hmap, mapOutcome] at hoc
    by_cases hshort : k.freeToMap name <
        needed (k.procs p).pagetable (downFrom 33 (k.procs p).topFreeUvmPg)
    · rw [if_pos hshort] at hoc
      cases hoc
    · exact absurd (.inr (.inr (.inl ⟨not_lt.mp hshort, hout⟩))) hnot
  · refine ⟨hres, (k.procs p).topFreeUvmPg / pgSize, f 0, ?_, ?_⟩
    · rw [undone_procs_self]
      apply hundone.leaf_first h
      rw [hlen]
      exact not_lt.mp fun hshort => hnot (.inr (.inr (.inr hshort)))
    · show f 0 ∈ (k₁.ringbufs r).pages.reverse ++ m.free
      rw [hready.holds.pages_eq]
      simp

/-- **What stops the kernel in an open**: a page that cannot be mapped, or the
other owner of a ring buffer whose open is undone. -/
theorem open_error {e : Panic} (hopen : k.openRingbuf p name addr = .error e) :
    ¬ e.Teardown ∧ (e = .ringbufHasOwners ∨ mapOutcome (k.procs p).pagetable (k.freeToMap name)
      (downFrom 33 (k.procs p).topFreeUvmPg) = none) := by
  by_cases hearly : k.Early p name
  · obtain ⟨k', x, hr, -⟩ := open_early addr h hname hearly
    rw [hr] at hopen
    cases hopen
  obtain ⟨k₁, r, i, f, book, hready, -, -, -, -, -, hlen, hr⟩ := open_late addr h hname hzero hearly
  have hok := h.proc p
  rw [hr, attach_eq hready.holds (hready.valid h) (hready.procs ▸ hok.aligned)
    (hready.procs ▸ hok.word), mapRing_eq hready.holds, hready.procs, hready.owners] at hopen
  rcases hmap : mapDown .bufPageNull ((Ringbuf.order f book).map some) k₁.mem (k.procs p).pagetable
      (k.procs p).topFreeUvmPg with x | s
  · rw [hmap] at hopen
    cases hopen
    have hout := mapDown_order f book h p hlen
    rw [hmap] at hout
    exact ⟨mapDown_error hok.aligned hmap, .inr hout.symm⟩
  · rw [hmap, ok_bind] at hopen
    split_ifs at hopen
    cases hopen
    exact ⟨by decide, .inl rfl⟩

end Open

/-! ### Detaching a process -/

/-- **Detaching a process from a ring buffer always returns.** -/
theorem disownIfOwned_spec (h : Inv k) (r : RingIx) (p : ProcIx) :
    ∃ k', k.disownIfOwned r p = .ok k' ∧ Disowned k p k' ∧ ¬ k'.Owns p r ∧
      ∀ s ≠ r, k'.ringbufs s = k.ringbufs s := by
  have hslot : ∀ i, ((k.ringbufs r).owners i).proc = some p →
      ∃ k', k.disown r p i = .ok k' ∧ Disowned k p k' ∧ ¬ k'.Owns p r ∧
        ∀ s ≠ r, k'.ringbufs s = k.ringbufs s := by
    intro i hown
    obtain ⟨-, b, hatt⟩ := h.owner r i p hown
    have hactive := (h.ring r).active_of_owner hown
    obtain ⟨f, book, hholds⟩ := (h.ring r).active hactive
    have hother : (1 : Fin 2) - i ≠ i := by fin_cases i <;> decide
    obtain ⟨pt, hdet, hr⟩ := disown_eq hholds (fun pa hpa => h.valid_ring hpa) hatt hactive
      fun hone => (h.ring r).other_eq_none hown hone hother
    exact ⟨_, hr, disowned_spec h hown hatt hdet, not_owns_disowned h hown b pt,
      fun s hs => disowned_ring_ne hs b pt⟩
  unfold disownIfOwned
  split_ifs with h0 h1
  · exact hslot 0 h0
  · exact hslot 1 h1
  · exact ⟨k, rfl, Disowned.refl h p, fun hown => (owns_iff.mp hown).elim h0 h1, fun _ _ => rfl⟩

theorem foldlM_disownIfOwned (h : Inv k) (p : ProcIx) (l : List RingIx) :
    ∃ k', l.foldlM (fun k r => k.disownIfOwned r p) k = .ok k' ∧ Disowned k p k' ∧
      ∀ r ∈ l, ¬ k'.Owns p r := by
  induction l generalizing k with
  | nil => exact ⟨k, rfl, Disowned.refl h p, fun r hr => absurd hr List.not_mem_nil⟩
  | cons r l ih =>
    obtain ⟨k₁, hr, hdis, hnot, -⟩ := disownIfOwned_spec h r p
    obtain ⟨k₂, hl, hdis', hnots⟩ := ih hdis.inv
    refine ⟨k₂, ?_, hdis.trans hdis', ?_⟩
    · rw [List.foldlM_cons, hr, ok_bind, hl]
    · intro s hs
      rcases List.mem_cons.mp hs with rfl | hs
      · -- nobody becomes an owner later on
        exact fun hown => hnot (hdis'.owns hown)
      · exact hnots s hs

theorem ringbufDisownAll_spec (h : Inv k) (p : ProcIx) :
    ∃ k', k.ringbufDisownAll p = .ok k' ∧ Disowned k p k' ∧ ∀ r, ¬ k'.Owns p r := by
  obtain ⟨k', hr, hdis, hnot⟩ := foldlM_disownIfOwned h p (List.finRange 10)
  exact ⟨k', hr, hdis, fun r => hnot r (List.mem_finRange r)⟩

/-! ### Closing -/

/-- The top of a process can be put anywhere. -/
theorem inv_setTop (h : Inv k) (hstate : (k.procs p).state ≠ .unused) {top : ℕ}
    (hva : top % pgSize = 0) (hlt : top < 2 ^ 64) :
    Inv (k.setProc p { k.procs p with topFreeUvmPg := top }) ∧
      Tidy k (k.setProc p { k.procs p with topFreeUvmPg := top }) := by
  have hok := h.proc p
  have hrep : Replaces k p k.mem k.teardowns { k.procs p with topFreeUvmPg := top } :=
    ⟨rfl, rfl, ⟨hva, hlt, fun hunused => absurd hunused hstate, hok.null, hok.space, hok.live⟩,
      fun s i b hown hatt => ⟨hstate, hatt⟩, h.owned p, fun _ hleaf _ _ hle => ⟨hleaf, hle⟩,
      fun _ => h.teardown⟩
  exact ⟨hrep.inv h, hrep.tidy⟩

/-- Process `p` was detached from ring buffer `r`, which it had from page `b`
on, and the top of the process was put at `top`. -/
structure Closed (k : Kernel) (p : ProcIx) (k' : Kernel) (r : RingIx) (b top : ℕ) : Prop where
  owned : ∃ i, ((k.ringbufs r).owners i).proc = some p ∧
    Attached (k.ringbufs r) ((k.ringbufs r).owners i) (k.procs p).pagetable b
  disowned : ∃ k₁, Disowned k p k₁ ∧ k' = k₁.setProc p { k₁.procs p with topFreeUvmPg := top }
  gone : ¬ k'.Owns p r
  rest : ∀ s ≠ r, k'.ringbufs s = k.ringbufs s

/-- Where a close puts the top of the process. -/
def topAfterClose (top vaddr : ℕ) : ℕ :=
  if top = sub64 vaddr (3 * pgSize) then add64 top ((1 + 1 + 2 * ringbufSize) * pgSize) else top

theorem topAfterClose_mod {top : ℕ} (h : top % pgSize = 0) (vaddr : ℕ) :
    topAfterClose top vaddr % pgSize = 0 := by
  unfold topAfterClose
  split_ifs
  · simp only [add64, ringbufSize, pgSize] at h ⊢
    omega
  · exact h

theorem topAfterClose_lt {top : ℕ} (h : top < 2 ^ 64) (vaddr : ℕ) :
    topAfterClose top vaddr < 2 ^ 64 := by
  unfold topAfterClose
  split_ifs
  · exact Nat.mod_lt _ (by decide)
  · exact h

/-- What a close that returned `res` has done. -/
def CloseDone (k : Kernel) (p : ProcIx) (name : List UInt8) (vaddr : ℕ) (k' : Kernel)
    (res : Except RingbufError Unit) : Prop :=
  Inv k' ∧ Tidy k k' ∧
    (k' = k ∧ res ≠ .ok () ∨ res = .ok () ∧ ∃ r b, k.findRingbufByName name = some r ∧
      vaddr = (b + 1) * pgSize ∧
      Closed k p k' r b (topAfterClose (k.procs p).topFreeUvmPg vaddr))

/-- **A close always returns.** -/
theorem close_spec (h : Inv k) (p : ProcIx) (name : List UInt8) (addr vaddr : ℕ) :
    ∃ k' res, k.closeRingbuf p name addr vaddr = .ok (k', res) ∧
      k.CloseDone p name vaddr k' res := by
  have hfail : ∀ e : RingbufError, ∃ k' res,
      (.ok (k, .error e) : Except Panic (Kernel × Except RingbufError Unit)) = .ok (k', res) ∧
      k.CloseDone p name vaddr k' res :=
    fun e => ⟨k, .error e, rfl, h, Tidy.refl k, .inl ⟨rfl, fun hno => nomatch hno⟩⟩
  unfold closeRingbuf
  by_cases hcopy : copyin (k.procs p).pagetable addr 8 = true
  swap
  · rw [if_pos hcopy]
    exact hfail _
  rw [if_neg (not_not.mpr hcopy)]
  rcases hfind : k.findRingbufByName name with - | r
  · exact hfail _
  obtain ⟨hactive, -⟩ := of_findRingbufByName hfind
  obtain ⟨f, book, hholds⟩ := (h.ring r).active hactive
  have hbook : (k.ringbufs r).bookPage ≠ none := by
    rw [hholds.book]
    exact Option.some_ne_none _
  simp only [hactive, hbook, if_false]
  have hslot : (¬ (((k.ringbufs r).owners 0).proc ≠ some p ∧
      ((k.ringbufs r).owners 1).proc ≠ some p)) →
      ((k.ringbufs r).owners (if ((k.ringbufs r).owners 0).proc = some p then 0 else 1)).proc
        = some p := by
    intro hown
    split_ifs with h0
    · exact h0
    · by_contra h1
      exact hown ⟨h0, h1⟩
  generalize (if ((k.ringbufs r).owners 0).proc = some p then (0 : Fin 2) else 1) = i at hslot ⊢
  split_ifs with h₁ h₂ h₃ h₄
  · exact hfail _
  · exact hfail _
  · exact hfail _
  · exact hfail _
  · have hi := hslot h₂
    obtain ⟨hstate₀, b, hatt⟩ := h.owner r i p hi
    have hvaddr : vaddr = (b + 1) * pgSize := by
      have heq := not_not.mp h₃
      rw [hatt.vbuf] at heq
      exact heq.symm
    obtain ⟨k₁, hr, hdis, hnot, hrest⟩ := disownIfOwned_spec h r p
    have htop : (k₁.procs p).topFreeUvmPg = (k.procs p).topFreeUvmPg := by rw [hdis.self]
    have hok := hdis.inv.proc p
    have hstate : (k₁.procs p).state ≠ .unused := by
      rw [hdis.self]
      exact hstate₀
    have hq : (if (k₁.procs p).topFreeUvmPg = sub64 vaddr (3 * pgSize) then
        { k₁.procs p with
          topFreeUvmPg := add64 (k₁.procs p).topFreeUvmPg ((1 + 1 + 2 * ringbufSize) * pgSize) }
        else k₁.procs p)
        = { k₁.procs p with topFreeUvmPg := topAfterClose (k.procs p).topFreeUvmPg vaddr } := by
      rw [← htop]
      unfold topAfterClose
      split_ifs
      · rfl
      · rfl
    obtain ⟨hinv, htidy⟩ := inv_setTop hdis.inv hstate
      (topAfterClose_mod (htop ▸ hok.aligned) vaddr) (topAfterClose_lt (htop ▸ hok.word) vaddr)
    rw [hr, ok_bind]
    refine ⟨_, _, rfl, ?_, ?_, .inr ⟨rfl, r, b, hfind, hvaddr, ⟨i, hi, hatt⟩, ⟨k₁, hdis, ?_⟩, hnot,
      hrest⟩⟩
    · rw [hq]
      exact hinv
    · rw [hq]
      exact hdis.tidy.trans htidy
    · rw [hq]

/-! ### The system call -/

/-- The open a call comes to, if it does. -/
def opens (str : Option CStr) (op : Int32) : Option CStr :=
  str.filter fun name => op = 1 ∧ name.bytes ≠ []

/-- **When the system call returns.** -/
def SafeCall (k : Kernel) (p : ProcIx) (str : Option CStr) (op : Int32) (addr : ℕ) : Prop :=
  (str = none ∨ op = 0 ∨ op = 1) ∧ ∀ name ∈ opens str op, k.SafeOpen p name.bytes addr

/-- When it leaves nothing half-done. -/
def CleanCall (k : Kernel) (p : ProcIx) (str : Option CStr) (op : Int32) (addr : ℕ) : Prop :=
  ∀ name ∈ opens str op, k.CleanOpen p name.bytes addr

theorem mem_opens {str : Option CStr} {op : Int32} {name : CStr} :
    name ∈ opens str op ↔ str = some name ∧ op = 1 ∧ name.bytes ≠ [] := by
  unfold opens
  rw [Option.mem_def, Option.filter_eq_some_iff, decide_eq_true_eq]

theorem intFromErr_neg (err : RingbufError) : intFromErr err < 0 := by
  unfold intFromErr
  omega

/-- What a call returns to the user. -/
def retval : Except RingbufError Unit → ℤ
  | .ok () => 0
  | .error e => intFromErr e

/-- **What the call comes to**: it fails at once, it closes, it opens, or the
operation is none of the two. -/
theorem sysRingbuf_cases (k : Kernel) (p : ProcIx) (str : Option CStr) (op : Int32)
    (addr vaddr : ℕ) :
    (opens str op = none ∧ (str = none ∨ op = 0 ∨ op = 1) ∧
      k.sysRingbuf p str op addr vaddr = .ok (k, retval (.error .badNameLength))) ∨
    (str ≠ none ∧ op ≠ 0 ∧ op ≠ 1 ∧ k.sysRingbuf p str op addr vaddr = .error .illegalOp) ∨
    (op = 0 ∧ ∃ name : CStr, str = some name ∧ k.sysRingbuf p str op addr vaddr
      = (k.closeRingbuf p name.bytes addr vaddr >>= fun s => .ok (s.1, retval s.2))) ∨
    ∃ name ∈ opens str op, op = 1 ∧ k.sysRingbuf p str op addr vaddr
      = (k.openRingbuf p name.bytes addr >>= fun s => .ok (s.1, retval s.2)) := by
  have hret : ∀ x : Except Panic (Kernel × Except RingbufError Unit),
      (x >>= fun s => match s.2 with
        | .ok () => (.ok (s.1, 0) : Except Panic (Kernel × ℤ))
        | .error e => .ok (s.1, intFromErr e)) = (x >>= fun s => .ok (s.1, retval s.2)) := by
    intro x
    congr 1
    funext ⟨k', res⟩
    rcases res with e | u
    · rfl
    · rfl
  rcases str with - | name
  · exact .inl ⟨rfl, .inl rfl, rfl⟩
  by_cases hop : op = 0 ∨ op = 1
  swap
  · obtain ⟨h0, h1⟩ := not_or.mp hop
    refine .inr (.inl ⟨Option.some_ne_none _, h0, h1, ?_⟩)
    simp only [sysRingbuf, Op.fromInt, if_neg h0, if_neg h1]
  by_cases hempty : name.bytes = []
  · refine .inl ⟨?_, .inr hop, ?_⟩
    · rw [Option.eq_none_iff_forall_ne_some]
      exact fun n hn => (mem_opens.mp hn).2.2 ((Option.some.inj (mem_opens.mp hn).1) ▸ hempty)
    · rcases hop with rfl | rfl
      · simp [sysRingbuf, Op.fromInt, ringbuf, hempty, retval]
      · simp [sysRingbuf, Op.fromInt, ringbuf, hempty, retval]
  · have hlen := CStr.not_badLength hempty
    rcases hop with rfl | rfl
    · refine .inr (.inr (.inl ⟨rfl, name, rfl, ?_⟩))
      rw [← hret]
      have hring : k.ringbuf p name.bytes .close addr vaddr = k.closeRingbuf p name.bytes addr vaddr :=
        if_neg hlen
      rw [← hring]
      rfl
    · refine .inr (.inr (.inr ⟨name, mem_opens.mpr ⟨rfl, rfl, hempty⟩, rfl, ?_⟩))
      rw [← hret]
      have hring : k.ringbuf p name.bytes .open addr vaddr = k.openRingbuf p name.bytes addr :=
        if_neg hlen
      rw [← hring]
      rfl

/-- **When the system call returns**, in every state the invariant allows. -/
theorem sysRingbuf_returns_iff (h : Inv k) {str : Option CStr} {op : Int32} :
    (∃ s, k.sysRingbuf p str op addr vaddr = .ok s) ↔ k.SafeCall p str op addr := by
  unfold SafeCall
  rcases sysRingbuf_cases k p str op addr vaddr with
    ⟨hnone, hop, hr⟩ | ⟨hstr, h0, h1, hr⟩ | ⟨rfl, name, -, hr⟩ | ⟨name, hname, rfl, hr⟩
  · rw [hr, hnone]
    exact ⟨fun _ => ⟨hop, fun n hn => nomatch hn⟩, fun _ => ⟨_, rfl⟩⟩
  · rw [hr]
    constructor
    · rintro ⟨s, hs⟩
      cases hs
    · rintro ⟨hstr' | h0' | h1', -⟩
      · exact absurd hstr' hstr
      · exact absurd h0' h0
      · exact absurd h1' h1
  · obtain ⟨k', res, hclose, -⟩ := close_spec h p name.bytes addr vaddr
    rw [hr, hclose]
    exact ⟨fun _ => ⟨.inr (.inl rfl), fun n hn => absurd (mem_opens.mp hn).2.1 (by decide)⟩,
      fun _ => ⟨_, rfl⟩⟩
  · obtain ⟨hstr, -, hne⟩ := mem_opens.mp hname
    have hiff : _ ↔ k.SafeOpen p name.bytes addr :=
      open_returns_iff h (CStr.not_badLength hne) name.nonzero
    have hall : (∀ n ∈ opens str 1, k.SafeOpen p n.bytes addr) ↔ k.SafeOpen p name.bytes addr := by
      constructor
      · exact fun hall => hall name hname
      · intro hsafe n hn
        rw [Option.mem_def] at hname hn
        rw [hname] at hn
        exact Option.some.inj hn ▸ hsafe
    rw [hall, ← hiff, hr]
    constructor
    · rintro ⟨s, hs⟩
      obtain ⟨s', hs', -⟩ := bind_eq_ok.mp hs
      exact ⟨.inr (.inr rfl), s', hs'⟩
    · rintro ⟨-, s, hs⟩
      rw [hs]
      exact ⟨_, rfl⟩

theorem of_closeRingbuf {name : List UInt8} {res : Except RingbufError Unit} (h : Inv k)
    (hclose : k.closeRingbuf p name addr vaddr = .ok (k', res)) :
    k.CloseDone p name vaddr k' res := by
  obtain ⟨k₁, res₁, hr, hspec⟩ := close_spec h p name addr vaddr
  rw [hr] at hclose
  cases hclose
  exact hspec

/-- What a call that returned has done. -/
inductive Called (k : Kernel) (p : ProcIx) (str : Option CStr) (op : Int32) (addr vaddr : ℕ) :
    Kernel → Except RingbufError Unit → Prop
  | failed : opens str op = none → Called k p str op addr vaddr k (.error .badNameLength)
  | closed {name k' res} : op = 0 → str = some name →
      k.closeRingbuf p name.bytes addr vaddr = .ok (k', res) → Called k p str op addr vaddr k' res
  | opened {name k' res} : name ∈ opens str op →
      ¬ (name.bytes.length > maxNameLen ∨ name.bytes.length = 0) → 0 ∉ name.bytes →
      k.openRingbuf p name.bytes addr = .ok (k', res) → Called k p str op addr vaddr k' res

section Call

variable {str : Option CStr} {op : Int32} {n : ℤ}

/-- What is returned is 0 or the code of an error. -/
theorem of_sysRingbuf (hcall : k.sysRingbuf p str op addr vaddr = .ok (k', n)) :
    ∃ res, n = retval res ∧ Called k p str op addr vaddr k' res := by
  rcases sysRingbuf_cases k p str op addr vaddr with
    ⟨hnone, -, hr⟩ | ⟨-, -, -, hr⟩ | ⟨hop, name, hstr, hr⟩ | ⟨name, hname, -, hr⟩
  · rw [hr] at hcall
    cases hcall
    exact ⟨_, rfl, .failed hnone⟩
  · rw [hr] at hcall
    cases hcall
  · rw [hr] at hcall
    obtain ⟨⟨k₁, res⟩, hclose, hret⟩ := bind_eq_ok.mp hcall
    cases hret
    exact ⟨res, rfl, .closed hop hstr hclose⟩
  · obtain ⟨-, -, hne⟩ := mem_opens.mp hname
    rw [hr] at hcall
    obtain ⟨⟨k₁, res⟩, hopen, hret⟩ := bind_eq_ok.mp hcall
    cases hret
    exact ⟨res, rfl, .opened hname (CStr.not_badLength hne) name.nonzero hopen⟩

theorem sysRingbuf_retval (h : k.sysRingbuf p str op addr vaddr = .ok (k', n)) :
    ∃ res, n = retval res := by
  obtain ⟨res, hres, -⟩ := of_sysRingbuf h
  exact ⟨res, hres⟩

variable (h : Inv k)

include h

/-- Only an open stops the kernel, besides an operation that does not exist. -/
theorem of_sysRingbuf_error {e : Panic} (hcall : k.sysRingbuf p str op addr vaddr = .error e) :
    e = .illegalOp ∨ ∃ name ∈ opens str op,
      ¬ (name.bytes.length > maxNameLen ∨ name.bytes.length = 0) ∧
        k.openRingbuf p name.bytes addr = .error e := by
  rcases sysRingbuf_cases k p str op addr vaddr with
    ⟨-, -, hr⟩ | ⟨-, -, -, hr⟩ | ⟨-, name, -, hr⟩ | ⟨name, hname, -, hr⟩
  · rw [hr] at hcall
    cases hcall
  · rw [hr] at hcall
    exact .inl (Except.error.inj hcall).symm
  · obtain ⟨k₁, res, hclose, -⟩ := close_spec h p name.bytes addr vaddr
    rw [hr, hclose] at hcall
    cases hcall
  · obtain ⟨-, -, hne⟩ := mem_opens.mp hname
    rw [hr] at hcall
    rcases hopen : k.openRingbuf p name.bytes addr with x | s
    · rw [hopen] at hcall
      cases hcall
      exact .inr ⟨name, hname, CStr.not_badLength hne, hopen⟩
    · rw [hopen] at hcall
      cases hcall

theorem inv_sysRingbuf (hrun : k.Running p)
    (hcall : k.sysRingbuf p str op addr vaddr = .ok (k', n)) : Inv k' := by
  obtain ⟨res, -, hcalled⟩ := of_sysRingbuf hcall
  cases hcalled with
  | failed => exact h
  | closed _ _ hclose => exact (of_closeRingbuf h hclose).1
  | opened _ hlen hzero hopen => exact inv_open h hlen hzero hrun hopen

theorem tidy_sysRingbuf (hrun : k.Running p) (hclean : k.CleanCall p str op addr)
    (hcall : k.sysRingbuf p str op addr vaddr = .ok (k', n)) : Tidy k k' := by
  obtain ⟨res, -, hcalled⟩ := of_sysRingbuf hcall
  cases hcalled with
  | failed => exact Tidy.refl k
  | closed _ _ hclose => exact (of_closeRingbuf h hclose).2.1
  | opened hname hlen hzero hopen => exact tidy_open h hlen hzero hrun hopen (hclean _ hname)

/-- A call that is not clean fails and leaves a page of the user on the free
list. -/
theorem not_cleanCall (hcall : k.sysRingbuf p str op addr vaddr = .ok (k', n))
    (hnot : ¬ k.CleanCall p str op addr) :
    n ≠ 0 ∧ ∃ v pa, leafAt (k'.procs p).pagetable v = some ⟨pa, ringPerm⟩ ∧ pa ∈ k'.mem.free := by
  unfold CleanCall at hnot
  push Not at hnot
  obtain ⟨name, hname, hnot⟩ := hnot
  obtain ⟨res, rfl, hcalled⟩ := of_sysRingbuf hcall
  rw [Option.mem_def] at hname
  cases hcalled with
  | failed hnone =>
    rw [hnone] at hname
    cases hname
  | closed hop =>
    rw [hop] at hname
    exact absurd (mem_opens.mp hname).2.1 (by decide)
  | opened hname' hlen hzero hopen =>
    cases hname.symm.trans hname'
    obtain ⟨hres, hfree⟩ := open_not_clean h hlen hzero hopen hnot
    refine ⟨?_, hfree⟩
    rcases res with err | u
    · exact (intFromErr_neg err).ne
    · exact absurd rfl hres

theorem sysRingbuf_error {e : Panic} (hcall : k.sysRingbuf p str op addr vaddr = .error e) :
    ¬ e.Teardown := by
  rcases of_sysRingbuf_error h hcall with rfl | ⟨name, -, hlen, hopen⟩
  · decide
  · exact (open_error h hlen name.nonzero hopen).1

end Call

end Kernel

end Xv6Zig
