/-
Xv6Zig/Lib/Links.lean

Circular doubly linked lists with a head.

A node is an element or the head, and every node has a `next` and a `prev`.
`Links.Linked L l` says that the links form one circle: from the head through the
elements of `l`, each once, and back, with `prev` leading the other way.

`unlink` and `push` are the usual two and four pointer writes, in order.  They take
an element out of the circle and put one in behind the head (`Linked.unlink`,
`Linked.push`).  A search that follows the links from the head in one of the two
directions sees the elements in order and comes to an end (`Linked.find_next`,
`Linked.find_prev`).
-/
import Mathlib.Data.List.Basic
import Mathlib.Data.List.Nodup

namespace Lib

open Function

variable {α : Type*}

/-- The links of a circular list; `none` is the head. -/
structure Links (α : Type*) where
  next : Option α → Option α
  prev : Option α → Option α

namespace Links

/-! ### Segments of the circle -/

/-- `L.Seg x l y`: from the node `x` through the elements `l` to the node `y`. -/
def Seg (L : Links α) : Option α → List α → Option α → Prop
  | x, [], y => L.next x = y ∧ L.prev y = x
  | x, b :: l, y => L.next x = some b ∧ L.prev (some b) = x ∧ L.Seg (some b) l y

/-- The links form one circle through the head and `l`. -/
def Linked (L : Links α) (l : List α) : Prop := l.Nodup ∧ L.Seg none l none

variable {L L' : Links α} {l l₁ l₂ : List α} {x y : Option α} {b : α}

theorem seg_append : L.Seg x (l₁ ++ b :: l₂) y ↔ L.Seg x l₁ (some b) ∧ L.Seg (some b) l₂ y := by
  induction l₁ generalizing x with
  | nil => exact and_assoc.symm
  | cons a l₁ ih =>
    simp only [List.cons_append, Seg, ih]
    simp only [and_assoc]

/-- A segment depends on the `next` of its nodes but the last and on the `prev` of its
nodes but the first. -/
theorem Seg.congr (h : L.Seg x l y) (hx : L'.next x = L.next x) (hy : L'.prev y = L.prev y)
    (hl : ∀ a ∈ l, L'.next (some a) = L.next (some a) ∧ L'.prev (some a) = L.prev (some a)) :
    L'.Seg x l y := by
  induction l generalizing x with
  | nil => exact ⟨hx.trans h.1, hy.trans h.2⟩
  | cons b l ih =>
    obtain ⟨hxb, hbx, hrest⟩ := h
    obtain ⟨hnext, hprev⟩ := hl b List.mem_cons_self
    exact ⟨hx.trans hxb, hprev.trans hbx,
      ih hrest hnext fun a ha => hl a (List.mem_cons_of_mem _ ha)⟩

/-- The node in front of the end is one of the nodes before it. -/
theorem Seg.prev_eq (h : L.Seg x l y) : L.prev y = x ∨ ∃ a ∈ l, L.prev y = some a := by
  rcases List.eq_nil_or_concat l with rfl | ⟨l, a, rfl⟩
  · exact .inl h.2
  · rw [List.concat_eq_append] at h ⊢
    obtain ⟨-, hab⟩ := seg_append.mp h
    exact .inr ⟨a, by simp, hab.2⟩

/-- The same circle, walked the other way. -/
def swap (L : Links α) : Links α := ⟨L.prev, L.next⟩

theorem Seg.swap (h : L.Seg x l y) : L.swap.Seg y l.reverse x := by
  induction l generalizing x with
  | nil => exact ⟨h.2, h.1⟩
  | cons b l ih =>
    obtain ⟨hx, hb, hrest⟩ := h
    rw [List.reverse_cons, seg_append]
    exact ⟨ih hrest, hb, hx⟩

theorem Linked.swap (h : L.Linked l) : L.swap.Linked l.reverse :=
  ⟨List.nodup_reverse.mpr h.1, h.2.swap⟩

/-! ### Searching -/

/-- Follow `step` from a node to the first element that passes the test; `none` when
the head comes first. -/
def find (step : Option α → Option α) (test : α → Bool) : ℕ → Option α → Option α
  | 0, _ => none
  | _ + 1, none => none
  | n + 1, some b => if test b then some b else find step test n (step (some b))

theorem Seg.find (h : L.Seg x l none) (test : α → Bool) {n : ℕ} (hn : l.length < n) :
    find L.next test n (L.next x) = l.find? test := by
  induction l generalizing x n with
  | nil =>
    obtain ⟨n, rfl⟩ := Nat.exists_eq_succ_of_ne_zero (Nat.ne_zero_of_lt hn)
    rw [h.1]
    rfl
  | cons b l ih =>
    obtain ⟨n, rfl⟩ := Nat.exists_eq_succ_of_ne_zero (Nat.ne_zero_of_lt hn)
    rw [h.1, Links.find, ih h.2.2 (Nat.lt_of_succ_lt_succ hn), List.find?_cons]
    cases test b <;> rfl

theorem Linked.find_next (h : L.Linked l) (test : α → Bool) {n : ℕ} (hn : l.length < n) :
    Links.find L.next test n (L.next none) = l.find? test :=
  h.2.find test hn

theorem Linked.find_prev (h : L.Linked l) (test : α → Bool) {n : ℕ} (hn : l.length < n) :
    Links.find L.prev test n (L.prev none) = l.reverse.find? test :=
  h.swap.2.find test (by rwa [List.length_reverse])

/-! ### Pointer writes -/

/-- The head alone. -/
def empty : Links α := ⟨fun _ => none, fun _ => none⟩

theorem linked_empty : (empty : Links α).Linked [] := ⟨List.nodup_nil, rfl, rfl⟩

variable [DecidableEq α]

@[simps] def setNext (L : Links α) (x y : Option α) : Links α :=
  { L with next := update L.next x y }

@[simps] def setPrev (L : Links α) (x y : Option α) : Links α :=
  { L with prev := update L.prev x y }

/-- `b->next->prev = b->prev; b->prev->next = b->next`. -/
def unlink (L : Links α) (b : α) : Links α :=
  let L := L.setPrev (L.next (some b)) (L.prev (some b))
  L.setNext (L.prev (some b)) (L.next (some b))

/-- `b->next = head.next; b->prev = head; head.next->prev = b; head.next = b`. -/
def push (L : Links α) (b : α) : Links α :=
  let L := L.setNext (some b) (L.next none)
  let L := L.setPrev (some b) none
  let L := L.setPrev (L.next none) (some b)
  L.setNext none (some b)

/-- Taking the node `b` out from between `x` and `y`. -/
theorem unlink_eq (hprev : L.prev (some b) = x) (hnext : L.next (some b) = y)
    (hy : y ≠ some b) : L.unlink b = (L.setPrev y x).setNext x y := by
  unfold unlink
  simp only [hnext, hprev, setPrev_prev, setPrev_next]
  rw [update_of_ne hy.symm, hprev]

omit [DecidableEq α] in
/-- The node in front of `b` is none of the nodes before it. -/
theorem Seg.congr_front (h : L.Seg x l (some b)) (hx : ∀ a ∈ l, x ≠ some a) (hl : l.Nodup)
    (hnext : ∀ u, u ≠ L.prev (some b) → L'.next u = L.next u)
    (hprev : ∀ a ∈ l, L'.prev (some a) = L.prev (some a)) (hlast : L'.next (L.prev (some b)) = y)
    (hback : L'.prev y = L.prev (some b)) : L'.Seg x l y := by
  rcases List.eq_nil_or_concat l with rfl | ⟨l, a, rfl⟩
  · rw [h.2] at hlast hback
    exact ⟨hlast, hback⟩
  · rw [List.concat_eq_append] at h hx hl hprev ⊢
    obtain ⟨hseg, hab⟩ := seg_append.mp h
    rw [hab.2] at hlast hback hnext
    refine seg_append.mpr ⟨hseg.congr ?_ ?_ ?_, hlast, hback⟩
    · exact hnext x (hx a (by simp))
    · exact hprev a (by simp)
    · intro c hc
      refine ⟨hnext (some c) ?_, hprev c (List.mem_append_left _ hc)⟩
      intro heq
      exact (List.nodup_append.mp hl).2.2 c hc a (by simp) (Option.some.inj heq)

theorem Linked.unlink (h : L.Linked (l₁ ++ b :: l₂)) : (L.unlink b).Linked (l₁ ++ l₂) := by
  obtain ⟨hnodup, hseg⟩ := h
  obtain ⟨hfront, hrest⟩ := seg_append.mp hseg
  obtain ⟨hb, hnodup'⟩ := List.nodup_cons.mp (List.nodup_middle.mp hnodup)
  obtain ⟨hl₁, hl₂, hdisj⟩ := List.nodup_append.mp hnodup'
  refine ⟨hnodup', ?_⟩
  cases l₂ with
  | nil =>
    -- the head is behind `b`
    rw [List.append_nil, unlink_eq rfl hrest.1 nofun]
    refine hfront.congr_front (fun a _ => nofun) hl₁ (fun u hu => ?_) (fun a _ => ?_) ?_ ?_
    · simp [hu]
    · simp
    · simp
    · simp
  | cons c l₂ =>
    obtain ⟨hbc, hcb, hback⟩ := hrest
    have hne : some c ≠ some b := by
      intro heq
      exact hb (List.mem_append_right _ (Option.some.inj heq ▸ List.mem_cons_self))
    -- the node in front of `b` is not behind it
    have hx : ∀ a ∈ c :: l₂, some a ≠ L.prev (some b) := by
      intro a ha heq
      rcases hfront.prev_eq with hnone | ⟨a', ha', hsome⟩
      · rw [hnone] at heq
        cases heq
      · rw [hsome] at heq
        exact hdisj a' ha' a ha (Option.some.inj heq).symm
    rw [unlink_eq rfl hbc hne, seg_append]
    constructor
    · refine hfront.congr_front (fun a _ => nofun) hl₁ (fun u hu => ?_) (fun a ha => ?_) ?_ ?_
      · simp [hu]
      · have hac : a ≠ c := hdisj a ha c List.mem_cons_self
        simp [hac]
      · simp
      · simp
    · refine hback.congr ?_ ?_ fun a ha => ⟨?_, ?_⟩
      · simp [hx c List.mem_cons_self]
      · simp
      · simp [hx a (List.mem_cons_of_mem _ ha)]
      · have hac : a ≠ c := fun heq => (List.nodup_cons.mp hl₂).1 (heq ▸ ha)
        simp [hac]

theorem Linked.push (h : L.Linked l) (hb : b ∉ l) : (L.push b).Linked (b :: l) := by
  obtain ⟨hnodup, hseg⟩ := h
  refine ⟨List.nodup_cons.mpr ⟨hb, hnodup⟩, ?_⟩
  cases l with
  | nil =>
    obtain ⟨hn, hp⟩ := hseg
    simp [Seg, Links.push, hn]
  | cons c l =>
    obtain ⟨hn, hp, hrest⟩ := hseg
    have hbc : b ≠ c := fun heq => hb (heq ▸ List.mem_cons_self)
    have hbl : b ∉ l := fun hmem => hb (List.mem_cons_of_mem _ hmem)
    have hcl := (List.nodup_cons.mp hnodup).1
    refine ⟨by simp [Links.push], by simp [Links.push, hn, hbc], by simp [Links.push, hn],
      by simp [Links.push, hn], hrest.congr ?_ ?_ ?_⟩
    · simp [Links.push, Ne.symm hbc]
    · simp [Links.push, hn]
    · intro a ha
      have hab : a ≠ b := fun heq => hbl (heq ▸ ha)
      have hac : a ≠ c := fun heq => hcl (heq ▸ ha)
      simp [Links.push, hn, hab, hac]

end Links

end Lib
