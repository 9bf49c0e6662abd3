/-
Xv6Zig/Queue.lean

The intrusive queue (`kernel/queue.zig`).

The links are fields of the elements, so `next` belongs to the memory that the queue
works in and outlives an element's time in the queue.  `pop` and `remove` null the link
of what they take out.  `push` does not look at the link of its argument, and `reset`
forgets the elements without touching them: the one relies on what the other does not
do, and the assertion in `push` that would tell is commented out.

A plain list says what the queue is for (`Fifo`).  The queue does what the list does as
long as every element that is pushed has a null link (`queue_fifo`), and an element
with another link shows up as soon as it is the last one to be popped.
-/
import Mathlib.Data.UInt
import Mathlib.Order.Interval.Finset.Nat
import Xv6Zig.Lib.Chain
import Xv6Zig.Lib.Outcome
import Xv6Zig.Lib.Run

namespace Xv6Zig

open Lib Function

/-- `Queue(T)`, with the `next` fields of all the elements. -/
structure Queue (α : Type*) where
  last : Option α
  out : Option α
  count : UInt64
  next : α → Option α

/-- How a call can go wrong. -/
inductive QueueFault
  /-- the assertion in `push` -/
  | assert
  /-- the `unreachable` in `remove` -/
  | unreachable
  /-- the loop in `remove` has not ended yet -/
  | running
  deriving DecidableEq, Repr

inductive QueueOp (α : Type*)
  | push (x : α)
  | pop
  | peek
  | remove (x : α)
  | reset

namespace Queue

variable {α : Type*} [DecidableEq α]

def push (q : Queue α) (elem : α) : Except QueueFault (Queue α) :=
  match q.last with
  | some last =>
    .ok { q with
      next := update q.next last (some elem), last := some elem, count := q.count + 1 }
  | none =>
    if q.out = none then .ok { q with last := some elem, out := some elem, count := q.count + 1 }
    else .error .assert

def pop (q : Queue α) : Queue α × Option α :=
  match q.out with
  | none => (q, none)
  | some ret =>
    ({ last := if q.last = some ret then none else q.last
       out := q.next ret
       count := q.count - 1
       next := update q.next ret none }, some ret)

def peek (q : Queue α) : Option α := q.out

def empty (q : Queue α) : Bool := q.peek.isNone

/-- The loop of `remove`: the element in front of `x`, from `it` on, in `n` rounds. -/
def before (next : α → Option α) (x : α) : ℕ → Option α → Except QueueFault α
  | 0, _ => .error .running
  | _ + 1, none => .error .unreachable
  | n + 1, some elem => if next elem = some x then .ok elem else before next x n (next elem)

/-- `remove`, of which the loop may take `n` rounds. -/
def remove (n : ℕ) (q : Queue α) (x : α) : Except QueueFault (Queue α) :=
  if q.out = some x then .ok q.pop.1
  else do
    let elem ← before q.next x n q.out
    .ok { q with
      last := if q.last = some x then some elem else q.last
      count := q.count - 1
      next := update (update q.next elem (q.next x)) x none }

def reset (q : Queue α) : Queue α := { q with last := none, out := none, count := 0 }

/-- A call, and what it returns. -/
def call (n : ℕ) (q : Queue α) : QueueOp α → Except QueueFault (Queue α × Option α)
  | .push x => (q.push x).map (·, none)
  | .pop => .ok q.pop
  | .peek => .ok (q, q.peek)
  | .remove x => (q.remove n x).map (·, none)
  | .reset => .ok (q.reset, none)

/-- No elements, and no element linked to another. -/
def init : Queue α := ⟨none, none, 0, fun _ => none⟩

end Queue

/-! ### The list that a queue stands for -/

namespace Fifo

variable {α : Type*} [DecidableEq α]

/-- A call on the plain list. -/
def call (l : List α) : QueueOp α → List α × Option α
  | .push x => (l ++ [x], none)
  | .pop => (l.tail, l.head?)
  | .peek => (l, l.head?)
  | .remove x => (l.erase x, none)
  | .reset => ([], none)

/-- What callers may call: `push` for what is not in the queue, `remove` for what is. -/
def Legal (l : List α) : QueueOp α → Prop
  | .push x => x ∉ l
  | .remove x => x ∈ l
  | .pop | .peek | .reset => True

instance (l : List α) : (op : QueueOp α) → Decidable (Legal l op)
  | .push x => inferInstanceAs (Decidable (x ∉ l))
  | .remove x => inferInstanceAs (Decidable (x ∈ l))
  | .pop | .peek | .reset => .isTrue trivial

end Fifo

namespace Queue

variable {α : Type*} [DecidableEq α] {q q' : Queue α} {l l₁ l₂ : List α} {x y : α} {z : Option α}

/-- The links lead from `out` through `l` to `z`. -/
structure Rep (q : Queue α) (l : List α) (z : Option α) : Prop where
  seg : Seg q.next q.out l z
  nodup : l.Nodup
  last : q.last = l.getLast?
  count : q.count = UInt64.ofNat l.length

omit [DecidableEq α] in
theorem rep_init : (init : Queue α).Rep [] none := ⟨rfl, List.nodup_nil, rfl, rfl⟩

omit [DecidableEq α] in
theorem Rep.reset (q : Queue α) : q.reset.Rep [] none := ⟨rfl, List.nodup_nil, rfl, rfl⟩

theorem Rep.push (h : q.Rep l none) (hx : x ∉ l) :
    ∃ q', q.push x = .ok q' ∧ q'.Rep (l ++ [x]) (q.next x) := by
  have hcount : q.count + 1 = UInt64.ofNat (l ++ [x]).length := by
    rw [h.count, List.length_append, List.length_singleton, UInt64.ofNat_add]
    rfl
  have hnodup : (l ++ [x]).Nodup := by
    rw [← List.concat_eq_append]
    exact h.nodup.concat hx
  rcases List.eq_nil_or_concat l with rfl | ⟨l, a, rfl⟩
  · refine ⟨{ q with last := some x, out := some x, count := q.count + 1 }, ?_, ?_⟩
    · unfold Queue.push
      rw [h.last, show q.out = none from h.seg]
      rfl
    · exact ⟨⟨rfl, rfl⟩, hnodup, rfl, hcount⟩
  · rw [List.concat_eq_append] at *
    have hne : x ≠ a := by
      rintro rfl
      exact hx (by simp)
    refine ⟨{ q with
      next := update q.next a (some x)
      last := some x
      count := q.count + 1 }, ?_, ?_, hnodup, ?_, hcount⟩
    · unfold Queue.push
      rw [h.last, List.getLast?_concat]
    · have ha : a ∉ l := by
        intro hmem
        exact (List.nodup_append.mp h.nodup).2.2 a hmem a (List.mem_singleton_self a) rfl
      refine seg_concat.mpr ⟨h.seg.relink ha (some x), ?_⟩
      exact update_of_ne hne _ _
    · exact List.getLast?_concat.symm

theorem Rep.pop (h : q.Rep (x :: l) z) : q.pop.2 = some x ∧ q.pop.1.Rep l z := by
  have hout : q.out = some x := h.seg.1
  have hx : x ∉ l := (List.nodup_cons.mp h.nodup).1
  unfold Queue.pop
  rw [hout]
  refine ⟨rfl, h.seg.2.update hx none, (List.nodup_cons.mp h.nodup).2, ?_, ?_⟩
  · show (if q.last = some x then none else q.last) = l.getLast?
    cases l with
    | nil => rw [h.last, List.getLast?_singleton, if_pos rfl]; rfl
    | cons b l =>
      rw [h.last, List.getLast?_cons_cons, if_neg]
      intro heq
      exact hx (List.mem_of_getLast? heq)
  · show q.count - 1 = UInt64.ofNat l.length
    rw [h.count, List.length_cons, UInt64.ofNat_add]
    exact UInt64.add_sub_cancel _ _

theorem Rep.pop_nil (h : q.Rep [] none) : q.pop = (q, none) := by
  unfold Queue.pop
  rw [show q.out = none from h.seg]

/-- The loop of `remove` ends at the element in front. -/
theorem before_eq {next : α → Option α} {it : Option α}
    (h : Seg next it (l₁ ++ [y]) (some x)) (hx : x ∉ l₁ ++ [y]) {n : ℕ} (hn : l₁.length < n) :
    before next x n it = .ok y := by
  induction l₁ generalizing it n with
  | nil =>
    obtain ⟨n, rfl⟩ := Nat.exists_eq_succ_of_ne_zero (Nat.ne_zero_of_lt hn)
    have hy : next y = some x := h.2
    rw [h.1, before, if_pos hy]
  | cons a l₁ ih =>
    obtain ⟨n, rfl⟩ := Nat.exists_eq_succ_of_ne_zero (Nat.ne_zero_of_lt hn)
    have hnext : next a ≠ some x := by
      intro heq
      have hseg := h.2
      rw [heq] at hseg
      -- the segment goes on with an element of its own
      cases l₁ with
      | nil =>
        cases hseg.1
        simp at hx
      | cons b l₁ =>
        cases hseg.1
        simp at hx
    rw [h.1, before, if_neg hnext]
    exact ih h.2 (fun hmem => hx (List.mem_cons_of_mem _ hmem)) (Nat.lt_of_succ_lt_succ hn)

theorem Rep.remove (h : q.Rep l none) (hx : x ∈ l) {n : ℕ} (hn : l.length < n) :
    ∃ q', q.remove n x = .ok q' ∧ q'.Rep (l.erase x) none := by
  obtain ⟨l₁, l₂, rfl⟩ := List.append_of_mem hx
  obtain ⟨hx', hnodup⟩ := List.nodup_cons.mp (List.nodup_middle.mp h.nodup)
  rw [List.mem_append, not_or] at hx'
  rw [List.erase_append_right _ hx'.1, List.erase_cons_head]
  obtain ⟨z, hseg₁, rfl, hseg₂⟩ := seg_append.mp h.seg
  rcases List.eq_nil_or_concat l₁ with rfl | ⟨l₁, e, rfl⟩
  · refine ⟨q.pop.1, if_pos hseg₁, ?_⟩
    exact (Rep.pop (x := x) h).2
  · rw [List.concat_eq_append] at *
    -- the first element is another one
    have hout : q.out ≠ some x := by
      intro hout
      rw [hout] at hseg₁
      apply hx'.1
      cases l₁ with
      | nil => exact List.mem_singleton.mpr (Option.some.inj hseg₁.1)
      | cons b l₁ =>
        rw [Option.some.inj hseg₁.1]
        exact List.mem_cons_self
    have hbefore : before q.next x n q.out = .ok e := by
      apply before_eq hseg₁ hx'.1
      simp only [List.length_append, List.length_cons] at hn
      omega
    refine ⟨{ q with
      last := if q.last = some x then some e else q.last
      count := q.count - 1
      next := update (update q.next e (q.next x)) x none }, ?_, ?_, hnodup, ?_, ?_⟩
    · rw [Queue.remove, if_neg hout, hbefore]
      rfl
    · have he : e ∉ l₁ ∧ e ∉ l₂ := by
        rw [List.append_assoc, List.singleton_append, List.nodup_middle, List.nodup_cons,
          List.mem_append, not_or] at hnodup
        exact hnodup.1
      refine seg_append.mpr ⟨q.next x, ?_, ?_⟩
      · exact (hseg₁.relink he.1 (q.next x)).update hx'.1 none
      · exact (hseg₂.update he.2 (q.next x)).update hx'.2 none
    · show (if q.last = some x then some e else q.last) = (l₁ ++ [e] ++ l₂).getLast?
      rw [h.last]
      rcases List.eq_nil_or_concat l₂ with rfl | ⟨l₂, b, rfl⟩
      · rw [List.getLast?_concat, if_pos rfl, List.append_nil, List.getLast?_concat]
      · rw [List.concat_eq_append] at *
        have hb : b ≠ x := by
          rintro rfl
          exact hx'.2 (by simp)
        rw [← List.cons_append, ← List.append_assoc, List.getLast?_concat, ← List.append_assoc,
          List.getLast?_concat, if_neg (fun heq => hb (Option.some.inj heq))]
    · show q.count - 1 = UInt64.ofNat (l₁ ++ [e] ++ l₂).length
      have hlen : (l₁ ++ [e] ++ x :: l₂).length = (l₁ ++ [e] ++ l₂).length + 1 := by
        simp only [List.length_append, List.length_cons]
        omega
      rw [h.count, hlen, UInt64.ofNat_add]
      exact UInt64.add_sub_cancel _ _

/-! ### Runs -/

/-- A call by a caller that keeps to the rules, on the queue and on the list. -/
def Step (s : Queue α × List α) (op : QueueOp α) (s' : Queue α × List α) : Prop :=
  Fifo.Legal s.2 op ∧ s'.2 = (Fifo.call s.2 op).1 ∧ ∃ n r, s.1.call n op = .ok (s'.1, r)

/-- What the comment in `push` asks for. -/
def NullNext (q : Queue α) : QueueOp α → Prop
  | .push x => q.next x = none
  | .pop | .peek | .remove _ | .reset => True

instance (q : Queue α) : (op : QueueOp α) → Decidable (q.NullNext op)
  | .push x => inferInstanceAs (Decidable (q.next x = none))
  | .pop | .peek | .remove _ | .reset => .isTrue trivial

/-- A call of which the comment in `push` is true. -/
def GoodStep (s : Queue α × List α) (op : QueueOp α) (s' : Queue α × List α) : Prop :=
  Step s op s' ∧ s.1.NullNext op

/-- The queue after `n` calls of `pop`. -/
def pops (q : Queue α) : ℕ → Queue α
  | 0 => q
  | n + 1 => q.pop.1.pops n

/-- One call: it ends, and does what it does to the list. -/
theorem Rep.call (h : q.Rep l none) {op : QueueOp α} (hlegal : Fifo.Legal l op) {n : ℕ}
    (hn : l.length < n) : ∃ q', q.call n op = .ok (q', (Fifo.call l op).2) ∧
      (q.NullNext op → q'.Rep (Fifo.call l op).1 none) := by
  cases op with
  | push x =>
    obtain ⟨q', hq', hrep⟩ := h.push hlegal
    refine ⟨q', ?_, fun hnull => ?_⟩
    · rw [Queue.call, hq']
      rfl
    · rw [show q.next x = none from hnull] at hrep
      exact hrep
  | pop =>
    refine ⟨q.pop.1, ?_, fun _ => ?_⟩
    · cases l with
      | nil => rw [Queue.call, h.pop_nil]; rfl
      | cons x l =>
        rw [Queue.call]
        exact congrArg Except.ok (Prod.ext rfl h.pop.1)
    · cases l with
      | nil =>
        rw [h.pop_nil]
        exact h
      | cons x l => exact h.pop.2
  | peek =>
    refine ⟨q, ?_, fun _ => h⟩
    rw [Queue.call, peek, h.seg.eq_head?]
    rfl
  | remove x =>
    obtain ⟨q', hq', hrep⟩ := h.remove hlegal hn
    refine ⟨q', ?_, fun _ => hrep⟩
    rw [Queue.call, hq']
    rfl
  | reset => exact ⟨q.reset, rfl, fun _ => Rep.reset q⟩

theorem before_mono {next : α → Option α} {it : Option α} {n m : ℕ} (h : before next x n it = .ok y)
    (hnm : n ≤ m) : before next x m it = .ok y := by
  induction n generalizing it m with
  | zero => cases h
  | succ n ih =>
    obtain ⟨m, rfl⟩ := Nat.exists_eq_succ_of_ne_zero (Nat.ne_zero_of_lt (Nat.lt_of_succ_le hnm))
    cases it with
    | none => cases h
    | some e =>
      rw [before] at h ⊢
      split_ifs at h ⊢
      · exact h
      · exact ih h (Nat.le_of_succ_le_succ hnm)

theorem call_mono {op : QueueOp α} {n m : ℕ} {r : Queue α × Option α} (h : q.call n op = .ok r)
    (hnm : n ≤ m) : q.call m op = .ok r := by
  cases op with
  | remove x =>
    rw [Queue.call, Queue.remove] at h ⊢
    rcases eq_or_ne q.out (some x) with hout | hout
    · rw [if_pos hout] at h ⊢
      exact h
    · rw [if_neg hout] at h ⊢
      cases hn : before q.next x n q.out with
      | error e =>
        rw [hn] at h
        cases h
      | ok e =>
        rw [hn] at h
        rw [before_mono hn hnm]
        exact h
  | push x => exact h
  | pop => exact h
  | peek => exact h
  | reset => exact h

theorem rep_run {tr : List (QueueOp α)} (h : Run GoodStep (init, []) tr (q, l)) : q.Rep l none := by
  refine h.invariant (I := fun s => s.1.Rep s.2 none) rep_init ?_
  rintro ⟨q, l⟩ op ⟨q', l'⟩ hrep ⟨⟨hlegal, hl', n, r, hcall⟩, hnull⟩
  obtain ⟨q'', hq'', hrep'⟩ := Rep.call hrep hlegal (n := max n (l.length + 1)) (by simp)
  rw [call_mono hcall (le_max_left _ _)] at hq''
  obtain ⟨rfl, -⟩ := Prod.mk.inj (Except.ok.inj hq'')
  show q'.Rep l' none
  rw [show l' = (Fifo.call l op).1 from hl']
  exact hrep' hnull

theorem Rep.pops {n : ℕ} (h : q.Rep l z) (hn : n = l.length) : (q.pops n).Rep [] z := by
  induction l generalizing q n with
  | nil =>
    subst hn
    exact h
  | cons x l ih =>
    subst hn
    exact ih (q := q.pop.1) h.pop.2 rfl

omit [DecidableEq α] in
/-- Elements have different addresses, none of them null, so there are fewer than
`2 ^ 64` of them. -/
theorem Rep.count_eq (addr : α ↪ { a : UInt64 // a ≠ 0 }) (h : q.Rep l z) :
    q.count.toNat = l.length := by
  have hlt : l.length < 2 ^ 64 := by
    have hmap : (l.map fun x => (addr x).1.toNat).Nodup := by
      refine h.nodup.map ?_
      intro x y hxy
      exact addr.injective (Subtype.ext (UInt64.toNat_inj.mp hxy))
    have hsub : (l.map fun x => (addr x).1.toNat).toFinset ⊆ Finset.Ico 1 (2 ^ 64) := by
      intro a ha
      obtain ⟨x, -, rfl⟩ := List.mem_map.mp (List.mem_toFinset.mp ha)
      have hne : (addr x).1.toNat ≠ 0 := fun h0 => (addr x).2 (UInt64.toNat_inj.mp h0)
      exact Finset.mem_Ico.mpr ⟨Nat.one_le_iff_ne_zero.mpr hne, UInt64.toNat_lt _⟩
    have hcard := Finset.card_le_card hsub
    rw [List.toFinset_card_of_nodup hmap, List.length_map, Nat.card_Ico] at hcard
    omega
  rw [h.count, UInt64.toNat_ofNat_of_lt' hlt]

/-- **The queue is a FIFO, as long as what is pushed has a null link.**  An element with
another link ends up at the end of the queue, where popping leads past it. -/
theorem queue_fifo (addr : α ↪ { a : UInt64 // a ≠ 0 }) {tr : List (QueueOp α)}
    (h : Run GoodStep (init, []) tr (q, l)) :
    (q.last = l.getLast? ∧ q.out = l.head? ∧ q.count.toNat = l.length ∧ q.empty = l.isEmpty) ∧
      (∀ op, Fifo.Legal l op → ∀ n, l.length < n →
        ∃ q', q.call n op = .ok (q', (Fifo.call l op).2)) ∧
      ∀ x, x ∉ l → q.next x ≠ none →
        ∃ q', q.push x = .ok q' ∧ (q'.pops (l.length + 1)).peek = q.next x := by
  have hrep := rep_run h
  refine ⟨⟨hrep.last, hrep.seg.eq_head?, hrep.count_eq addr, ?_⟩, ?_, ?_⟩
  · rw [empty, peek, hrep.seg.eq_head?]
    cases l <;> rfl
  · intro op hlegal n hn
    obtain ⟨q', hq', -⟩ := hrep.call hlegal hn
    exact ⟨q', hq'⟩
  · intro x hx _
    obtain ⟨q', hq', hrep'⟩ := hrep.push hx
    refine ⟨q', hq', ?_⟩
    exact (hrep'.pops (by simp)).seg

/-! ### Runs of calls that are given -/

/-- The call `op` on both, with `n` rounds for a loop. -/
def both (n : ℕ) (s : Queue α × List α) (op : QueueOp α) : Option (Queue α × List α) :=
  if Fifo.Legal s.2 op then
    (s.1.call n op).toOption.map fun r => (r.1, (Fifo.call s.2 op).1)
  else none

theorem both_step {n : ℕ} {s s' : Queue α × List α} {op : QueueOp α} (h : both n s op = some s') :
    Step s op s' := by
  unfold both at h
  split_ifs at h with hlegal
  obtain ⟨⟨q', r⟩, hcall, rfl⟩ := Option.map_eq_some_iff.mp h
  exact ⟨hlegal, rfl, n, r, toOption_eq_some hcall⟩

theorem both_goodStep {n : ℕ} {s s' : Queue α × List α} {op : QueueOp α}
    (h : (if s.1.NullNext op then both n s op else none) = some s') : GoodStep s op s' := by
  split_ifs at h with hnull
  exact ⟨both_step h, hnull⟩

/-- Two elements. -/
def one : { a : UInt64 // a ≠ 0 } := ⟨0x1000, by decide⟩

@[inherit_doc one] def two : { a : UInt64 // a ≠ 0 } := ⟨0x2000, by decide⟩

/-- An element is removed and comes back. -/
def removeThenPush : List (QueueOp { a : UInt64 // a ≠ 0 }) :=
  [.push one, .push two, .remove one, .push one, .pop]

theorem queue_fifo_removeThenPush : ∃ q, Run GoodStep (init, []) removeThenPush (q, [one]) ∧
      q.out = some one ∧ q.last = some one ∧ q.count.toNat = 1 := by
  obtain ⟨⟨q, l⟩, hrun, hl⟩ := Run.of_foldlM_map (g := Prod.snd) (v := [one])
    (f := fun s op => if s.1.NullNext op then both 2 s op else none) both_goodStep
    removeThenPush (s := (init, [])) (by decide +kernel)
  obtain rfl : l = [one] := hl
  have hfifo := (queue_fifo (.refl _) hrun).1
  exact ⟨q, hrun, hfifo.2.1, hfifo.1, hfifo.2.2.1⟩

/-- An element that was in the queue when it was reset comes back. -/
def resetThenPush : List (QueueOp { a : UInt64 // a ≠ 0 }) :=
  [.push one, .push two, .reset, .push one, .pop]

/-- After `reset` an element still has the link it had: when it is pushed again and
popped, the queue is not empty, `peek` returns an element that is not in it, and the
next `push` fails its assertion. -/
theorem reset_keeps_links : ∃ q, Run Step (init, []) resetThenPush (q, []) ∧
      q.peek = some two ∧ ∀ n, q.call n (.push one) = .error .assert := by
  obtain ⟨⟨q, l⟩, hrun, hl⟩ := Run.of_foldlM_map
    (g := fun s => (s.2, s.1.out, s.1.last)) (v := ([], some two, none))
    (f := both 2) both_step resetThenPush (s := (init, [])) (by decide +kernel)
  obtain ⟨rfl, hout, hlast⟩ : l = [] ∧ q.out = some two ∧ q.last = none := by
    simpa using hl
  refine ⟨q, hrun, hout, fun n => ?_⟩
  rw [call, push, hlast, hout]
  rfl

end Queue

end Xv6Zig
