/-
Xv6Zig/SysSleep.lean

`sys_sleep` (`kernel/sysproc.c`) against the clock (`clockintr` in `kernel/trap.c`).

The call notes the time and then goes around its loop: it looks at the time, sleeps,
and is woken by the clock or for another reason.  The time is 32 bits and wraps.  In

    ticks - ticks0 < n

the left side is unsigned, so the comparison is, and a negative `n` is a large number.
-/
import Mathlib.Data.List.Count
import Mathlib.Data.UInt

namespace Xv6Zig

namespace SysSleep

/-- Where the call is. -/
inductive Place
  /-- before the test of the loop; `ticks0` -/
  | test (ticks0 : UInt32)
  | asleep (ticks0 : UInt32)
  | returned (r : ℤ)
  deriving DecidableEq, Repr

structure State where
  ticks : UInt32
  place : Place
  deriving DecidableEq, Repr

/-- What can happen. -/
inductive Event
  /-- `clockintr` -/
  | clock
  /-- a wakeup that is not the clock's -/
  | wake
  /-- the process runs, up to its next sleep or its return -/
  | run (killed : Bool)
  deriving DecidableEq, Repr

/-- `wakeup(&ticks)`. -/
def Place.wakeup : Place → Place
  | .asleep ticks0 => .test ticks0
  | p => p

/-- One event, for a call of `sys_sleep` with argument `n`. -/
def step (n : Int32) (s : State) : Event → State
  | .clock => ⟨s.ticks + 1, s.place.wakeup⟩
  | .wake => { s with place := s.place.wakeup }
  | .run killed =>
      match s.place with
      | .test ticks0 =>
          if s.ticks - ticks0 < n.toUInt32 then
            if killed then { s with place := .returned (-1) } else { s with place := .asleep ticks0 }
          else { s with place := .returned 0 }
      | _ => s

/-- The call at time `ticks0`, and what has happened since. -/
def after (n : Int32) (ticks0 : UInt32) (es : List Event) : State :=
  es.foldl (step n) ⟨ticks0, .test ticks0⟩

/-- The increments of `ticks`. -/
def clocks (es : List Event) : ℕ := es.count .clock

variable {n : Int32} {ticks0 : UInt32} {es : List Event}

/-- The clock counts, and the call keeps the time it began at. -/
theorem after_ticks (n : Int32) (ticks0 : UInt32) (es : List Event) :
    (after n ticks0 es).ticks = ticks0 + UInt32.ofNat (clocks es) ∧
      ∀ t, (after n ticks0 es).place = .test t ∨ (after n ticks0 es).place = .asleep t →
        t = ticks0 := by
  induction es using List.reverseRecOn with
  | nil =>
    refine ⟨(UInt32.add_zero ticks0).symm, ?_⟩
    rintro t (h | h)
    · exact (Place.test.inj h).symm
    · cases h
  | append_singleton es e ih =>
    obtain ⟨hticks, hplace⟩ := ih
    have hafter : after n ticks0 (es ++ [e]) = step n (after n ticks0 es) e := by
      unfold after
      rw [List.foldl_append]
      rfl
    have hclocks : clocks (es ++ [e]) = clocks es + if e = .clock then 1 else 0 := by
      unfold clocks
      rw [List.count_append, List.count_singleton]
      simp
    have hwakeup : ∀ {p : Place} {t}, p.wakeup = .test t ∨ p.wakeup = .asleep t →
        p = .test t ∨ p = .asleep t := by
      rintro (_ | _ | _) t h
      · exact h
      · rcases h with h | h
        · exact .inr (congrArg Place.asleep (Place.test.inj h))
        · cases h
      · exact h
    rw [hafter, hclocks]
    cases e with
    | clock =>
      refine ⟨?_, fun t ht => hplace t (hwakeup ht)⟩
      show (after n ticks0 es).ticks + 1 = _
      rw [hticks, if_pos rfl, UInt32.ofNat_add, UInt32.add_assoc]
      rfl
    | wake => exact ⟨hticks, fun t ht => hplace t (hwakeup ht)⟩
    | run killed =>
      rw [if_neg (by simp), Nat.add_zero]
      rcases hp : (after n ticks0 es).place with t | t | r <;> rw [hp] at hplace
      · simp only [step, hp]
        split
        · split
          · exact ⟨hticks, by simp⟩
          · refine ⟨hticks, ?_⟩
            rintro u (h | h)
            · cases h
            · exact Place.asleep.inj h ▸ hplace t (.inl rfl)
        · exact ⟨hticks, by simp⟩
      · simp only [step, hp]
        exact ⟨hticks, hplace⟩
      · simp only [step, hp]
        exact ⟨hticks, hplace⟩

/-- The time since the call, as the test of the loop computes it. -/
theorem elapsed (h : clocks es < 2 ^ 32) :
    ((after n ticks0 es).ticks - ticks0).toNat = clocks es := by
  rw [(after_ticks n ticks0 es).1, add_sub_cancel_left, UInt32.toNat_ofNat',
    Nat.mod_eq_of_lt h]

/-- One evaluation of the loop test, after the events `es`, as it should be: the call returns
0 if the time has come and goes back to sleep if not. -/
def InTime (n : Int32) (ticks0 : UInt32) (es : List Event) : Prop :=
  (step n (after n ticks0 es) (.run false)).place =
    if max n.toInt 0 ≤ clocks es then .returned 0 else .asleep ticks0

/-- **`sleep` waits the requested time**, however the clock wraps, if and only if that is
not negative. -/
theorem sleep_in_time_iff (n : Int32) :
    (∀ ticks0 es, clocks es < 2 ^ 32 → .run true ∉ es → (after n ticks0 es).place = .test ticks0 →
      InTime n ticks0 es) ↔ 0 ≤ n.toInt := by
  constructor
  · intro h
    by_contra hneg
    -- a negative argument does not even pass the first test
    have hfirst := h 0 [] (by decide) List.not_mem_nil rfl
    have htest : (0 : UInt32) - 0 < n.toUInt32 := by
      rw [UInt32.sub_self, UInt32.pos_iff_ne_zero]
      intro hzero
      apply hneg
      show 0 ≤ n.toUInt32.toBitVec.toInt
      rw [hzero]
      decide
    unfold InTime at hfirst
    rw [if_pos (by rw [max_eq_right (by omega)]; rfl)] at hfirst
    change (if _ then _ else _ : State).place = _ at hfirst
    rw [if_pos (show (after n 0 []).ticks - 0 < n.toUInt32 from htest)] at hfirst
    cases hfirst
  · intro hn ticks0 es hclocks _ hplace
    have htest : (after n ticks0 es).ticks - ticks0 < n.toUInt32 ↔ ¬ max n.toInt 0 ≤ clocks es := by
      rw [UInt32.lt_iff_toNat_lt, elapsed hclocks, max_eq_left hn, not_le]
      have hint : (n.toUInt32.toNat : ℤ) = n.toInt := by
        rw [← Int32.toInt_toBitVec, BitVec.toInt_eq_toNat_of_msb]
        · rfl
        · rw [BitVec.msb_eq_toInt]
          simpa using hn
      omega
    unfold InTime
    rw [step, hplace]
    dsimp only
    by_cases hle : max n.toInt 0 ≤ clocks es
    · rw [if_pos hle, if_neg (mt htest.mp (not_not.mpr hle))]
    · rw [if_neg hle, if_pos (htest.mpr hle)]
      rfl

/-- `sleep(-1)` sleeps. -/
theorem sleep_negative :
    (after (-1) 0 [.run false]).place = .asleep 0 ∧ ¬ InTime (-1) 0 [] := by
  refine ⟨by decide, ?_⟩
  unfold InTime
  decide

end SysSleep

end Xv6Zig
