/-
Xv6Zig/Lib/Bump.lean

Blocks of one size that are handed out downwards.

The allocator has a top and takes every new block from right below it.  A
block that is given back moves the top up again only if it is the one at the
top; any other leaves a hole that is never used again.

`Ok` says that the blocks lie apart between the top and the limit, and holds
whatever the order.  `Balanced` is the account: the room between the top and
the limit is that of the blocks in use and of the holes.
-/
import Xv6Zig.Lib.Updates

namespace Lib

open Function

/-- The top and, for each block in use, where it starts. -/
structure Bump (ι : Type*) where
  top : ℕ
  base : ι → Option ℕ

namespace Bump

variable {ι : Type*} [DecidableEq ι] {w limit lost : ℕ} {s s' : Bump ι} {i : ι}

/-- A block of size `w` is handed out. -/
def push (w : ℕ) (s : Bump ι) (i : ι) : Bump ι :=
  ⟨s.top - w, update s.base i (some (s.top - w))⟩

/-- A block of size `w` is given back. -/
def drop (w : ℕ) (s : Bump ι) (i : ι) : Bump ι :=
  ⟨if s.base i = some s.top then s.top + w else s.top, update s.base i none⟩

@[simp] theorem push_top (w : ℕ) (s : Bump ι) (i : ι) : (s.push w i).top = s.top - w := rfl

@[simp] theorem push_base (w : ℕ) (s : Bump ι) (i : ι) :
    (s.push w i).base = update s.base i (some (s.top - w)) := rfl

@[simp] theorem drop_base (w : ℕ) (s : Bump ι) (i : ι) :
    (s.drop w i).base = update s.base i none := rfl

theorem drop_top (w : ℕ) (s : Bump ι) (i : ι) :
    (s.drop w i).top = if s.base i = some s.top then s.top + w else s.top := rfl

/-- The blocks are between the top and the limit, and apart. -/
structure Ok (w limit : ℕ) (s : Bump ι) : Prop where
  top_le : s.top ≤ limit
  block : ∀ i b, s.base i = some b → s.top ≤ b ∧ b + w ≤ limit
  apart : ∀ i j b c, i ≠ j → s.base i = some b → s.base j = some c → b + w ≤ c ∨ c + w ≤ b

namespace Ok

theorem push (h : Ok w limit s) (hw : w ≤ s.top) : Ok w limit (s.push w i) := by
  have htop := h.top_le
  -- the new block is below every other one
  have hother : ∀ j b, j ≠ i → (s.push w i).base j = some b → s.base j = some b := by
    intro j b hj hb
    rwa [push_base, update_of_ne hj] at hb
  have hself : ∀ b, (s.push w i).base i = some b → b = s.top - w := by
    intro b hb
    rw [push_base, update_self] at hb
    exact (Option.some.inj hb).symm
  refine ⟨by rw [push_top]; omega, fun j b hb => ?_, fun j k b c hjk hb hc => ?_⟩
  · by_cases hj : j = i
    · obtain rfl := hself b (hj ▸ hb)
      rw [push_top]
      omega
    · obtain ⟨h₁, h₂⟩ := h.block j b (hother j b hj hb)
      rw [push_top]
      omega
  · by_cases hj : j = i
    · obtain rfl := hself b (hj ▸ hb)
      have hk : k ≠ i := fun heq => hjk (hj.trans heq.symm)
      have := (h.block k c (hother k c hk hc)).1
      omega
    · by_cases hk : k = i
      · obtain rfl := hself c (hk ▸ hc)
        have := (h.block j b (hother j b hj hb)).1
        omega
      · exact h.apart j k b c hjk (hother j b hj hb) (hother k c hk hc)

theorem drop (h : Ok w limit s) : Ok w limit (s.drop w i) := by
  have hother : ∀ j b, (s.drop w i).base j = some b → j ≠ i ∧ s.base j = some b := by
    intro j b hb
    by_cases hj : j = i
    · rw [hj, drop_base, update_self] at hb
      cases hb
    · rw [drop_base, update_of_ne hj] at hb
      exact ⟨hj, hb⟩
  have htop : (s.drop w i).top ≤ limit ∧
      ∀ j b, (s.drop w i).base j = some b → (s.drop w i).top ≤ b := by
    rw [drop_top]
    by_cases hlow : s.base i = some s.top
    · rw [if_pos hlow]
      refine ⟨(h.block i _ hlow).2, fun j b hb => ?_⟩
      -- a block that is not the lowest lies above it
      obtain ⟨hj, hb⟩ := hother j b hb
      have habove := (h.block j b hb).1
      have hsame := h.apart i j _ b (Ne.symm hj) hlow hb
      omega
    · rw [if_neg hlow]
      exact ⟨h.top_le, fun j b hb => (h.block j b (hother j b hb).2).1⟩
  refine ⟨htop.1, fun j b hb => ⟨htop.2 j b hb, (h.block j b (hother j b hb).2).2⟩, ?_⟩
  intro j k b c hjk hb hc
  exact h.apart j k b c hjk (hother j b hb).2 (hother k c hc).2

omit [DecidableEq ι] in
theorem of_sub (h : Ok w limit s) (htop : s'.top = s.top)
    (hbase : ∀ i b, s'.base i = some b → s.base i = some b) : Ok w limit s' := by
  refine ⟨htop ▸ h.top_le, fun i b hb => ?_, fun i j b c hij hb hc => ?_⟩
  · rw [htop]
    exact h.block i b (hbase i b hb)
  · exact h.apart i j b c hij (hbase i b hb) (hbase j c hc)

omit [DecidableEq ι] in
theorem empty (htop : s.top = limit) (hbase : ∀ i, s.base i = none) : Ok w limit s := by
  have hno : ∀ i b, s.base i ≠ some b := by
    intro i b hb
    rw [hbase i] at hb
    cases hb
  exact ⟨htop.le, fun i b hb => absurd hb (hno i b), fun i j b c _ hb => absurd hb (hno i b)⟩

end Ok

/-! ### The account -/

section Account

variable [Fintype ι]

/-- How many blocks are in use. -/
def count (s : Bump ι) : ℕ :=
  ∑ i, (s.base i).toList.length

theorem count_push (hi : s.base i = none) : (s.push w i).count = s.count + 1 := by
  have hsum := sum_update_add (fun b => b.toList.length) s.base i (some (s.top - w))
  simpa [count, hi] using hsum

theorem count_drop (hi : s.base i ≠ none) : (s.drop w i).count + 1 = s.count := by
  obtain ⟨b, hb⟩ := Option.ne_none_iff_exists'.mp hi
  have hsum := sum_update_add (fun b => b.toList.length) s.base i none
  simpa [count, hb] using hsum

/-- **The room above the top is that of the blocks and of `lost` holes.** -/
def Balanced (w limit lost : ℕ) (s : Bump ι) : Prop :=
  s.top + w * (s.count + lost) = limit

theorem Balanced.push (h : Balanced w limit lost s) (hw : w ≤ s.top) (hi : s.base i = none) :
    Balanced w limit lost (s.push w i) := by
  unfold Balanced at h ⊢
  rw [count_push hi, show s.count + 1 + lost = s.count + lost + 1 by omega, Nat.mul_succ, push_top]
  omega

/-- Every block that is not given back at the top is a hole. -/
theorem Balanced.drop (h : Balanced w limit lost s) (hi : s.base i ≠ none) :
    Balanced w limit (lost + if s.base i = some s.top then 0 else 1) (s.drop w i) := by
  have hcount := count_drop (w := w) hi
  unfold Balanced at h ⊢
  rw [drop_top]
  generalize (s.drop w i).count = n at hcount ⊢
  split_ifs with hlow
  · rw [← hcount, show n + 1 + lost = n + (lost + 0) + 1 by omega, Nat.mul_succ] at h
    omega
  · rw [← hcount, show n + 1 + lost = n + (lost + 1) by omega] at h
    exact h

end Account

end Bump

end Lib
