/-
Xv6Zig/SleepLock.lean

Sleep locks (`kernel/sleeplock.c`).

Such a lock is the word `locked`, under a spinlock, and the `pid` of its
holder, by which `holdingsleep` tells a process whether it holds the lock.
`sleeplock_exclusive` says for every interleaving that one process at most is
between `acquiresleep` and `releasesleep`, that `holdingsleep` answers for it
alone, and that nobody sleeps on a free lock.  Processes are named by their pids.
That `sleep` gives the lock up and sleeps in one step is shown in `SleepWakeup.lean`.
-/
import Xv6Zig.Lib.Monitor

namespace Xv6Zig

open Lib Function

/-- `struct sleeplock`, and who has returned from `acquiresleep` and has not
called `releasesleep` yet. -/
structure Sleeplock where
  locked : Bool
  pid : ℕ
  inside : ℕ → Bool

namespace Sleeplock

inductive Call
  | acquiresleep
  | releasesleep

def initsleeplock : Sleeplock := ⟨false, 0, fun _ => false⟩

def acquiresleep (lk : Sleeplock) (p : ℕ) : Section Sleeplock :=
  if lk.locked then .sleeps else .returns ⟨true, p, update lk.inside p true⟩ false

def releasesleep (lk : Sleeplock) (p : ℕ) : Section Sleeplock :=
  .returns ⟨false, 0, update lk.inside p false⟩ true

def holdingsleep (lk : Sleeplock) (p : ℕ) : Bool :=
  lk.locked && lk.pid == p

/-- The callers of `releasesleep` (`brelse`, `iunlock`) panic unless
`holdingsleep`. -/
def body : Monitor.Body Sleeplock Call ℕ
  | p, .acquiresleep, lk => some (lk.acquiresleep p)
  | p, .releasesleep, lk => if lk.holdingsleep p then some (lk.releasesleep p) else none

/-- `holdingsleep` is right about everybody. -/
def Inv (lk : Sleeplock) : Prop :=
  ∀ p, lk.holdingsleep p = lk.inside p

variable {lk : Sleeplock} {p : ℕ} {e : Call}

theorem holdingsleep_iff : lk.holdingsleep p = true ↔ lk.locked = true ∧ lk.pid = p := by
  simp [holdingsleep]

theorem of_body_sleeps (h : body p e lk = some .sleeps) : lk.locked = true := by
  cases e with
  | acquiresleep =>
    by_contra hfree
    simp [body, acquiresleep, hfree] at h
  | releasesleep =>
    simp only [body, releasesleep] at h
    split at h <;> cases h

theorem rules : Monitor.Rules body Inv := by
  intro p e lk lk' w h hbody
  cases e with
  | acquiresleep =>
    simp only [body, acquiresleep] at hbody
    split_ifs at hbody with hfree <;> cases hbody
    -- whoever would sleep has not found the lock free
    refine ⟨fun q => ?_, fun _ q e' hq => absurd (of_body_sleeps hq) hfree⟩
    have hq := h q
    rcases eq_or_ne q p with rfl | hne
    · simp [holdingsleep]
    · simpa [holdingsleep, hfree, hne, beq_false_of_ne hne.symm] using hq
  | releasesleep =>
    simp only [body, releasesleep] at hbody
    split_ifs at hbody with hhold
    cases hbody
    obtain ⟨-, rfl⟩ := holdingsleep_iff.mp hhold
    refine ⟨fun q => ?_, by rintro ⟨⟩⟩
    have hq := h q
    rcases eq_or_ne q lk.pid with rfl | hne
    · simp [holdingsleep]
    · simpa [holdingsleep, hne, beq_false_of_ne hne.symm] using hq

end Sleeplock

/-- **A sleep lock has one holder, which `holdingsleep` knows, and nobody sleeps
on a free one.** -/
theorem sleeplock_exclusive {tr : List (Monitor.Act Sleeplock.Call ℕ)}
    {m : Monitor Sleeplock Sleeplock.Call ℕ}
    (hrun : Run (Monitor.Step Sleeplock.body) (.start .initsleeplock) tr m) :
    (∀ p q, m.shared.inside p = true → m.shared.inside q = true → p = q) ∧
      (∀ p, m.shared.holdingsleep p = m.shared.inside p) ∧
      ∀ p e, m.place p = .asleep e → ∃ q, m.shared.inside q = true := by
  obtain ⟨hinv, hasleep⟩ := Monitor.sound_of_run Sleeplock.rules (fun _ => rfl) hrun
  refine ⟨fun p q hp hq => ?_, hinv, fun p e hp => ?_⟩
  · rw [← hinv, Sleeplock.holdingsleep_iff] at hp hq
    exact hp.2.symm.trans hq.2
  · have hlocked := Sleeplock.of_body_sleeps (hasleep hp)
    exact ⟨m.shared.pid, by rw [← hinv]; exact Sleeplock.holdingsleep_iff.mpr ⟨hlocked, rfl⟩⟩

/-- The second of two processes sleeps while the first is inside. -/
theorem sleeplock_exclusive_two :
    ∃ m : Monitor Sleeplock Sleeplock.Call ℕ, m.place 2 = .asleep .acquiresleep ∧
      ∃ q, m.shared.inside q = true := by
  obtain ⟨m, hrun, hm⟩ := Monitor.exists_run Sleeplock.body .initsleeplock 2
    [.call 1 .acquiresleep, .call 2 .acquiresleep] rfl
  exact ⟨m, hm, (sleeplock_exclusive hrun).2.2 2 _ hm⟩

end Xv6Zig
