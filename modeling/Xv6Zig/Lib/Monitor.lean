/-
Xv6Zig/Lib/Monitor.lean

Calls that sleep under a lock.

A call runs a section of code on the shared state, under the lock.  It goes to
sleep, which gives the lock up, and starts again when it is woken; or it returns
with a new state and may wake all sleepers.  So a run interleaves whole
sections, with spurious wakeups in between.

`Monitor.sound_of_run`: if the sections keep an invariant, and one that does
not wake unblocks nobody, then along every run whoever sleeps would only go
back to sleep.  No wakeup is lost.
-/
import Mathlib.Logic.Function.Basic
import Xv6Zig.Lib.Run

namespace Lib

open Function

variable {σ ε π : Type*}

/-- How a section ends. -/
inductive Section (σ : Type*)
  | sleeps
  | returns (s : σ) (wakes : Bool)

/-- Where a process is with its call. -/
inductive Place (ε : Type*)
  | outside
  | asleep (e : ε)
  | woken (e : ε)

def Place.wake : Place ε → Place ε
  | asleep e => woken e
  | place => place

structure Monitor (σ ε π : Type*) where
  shared : σ
  place : π → Place ε

namespace Monitor

inductive Act (ε π : Type*)
  | call (p : π) (e : ε)
  | resume (p : π)
  /-- A wakeup that no section of this monitor sends. -/
  | spurious (p : π)

/-- `body p e s` is the section of the call `e` by `p`; `none` where `p` may not
make the call. -/
abbrev Body (σ ε π : Type*) := π → ε → σ → Option (Section σ)

variable [DecidableEq π]

/-- The monitor after a section. -/
def leave (m : Monitor σ ε π) (p : π) (e : ε) : Section σ → Monitor σ ε π
  | .sleeps => { m with place := update m.place p (.asleep e) }
  | .returns s wakes =>
      ⟨s, update (fun q => if wakes then (m.place q).wake else m.place q) p .outside⟩

variable (body : Body σ ε π)

def next (m : Monitor σ ε π) : Act ε π → Option (Monitor σ ε π)
  | .call p e => match m.place p with
      | .outside => (body p e m.shared).map (m.leave p e)
      | _ => none
  | .resume p => match m.place p with
      | .woken e => (body p e m.shared).map (m.leave p e)
      | _ => none
  | .spurious p => some { m with place := update m.place p (m.place p).wake }

def Step (m : Monitor σ ε π) (a : Act ε π) (m' : Monitor σ ε π) : Prop :=
  m.next body a = some m'

/-- Nobody is inside. -/
def start (s : σ) : Monitor σ ε π := ⟨s, fun _ => .outside⟩

/-- What the sections have to do. -/
def Rules (I : σ → Prop) : Prop :=
  ∀ {p e s s' w}, I s → body p e s = some (.returns s' w) →
    I s' ∧ (w = false → ∀ {q e'}, body q e' s = some .sleeps → body q e' s' = some .sleeps)

/-- The invariant holds, and whoever sleeps has to. -/
structure Sound (I : σ → Prop) (m : Monitor σ ε π) : Prop where
  inv : I m.shared
  asleep : ∀ {p e}, m.place p = .asleep e → body p e m.shared = some .sleeps

variable {body} {I : σ → Prop} {m m' : Monitor σ ε π} {p : π} {e : ε}

theorem wake_ne_asleep (w : Place ε) : w.wake ≠ .asleep e := by
  cases w <;> rintro ⟨⟩

/-- It is enough to look at the process that has moved and at the others. -/
theorem Sound.of_update {s : σ} {place : π → Place ε} {w : Place ε} (hI : I s)
    (hp : ∀ {e}, w = .asleep e → body p e s = some .sleeps)
    (hothers : ∀ {q e}, place q = .asleep e → body q e s = some .sleeps) :
    Sound body I ⟨s, update place p w⟩ := by
  refine ⟨hI, fun {q e} hq => ?_⟩
  change update place p w q = _ at hq
  rcases eq_or_ne q p with rfl | hne
  · rw [update_self] at hq
    exact hp hq
  · rw [update_of_ne hne] at hq
    exact hothers hq

theorem Sound.leave (h : Sound body I m) (hrules : Rules body I) {o : Section σ}
    (ho : body p e m.shared = some o) : Sound body I (m.leave p e o) := by
  cases o with
  | sleeps =>
    apply Sound.of_update h.inv _ h.asleep
    rintro e' ⟨⟩
    exact ho
  | returns s wakes =>
    apply Sound.of_update ((hrules h.inv ho).1)
    · rintro e' ⟨⟩
    · intro q e' hq
      -- whoever is still asleep was not woken
      cases wakes with
      | true => exact absurd hq (wake_ne_asleep _)
      | false => exact (hrules h.inv ho).2 rfl (h.asleep hq)

theorem Sound.next (h : Sound body I m) (hrules : Rules body I) {a : Act ε π}
    (hstep : Step body m a m') : Sound body I m' := by
  cases a with
  | call p e | resume p =>
    simp only [Step, Monitor.next] at hstep
    split at hstep
    · obtain ⟨o, ho, rfl⟩ := Option.map_eq_some_iff.mp hstep
      exact h.leave hrules ho
    · cases hstep
  | spurious p =>
    cases hstep
    apply Sound.of_update h.inv _ h.asleep
    intro e hp
    exact absurd hp (wake_ne_asleep _)

/-- **No wakeup is lost.** -/
theorem sound_of_run (hrules : Rules body I) {s : σ} (hs : I s) {tr : List (Act ε π)}
    (hrun : Run (Step body) (start s) tr m) : Sound body I m :=
  hrun.invariant ⟨hs, fun hp => by cases hp⟩ fun h hstep => h.next hrules hstep

/-- A run that was evaluated up to where `p` is. -/
theorem exists_run (body : Body σ ε π) (s : σ) (p : π) (tr : List (Act ε π)) {w : Place ε}
    (h : (tr.foldlM (next body) (start s)).map (fun m => m.place p) = some w) :
    ∃ m, Run (Step body) (start s) tr m ∧ m.place p = w :=
  Run.of_foldlM_map id tr h

end Monitor

end Lib
