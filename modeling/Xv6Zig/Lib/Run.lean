/-
Xv6Zig/Lib/Run.lean

Runs of labelled transition systems.

A system is a relation `step : σ → α → σ → Prop` between a state, the action
taken and the next state.  `Run step s tr t` says the actions `tr`, taken in
order, lead from `s` to `t`; the trace grows at its end, so that an induction
over a run meets the last action first and an invariant of the whole history
can mention the trace itself.

Nothing here mentions a particular system.  The two rules that are used are

* `Run.invariant` — what holds at the start and is kept by every step holds
  wherever the run leads;
* `Run.of_foldlM` — an executable step function that was folded over a list
  of actions gives the run.
-/
import Mathlib.Data.List.Induction
import Mathlib.Control.Basic

namespace Lib

variable {σ α : Type*}

/-- `Run step s tr t`: the actions `tr`, in order, lead from `s` to `t`. -/
inductive Run (step : σ → α → σ → Prop) : σ → List α → σ → Prop
  | nil (s : σ) : Run step s [] s
  | snoc {s t u : σ} {tr : List α} {a : α} :
      Run step s tr t → step t a u → Run step s (tr ++ [a]) u

namespace Run

variable {step step' : σ → α → σ → Prop} {s t u : σ} {tr tr' : List α}

/-- **Invariant rule.**  A property of the start that every step keeps holds
at the end of every run. -/
theorem invariant {I : σ → Prop} (h : Run step s tr t) (hs : I s)
    (hstep : ∀ {t a u}, I t → step t a u → I u) : I t := by
  induction h with
  | nil => exact hs
  | snoc _ hlast ih => exact hstep ih hlast

/-- The rule for runs of certain actions only. -/
theorem invariant_of_forall {I : σ → Prop} {P : α → Prop} (h : Run step s tr t) (hs : I s)
    (hall : ∀ a ∈ tr, P a) (hstep : ∀ {t a u}, I t → P a → step t a u → I u) : I t := by
  induction h with
  | nil => exact hs
  | snoc _ hlast ih =>
    have hbefore := ih fun a ha => hall a (List.mem_append_left _ ha)
    exact hstep hbefore (hall _ (List.mem_append_right _ (List.mem_singleton_self _))) hlast

theorem mono (h : Run step s tr t) (hle : ∀ {s a t}, step s a t → step' s a t) :
    Run step' s tr t := by
  induction h with
  | nil => exact .nil s
  | snoc _ hlast ih => exact ih.snoc (hle hlast)

theorem append (h : Run step s tr t) (h' : Run step t tr' u) :
    Run step s (tr ++ tr') u := by
  induction h' with
  | nil => simpa using h
  | snoc _ hlast ih => simpa [List.append_assoc] using ih.snoc hlast

theorem single {a : α} (h : step s a t) : Run step s [a] t :=
  (Run.nil s).snoc h

theorem of_nil (h : Run step s [] t) : s = t := by
  generalize htr : ([] : List α) = tr at h
  cases h with
  | nil => rfl
  | snoc => simp at htr

theorem of_snoc {a : α} (h : Run step s (tr ++ [a]) u) :
    ∃ t, Run step s tr t ∧ step t a u := by
  generalize htr : tr ++ [a] = tr' at h
  cases h with
  | nil => simp at htr
  | snoc hrun hlast =>
    obtain ⟨rfl, ha⟩ := List.append_inj' htr rfl
    obtain rfl := List.singleton_inj.mp ha
    exact ⟨_, hrun, hlast⟩

theorem of_append (h : Run step s (tr ++ tr') u) : ∃ t, Run step s tr t ∧ Run step t tr' u := by
  induction tr' using List.reverseRecOn generalizing u with
  | nil =>
    rw [List.append_nil] at h
    exact ⟨u, h, .nil u⟩
  | append_singleton tr' a ih =>
    rw [← List.append_assoc] at h
    obtain ⟨w, hw, hlast⟩ := h.of_snoc
    obtain ⟨t, ht, hrest⟩ := ih hw
    exact ⟨t, ht, hrest.snoc hlast⟩

/-- Folding an executable step function over a list of actions gives a run
of any system that has its steps. -/
theorem of_foldlM {f : σ → α → Option σ} (hf : ∀ {s a t}, f s a = some t → step s a t)
    (tr : List α) {s t : σ} (h : tr.foldlM f s = some t) : Run step s tr t := by
  induction tr generalizing s with
  | nil =>
    obtain rfl : s = t := by simpa using h
    exact .nil s
  | cons a tr ih =>
    rw [List.foldlM_cons] at h
    obtain ⟨s', hs', hrest⟩ := Option.bind_eq_some_iff.mp h
    have hone : Run step s [a] s' := single (hf hs')
    exact hone.append (ih hrest)

/-- The same for a fold of which only some `g` of the last state was evaluated. -/
theorem of_foldlM_map {γ : Type*} {f : σ → α → Option σ} {g : σ → γ} {v : γ}
    (hf : ∀ {s a t}, f s a = some t → step s a t) (tr : List α) {s : σ}
    (h : (tr.foldlM f s).map g = some v) : ∃ t, Run step s tr t ∧ g t = v := by
  obtain ⟨t, ht, hv⟩ := Option.map_eq_some_iff.mp h
  exact ⟨t, of_foldlM hf tr ht, hv⟩

end Run

end Lib
