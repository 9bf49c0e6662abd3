/-
Xv6Zig/Lib/Outcome.lean

Programs in `Except`: a sequence returns when each of its parts does.

`bind_eq_ok` takes a sequence that returned apart, `ok_bind` runs one whose
first part is known to return.

`Ends x E Q` says how a program ends, whichever way it does: a value it
returns satisfies `Q`, an error it stops with satisfies `E`.  With `E` false it
says that the program returns.
-/
import Mathlib.Data.List.Basic
import Mathlib.Control.Basic

namespace Lib

variable {ε α β : Type}

theorem bind_eq_ok {x : Except ε α} {f : α → Except ε β} {b : β} :
    (x >>= f) = .ok b ↔ ∃ a, x = .ok a ∧ f a = .ok b := by
  rcases x with e | a
  · constructor
    · exact fun h => nomatch h
    · rintro ⟨a, ha, -⟩
      cases ha
  · constructor
    · exact fun h => ⟨a, rfl, h⟩
    · rintro ⟨a', ha, h⟩
      cases ha
      exact h

@[simp] theorem ok_bind (a : α) (f : α → Except ε β) : (Except.ok a >>= f) = f a := rfl

@[simp] theorem error_bind (e : ε) (f : α → Except ε β) :
    (Except.error e >>= f) = (Except.error e : Except ε β) := rfl

theorem toOption_eq_some {ε α : Type*} {x : Except ε α} {a : α} (h : x.toOption = some a) :
    x = .ok a := by
  rcases x with e | b
  · cases h
  · cases h
    rfl

/-- What was decided of a value holds of one. -/
theorem exists_of_decide {α : Type*} {o : Option α} {P : α → Prop} [DecidablePred P]
    (h : o.map (fun a => decide (P a)) = some true) : ∃ a, o = some a ∧ P a := by
  obtain ⟨a, ha, hP⟩ := Option.map_eq_some_iff.mp h
  exact ⟨a, ha, of_decide_eq_true hP⟩

/-- The error of a program, if it ends with one. -/
def errorOf : Except ε α → Option ε
  | .ok _ => none
  | .error e => some e

theorem eq_error_of_errorOf {x : Except ε α} {e : ε} (h : errorOf x = some e) : x = .error e := by
  rcases x with e' | a
  · cases h
    rfl
  · cases h

/-! ### How a program ends -/

/-- A value satisfies `Q`, an error `E`. -/
def Ends (x : Except ε α) (E : ε → Prop) (Q : α → Prop) : Prop :=
  match x with
  | .ok a => Q a
  | .error e => E e

namespace Ends

variable {x : Except ε α} {E E' : ε → Prop} {Q Q' : α → Prop}

theorem of_ok {a : α} (h : Ends x E Q) (hx : x = .ok a) : Q a := by
  rw [hx] at h
  exact h

theorem of_error {e : ε} (h : Ends x E Q) (hx : x = .error e) : E e := by
  rw [hx] at h
  exact h

theorem of_eq_ok {a : α} (hx : x = .ok a) (ha : Q a) : Ends x E Q := by
  rw [hx]
  exact ha

/-- What is known of the values and of the errors apart. -/
theorem intro (hok : ∀ a, x = .ok a → Q a) (herror : ∀ e, x = .error e → E e) : Ends x E Q := by
  rcases x with e | a
  · exact herror e rfl
  · exact hok a rfl

theorem mono (h : Ends x E Q) (hE : ∀ e, E e → E' e) (hQ : ∀ a, Q a → Q' a) : Ends x E' Q' :=
  intro (fun a hx => hQ a (h.of_ok hx)) (fun e hx => hE e (h.of_error hx))

/-- **Sequencing.** -/
theorem bind {P : β → Prop} {f : α → Except ε β} (h : Ends x E Q)
    (hf : ∀ a, Q a → Ends (f a) E P) : Ends (x >>= f) E P := by
  rcases x with e | a
  · exact h
  · exact hf a h

theorem returns (h : Ends x (fun _ => False) Q) : ∃ a, x = .ok a ∧ Q a := by
  rcases x with e | a
  · exact h.elim
  · exact ⟨a, rfl, h⟩

end Ends

/-- **Rule for loops.**  What holds before the loop and is kept by every round
holds after it; an error comes from one of the rounds. -/
theorem Ends.foldlM {I : β → Prop} {E : ε → Prop} {f : β → α → Except ε β} {l : List α} {b : β}
    (hb : I b) (hstep : ∀ {b} {a}, a ∈ l → I b → Ends (f b a) E I) : Ends (l.foldlM f b) E I := by
  induction l generalizing b with
  | nil => exact hb
  | cons a l ih =>
    rw [List.foldlM_cons]
    apply Ends.bind (hstep List.mem_cons_self hb)
    intro c hc
    exact ih hc fun ha => hstep (List.mem_cons_of_mem a ha)

end Lib
