/-
# `Tesla.Lib.Ensures` — postconditions of computations that may fail

`Ensures x Q E`: if `x` returns, its result satisfies `Q`; if it fails, its
error satisfies `E`.  One statement for both exits keeps a safety property
("this error never happens") and an invariant in a single induction.
-/
import Mathlib.Tactic.TypeStar

namespace Tesla.Lib

universe u

variable {ε : Type*} {α : Type u} {x : Except ε α} {Q Q' : α → Prop} {E : ε → Prop}

def Ensures (x : Except ε α) (Q : α → Prop) (E : ε → Prop) : Prop :=
  match x with
  | .ok a => Q a
  | .error e => E e

@[simp] theorem ensures_ok {a : α} : Ensures (.ok a : Except ε α) Q E ↔ Q a := Iff.rfl

@[simp] theorem ensures_error {e : ε} : Ensures (.error e : Except ε α) Q E ↔ E e := Iff.rfl

theorem Ensures.of_ok {a : α} (h : Ensures x Q E) (hx : x = .ok a) : Q a := by
  rw [hx] at h
  exact h

theorem Ensures.of_error {e : ε} (h : Ensures x Q E) (hx : x = .error e) : E e := by
  rw [hx] at h
  exact h

/-- Both exits, proved apart. -/
theorem Ensures.intro (hok : ∀ a, x = .ok a → Q a) (herr : ∀ e, x = .error e → E e) :
    Ensures x Q E := by
  cases hx : x with
  | ok a => exact hok a hx
  | error e => exact herr e hx

theorem Ensures.imp {E' : ε → Prop} (h : Ensures x Q E) (hok : ∀ a, Q a → Q' a)
    (herr : ∀ e, E e → E' e) : Ensures x Q' E' := by
  cases x with
  | ok a => exact hok a h
  | error e => exact herr e h

/-- What the second part ensures after what the first one does. -/
theorem Ensures.bind {β : Type u} {R : β → Prop} {f : α → Except ε β} (h : Ensures x Q E)
    (hf : ∀ a, Q a → Ensures (f a) R E) : Ensures (x >>= f) R E := by
  cases x with
  | ok a => exact hf a h
  | error e => exact h

/-- A computation in two parts returns when both do. -/
theorem bind_eq_ok {β : Type u} {f : α → Except ε β} {b : β} :
    x >>= f = .ok b ↔ ∃ a, x = .ok a ∧ f a = .ok b := by
  cases x with
  | ok a =>
    constructor
    · exact fun h => ⟨a, rfl, h⟩
    · rintro ⟨_, ha, h⟩
      cases ha
      exact h
  | error e =>
    constructor
    · intro h
      cases h
    · rintro ⟨_, h, _⟩
      cases h

/-- What holds at first and is kept by every round holds at the end. -/
theorem foldlM_keeps {α β : Type u} {f : β → α → Except ε β} {P : β → Prop}
    (hstep : ∀ b x b', P b → f b x = .ok b' → P b') {xs : List α} {b b' : β}
    (h : xs.foldlM f b = .ok b') (hb : P b) : P b' := by
  induction xs generalizing b with
  | nil =>
    cases h
    exact hb
  | cons x xs ih =>
    rw [List.foldlM_cons] at h
    obtain ⟨b₁, h₁, h⟩ := bind_eq_ok.mp h
    exact ih h (hstep b x b₁ hb h₁)

theorem ok_of_toOption {a : α} (h : x.toOption = some a) : x = .ok a := by
  cases x with
  | ok b => cases h; rfl
  | error e => cases h

end Tesla.Lib
