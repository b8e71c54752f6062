/-
# `Tesla.Lib.Attempt` — computations that may fail, and keep what they have done

An attempt has a state, and the state is there whether it returns or not: a log of what went
wrong, or tables that have been filled on the way.

A `Discipline` says what every part of a computation keeps: an invariant, how the state may have
changed, and what is so when it fails.  `Keeps` is the claim about one attempt from one state.
Its rules follow the shape of the attempt, so a recursive computation needs one induction.
-/
import Mathlib.Tactic.TypeStar

namespace Tesla.Lib

/-- A failure does not undo the state. -/
abbrev Attempt (ε σ α : Type) := ExceptT ε (StateM σ) α

variable {ε σ α β : Type} {x : Attempt ε σ α} {f : α → Attempt ε σ β} {s t u : σ} {a : α} {b : β}
  {e : ε}

namespace Attempt

theorem bind_apply : (x >>= f) s =
    match x s with
    | (.ok a, t) => f a t
    | (.error e, t) => (.error e, t) := by
  rcases h : x s with ⟨a | a, t⟩ <;> simp [bind, ExceptT.bind, ExceptT.mk, StateT.bind, h] <;> rfl

@[simp] theorem pure_apply : (pure a : Attempt ε σ α) s = (.ok a, s) := rfl

@[simp] theorem throw_apply : (throw e : Attempt ε σ α) s = (.error e, s) := rfl

@[simp] theorem modify_apply {g : σ → σ} : (modify g : Attempt ε σ PUnit) s = (.ok ⟨⟩, g s) := rfl

@[simp] theorem set_apply : (set t : Attempt ε σ PUnit) s = (.ok ⟨⟩, t) := rfl

@[simp] theorem get_apply : (get : Attempt ε σ σ) s = (.ok s, s) := rfl

theorem bind_ok (h : x s = (.ok a, t)) : (x >>= f) s = f a t := by
  rw [bind_apply, h]

theorem bind_error (h : x s = (.error e, t)) : (x >>= f) s = (.error e, t) := by
  rw [bind_apply, h]

end Attempt

/-- What every part of a computation keeps. -/
structure Discipline (ε σ : Type) where
  inv : σ → Prop
  after : σ → σ → Prop
  fails : ε → σ → σ → Prop
  refl : ∀ s, after s s
  trans : ∀ {s t u}, after s t → after t u → after s u
  late : ∀ {e s t u}, after s t → fails e t u → fails e s u

namespace Discipline

variable {D : Discipline ε σ} {Q Q' : α → σ → Prop} {R : β → σ → Prop}

def Keeps (D : Discipline ε σ) (x : Attempt ε σ α) (s : σ) (Q : α → σ → Prop) : Prop :=
  D.inv s →
    match x s with
    | (.ok a, t) => D.inv t ∧ D.after s t ∧ Q a t
    | (.error e, t) => D.fails e s t

theorem Keeps.of_ok (h : D.Keeps x s Q) (hs : D.inv s) (hx : x s = (.ok a, t)) :
    D.inv t ∧ D.after s t ∧ Q a t := by
  have := h hs
  rwa [hx] at this

theorem Keeps.of_error (h : D.Keeps x s Q) (hs : D.inv s) (hx : x s = (.error e, t)) :
    D.fails e s t := by
  have := h hs
  rwa [hx] at this

/-- Both exits, proved apart. -/
theorem Keeps.intro (hok : ∀ a t, D.inv s → x s = (.ok a, t) → D.inv t ∧ D.after s t ∧ Q a t)
    (herror : ∀ e t, D.inv s → x s = (.error e, t) → D.fails e s t) : D.Keeps x s Q := by
  intro hs
  rcases hx : x s with ⟨e | a, t⟩
  · exact herror e t hs hx
  · exact hok a t hs hx

theorem Keeps.imp (h : D.Keeps x s Q) (hQ : ∀ a t, D.inv t → D.after s t → Q a t → Q' a t) :
    D.Keeps x s Q' :=
  .intro (fun a t hs hx => by
      obtain ⟨ht, hst, ha⟩ := h.of_ok hs hx
      exact ⟨ht, hst, hQ a t ht hst ha⟩)
    fun _ _ hs hx => h.of_error hs hx

theorem keeps_pure (h : Q a s) : D.Keeps (pure a) s Q := fun hs => ⟨hs, D.refl s, h⟩

theorem keeps_throw (h : D.fails e s s) : D.Keeps (throw e : Attempt ε σ α) s Q := fun _ => h

/-- What the second part keeps after what the first one does. -/
theorem Keeps.bind (hx : D.Keeps x s Q)
    (hf : ∀ a t, D.inv t → D.after s t → Q a t → D.Keeps (f a) t R) : D.Keeps (x >>= f) s R := by
  refine .intro (fun b u hs hu => ?_) fun e u hs hu => ?_
  · rcases hxs : x s with ⟨e | a, t⟩
    · rw [Attempt.bind_error hxs] at hu
      cases hu
    · rw [Attempt.bind_ok hxs] at hu
      obtain ⟨ht, hst, ha⟩ := hx.of_ok hs hxs
      obtain ⟨hu', htu, hb⟩ := (hf a t ht hst ha).of_ok ht hu
      exact ⟨hu', D.trans hst htu, hb⟩
  · rcases hxs : x s with ⟨e' | a, t⟩
    · rw [Attempt.bind_error hxs] at hu
      cases hu
      exact hx.of_error hs hxs
    · rw [Attempt.bind_ok hxs] at hu
      obtain ⟨ht, hst, ha⟩ := hx.of_ok hs hxs
      exact D.late hst ((hf a t ht hst ha).of_error ht hu)

theorem keeps_ite {c : Prop} [Decidable c] {y : Attempt ε σ α} (hx : c → D.Keeps x s Q)
    (hy : ¬ c → D.Keeps y s Q) : D.Keeps (if c then x else y) s Q := by
  split
  · exact hx ‹_›
  · exact hy ‹_›

/-- To look at the state is to go on with it. -/
theorem keeps_get {f : σ → Attempt ε σ β} (h : D.Keeps (f s) s R) : D.Keeps (get >>= f) s R := by
  intro hs
  rw [Attempt.bind_ok Attempt.get_apply]
  exact h hs

theorem keeps_modify {g : σ → σ} (hinv : D.inv s → D.inv (g s)) (hafter : D.after s (g s)) :
    D.Keeps (modify g) s fun _ t => t = g s :=
  fun hs => ⟨hinv hs, hafter, rfl⟩

end Discipline

end Tesla.Lib
