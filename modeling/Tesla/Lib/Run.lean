/-
# `Tesla.Lib.Run` — runs of a labelled step relation, and the one induction over them

A system is a step relation `step s i s'`: in state `s` the call `i` returns
and leaves `s'`.  A call that never returns has no successor, so nothing here
assumes the relation total or functional.

`Run step s is s'` keeps the list of the calls made, oldest first, because
several properties are about the history of a run and not only about the
state it ends in.  Everything proved about reachable states goes through
`Run.invariant`; everything proved about histories goes through `Run.track`.
-/
import Mathlib.Tactic.TypeStar
import Mathlib.Data.List.Induction

namespace Tesla.Lib

variable {σ ι : Type*}

/-- `Run step s is s'`: the calls `is`, in that order, all return and lead
from `s` to `s'`. -/
inductive Run (step : σ → ι → σ → Prop) (s : σ) : List ι → σ → Prop
  | nil : Run step s [] s
  | snoc {is : List ι} {t u : σ} (i : ι) :
      Run step s is t → step t i u → Run step s (is ++ [i]) u

variable {step step' : σ → ι → σ → Prop} {s t u : σ} {is : List ι}

/-- The invariant rule: what holds at the start and survives every step holds
in every state a run reaches. -/
theorem Run.invariant {P : σ → Prop} (h : Run step s is t) (h₀ : P s)
    (hstep : ∀ {t u : σ} {i : ι}, P t → step t i u → P u) : P t := by
  induction h with
  | nil => exact h₀
  | snoc i _ hs ih => exact hstep ih hs

/-- The invariant rule with the history in view. -/
theorem Run.track {P : List ι → σ → Prop} (h : Run step s is t) (h₀ : P [] s)
    (hstep : ∀ {is : List ι} {t u : σ} {i : ι}, P is t → step t i u → P (is ++ [i]) u) :
    P is t := by
  induction h with
  | nil => exact h₀
  | snoc i _ hs ih => exact hstep ih hs

/-- Runs one after the other. -/
theorem Run.append {is' : List ι} (h : Run step s is t) (h' : Run step t is' u) :
    Run step s (is ++ is') u := by
  induction h' with
  | nil =>
      rw [List.append_nil]
      exact h
  | snoc i _ hs ih =>
      rw [← List.append_assoc]
      exact .snoc i ih hs

/-- A run of a finer step relation is a run of a coarser one; this is how a
theorem about all runs is used on the runs that keep to a condition. -/
theorem Run.mono (hsub : ∀ {t u : σ} {i : ι}, step t i u → step' t i u)
    (h : Run step s is t) : Run step' s is t := by
  induction h with
  | nil => exact .nil
  | snoc i _ hs ih => exact .snoc i ih (hsub hs)

/-- Runs of an executable step are found by executing it. -/
theorem Run.of_exec {f : σ → ι → Option σ}
    (hf : ∀ {s : σ} {i : ι} {t : σ}, f s i = some t → step s i t) {is : List ι} :
    ∀ {t : σ}, is.foldlM f s = some t → Run step s is t := by
  induction is using List.reverseRecOn with
  | nil => intro t h; cases h; exact .nil
  | append_singleton is i ih =>
      intro u h
      rw [List.foldlM_append] at h
      cases ht : is.foldlM f s with
      | none => rw [ht] at h; cases h
      | some t =>
          rw [ht] at h
          have hi : f t i = some u := by simpa using h
          exact .snoc i (ih ht) (hf hi)

end Tesla.Lib
