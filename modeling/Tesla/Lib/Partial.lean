/-
# `Tesla.Lib.Partial` — partial functions by what they are defined on

One partial function extends another if it has all that the other has.  This is an order, and two
partial functions have an upper bound in it exactly when they nowhere differ; what they have
together, `unite`, is then the least one.
-/
import Mathlib.Tactic.TypeStar

namespace Tesla.Lib

variable {ι α : Type*} {f g k : ι → Option α}

/-- `g` has what `f` has. -/
def Extends (f g : ι → Option α) : Prop := ∀ i a, f i = some a → g i = some a

/-- Where both are defined they are the same. -/
def Coherent (f g : ι → Option α) : Prop := ∀ i a b, f i = some a → g i = some b → a = b

/-- What `f` has, and what `g` has beside it. -/
def unite (f g : ι → Option α) (i : ι) : Option α := (f i).or (g i)

theorem Extends.refl (f : ι → Option α) : Extends f f := fun _ _ h => h

theorem Extends.trans (h : Extends f g) (h' : Extends g k) : Extends f k :=
  fun i a ha => h' i a (h i a ha)

theorem extends_unite_left : Extends f (unite f g) := by
  intro i a ha
  rw [unite, ha, Option.some_or]

theorem extends_unite_right (h : Coherent f g) : Extends g (unite f g) := by
  intro i b hb
  rw [unite]
  cases ha : f i with
  | none => rwa [Option.none_or]
  | some a => rw [Option.some_or, h i a b ha hb]

theorem unite_extends (hf : Extends f k) (hg : Extends g k) : Extends (unite f g) k := by
  intro i a ha
  rw [unite] at ha
  rcases Option.or_eq_some_iff.mp ha with ha | ⟨_, ha⟩
  · exact hf i a ha
  · exact hg i a ha

/-- Two that are extended by a third nowhere differ, and those that nowhere differ are extended
by what they have together. -/
theorem coherent_iff : Coherent f g ↔ ∃ k, Extends f k ∧ Extends g k := by
  constructor
  · intro h
    exact ⟨unite f g, extends_unite_left, extends_unite_right h⟩
  · rintro ⟨k, hf, hg⟩ i a b ha hb
    exact Option.some.inj ((hf i a ha).symm.trans (hg i b hb))

end Tesla.Lib
