/-
# `Tesla.Lib.Shallow` — how deep a relation goes from a point

`Shallow r k p`: every path of `r` from `p` ends before its `k`-th step.  This is
what a recursion along `r` with `k` levels of fuel needs in order to come back.

    shallow     ⟶  no cycle is reachable       `Shallow.not_cycle`
    no cycle    ⟶  shallow, at a finite depth   `shallow_of_acyclic`

The second is for relations that lead to finitely many points only; each step
then leaves strictly fewer points ahead.
-/
import Mathlib.Data.Finset.Card
import Mathlib.Data.Set.Finite.Basic
import Mathlib.Logic.Relation

namespace Tesla.Lib

open Relation

variable {α : Type*}

def Shallow (r : α → α → Prop) : ℕ → α → Prop
  | 0, _ => False
  | k + 1, p => ∀ q, r p q → Shallow r k q

variable {r : α → α → Prop} {k l : ℕ} {p q : α}

theorem Shallow.mono (h : Shallow r k p) (hkl : k ≤ l) : Shallow r l p := by
  induction k generalizing l p with
  | zero => exact h.elim
  | succ k ih =>
    obtain ⟨l, rfl⟩ := Nat.exists_eq_succ_of_ne_zero (by omega : l ≠ 0)
    intro q hq
    exact ih (h q hq) (Nat.le_of_succ_le_succ hkl)

/-- A step costs a level. -/
theorem Shallow.after (h : Shallow r k p) (hpq : TransGen r p q) : ∃ l < k, Shallow r l q := by
  induction hpq with
  | single hq =>
    obtain _ | k := k
    · exact h.elim
    · exact ⟨k, Nat.lt_succ_self k, h _ hq⟩
  | tail _ hq ih =>
    obtain ⟨l, hl, h⟩ := ih
    obtain _ | l := l
    · exact h.elim
    · exact ⟨l, by omega, h _ hq⟩

theorem Shallow.of_reflTransGen (h : Shallow r k p) (hpq : ReflTransGen r p q) : Shallow r k q := by
  obtain rfl | hpq := reflTransGen_iff_eq_or_transGen.mp hpq
  · exact h
  · obtain ⟨l, hl, h⟩ := h.after hpq
    exact h.mono hl.le

theorem Shallow.not_cycle (h : Shallow r k p) : ¬ TransGen r p p := by
  intro hpp
  induction k using Nat.strong_induction_on with
  | _ k ih =>
    obtain ⟨l, hl, h⟩ := h.after hpp
    exact ih l hl h

/-- Without cycles, what lies ahead shrinks with every step. -/
theorem shallow_of_acyclic {D : Finset α} (hD : ∀ p q, r p q → q ∈ D)
    (h : ∀ q, ReflTransGen r p q → ¬ TransGen r q q) : Shallow r (D.card + 1) p := by
  classical
  -- by induction on the number of points ahead
  have hahead : ∀ n p, (∀ q, ReflTransGen r p q → ¬ TransGen r q q) →
      (D.filter fun x => TransGen r p x).card < n → Shallow r n p := by
    intro n
    induction n with
    | zero => exact fun _ _ hn => absurd hn (Nat.not_lt_zero _)
    | succ n ih =>
      intro p hp hn q hq
      refine ih q (fun x hx => hp x (.head hq hx)) ?_
      refine lt_of_lt_of_le (Finset.card_lt_card ?_) (Nat.le_of_lt_succ hn)
      refine ⟨?_, ?_⟩
      · intro x hx
        obtain ⟨hxD, hqx⟩ := Finset.mem_filter.mp hx
        exact Finset.mem_filter.mpr ⟨hxD, .head hq hqx⟩
      · intro hsub
        have hmem := hsub (Finset.mem_filter.mpr ⟨hD p q hq, .single hq⟩)
        exact hp q (.single hq) (Finset.mem_filter.mp hmem).2
  exact hahead _ p h (Nat.lt_succ_of_le (Finset.card_filter_le _ _))

/-- It is enough that there are finitely many points on the way. -/
theorem shallow_of_finite {s : Set α} (hfinite : s.Finite) (hclosed : ∀ p ∈ s, ∀ q, r p q → q ∈ s)
    (hp : p ∈ s) (h : ∀ q, ReflTransGen r p q → ¬ TransGen r q q) : ∃ k, Shallow r k p := by
  let r' : α → α → Prop := fun p q => p ∈ s ∧ r p q
  have hle : r' ≤ r := fun _ _ h => h.2
  have hsub (q : α) (hpq : ReflTransGen r' p q) : ¬ TransGen r' q q := fun hqq =>
    h q (ReflTransGen.mono hle _ _ hpq) (TransGen.mono hle _ _ hqq)
  have hshallow := shallow_of_acyclic (D := hfinite.toFinset)
    (fun p q hpq => hfinite.mem_toFinset.mpr (hclosed p hpq.1 q hpq.2)) hsub
  have hback : ∀ k, ∀ p ∈ s, Shallow r' k p → Shallow r k p := by
    intro k
    induction k with
    | zero => exact fun _ _ h => h
    | succ k ih => exact fun p hp h q hq => ih q (hclosed p hp q hq) (h q ⟨hp, hq⟩)
  exact ⟨_, hback _ p hp hshallow⟩

end Tesla.Lib
