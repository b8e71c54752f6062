/-
# `Tesla.Runtime.KeyOrder` — names as partial functions

Where no variable is marked as free, a key is a partial function: its mask says where it is
defined and its words say what is there.  The masks have more bits than there are words, so there
are places where keys cannot differ.

    tesla_key_matches(pattern, k)   `k` extends `pattern`          (`keyMatches_iff_extends`)
    tesla_key_union(dest, source)   what they bind together        (`keyUnion_assignment`)

The rest is the order of `Tesla.Lib.Partial`.
-/
import Mathlib.Order.Defs.Unbundled
import Tesla.Lib.Partial
import Tesla.Runtime.Key

namespace Tesla.Runtime

open Lib

variable {dest source pattern k : Key} {b : Fin 32} {w : Word}

/-- A key without free variables. -/
abbrev BoundKey := {k : Key // k.tkFreemask = 0}

/-- The word behind a bit of the mask, if there is one. -/
def Key.word (k : Key) (b : Fin 32) : Word :=
  if h : b.val < keySize then k.tkKeys ⟨b.val, h⟩ else 0

def Key.assignment (k : Key) (b : Fin 32) : Option Word :=
  if k.tkMask.getLsbD b then some (k.word b) else none

theorem Key.assignment_eq_some :
    k.assignment b = some w ↔ k.tkMask.getLsbD b = true ∧ k.word b = w := by
  rw [assignment]
  split
  · next hb => rw [Option.some.injEq, and_iff_right hb]
  · next hb => exact iff_of_false nofun fun h => hb h.1

theorem Key.word_index (k : Key) (i : Fin keySize) :
    k.word (i.castLE (by decide)) = k.tkKeys i := dif_pos i.isLt

/-- One index at most is behind a bit. -/
theorem Key.word_eq {x y : Key}
    (h : ∀ i : Fin keySize, i.val = b.val → x.tkKeys i = y.tkKeys i) : x.word b = y.word b := by
  rw [word, word]
  split
  · next hb => exact h ⟨b.val, hb⟩ rfl
  · rfl

/-! ## Matching -/

theorem keyMatches_iff_extends (hfree : pattern.tkFreemask = 0) :
    keyMatches pattern k = true ↔ Extends pattern.assignment k.assignment := by
  have hmasks : pattern.tkMask ||| pattern.tkFreemask = pattern.tkMask := by
    rw [hfree]
    exact BitVec.or_zero
  rw [keyMatches_iff, hmasks, subMask_iff]
  constructor
  · rintro ⟨hmask, hwords⟩ b w hw
    obtain ⟨hb, rfl⟩ := Key.assignment_eq_some.mp hw
    refine Key.assignment_eq_some.mpr ⟨hmask b hb, Key.word_eq fun i hi => ?_⟩
    exact (hwords i (hi ▸ hb)).symm
  · intro h
    have hbit (b : Fin 32) (hb : pattern.tkMask.getLsbD b = true) :=
      Key.assignment_eq_some.mp (h b _ (Key.assignment_eq_some.mpr ⟨hb, rfl⟩))
    refine ⟨fun b hb => (hbit ⟨b, BitVec.lt_of_getLsbD hb⟩ hb).1, fun i hi => ?_⟩
    have hword := (hbit (i.castLE (by decide)) hi).2
    rw [Key.word_index, Key.word_index] at hword
    exact hword.symm

/-! ## The union -/

theorem agrees_iff_coherent :
    dest.Agrees source ↔ Coherent dest.assignment source.assignment := by
  constructor
  · intro h b w w' hw hw'
    obtain ⟨hb, rfl⟩ := Key.assignment_eq_some.mp hw
    obtain ⟨hb', rfl⟩ := Key.assignment_eq_some.mp hw'
    exact Key.word_eq fun i hi => h i (hi ▸ hb) (hi ▸ hb')
  · intro h i hi hi'
    have heq := h (i.castLE (by decide)) _ _ (Key.assignment_eq_some.mpr ⟨hi, rfl⟩)
      (Key.assignment_eq_some.mpr ⟨hi', rfl⟩)
    rwa [Key.word_index, Key.word_index] at heq

theorem keyUnionLoop_freemask (source : Key) (is : List (Fin keySize)) (dest : Key) :
    (keyUnionLoop source is dest).1.tkFreemask = dest.tkFreemask := by
  fun_induction keyUnionLoop source is dest with
  | case1 dest => rfl
  | case2 i is dest hs hd hne => rfl
  | case3 i is dest hs hd he ih => exact ih
  | case4 i is dest hs hd ih => exact ih
  | case5 i is dest hs ih => exact ih

theorem keyUnion_freemask (dest source : Key) :
    (keyUnion dest source).1.tkFreemask = dest.tkFreemask := by
  have hloop := keyUnionLoop_freemask source (List.finRange keySize) dest
  unfold keyUnion
  split
  · next d heq =>
    rw [heq] at hloop
    exact hloop
  · exact hloop

theorem keyUnion_assignment (h : dest.Agrees source) :
    (keyUnion dest source).1.assignment = unite dest.assignment source.assignment := by
  obtain ⟨hmask, hdest, hsource⟩ := keyUnion_success h
  funext b
  rw [unite, Key.assignment, hmask, BitVec.getLsbD_or]
  cases hd : dest.tkMask.getLsbD b with
  | true =>
    have hword := Key.word_eq (b := b) fun i hi => hdest i (hi ▸ hd)
    rw [Key.assignment_eq_some.mpr ⟨hd, rfl⟩, Option.some_or, Bool.true_or, if_pos rfl, hword]
  | false =>
    have hnone : dest.assignment b = none := if_neg (Bool.eq_false_iff.mp hd)
    rw [hnone, Option.none_or, Bool.false_or, Key.assignment]
    cases hs : source.tkMask.getLsbD b with
    | true => rw [if_pos rfl, if_pos rfl, Key.word_eq fun i hi => hsource i (hi ▸ hs)]
    | false => rfl

/-! ## The order and its bounds -/

theorem keyMatches_isPreorder :
    IsPreorder BoundKey fun x y => keyMatches x.1 y.1 = true where
  refl x := (keyMatches_iff_extends x.2).mpr (.refl _)
  trans x y z hxy hyz := by
    rw [keyMatches_iff_extends x.2] at hxy ⊢
    rw [keyMatches_iff_extends y.2] at hyz
    exact hxy.trans hyz

theorem matches_keyUnion (dest source : BoundKey) (h : dest.1.Agrees source.1) :
    keyMatches dest.1 (keyUnion dest.1 source.1).1 = true ∧
      keyMatches source.1 (keyUnion dest.1 source.1).1 = true := by
  constructor
  · rw [keyMatches_iff_extends dest.2, keyUnion_assignment h]
    exact extends_unite_left
  · rw [keyMatches_iff_extends source.2, keyUnion_assignment h]
    exact extends_unite_right (agrees_iff_coherent.mp h)

/-- Keys agree if there is one that both match. -/
theorem agrees_iff_matches (dest source : BoundKey) : dest.1.Agrees source.1 ↔
    ∃ k : BoundKey, keyMatches dest.1 k.1 = true ∧ keyMatches source.1 k.1 = true := by
  constructor
  · intro h
    exact ⟨⟨(keyUnion dest.1 source.1).1, (keyUnion_freemask _ _).trans dest.2⟩,
      matches_keyUnion dest source h⟩
  · rintro ⟨k, hd, hs⟩
    rw [keyMatches_iff_extends dest.2] at hd
    rw [keyMatches_iff_extends source.2] at hs
    exact agrees_iff_coherent.mpr (coherent_iff.mpr ⟨k.1.assignment, hd, hs⟩)

/-- Matching orders the keys without free variables, and `tesla_key_union` finds the least upper
bound of two of them, if they have a bound at all. -/
theorem keyUnion_least :
    (IsPreorder BoundKey fun x y => keyMatches x.1 y.1 = true) ∧
      ∀ dest source : BoundKey,
        ((keyUnion dest.1 source.1).2 = .success ↔ ∃ k : BoundKey,
          keyMatches dest.1 k.1 = true ∧ keyMatches source.1 k.1 = true) ∧
        ((keyUnion dest.1 source.1).2 = .success →
          (keyUnion dest.1 source.1).1.tkFreemask = 0 ∧
          keyMatches dest.1 (keyUnion dest.1 source.1).1 = true ∧
          keyMatches source.1 (keyUnion dest.1 source.1).1 = true ∧
          ∀ k : Key, keyMatches dest.1 k = true → keyMatches source.1 k = true →
            keyMatches (keyUnion dest.1 source.1).1 k = true) ∧
        ((keyUnion dest.1 source.1).2 = .einval →
          (keyUnion dest.1 source.1).1.SameName dest.1) := by
  refine ⟨keyMatches_isPreorder, fun dest source => ⟨?_, fun hok => ?_, fun herr => ?_⟩⟩
  · rw [keyUnion_success_iff, agrees_iff_matches]
  · have h := (keyUnion_success_iff dest.1 source.1).mp hok
    have hfree := (keyUnion_freemask dest.1 source.1).trans dest.2
    obtain ⟨hdest, hsource⟩ := matches_keyUnion dest source h
    refine ⟨hfree, hdest, hsource, fun k hd hs => ?_⟩
    rw [keyMatches_iff_extends dest.2] at hd
    rw [keyMatches_iff_extends source.2] at hs
    rw [keyMatches_iff_extends hfree, keyUnion_assignment h]
    exact unite_extends hd hs
  · refine (keyUnion_failure fun hagree => ?_).2
    rw [(keyUnion_success_iff dest.1 source.1).mpr hagree] at herr
    cases herr

end Tesla.Runtime
