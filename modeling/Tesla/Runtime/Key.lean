/-
# `Tesla.Runtime.Key` — instance names: `struct tesla_key` and its two operations

A key is four machine words, a mask saying which of them are bound and a
mask of free variables ("something is set, don't know what").  The run-time
compares and extends names with exactly two functions, both in
`libtesla/src/tesla_key.h`:

    tesla_key_matches(pattern, k)   `keyMatches`   is `k` at least as specific as `pattern`?
    tesla_key_union(dest, source)   `keyUnion`     copy the new entries of `source` into `dest`

The masks have 32 bits but only the first `TESLA_KEY_SIZE = 4` have a word
behind them: `SUBSET` reads all 32, the two loops read four.  The lemmas
below are stated so that this difference never has to be unfolded again.
-/
import Mathlib.Data.Fintype.Pi
import Mathlib.Data.List.FinRange
import Mathlib.Tactic.Common

namespace Tesla.Runtime

/-- The error values of `enum tesla_err_t`. -/
inductive Err
  | success
  | enoent
  | enomem
  | einval
  | unknown
  deriving DecidableEq, Repr

abbrev Mask := BitVec 32

/-- `uintptr_t`. -/
abbrev Word := BitVec 64

/-- `TESLA_KEY_SIZE`. -/
abbrev keySize : Nat := 4

/-- `SUBSET(x, y)`. -/
def SubMask (x y : Mask) : Prop := x &&& y = x

instance (x y : Mask) : Decidable (SubMask x y) :=
  inferInstanceAs (Decidable (x &&& y = x))

/-- `struct tesla_key`. -/
structure Key where
  tkKeys : Fin keySize → Word
  tkMask : Mask
  tkFreemask : Mask

-- not derived: the derived instance does not compute on words given as functions
instance : DecidableEq Key := fun ⟨ks, m, f⟩ ⟨ks', m', f'⟩ =>
  decidable_of_iff (ks = ks' ∧ m = m' ∧ f = f') (by rw [Key.mk.injEq])

/-- The all-zero key: `{ .tk_mask = 0 }`, and what `bzero` leaves. -/
def Key.zero : Key := ⟨fun _ => 0, 0, 0⟩

/-- `tesla_key_matches`. -/
def keyMatches (pattern k : Key) : Bool :=
  -- ANY matches 42 but not the other way around
  if SubMask (pattern.tkMask ||| pattern.tkFreemask) k.tkMask then
    (List.finRange keySize).all fun i =>
      !pattern.tkMask.getLsbD i || pattern.tkKeys i == k.tkKeys i
  else false

/-- The loop of `tesla_key_union`, from index `is` on.  It writes words as it
goes, so a failure can leave earlier words of `dest` overwritten — but only
words outside `dest`'s mask. -/
def keyUnionLoop (source : Key) : List (Fin keySize) → Key → Key × Err
  | [], dest => (dest, .success)
  | i :: is, dest =>
      if source.tkMask.getLsbD i then
        if dest.tkMask.getLsbD i then
          if dest.tkKeys i ≠ source.tkKeys i then (dest, .einval)
          else keyUnionLoop source is dest
        else
          keyUnionLoop source is
            { dest with tkKeys := Function.update dest.tkKeys i (source.tkKeys i) }
      else keyUnionLoop source is dest

/-- `tesla_key_union`: the new value of `*dest` and the return code. -/
def keyUnion (dest source : Key) : Key × Err :=
  match keyUnionLoop source (List.finRange keySize) dest with
  | (d, .success) => ({ d with tkMask := d.tkMask ||| source.tkMask }, .success)
  | r => r

/-! ## Masks, bit by bit -/

theorem subMask_iff {x y : Mask} :
    SubMask x y ↔ ∀ b, x.getLsbD b = true → y.getLsbD b = true := by
  constructor
  · intro h b hb
    rw [← h, BitVec.getLsbD_and] at hb
    simp_all
  · intro h
    apply BitVec.eq_of_getLsbD_eq
    intro b _
    rw [BitVec.getLsbD_and]
    cases hb : x.getLsbD b with
    | false => rfl
    | true => simp [h b hb]

theorem SubMask.refl (x : Mask) : SubMask x x := by simp [SubMask]

theorem SubMask.antisymm {x y : Mask} (h : SubMask x y) (h' : SubMask y x) : x = y := by
  apply BitVec.eq_of_getLsbD_eq
  intro b _
  rw [Bool.eq_iff_iff]
  exact ⟨subMask_iff.mp h b, subMask_iff.mp h' b⟩

/-! ## Agreement of two names -/

/-- The words of `x` and `y` are equal wherever both are bound. -/
def Key.Agrees (x y : Key) : Prop :=
  ∀ i : Fin keySize, x.tkMask.getLsbD i = true → y.tkMask.getLsbD i = true →
    x.tkKeys i = y.tkKeys i

instance (x y : Key) : Decidable (x.Agrees y) :=
  inferInstanceAs (Decidable (∀ _ : Fin keySize, _ → _ → _))

/-- `x` and `y` differ on a variable bound in both: the event and the
instance are about different objects. -/
def Key.Disagrees (x y : Key) : Prop :=
  ∃ i : Fin keySize, x.tkMask.getLsbD i = true ∧ y.tkMask.getLsbD i = true ∧
    x.tkKeys i ≠ y.tkKeys i

instance (x y : Key) : Decidable (x.Disagrees y) :=
  inferInstanceAs (Decidable (∃ _ : Fin keySize, _ ∧ _ ∧ _))

/-- The same name: the same mask, and the same words on it. -/
def Key.SameName (x y : Key) : Prop :=
  x.tkMask = y.tkMask ∧
    ∀ i : Fin keySize, x.tkMask.getLsbD i = true → x.tkKeys i = y.tkKeys i

instance (x y : Key) : Decidable (x.SameName y) :=
  inferInstanceAs (Decidable (_ ∧ ∀ _ : Fin keySize, _ → _))

theorem Key.SameName.refl (x : Key) : x.SameName x := ⟨rfl, fun _ _ => rfl⟩

theorem Key.SameName.symm {x y : Key} (h : x.SameName y) : y.SameName x :=
  ⟨h.1.symm, fun i hi => (h.2 i (h.1 ▸ hi)).symm⟩

theorem keyMatches_iff {pattern k : Key} :
    keyMatches pattern k = true ↔
      SubMask (pattern.tkMask ||| pattern.tkFreemask) k.tkMask ∧
        ∀ i : Fin keySize, pattern.tkMask.getLsbD i = true →
          pattern.tkKeys i = k.tkKeys i := by
  unfold keyMatches
  split
  · rename_i hsub
    simp only [List.all_eq_true, List.mem_finRange, true_implies, Bool.or_eq_true,
      Bool.not_eq_true', beq_iff_eq, hsub, true_and]
    constructor
    · intro h i hi
      rcases h i with hf | he
      · rw [hi] at hf; cases hf
      · exact he
    · intro h i
      cases hi : pattern.tkMask.getLsbD i with
      | false => exact Or.inl rfl
      | true => exact Or.inr (h i hi)
  · rename_i hsub
    simp [hsub]

/-- A key that differs from the pattern on a variable bound in both does not
match it. -/
theorem keyMatches_of_disagrees {pattern k : Key} (h : pattern.Disagrees k) :
    keyMatches pattern k = false := by
  obtain ⟨i, hp, _, hne⟩ := h
  rw [← Bool.not_eq_true, keyMatches_iff]
  rintro ⟨_, hall⟩
  exact hne (hall i hp)

/-! ## What the union does -/

/-- The loop never touches the masks, nor a word `dest` has already bound. -/
theorem keyUnionLoop_frame (source : Key) (is : List (Fin keySize)) (dest : Key) :
    (keyUnionLoop source is dest).1.tkMask = dest.tkMask ∧
      ∀ i : Fin keySize, dest.tkMask.getLsbD i = true ∨ i ∉ is →
        (keyUnionLoop source is dest).1.tkKeys i = dest.tkKeys i := by
  fun_induction keyUnionLoop source is dest with
  | case1 dest => exact ⟨rfl, fun _ _ => rfl⟩
  | case2 i is dest hs hd hne => exact ⟨rfl, fun _ _ => rfl⟩
  | case3 i is dest hs hd he ih =>
      exact ⟨ih.1, fun j hj => ih.2 j (hj.imp_right fun h h' => h (List.mem_cons_of_mem _ h'))⟩
  | case4 i is dest hs hd ih =>
      refine ⟨ih.1, fun j hj => ?_⟩
      -- the word written is outside the mask and at the head of the list
      have hne : j ≠ i := by
        rintro rfl
        exact hj.elim hd fun h => h List.mem_cons_self
      rw [ih.2 j (hj.imp_right fun h h' => h (List.mem_cons_of_mem _ h'))]
      exact Function.update_of_ne hne _ _
  | case5 i is dest hs ih =>
      exact ⟨ih.1, fun j hj => ih.2 j (hj.imp_right fun h h' => h (List.mem_cons_of_mem _ h'))⟩

theorem keyUnionLoop_err (source : Key) (is : List (Fin keySize)) (dest : Key) :
    (keyUnionLoop source is dest).2 = .success ∨
      (keyUnionLoop source is dest).2 = .einval := by
  fun_induction keyUnionLoop source is dest <;> simp_all

/-- The loop succeeds exactly when `dest` and `source` agree on the indices it
visits. -/
theorem keyUnionLoop_success_iff (source : Key) (is : List (Fin keySize)) (dest : Key)
    (hnd : is.Nodup) :
    (keyUnionLoop source is dest).2 = .success ↔
      ∀ i ∈ is, source.tkMask.getLsbD i = true → dest.tkMask.getLsbD i = true →
        dest.tkKeys i = source.tkKeys i := by
  fun_induction keyUnionLoop source is dest with
  | case1 dest => simp
  | case2 i is dest hs hd hne =>
      constructor
      · intro h; cases h
      · intro h; exact absurd (h i List.mem_cons_self hs hd) hne
  | case3 i is dest hs hd he ih =>
      rw [ih (List.nodup_cons.mp hnd).2, List.forall_mem_cons]
      exact ⟨fun h => ⟨fun _ _ => not_not.mp he, h⟩, fun h => h.2⟩
  | case4 i is dest hs hd ih =>
      obtain ⟨hi, hnd⟩ := List.nodup_cons.mp hnd
      rw [ih hnd, List.forall_mem_cons]
      have hupd : ∀ j ∈ is,
          Function.update dest.tkKeys i (source.tkKeys i) j = dest.tkKeys j := by
        intro j hj
        apply Function.update_of_ne
        rintro rfl
        exact hi hj
      constructor
      · intro h
        exact ⟨fun _ h' => absurd h' hd, fun j hj hsj hdj => hupd j hj ▸ h j hj hsj hdj⟩
      · intro h j hj hsj hdj
        exact (hupd j hj).trans (h.2 j hj hsj hdj)
  | case5 i is dest hs ih =>
      rw [ih (List.nodup_cons.mp hnd).2, List.forall_mem_cons]
      exact ⟨fun h => ⟨fun h' => absurd h' hs, h⟩, fun h => h.2⟩

/-- A loop that succeeds leaves `source`'s words at the indices it visits. -/
theorem keyUnionLoop_copies (source : Key) (is : List (Fin keySize)) (dest : Key)
    (hnd : is.Nodup) (hok : (keyUnionLoop source is dest).2 = .success) :
    ∀ i ∈ is, source.tkMask.getLsbD i = true →
      (keyUnionLoop source is dest).1.tkKeys i = source.tkKeys i := by
  fun_induction keyUnionLoop source is dest with
  | case1 dest => intro i hi; cases hi
  | case2 i is dest hs hd hne => cases hok
  | case3 i is dest hs hd he ih =>
      rw [List.forall_mem_cons]
      refine ⟨fun _ => ?_, ih (List.nodup_cons.mp hnd).2 hok⟩
      rw [(keyUnionLoop_frame source is dest).2 i (Or.inl hd)]
      exact not_not.mp he
  | case4 i is dest hs hd ih =>
      obtain ⟨hi, hnd⟩ := List.nodup_cons.mp hnd
      rw [List.forall_mem_cons]
      refine ⟨fun _ => ?_, ih hnd hok⟩
      rw [(keyUnionLoop_frame source is _).2 i (Or.inr hi)]
      exact Function.update_self ..
  | case5 i is dest hs ih =>
      rw [List.forall_mem_cons]
      exact ⟨fun h => absurd h hs, ih (List.nodup_cons.mp hnd).2 hok⟩

/-- `tesla_key_union` succeeds exactly on keys that agree. -/
theorem keyUnion_success_iff (dest source : Key) :
    (keyUnion dest source).2 = .success ↔ dest.Agrees source := by
  have hiff := keyUnionLoop_success_iff source _ dest (List.nodup_finRange keySize)
  have hagree : (keyUnionLoop source (List.finRange keySize) dest).2 = .success ↔
      dest.Agrees source := by
    rw [hiff]
    constructor
    · intro h i hd hs; exact h i (List.mem_finRange i) hs hd
    · intro h i _ hs hd; exact h i hd hs
  rw [← hagree]
  unfold keyUnion
  split
  · rename_i heq; simp [heq]
  · rfl

/-- On success the masks are united, the words of `dest` stay and those of
`source` are added. -/
theorem keyUnion_success {dest source : Key} (h : dest.Agrees source) :
    (keyUnion dest source).1.tkMask = dest.tkMask ||| source.tkMask ∧
    (∀ i : Fin keySize, dest.tkMask.getLsbD i = true →
      (keyUnion dest source).1.tkKeys i = dest.tkKeys i) ∧
    (∀ i : Fin keySize, source.tkMask.getLsbD i = true →
      (keyUnion dest source).1.tkKeys i = source.tkKeys i) := by
  have hok := (keyUnion_success_iff dest source).mpr h
  obtain ⟨hm, hk⟩ := keyUnionLoop_frame source (List.finRange keySize) dest
  have hcopy := keyUnionLoop_copies source _ dest (List.nodup_finRange keySize)
  unfold keyUnion at hok ⊢
  split
  · rename_i d heq
    rw [heq] at hm hk hcopy
    refine ⟨by rw [← hm], fun i hi => hk i (Or.inl hi), fun i hi => ?_⟩
    exact hcopy rfl i (List.mem_finRange i) hi
  · rename_i hne
    split at hok
    · rename_i d heq; exact absurd heq (hne d)
    · exact (hne _ (Prod.ext rfl hok)).elim

/-- When the union fails, the mask of `dest` and the words on it are as they
were. -/
theorem keyUnion_failure {dest source : Key} (h : ¬ dest.Agrees source) :
    (keyUnion dest source).2 = .einval ∧ (keyUnion dest source).1.SameName dest := by
  have hne : (keyUnion dest source).2 ≠ .success := fun hok =>
    h ((keyUnion_success_iff dest source).mp hok)
  obtain ⟨hm, hk⟩ := keyUnionLoop_frame source (List.finRange keySize) dest
  have herr := keyUnionLoop_err source (List.finRange keySize) dest
  unfold keyUnion at hne ⊢
  split
  · rename_i d heq; simp [heq] at hne
  · rename_i hns
    refine ⟨herr.resolve_left fun hok => hns _ (Prod.ext rfl hok), hm, fun i hi => ?_⟩
    exact hk i (Or.inl (hm ▸ hi))

end Tesla.Runtime
