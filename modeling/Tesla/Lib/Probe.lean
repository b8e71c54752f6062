/-
# `Tesla.Lib.Probe` — open addressing without deletion

A table of slots, each free or owned by a key, and for every key a probe
sequence `probe k 0, probe k 1, …` of slots.  A key is looked up by walking its
sequence to the first slot that is its own or free; a free one is taken.

    settled   before its owner's slot, its owner's sequence meets only
              slots of others                                   (`Settled`)

Nothing is assumed of the probe sequences: they may repeat slots or miss some.
Since slots are never given back, `Settled` is all that is needed for a key to
come back to its slot.

A lookup that fails has met the slots of its sequence and no others; it speaks
about the whole table if the sequence meets every slot (`Covers`).  Consecutive
numbers from `h` on do, and numbers that wrap at `N` do when there is no wrap
to be made, or the table's size divides `N`              (`covers_wrap_iff`)
-/
import Mathlib.Data.Fintype.EquivFin
import Mathlib.Data.List.Basic
import Mathlib.Tactic.TypeStar

namespace Tesla.Lib

variable {κ : Type*} [DecidableEq κ] {t t' : List (Option κ)} {k k' : κ} {b b' : ℕ}

/-- The walk of `k` over the rounds `is`: the table after it, and the slot. -/
def claim (probe : ℕ → ℕ) (k : κ) (t : List (Option κ)) : List ℕ → Option (List (Option κ) × ℕ)
  | [] => none
  | i :: is =>
    match t[probe i]? with
    | none => none
    | some none => some (t.set (probe i) (some k), probe i)
    | some (some k') => if k' = k then some (t, probe i) else claim probe k t is

/-- The slot at `b` is owned by `k`. -/
def Owned (t : List (Option κ)) (k : κ) (b : ℕ) : Prop := t[b]? = some (some k)

/-- No slot changes its owner. -/
def Extended (t t' : List (Option κ)) : Prop := ∀ k b, Owned t k b → Owned t' k b

/-- Each owned slot is met by its owner before any that is free or its own. -/
def Settled (probe : κ → ℕ → ℕ) (t : List (Option κ)) : Prop :=
  ∀ k b, Owned t k b → ∃ i, probe k i = b ∧ ∀ j < i, ∃ k', k' ≠ k ∧ Owned t k' (probe k j)

omit [DecidableEq κ] in
theorem Owned.unique (h : Owned t k b) (h' : Owned t k' b) : k = k' :=
  Option.some.inj (Option.some.inj (h.symm.trans h'))

omit [DecidableEq κ] in
theorem Extended.trans {t'' : List (Option κ)} (h : Extended t t') (h' : Extended t' t'') :
    Extended t t'' := fun k b hb => h' k b (h k b hb)

omit [DecidableEq κ] in
/-- Taking a free slot. -/
theorem extended_set (hb : t[b]? = some none) : Extended t (t.set b (some k)) := by
  intro k' b' hb'
  have hne : b ≠ b' := by
    rintro rfl
    rw [Owned, hb] at hb'
    cases hb'
  rw [Owned, List.getElem?_set_ne hne]
  exact hb'

omit [DecidableEq κ] in
/-- A key owns one slot at most. -/
theorem Settled.owned_unique {probe : κ → ℕ → ℕ} (ht : Settled probe t) (h : Owned t k b)
    (h' : Owned t k b') : b = b' := by
  obtain ⟨i, rfl, hi⟩ := ht k b h
  obtain ⟨i', rfl, hi'⟩ := ht k b' h'
  -- the earlier of the two rounds finds a slot of `k`
  obtain hlt | rfl | hlt := Nat.lt_trichotomy i i'
  · obtain ⟨k', hne, hk'⟩ := hi' i hlt
    exact absurd (hk'.unique h) hne
  · rfl
  · obtain ⟨k', hne, hk'⟩ := hi i' hlt
    exact absurd (hk'.unique h') hne

omit [DecidableEq κ] in
theorem settled_replicate {probe : κ → ℕ → ℕ} (n : ℕ) :
    Settled probe (List.replicate n (none : Option κ)) := by
  intro k b hb
  rw [Owned, List.getElem?_replicate] at hb
  split at hb <;> cases hb

/-- A successful walk ends at a slot of its key; the rounds before it met slots of others. -/
theorem claim_spec {probe : ℕ → ℕ} {is : List ℕ} (h : claim probe k t is = some (t', b)) :
    (t' = t ∧ Owned t k b ∨ t[b]? = some none ∧ t' = t.set b (some k)) ∧
      ∃ pre i post, is = pre ++ i :: post ∧ probe i = b ∧
        ∀ j ∈ pre, ∃ k', k' ≠ k ∧ Owned t k' (probe j) := by
  induction is with
  | nil => cases h
  | cons i is ih =>
    rw [claim] at h
    split at h
    · cases h
    · next hfree =>
      obtain ⟨rfl, rfl⟩ := Prod.mk.inj (Option.some.inj h)
      exact ⟨.inr ⟨hfree, rfl⟩, [], i, is, rfl, rfl, fun j hj => absurd hj List.not_mem_nil⟩
    · next k' hk' =>
      split at h
      · next heq =>
        subst heq
        obtain ⟨rfl, rfl⟩ := Prod.mk.inj (Option.some.inj h)
        exact ⟨.inl ⟨rfl, hk'⟩, [], i, is, rfl, rfl, fun j hj => absurd hj List.not_mem_nil⟩
      · next hne =>
        obtain ⟨hcase, pre, i', post, rfl, hb, hpre⟩ := ih h
        refine ⟨hcase, i :: pre, i', post, rfl, hb, ?_⟩
        intro j hj
        obtain rfl | hj := List.mem_cons.mp hj
        · exact ⟨k', hne, hk'⟩
        · exact hpre j hj

theorem claim_owned {probe : ℕ → ℕ} {is : List ℕ} (h : claim probe k t is = some (t', b)) :
    Owned t' k b := by
  obtain ⟨⟨rfl, hown⟩ | ⟨hfree, rfl⟩, _⟩ := claim_spec h
  · exact hown
  · exact List.getElem?_set_self (List.getElem?_eq_some_iff.mp hfree).1

theorem claim_extended {probe : ℕ → ℕ} {is : List ℕ} (h : claim probe k t is = some (t', b)) :
    Extended t t' := by
  obtain ⟨⟨rfl, _⟩ | ⟨hfree, rfl⟩, _⟩ := claim_spec h
  · exact fun _ _ hb => hb
  · exact extended_set hfree

/-- A walk over the first rounds of the sequence keeps the table settled. -/
theorem Settled.claim {probe : κ → ℕ → ℕ} {n : ℕ} (ht : Settled probe t)
    (h : claim (probe k) k t (List.range n) = some (t', b)) : Settled probe t' := by
  obtain ⟨⟨rfl, _⟩ | ⟨hfree, rfl⟩, pre, i, post, hrange, hb, hpre⟩ := claim_spec h
  · exact ht
  · have hext := extended_set (k := k) hfree
    intro k' b' hb'
    by_cases hbb : b = b'
    · subst hbb
      have hlt := (List.getElem?_eq_some_iff.mp hfree).1
      rw [Owned, List.getElem?_set_self hlt] at hb'
      obtain rfl : k = k' := Option.some.inj (Option.some.inj hb')
      -- the rounds before `i` are those the walk has passed
      have hlen : pre.length < (List.range n).length := by
        rw [hrange, List.length_append, List.length_cons]
        omega
      have hget : ∀ j < pre.length + 1, (List.range n)[j]? = some j := by
        intro j hj
        rw [List.getElem?_range]
        rw [List.length_range] at hlen
        omega
      have hi : i = pre.length := by
        have hi := hget pre.length (Nat.lt_succ_self _)
        rw [hrange, List.getElem?_append_right (Nat.le_refl _), Nat.sub_self] at hi
        exact Option.some.inj hi
      refine ⟨i, hb, ?_⟩
      intro j hj
      have hj' := hget j (by omega)
      rw [hrange, List.getElem?_append_left (by omega)] at hj'
      obtain ⟨k', hne, hk'⟩ := hpre j (List.mem_of_getElem? hj')
      exact ⟨k', hne, hext _ _ hk'⟩
    · rw [Owned, List.getElem?_set_ne hbb] at hb'
      obtain ⟨i', hi', hbefore⟩ := ht k' b' hb'
      refine ⟨i', hi', ?_⟩
      intro j hj
      obtain ⟨k'', hne, hk''⟩ := hbefore j hj
      exact ⟨k'', hne, hext _ _ hk''⟩

/-! ## Failing -/

/-- A walk inside the table fails exactly when all the slots it meets are owned
by others. -/
theorem claim_none_iff {probe : ℕ → ℕ} {is : List ℕ} (hin : ∀ i ∈ is, probe i < t.length) :
    claim probe k t is = none ↔ ∀ i ∈ is, ∃ k', k' ≠ k ∧ Owned t k' (probe i) := by
  induction is with
  | nil => simp [claim]
  | cons i is ih =>
    obtain ⟨hi, his⟩ := List.forall_mem_cons.mp hin
    rw [claim, List.forall_mem_cons]
    rcases hslot : t[probe i]? with _ | _ | k'
    · exact absurd (List.getElem?_eq_none_iff.mp hslot) (Nat.not_le.mpr hi)
    · simp [Owned, hslot]
    · by_cases heq : k' = k
      · simp [Owned, hslot, heq]
      · simp [Owned, hslot, heq, ih his]

/-- The first `n` rounds meet each of `n` slots. -/
def Covers (probe : ℕ → ℕ) (n : ℕ) : Prop := ∀ b < n, ∃ i < n, probe i = b

/-- A covering sequence fails on full tables only. -/
theorem Covers.full {probe : ℕ → ℕ} (hc : Covers probe t.length)
    (hin : ∀ i, probe i < t.length) (h : claim probe k t (List.range t.length) = none) :
    ∀ b < t.length, ∃ k', k' ≠ k ∧ Owned t k' b := by
  intro b hb
  obtain ⟨i, hi, rfl⟩ := hc b hb
  exact (claim_none_iff fun i _ => hin i).mp h i (List.mem_range.mpr hi)

/-- A covering sequence meets no slot twice. -/
theorem Covers.injective {probe : ℕ → ℕ} {n : ℕ} (hc : Covers probe n)
    (hin : ∀ i, probe i < n) {i j : ℕ} (hi : i < n) (hj : j < n) (h : probe i = probe j) :
    i = j := by
  have hsurj : Function.Surjective fun i : Fin n => (⟨probe i, hin i⟩ : Fin n) := by
    intro b
    obtain ⟨i, hi, hb⟩ := hc b b.isLt
    exact ⟨⟨i, hi⟩, Fin.ext hb⟩
  have hinj := Finite.injective_iff_surjective.mpr hsurj
  exact congrArg Fin.val (@hinj ⟨i, hi⟩ ⟨j, hj⟩ (Fin.ext h))

/-- Consecutive numbers from `h` on, taken modulo `N` and then modulo the size
of the table. -/
def wrapped (N h n i : ℕ) : ℕ := ((h + i) % N) % n

theorem covers_of_consecutive {f : ℕ → ℕ} {h n : ℕ} (hf : ∀ i < n, f i = (h + i) % n) :
    Covers f n := by
  intro b hb
  have hn : 0 < n := by omega
  have hmod := Nat.mod_lt h hn
  refine ⟨(b + (n - h % n)) % n, Nat.mod_lt _ hn, ?_⟩
  rw [hf _ (Nat.mod_lt _ hn), Nat.add_mod, Nat.mod_mod, ← Nat.add_mod]
  have hsum : h + (b + (n - h % n)) = b + n * (h / n + 1) := by
    have hdiv := Nat.div_add_mod h n
    rw [Nat.mul_add, Nat.mul_one]
    omega
  rw [hsum, Nat.add_mul_mod_self_left, Nat.mod_eq_of_lt hb]

/-- The numbers of a window that wraps at `N` are those of one that does not,
modulo the size of the table, only if the size divides `N`. -/
theorem covers_wrap_iff {N h n : ℕ} (hh : h < N) (hn : 0 < n) (hN : n ≤ N) :
    Covers (wrapped N h n) n ↔ n ∣ N ∨ h + n ≤ N := by
  constructor
  · intro hc
    by_contra hno
    rw [not_or, not_le] at hno
    obtain ⟨hdvd, hwrap⟩ := hno
    have hr : N % n ≠ 0 := fun hr => hdvd (Nat.dvd_of_mod_eq_zero hr)
    have hrn := Nat.mod_lt N hn
    have hdiv := Nat.div_add_mod N n
    have hin : ∀ i, wrapped N h n i < n := fun i => Nat.mod_lt _ hn
    -- `k` numbers come before the wrap; two of the window fall together
    obtain ⟨k, hk⟩ : ∃ k, h + k = N := ⟨N - h, by omega⟩
    have hbefore : ∀ i < k, wrapped N h n i = (h + i) % n := fun i hi => by
      rw [wrapped, Nat.mod_eq_of_lt (show h + i < N by omega)]
    have hafter : ∀ j < n, wrapped N h n (k + j) = j := fun j hj => by
      rw [wrapped, ← Nat.add_assoc, hk, Nat.add_mod_left,
        Nat.mod_eq_of_lt (show j < N by omega), Nat.mod_eq_of_lt hj]
    by_cases hle : k ≤ N % n
    · -- the first number of the window is met again after the wrap
      have hfirst : wrapped N h n 0 = N % n - k := by
        rw [hbefore 0 (by omega), Nat.add_zero]
        have hsum : h = n * (N / n) + (N % n - k) := by omega
        rw [hsum, Nat.mul_add_mod, Nat.mod_eq_of_lt (by omega)]
      have hsecond : wrapped N h n (k + (N % n - k)) = N % n - k := hafter _ (by omega)
      have := hc.injective hin (by omega) (by omega) (hfirst.trans hsecond.symm)
      omega
    · -- the multiple of the size below `N` falls together with 0
      have hfirst : wrapped N h n (k - N % n) = 0 := by
        rw [hbefore _ (by omega)]
        have hsum : h + (k - N % n) = n * (N / n) := by omega
        rw [hsum, Nat.mul_mod_right]
      have hsecond : wrapped N h n (k + 0) = 0 := hafter 0 hn
      have := hc.injective hin (by omega) (by omega) (hfirst.trans hsecond.symm)
      omega
  · rintro (hdvd | hle)
    · exact covers_of_consecutive fun i _ => Nat.mod_mod_of_dvd _ hdvd
    · refine covers_of_consecutive (h := h) fun i hi => ?_
      rw [wrapped, Nat.mod_eq_of_lt (show h + i < N by omega)]

end Tesla.Lib
