/-
# `Tesla.Lib.OrderedMap` — maps that know their keys by a comparator

A `std::map` asks its comparator and nothing else: keys of which none is less than the other are
one key to it.  What such a map does is specified for comparators that order the keys they are
given strictly and weakly.  For others it is not, and a statement about every `OrderedMap` then
says nothing about them.

A map stands here for the assignments `map[key] = value` that were made to it, the oldest first.
The first key of a class of equivalent ones stays, with the value that was assigned last.
-/
import Mathlib.Data.List.Find
import Mathlib.Data.List.Induction
import Mathlib.Data.List.Pairwise
import Mathlib.Data.Set.Basic
import Mathlib.Order.Basic

namespace Tesla.Lib

variable {κ ν : Type}

/-- Neither is less than the other. -/
def Equivalent (lt : κ → κ → Bool) (x y : κ) : Prop := lt x y = false ∧ lt y x = false

instance (lt : κ → κ → Bool) (x y : κ) : Decidable (Equivalent lt x y) :=
  inferInstanceAs (Decidable (_ ∧ _))

structure StrictWeakOn (lt : κ → κ → Bool) (s : Set κ) : Prop where
  irrefl : ∀ x ∈ s, lt x x = false
  asymm : ∀ x ∈ s, ∀ y ∈ s, lt x y = true → lt y x = false
  trans : ∀ x ∈ s, ∀ y ∈ s, ∀ z ∈ s, lt x y = true → lt y z = true → lt x z = true
  incomp_trans : ∀ x ∈ s, ∀ y ∈ s, ∀ z ∈ s,
    Equivalent lt x y → Equivalent lt y z → Equivalent lt x z

/-- The keys of a list of assignments. -/
def keys (l : List (κ × ν)) : List κ := l.map (·.1)

/-- The value that was assigned last to a key, or to one that is equivalent. -/
def lastAssigned (lt : κ → κ → Bool) (l : List (κ × ν)) (k : κ) : Option ν :=
  (l.reverse.find? fun e => decide (Equivalent lt e.1 k)).map (·.2)

/-- What the walk over a map comes to after the assignments `l`. -/
structure IsWalk (lt : κ → κ → Bool) (l w : List (κ × ν)) : Prop where
  sorted : (keys w).Pairwise fun x y => lt x y = true
  keys_mem : ∀ k ∈ keys w, k ∈ keys l
  values : ∀ e ∈ w, lastAssigned lt l e.1 = some e.2
  cover : ∀ k ∈ keys l, ∃ e ∈ w, Equivalent lt e.1 k

/-- An implementation of maps with the comparator `lt`, which does what is specified. -/
structure OrderedMap (lt : κ → κ → Bool) where
  walk : {ν : Type} → List (κ × ν) → List (κ × ν)
  find : {ν : Type} → List (κ × ν) → κ → Option ν
  walk_spec : ∀ {ν : Type} (l : List (κ × ν)), StrictWeakOn lt {x | x ∈ keys l} →
    IsWalk lt l (walk l)
  find_spec : ∀ {ν : Type} (l : List (κ × ν)) (k : κ), StrictWeakOn lt {x | x = k ∨ x ∈ keys l} →
    find l k = lastAssigned lt l k

variable {lt : κ → κ → Bool} {s t : Set κ} {x y z k : κ} {l w : List (κ × ν)} {v : ν}

/-! ## Strict weak orders -/

theorem StrictWeakOn.mono (h : StrictWeakOn lt s) (hsub : ∀ x ∈ t, x ∈ s) : StrictWeakOn lt t where
  irrefl x hx := h.irrefl x (hsub x hx)
  asymm x hx y hy := h.asymm x (hsub x hx) y (hsub y hy)
  trans x hx y hy z hz := h.trans x (hsub x hx) y (hsub y hy) z (hsub z hz)
  incomp_trans x hx y hy z hz := h.incomp_trans x (hsub x hx) y (hsub y hy) z (hsub z hz)

theorem Equivalent.symm (h : Equivalent lt x y) : Equivalent lt y x := ⟨h.2, h.1⟩

/-- A comparator that compares by a key. -/
theorem StrictWeakOn.of_key {γ : Type*} [LinearOrder γ] (f : κ → γ)
    (h : ∀ x ∈ s, ∀ y ∈ s, lt x y = true ↔ f x < f y) : StrictWeakOn lt s := by
  have hfalse (x : κ) (hx : x ∈ s) (y : κ) (hy : y ∈ s) : lt x y = false ↔ f y ≤ f x := by
    rw [← Bool.not_eq_true, h x hx y hy, not_lt]
  have hequiv (x : κ) (hx : x ∈ s) (y : κ) (hy : y ∈ s) : Equivalent lt x y ↔ f x = f y := by
    rw [Equivalent, hfalse x hx y hy, hfalse y hy x hx, and_comm, ← le_antisymm_iff]
  refine ⟨?_, ?_, ?_, ?_⟩
  · intro x hx
    exact (hfalse x hx x hx).mpr (le_refl _)
  · intro x hx y hy hxy
    exact (hfalse y hy x hx).mpr ((h x hx y hy).mp hxy).le
  · intro x hx y hy z hz hxy hyz
    exact (h x hx z hz).mpr (((h x hx y hy).mp hxy).trans ((h y hy z hz).mp hyz))
  · intro x hx y hy z hz hxy hyz
    rw [hequiv x hx y hy] at hxy
    rw [hequiv y hy z hz] at hyz
    exact (hequiv x hx z hz).mpr (hxy.trans hyz)

/-- With `x` less than `y`, what is equivalent to the one is not equivalent to the other. -/
theorem StrictWeakOn.not_equivalent (h : StrictWeakOn lt s) (hx : x ∈ s) (hy : y ∈ s) (hz : z ∈ s)
    (hlt : lt x y = true) (hxz : Equivalent lt x z) : ¬ Equivalent lt y z := by
  intro hyz
  have hxy := (h.incomp_trans x hx z hz y hy hxz hyz.symm).1
  rw [hlt] at hxy
  cases hxy

/-! ## Assignments -/

theorem keys_append {l l' : List (κ × ν)} : keys (l ++ l') = keys l ++ keys l' := List.map_append

theorem mem_keys : k ∈ keys l ↔ ∃ v, (k, v) ∈ l := by
  simp [keys]

theorem key_mem {e : κ × ν} (he : e ∈ l) : e.1 ∈ keys l := List.mem_map_of_mem he

theorem lastAssigned_append {l' : List (κ × ν)} :
    lastAssigned lt (l ++ l') k = (lastAssigned lt l' k).or (lastAssigned lt l k) := by
  rw [lastAssigned, List.reverse_append, List.find?_append, Option.map_or]
  rfl

theorem lastAssigned_singleton {e : κ × ν} :
    lastAssigned lt [e] k = if Equivalent lt e.1 k then some e.2 else none := by
  rw [lastAssigned, List.reverse_singleton, List.find?_singleton]
  split
  · next h => rw [if_pos (of_decide_eq_true h), Option.map_some]
  · next h => rw [if_neg fun heq => h (decide_eq_true heq), Option.map_none]

theorem lastAssigned_concat {e : κ × ν} : lastAssigned lt (l ++ [e]) k =
    if Equivalent lt e.1 k then some e.2 else lastAssigned lt l k := by
  rw [lastAssigned_append, lastAssigned_singleton]
  split <;> rfl

theorem lastAssigned_cons {e : κ × ν} : lastAssigned lt (e :: l) k =
    (lastAssigned lt l k).or (if Equivalent lt e.1 k then some e.2 else none) := by
  rw [← List.singleton_append, lastAssigned_append, lastAssigned_singleton]

theorem lastAssigned_map {μ : Type} (g : ν → μ) :
    lastAssigned lt (l.map fun e => (e.1, g e.2)) k = (lastAssigned lt l k).map g := by
  rw [lastAssigned, ← List.map_reverse, List.find?_map, Option.map_map, lastAssigned,
    Option.map_map]
  rfl

theorem lastAssigned_eq_none : lastAssigned lt l k = none ↔ ∀ x ∈ keys l, ¬ Equivalent lt x k := by
  rw [lastAssigned, Option.map_eq_none_iff, List.find?_eq_none]
  simp [keys]

theorem exists_of_lastAssigned (h : lastAssigned lt l k = some v) :
    ∃ x, (x, v) ∈ l ∧ Equivalent lt x k := by
  obtain ⟨e, he, rfl⟩ := Option.map_eq_some_iff.mp h
  exact ⟨e.1, List.mem_reverse.mp (List.mem_of_find?_eq_some he), of_decide_eq_true (List.find?_some he :)⟩

/-- Equivalent keys have one value. -/
theorem lastAssigned_congr (h : StrictWeakOn lt s) (hl : ∀ z ∈ keys l, z ∈ s) (hx : x ∈ s)
    (hy : y ∈ s) (hxy : Equivalent lt x y) : lastAssigned lt l x = lastAssigned lt l y := by
  have hsame : ∀ e ∈ l.reverse,
      decide (Equivalent lt e.1 x) = decide (Equivalent lt e.1 y) := by
    intro e he
    have hes := hl e.1 (key_mem (List.mem_reverse.mp he))
    rw [decide_eq_decide]
    exact ⟨fun hex => h.incomp_trans _ hes _ hx _ hy hex hxy,
      fun hey => h.incomp_trans _ hes _ hy _ hx hey hxy.symm⟩
  rw [lastAssigned, lastAssigned, List.find?_congr hsame]

/-! ## Walks -/

/-- Of the keys of a walk, one is equivalent to `k` at most. -/
theorem IsWalk.unique (hw : IsWalk lt l w) (h : StrictWeakOn lt s) (hl : ∀ z ∈ keys l, z ∈ s)
    (hk : k ∈ s) {e e' : κ × ν} (he : e ∈ w) (he' : e' ∈ w) (hek : Equivalent lt e.1 k)
    (hek' : Equivalent lt e'.1 k) : e = e' := by
  by_contra hne
  have hmem (e : κ × ν) (he : e ∈ w) : e.1 ∈ s := hl _ (hw.keys_mem _ (key_mem he))
  have hsym : Std.Symm fun e e' : κ × ν => lt e.1 e'.1 = true ∨ lt e'.1 e.1 = true :=
    ⟨fun _ _ => Or.symm⟩
  have hsorted := (List.pairwise_map.mp hw.sorted).imp fun {e e'} hlt =>
    (Or.inl hlt : lt e.1 e'.1 = true ∨ lt e'.1 e.1 = true)
  rcases hsorted.forall he he' hne with hlt | hlt
  · exact h.not_equivalent (hmem e he) (hmem e' he') hk hlt hek hek'
  · exact h.not_equivalent (hmem e' he') (hmem e he) hk hlt hek' hek

/-- A walk assigned to another map leaves the same values there. -/
theorem IsWalk.lastAssigned_eq (hw : IsWalk lt l w) (h : StrictWeakOn lt s)
    (hl : ∀ z ∈ keys l, z ∈ s) (hk : k ∈ s) : lastAssigned lt w k = lastAssigned lt l k := by
  have hmem (e : κ × ν) (he : e ∈ w) : e.1 ∈ s := hl _ (hw.keys_mem _ (key_mem he))
  cases hlast : lastAssigned lt l k with
  | none =>
    refine lastAssigned_eq_none.mpr fun x hx => ?_
    exact lastAssigned_eq_none.mp hlast x (hw.keys_mem x hx)
  | some v =>
    obtain ⟨x, hx, hxk⟩ := exists_of_lastAssigned hlast
    obtain ⟨e, he, hex⟩ := hw.cover x (key_mem hx)
    have hek := h.incomp_trans _ (hmem e he) _ (hl x (key_mem hx)) _ hk hex hxk
    have hvalue : e.2 = v := by
      have heq := lastAssigned_congr h hl (hmem e he) hk hek
      rw [hw.values e he, hlast] at heq
      exact Option.some.inj heq
    cases hfound : lastAssigned lt w k with
    | none => exact absurd hek (lastAssigned_eq_none.mp hfound _ (key_mem he))
    | some v' =>
      obtain ⟨x', hx', hxk'⟩ := exists_of_lastAssigned hfound
      have heq := hw.unique h hl hk he hx' hek hxk'
      rw [← hvalue, heq]

/-! ## An implementation -/

/-- `map[e.1] = e.2`, in a sorted list. -/
def assign (lt : κ → κ → Bool) : List (κ × ν) → κ × ν → List (κ × ν)
  | [], e => [e]
  | c :: w, e =>
    if lt c.1 e.1 then c :: assign lt w e
    else if lt e.1 c.1 then e :: c :: w
    else (c.1, e.2) :: w

/-- The search for a key in a sorted list. -/
def search (lt : κ → κ → Bool) : List (κ × ν) → κ → Option ν
  | [], _ => none
  | c :: w, k => if lt c.1 k then search lt w k else if lt k c.1 then none else some c.2

/-- A value is replaced, or there is a new one between the smaller keys and the greater ones. -/
theorem assign_cases (h : StrictWeakOn lt s) {e : κ × ν} (he : e.1 ∈ s) (hw : ∀ z ∈ keys w, z ∈ s)
    (hsorted : (keys w).Pairwise fun x y => lt x y = true) :
    (∃ pre c post, w = pre ++ c :: post ∧ assign lt w e = pre ++ (c.1, e.2) :: post ∧
        Equivalent lt c.1 e.1) ∨
      ∃ pre post, w = pre ++ post ∧ assign lt w e = pre ++ e :: post ∧
        (∀ c ∈ pre, lt c.1 e.1 = true) ∧ ∀ c ∈ post, lt e.1 c.1 = true := by
  induction w with
  | nil => exact .inr ⟨[], [], rfl, rfl, nofun, nofun⟩
  | cons c w ih =>
    rw [keys, List.map_cons, ← keys, List.forall_mem_cons] at hw
    rw [keys, List.map_cons, ← keys, List.pairwise_cons] at hsorted
    rw [assign]
    split
    · next hlt =>
      rcases ih hw.2 hsorted.2 with ⟨pre, c', post, rfl, heq, hc'⟩ | ⟨pre, post, rfl, heq, hpre, hpost⟩
      · exact .inl ⟨c :: pre, c', post, rfl, by rw [heq]; rfl, hc'⟩
      · exact .inr ⟨c :: pre, post, rfl, by rw [heq]; rfl, List.forall_mem_cons.mpr ⟨hlt, hpre⟩, hpost⟩
    · next hnlt =>
      rw [Bool.not_eq_true] at hnlt
      split
      · next hgt =>
        refine .inr ⟨[], c :: w, rfl, rfl, nofun, List.forall_mem_cons.mpr ⟨hgt, fun c' hc' => ?_⟩⟩
        exact h.trans _ he _ hw.1 _ (hw.2 _ (key_mem hc')) hgt (hsorted.1 _ (key_mem hc'))
      · next hngt =>
        rw [Bool.not_eq_true] at hngt
        exact .inl ⟨[], c, w, rfl, rfl, hnlt, hngt⟩

theorem isWalk_nil : IsWalk lt ([] : List (κ × ν)) [] := ⟨.nil, nofun, nofun, nofun⟩

/-- A key that is less than an equivalent one, or greater, is not equivalent itself. -/
theorem StrictWeakOn.not_equivalent_of_lt (h : StrictWeakOn lt s) (hx : x ∈ s) (hy : y ∈ s)
    (hz : z ∈ s) (hlt : lt x y = true ∨ lt y x = true) (hyz : Equivalent lt y z) :
    ¬ Equivalent lt z x := by
  intro hzx
  rcases hlt with hlt | hlt
  · exact h.not_equivalent hx hy hz hlt hzx.symm hyz
  · exact h.not_equivalent hy hx hz hlt hyz hzx.symm

/-- The keys of a walk that stay have their values still. -/
theorem IsWalk.kept {e c : κ × ν} (hw : IsWalk lt l w) (hc : c ∈ w)
    (hne : ¬ Equivalent lt e.1 c.1) : lastAssigned lt (l ++ [e]) c.1 = some c.2 := by
  rw [lastAssigned_concat, if_neg hne]
  exact hw.values c hc

/-- A new value for a key of the walk. -/
theorem IsWalk.replace {e c : κ × ν} {before after : List (κ × ν)}
    (hw : IsWalk lt l (before ++ c :: after)) (h : StrictWeakOn lt s) (hl : ∀ z ∈ keys l, z ∈ s)
    (he : e.1 ∈ s) (hc : Equivalent lt c.1 e.1) :
    IsWalk lt (l ++ [e]) (before ++ (c.1, e.2) :: after) := by
  have hmem (c' : κ × ν) (hc' : c' ∈ before ++ c :: after) : c'.1 ∈ s :=
    hl _ (hw.keys_mem _ (key_mem hc'))
  have hcw : c ∈ before ++ c :: after := List.mem_append_right _ List.mem_cons_self
  have hsame : keys (before ++ (c.1, e.2) :: after) = keys (before ++ c :: after) := by simp [keys]
  have hsorted := hw.sorted
  rw [keys, List.map_append, List.map_cons] at hsorted
  obtain ⟨_, hright, hcross⟩ := List.pairwise_append.mp hsorted
  obtain ⟨hgt, _⟩ := List.pairwise_cons.mp hright
  have hkept (c' : κ × ν) (hc' : c' ∈ before ++ c :: after)
      (hlt : lt c'.1 c.1 = true ∨ lt c.1 c'.1 = true) :
      lastAssigned lt (l ++ [e]) c'.1 = some c'.2 :=
    hw.kept hc' (h.not_equivalent_of_lt (hmem c' hc') (hmem c hcw) he hlt hc)
  refine ⟨by rw [hsame]; exact hw.sorted, ?_, ?_, ?_⟩
  · intro k hk
    rw [keys_append]
    exact List.mem_append_left _ (hw.keys_mem k (hsame ▸ hk))
  · rw [List.forall_mem_append, List.forall_mem_cons]
    refine ⟨fun c' hc' => ?_, ?_, fun c' hc' => ?_⟩
    · exact hkept c' (List.mem_append_left _ hc')
        (.inl (hcross _ (key_mem hc') _ List.mem_cons_self))
    · rw [lastAssigned_concat, if_pos hc.symm]
    · exact hkept c' (List.mem_append_right _ (List.mem_cons_of_mem _ hc'))
        (.inr (hgt _ (key_mem hc')))
  · intro k hk
    rw [keys_append, List.mem_append] at hk
    rcases hk with hk | hk
    · obtain ⟨c', hc', heq'⟩ := hw.cover k hk
      obtain ⟨v, hv⟩ := mem_keys.mp (hsame ▸ key_mem hc')
      exact ⟨_, hv, heq'⟩
    · obtain rfl := List.mem_singleton.mp hk
      exact ⟨(c.1, e.2), List.mem_append_right _ List.mem_cons_self, hc⟩

/-- A new key between the smaller ones and the greater ones. -/
theorem IsWalk.insert {e : κ × ν} {before after : List (κ × ν)} (hw : IsWalk lt l (before ++ after))
    (hself : Equivalent lt e.1 e.1) (hbefore : ∀ c ∈ before, lt c.1 e.1 = true)
    (hafter : ∀ c ∈ after, lt e.1 c.1 = true) :
    IsWalk lt (l ++ [e]) (before ++ e :: after) := by
  have hsorted := hw.sorted
  rw [keys, List.map_append] at hsorted
  obtain ⟨hleft, hright, hcross⟩ := List.pairwise_append.mp hsorted
  have hfresh (c : κ × ν) (hc : c ∈ before ++ after) : ¬ Equivalent lt e.1 c.1 := by
    intro heq
    rcases List.mem_append.mp hc with hc | hc
    · exact Bool.false_ne_true (heq.2.symm.trans (hbefore c hc))
    · exact Bool.false_ne_true (heq.1.symm.trans (hafter c hc))
  have hperm : (before ++ e :: after).Perm (e :: (before ++ after)) := List.perm_middle
  refine ⟨?_, ?_, ?_, ?_⟩
  · rw [keys, List.map_append, List.map_cons]
    refine List.pairwise_append.mpr ⟨hleft, List.pairwise_cons.mpr ⟨?_, hright⟩, ?_⟩
    · exact List.forall_mem_map.mpr hafter
    · intro k hk k' hk'
      rcases List.mem_cons.mp hk' with rfl | hk'
      · obtain ⟨c, hc, rfl⟩ := List.mem_map.mp hk
        exact hbefore c hc
      · exact hcross k hk k' hk'
  · intro k hk
    rw [keys_append, List.mem_append]
    rcases List.mem_cons.mp ((hperm.map (·.1)).mem_iff.mp hk) with rfl | hk
    · exact .inr (List.mem_singleton_self _)
    · exact .inl (hw.keys_mem k hk)
  · intro c hc
    rcases List.mem_cons.mp (hperm.mem_iff.mp hc) with rfl | hc
    · rw [lastAssigned_concat, if_pos hself]
    · exact hw.kept hc (hfresh c hc)
  · intro k hk
    rw [keys_append, List.mem_append] at hk
    rcases hk with hk | hk
    · obtain ⟨c, hc, heq'⟩ := hw.cover k hk
      exact ⟨c, hperm.mem_iff.mpr (List.mem_cons_of_mem _ hc), heq'⟩
    · obtain rfl := List.mem_singleton.mp hk
      exact ⟨e, hperm.mem_iff.mpr List.mem_cons_self, hself⟩

theorem IsWalk.assign {e : κ × ν} (hw : IsWalk lt l w) (h : StrictWeakOn lt s)
    (hl : ∀ z ∈ keys l, z ∈ s) (he : e.1 ∈ s) : IsWalk lt (l ++ [e]) (assign lt w e) := by
  rcases assign_cases h he (fun z hz => hl z (hw.keys_mem z hz)) hw.sorted with
    ⟨before, c, after, rfl, heq, hc⟩ | ⟨before, after, rfl, heq, hbefore, hafter⟩
  · rw [heq]
    exact hw.replace h hl he hc
  · rw [heq]
    exact hw.insert ⟨h.irrefl _ he, h.irrefl _ he⟩ hbefore hafter

theorem isWalk_foldl (h : StrictWeakOn lt s) (l : List (κ × ν)) (hl : ∀ z ∈ keys l, z ∈ s) :
    IsWalk lt l (l.foldl (assign lt) []) := by
  induction l using List.reverseRecOn with
  | nil => exact isWalk_nil
  | append_singleton l e ih =>
    rw [keys_append, List.forall_mem_append] at hl
    rw [List.foldl_append, List.foldl_cons, List.foldl_nil]
    exact (ih hl.1).assign h hl.1 (hl.2 e.1 List.mem_cons_self)

/-- In a sorted list the search finds the value of the key. -/
theorem search_eq (h : StrictWeakOn lt s) (hk : k ∈ s) (hw : ∀ z ∈ keys w, z ∈ s)
    (hsorted : (keys w).Pairwise fun x y => lt x y = true) :
    search lt w k = lastAssigned lt w k := by
  induction w with
  | nil => rfl
  | cons c w ih =>
    rw [keys, List.map_cons, ← keys, List.forall_mem_cons] at hw
    rw [keys, List.map_cons, ← keys, List.pairwise_cons] at hsorted
    rw [search, lastAssigned_cons]
    cases hck : lt c.1 k with
    | true =>
      have hne : ¬ Equivalent lt c.1 k := fun heq => Bool.false_ne_true (heq.1.symm.trans hck)
      rw [if_pos rfl, if_neg hne, Option.or_none]
      exact ih hw.2 hsorted.2
    | false =>
      rw [if_neg Bool.false_ne_true]
      cases hkc : lt k c.1 with
      | true =>
        have hnone : lastAssigned lt w k = none := by
          refine lastAssigned_eq_none.mpr fun z hz heq => ?_
          exact Bool.false_ne_true
            (heq.2.symm.trans (h.trans _ hk _ hw.1 _ (hw.2 z hz) hkc (hsorted.1 z hz)))
        have hne : ¬ Equivalent lt c.1 k := fun heq => Bool.false_ne_true (heq.2.symm.trans hkc)
        rw [if_pos rfl, hnone, if_neg hne, Option.or_none]
      | false =>
        have hnone : lastAssigned lt w k = none := by
          refine lastAssigned_eq_none.mpr fun z hz => ?_
          exact h.not_equivalent hw.1 (hw.2 z hz) hk (hsorted.1 z hz) ⟨hck, hkc⟩
        rw [if_neg Bool.false_ne_true, hnone, Option.none_or, if_pos ⟨hck, hkc⟩]

/-- Sorted lists. -/
def OrderedMap.sortedList (lt : κ → κ → Bool) : OrderedMap lt where
  walk l := l.foldl (assign lt) []
  find l k := search lt (l.foldl (assign lt) []) k
  walk_spec l h := isWalk_foldl h l fun _ hz => hz
  find_spec l k h := by
    have hl : ∀ z ∈ keys l, z ∈ {x | x = k ∨ x ∈ keys l} := fun _ hz => .inr hz
    have hw := isWalk_foldl h l hl
    rw [search_eq h (.inl rfl) (fun z hz => hl z (hw.keys_mem z hz)) hw.sorted]
    exact hw.lastAssigned_eq h hl (.inl rfl)

open Classical in
/-- Maps that are empty where nothing is specified. -/
noncomputable def OrderedMap.unspecified (lt : κ → κ → Bool) : OrderedMap lt where
  walk l := if StrictWeakOn lt {x | x ∈ keys l} then (sortedList lt).walk l else []
  find l k := if StrictWeakOn lt {x | x = k ∨ x ∈ keys l} then (sortedList lt).find l k else none
  walk_spec l h := by
    rw [if_pos h]
    exact (sortedList lt).walk_spec l h
  find_spec l k h := by
    rw [if_pos h]
    exact (sortedList lt).find_spec l k h

theorem strictWeakOn_of_walk {e : κ × ν} (h : e ∈ (OrderedMap.unspecified lt).walk l) :
    StrictWeakOn lt {x | x ∈ keys l} := by
  by_contra hnot
  rw [OrderedMap.unspecified] at h
  dsimp only at h
  rw [if_neg hnot] at h
  cases h

theorem find_unspecified (h : (OrderedMap.unspecified lt).find l k = some v) :
    StrictWeakOn lt {x | x = k ∨ x ∈ keys l} ∧ lastAssigned lt l k = some v := by
  by_cases hk : StrictWeakOn lt {x | x = k ∨ x ∈ keys l}
  · exact ⟨hk, (OrderedMap.find_spec _ l k hk).symm.trans h⟩
  · rw [OrderedMap.unspecified] at h
    dsimp only at h
    rw [if_neg hk] at h
    cases h

end Tesla.Lib
