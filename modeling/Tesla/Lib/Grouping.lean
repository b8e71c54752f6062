/-
# `Tesla.Lib.Grouping` — groups of elements with one key

The elements of a list come into groups one after the other: into the group that has the key of
the element, or into a new one.  Each element is in one group then, and two are in the same group
if and only if they have the same key.
-/
import Mathlib.Data.Fintype.Card
import Mathlib.Data.List.Nodup

namespace Tesla.Lib

variable {ι γ : Type}

/-- Have no element of the one and no element of the other group the same key? -/
def KeysApart (key : ι → γ) (c c' : List ι) : Prop := ∀ t ∈ c, ∀ u ∈ c', key t ≠ key u

/-- However the elements of a group are walked, there is one to begin with. -/
theorem exists_head_of_perm {w c : List ι} (h : w.Perm c) (hc : c ≠ []) :
    ∃ t ∈ c, w.head? = some t := by
  cases hw : w.head? with
  | none =>
    rw [List.head?_eq_none_iff.mp hw] at h
    exact absurd h.nil_eq.symm hc
  | some t => exact ⟨t, h.mem_iff.mp (List.mem_of_head? hw), rfl⟩

/-- The groups `cs` of the elements `ts`. -/
structure Grouping (key : ι → γ) (ts : List ι) (cs : List (List ι)) : Prop where
  mem_iff : ∀ t, t ∈ ts ↔ ∃ c ∈ cs, t ∈ c
  nonempty : ∀ c ∈ cs, c ≠ []
  uniform : ∀ c ∈ cs, ∀ t ∈ c, ∀ u ∈ c, key t = key u
  apart : cs.Pairwise (KeysApart key)

variable {key : ι → γ} {ts : List ι} {cs pre post : List (List ι)} {c c' : List ι} {t u : ι} {k k' : Nat}

theorem KeysApart.symm (h : KeysApart key c c') : KeysApart key c' c :=
  fun t ht u hu heq => h u hu t ht heq.symm

theorem grouping_nil : Grouping key [] [] :=
  ⟨fun t => by simp, nofun, nofun, .nil⟩

/-- An element comes into the group with its key. -/
theorem Grouping.join (h : Grouping key ts (pre ++ c :: post)) (hc : ∀ u ∈ c, key u = key t)
    (hc' : ∀ u, u ∈ c' ↔ u ∈ c ∨ u = t) : Grouping key (ts ++ [t]) (pre ++ c' :: post) := by
  have hmem : c ∈ pre ++ c :: post := List.mem_append_right _ List.mem_cons_self
  obtain ⟨v, hv⟩ := List.exists_mem_of_ne_nil _ (h.nonempty c hmem)
  have hkeys : ∀ u ∈ c', key u = key v := by
    intro u hu
    rcases (hc' u).mp hu with hu | rfl
    · exact h.uniform c hmem u hu v hv
    · exact (hc v hv).symm
  obtain ⟨hpre, hpost, hcross⟩ := List.pairwise_append.mp h.apart
  obtain ⟨hcpost, hpost⟩ := List.pairwise_cons.mp hpost
  refine ⟨fun u => ?_, ?_, ?_, ?_⟩
  · rw [List.mem_append, List.mem_singleton, h.mem_iff]
    simp only [List.mem_append, List.mem_cons]
    constructor
    · rintro (⟨d, hd | rfl | hd, hu⟩ | rfl)
      · exact ⟨d, .inl hd, hu⟩
      · exact ⟨c', .inr (.inl rfl), (hc' u).mpr (.inl hu)⟩
      · exact ⟨d, .inr (.inr hd), hu⟩
      · exact ⟨c', .inr (.inl rfl), (hc' u).mpr (.inr rfl)⟩
    · rintro ⟨d, hd | rfl | hd, hu⟩
      · exact .inl ⟨d, .inl hd, hu⟩
      · exact ((hc' u).mp hu).imp_left fun hu => ⟨c, .inr (.inl rfl), hu⟩
      · exact .inl ⟨d, .inr (.inr hd), hu⟩
  · have hold := h.nonempty
    rw [List.forall_mem_append, List.forall_mem_cons] at hold ⊢
    exact ⟨hold.1, List.ne_nil_of_mem ((hc' t).mpr (.inr rfl)), hold.2.2⟩
  · have hold := h.uniform
    rw [List.forall_mem_append, List.forall_mem_cons] at hold ⊢
    refine ⟨hold.1, fun u hu w hw => ?_, hold.2.2⟩
    rw [hkeys u hu, hkeys w hw]
  · refine List.pairwise_append.mpr ⟨hpre, List.pairwise_cons.mpr ⟨?_, hpost⟩, ?_⟩
    · intro d hd u hu w hw
      rw [hkeys u hu]
      exact hcpost d hd v hv w hw
    · intro d hd d' hd' u hu w hw
      rcases List.mem_cons.mp hd' with rfl | hd'
      · rw [hkeys w hw]
        exact hcross d hd c List.mem_cons_self u hu v hv
      · exact hcross d hd d' (List.mem_cons_of_mem _ hd') u hu w hw

/-- An element with a new key is a group of its own. -/
theorem Grouping.newGroup (h : Grouping key ts cs) (hnew : ∀ c ∈ cs, ∀ u ∈ c, key u ≠ key t) :
    Grouping key (ts ++ [t]) (cs ++ [[t]]) := by
  refine ⟨fun u => ?_, ?_, ?_, ?_⟩
  · rw [List.mem_append, List.mem_singleton, h.mem_iff]
    constructor
    · rintro (⟨c, hc, hu⟩ | rfl)
      · exact ⟨c, List.mem_append_left _ hc, hu⟩
      · exact ⟨[u], List.mem_append_right _ List.mem_cons_self, List.mem_cons_self⟩
    · rintro ⟨c, hc, hu⟩
      rcases List.mem_append.mp hc with hc | hc
      · exact .inl ⟨c, hc, hu⟩
      · obtain rfl := List.mem_singleton.mp hc
        exact .inr (List.mem_singleton.mp hu)
  · rw [List.forall_mem_append, List.forall_mem_singleton]
    exact ⟨h.nonempty, List.cons_ne_nil _ _⟩
  · rw [List.forall_mem_append, List.forall_mem_singleton]
    refine ⟨h.uniform, fun u hu w hw => ?_⟩
    rw [List.mem_singleton.mp hu, List.mem_singleton.mp hw]
  · refine List.pairwise_append.mpr ⟨h.apart, List.pairwise_singleton _ _, ?_⟩
    intro c hc d hd u hu w hw
    obtain rfl := List.mem_singleton.mp hd
    obtain rfl := List.mem_singleton.mp hw
    exact hnew c hc u hu

/-- Groups with a common key are one group. -/
theorem Grouping.index_unique (h : Grouping key ts cs) (hc : cs[k]? = some c)
    (hc' : cs[k']? = some c') (ht : t ∈ c) (hu : u ∈ c') (heq : key t = key u) : k = k' := by
  obtain ⟨hk, rfl⟩ := List.getElem?_eq_some_iff.mp hc
  obtain ⟨hk', rfl⟩ := List.getElem?_eq_some_iff.mp hc'
  have hpairs := List.pairwise_iff_getElem.mp h.apart
  rcases Nat.lt_trichotomy k k' with hlt | heq' | hgt
  · exact absurd heq (hpairs k k' hk hk' hlt t ht u hu)
  · exact heq'
  · exact absurd heq.symm (hpairs k' k hk' hk hgt u hu t ht)

/-- A group is all that has the key of one of its elements. -/
theorem Grouping.mem_group_iff (h : Grouping key ts cs) (hc : c ∈ cs) (ht : t ∈ c) :
    u ∈ c ↔ u ∈ ts ∧ key u = key t := by
  constructor
  · exact fun hu => ⟨(h.mem_iff u).mpr ⟨c, hc, hu⟩, h.uniform c hc u hu t ht⟩
  · rintro ⟨hu, heq⟩
    obtain ⟨c', hc', huc'⟩ := (h.mem_iff u).mp hu
    obtain ⟨k, hk⟩ := List.mem_iff_getElem?.mp hc
    obtain ⟨k', hk'⟩ := List.mem_iff_getElem?.mp hc'
    obtain rfl := h.index_unique hk hk' ht huc' heq.symm
    rw [hk, Option.some_inj] at hk'
    exact hk' ▸ huc'

/-- Every element is in one group. -/
theorem Grouping.existsUnique (h : Grouping key ts cs) (ht : t ∈ ts) :
    ∃! k : Nat, ∃ c, cs[k]? = some c ∧ t ∈ c := by
  obtain ⟨c, hc, htc⟩ := (h.mem_iff t).mp ht
  obtain ⟨k, hk⟩ := List.mem_iff_getElem?.mp hc
  refine ⟨k, ⟨c, hk, htc⟩, ?_⟩
  rintro k' ⟨c', hk', htc'⟩
  exact h.index_unique hk' hk htc' htc rfl

/-- Two elements are in one group if they have the same key, and only then. -/
theorem Grouping.same_iff (h : Grouping key ts cs) (ht : t ∈ ts) (hu : u ∈ ts) :
    (∃ c ∈ cs, t ∈ c ∧ u ∈ c) ↔ key t = key u := by
  constructor
  · rintro ⟨c, hc, htc, huc⟩
    exact h.uniform c hc t htc u huc
  · intro heq
    obtain ⟨c, hc, htc⟩ := (h.mem_iff t).mp ht
    exact ⟨c, hc, htc, (h.mem_group_iff hc htc).mpr ⟨hu, heq.symm⟩⟩

/-- There are as many groups as keys, at least. -/
theorem Grouping.le_length (h : Grouping key ts cs) (n : Nat) (f : Fin n → ι) (hf : ∀ i, f i ∈ ts)
    (hinj : ∀ i j, key (f i) = key (f j) → i = j) : n ≤ cs.length := by
  choose k hk using fun i => (h.existsUnique (hf i)).exists
  have hlt (i : Fin n) : k i < cs.length := by
    obtain ⟨c, hc, _⟩ := hk i
    exact (List.getElem?_eq_some_iff.mp hc).1
  have hcard := Fintype.card_le_of_injective (fun i => (⟨k i, hlt i⟩ : Fin cs.length)) fun i j hij => by
    obtain ⟨c, hc, hic⟩ := hk i
    obtain ⟨c', hc', hjc'⟩ := hk j
    rw [Fin.mk.inj hij, hc', Option.some_inj] at hc
    subst hc
    exact hinj i j (h.uniform _ (List.mem_of_getElem? hc') _ hic _ hjc')
  simpa using hcard

end Tesla.Lib
