/-
# `Tesla.Lib.Merge` — maps put together

Entries are added to a map one after the other.  One whose key is there is dropped if its value
is the same and refused if it is not.  Where the comparator tells the keys apart, the outcome is
a matter of which entries there are: they are refused if some key has two values, and the map
holds each of them once otherwise.
-/
import Mathlib.Data.List.Nodup
import Tesla.Lib.Ensures
import Tesla.Lib.OrderedMap

namespace Tesla.Lib

variable {κ ν ε : Type}

/-- Only a key itself is equivalent to it. -/
structure Discerns (lt : κ → κ → Bool) (s : Set κ) : Prop where
  order : StrictWeakOn lt s
  eq_of_equivalent : ∀ x ∈ s, ∀ y ∈ s, Equivalent lt x y → x = y

/-- No key has two values. -/
def Consistent (es : List (κ × ν)) : Prop := ∀ k v v', (k, v) ∈ es → (k, v') ∈ es → v = v'

/-- A list that has what `es` has, each key once. -/
structure Merged (es l : List (κ × ν)) : Prop where
  nodup : (keys l).Nodup
  mem : ∀ e, e ∈ l ↔ e ∈ es

/-- An entry is added, or there already, or refused. -/
def merge {lt : κ → κ → Bool} (m : OrderedMap lt) (same : ν → ν → Bool) (fail : κ → ε)
    (l : List (κ × ν)) (e : κ × ν) : Except ε (List (κ × ν)) :=
  match m.find l e.1 with
  | none => .ok (l ++ [e])
  | some existing => if same existing e.2 then .ok l else .error (fail e.1)

variable {lt : κ → κ → Bool} {m : OrderedMap lt} {same : ν → ν → Bool} {fail : κ → ε} {s : Set κ}
  {es fs l w : List (κ × ν)} {e : κ × ν} {k : κ} {v v' : ν}

/-! ## Keys that are told apart -/

theorem Discerns.equivalent_iff (h : Discerns lt s) {x y : κ} (hx : x ∈ s) (hy : y ∈ s) :
    Equivalent lt x y ↔ x = y := by
  refine ⟨h.eq_of_equivalent x hx y hy, ?_⟩
  rintro rfl
  exact ⟨h.order.irrefl x hx, h.order.irrefl x hx⟩

theorem eq_of_nodup_keys (hl : (keys l).Nodup) (hv : (k, v) ∈ l) (hv' : (k, v') ∈ l) : v = v' :=
  congrArg Prod.snd (List.inj_on_of_nodup_map hl hv hv' rfl)

theorem Discerns.lastAssigned_eq_some (h : Discerns lt s) (hl : ∀ z ∈ keys l, z ∈ s) (hk : k ∈ s)
    (hnodup : (keys l).Nodup) : lastAssigned lt l k = some v ↔ (k, v) ∈ l := by
  constructor
  · intro hlast
    obtain ⟨x, hx, hxk⟩ := exists_of_lastAssigned hlast
    rwa [h.eq_of_equivalent x (hl x (key_mem hx)) k hk hxk] at hx
  · intro hv
    cases hlast : lastAssigned lt l k with
    | none =>
      exact absurd ((h.equivalent_iff hk hk).mpr rfl) (lastAssigned_eq_none.mp hlast k (key_mem hv))
    | some v' =>
      obtain ⟨x, hx, hxk⟩ := exists_of_lastAssigned hlast
      rw [h.eq_of_equivalent x (hl x (key_mem hx)) k hk hxk] at hx
      rw [eq_of_nodup_keys hnodup hx hv]

theorem Discerns.find_eq_some (h : Discerns lt s) (hl : ∀ z ∈ keys l, z ∈ s) (hk : k ∈ s)
    (hnodup : (keys l).Nodup) : m.find l k = some v ↔ (k, v) ∈ l := by
  rw [m.find_spec, h.lastAssigned_eq_some hl hk hnodup]
  refine h.order.mono fun z hz => ?_
  rcases hz with rfl | hz
  · exact hk
  · exact hl z hz

/-- The walk comes to all entries. -/
theorem Discerns.mem_walk (h : Discerns lt s) (hl : ∀ z ∈ keys l, z ∈ s) (hnodup : (keys l).Nodup) :
    e ∈ m.walk l ↔ e ∈ l := by
  have hw := m.walk_spec l (h.order.mono hl)
  constructor
  · intro he
    have hk := hw.keys_mem _ (key_mem he)
    exact (h.lastAssigned_eq_some hl (hl _ hk) hnodup).mp (hw.values e he)
  · intro he
    obtain ⟨e', he', hequiv⟩ := hw.cover _ (key_mem he)
    have hk := hw.keys_mem _ (key_mem he')
    have hkey := h.eq_of_equivalent _ (hl _ hk) _ (hl _ (key_mem he)) hequiv
    have hmem := (h.lastAssigned_eq_some hl (hl _ hk) hnodup).mp (hw.values e' he')
    have hvalue : e'.2 = e.2 := eq_of_nodup_keys hnodup hmem (hkey ▸ he)
    rwa [← Prod.ext hkey hvalue]

/-! ## Merging -/

theorem Consistent.mono (h : Consistent fs) (hsub : ∀ e ∈ es, e ∈ fs) : Consistent es :=
  fun k v v' hv hv' => h k v v' (hsub _ hv) (hsub _ hv')

theorem Merged.consistent (h : Merged es l) : Consistent es := by
  intro k v v' hv hv'
  exact eq_of_nodup_keys h.nodup ((h.mem _).mpr hv) ((h.mem _).mpr hv')

theorem merged_nil : Merged ([] : List (κ × ν)) [] := ⟨.nil, fun _ => Iff.rfl⟩

theorem Merged.congr (h : Merged es l) (heq : ∀ e, e ∈ es ↔ e ∈ fs) : Merged fs l :=
  ⟨h.nodup, fun e => (h.mem e).trans (heq e)⟩

theorem Merged.keys_mem (h : Merged es l) (hes : ∀ z ∈ keys es, z ∈ s) : ∀ z ∈ keys l, z ∈ s := by
  intro z hz
  obtain ⟨v, hv⟩ := mem_keys.mp hz
  exact hes z (key_mem ((h.mem _).mp hv))

theorem merge_ensures (m : OrderedMap lt) (fail : κ → ε) (hd : Discerns lt s)
    (hsame : ∀ v v', same v v' = true ↔ v = v') (h : Merged es l) (hes : ∀ z ∈ keys (es ++ [e]), z ∈ s) :
    Ensures (merge m same fail l e) (Merged (es ++ [e])) fun _ => ¬ Consistent (es ++ [e]) := by
  rw [keys_append, List.forall_mem_append] at hes
  have hl := h.keys_mem hes.1
  have hk : e.1 ∈ s := hes.2 e.1 List.mem_cons_self
  rw [merge]
  split
  · next hfind =>
    rw [ensures_ok]
    refine ⟨?_, fun e' => ?_⟩
    · rw [keys_append]
      refine List.nodup_append.mpr ⟨h.nodup, List.nodup_singleton _, ?_⟩
      rintro x hx y hy rfl
      obtain rfl := List.mem_singleton.mp hy
      obtain ⟨v, hv⟩ := mem_keys.mp hx
      rw [(hd.find_eq_some hl hk h.nodup).mpr hv] at hfind
      cases hfind
    · rw [List.mem_append, List.mem_append, h.mem]
  · next existing hfind =>
    have hmem := (h.mem _).mp ((hd.find_eq_some hl hk h.nodup).mp hfind)
    split
    · next heq =>
      obtain rfl := (hsame _ _).mp heq
      rw [ensures_ok]
      refine h.congr fun e' => ?_
      rw [List.mem_append, List.mem_singleton]
      constructor
      · exact .inl
      · rintro (he' | rfl)
        · exact he'
        · exact hmem
    · next hne =>
      rw [ensures_error]
      intro hcons
      exact hne ((hsame _ _).mpr (hcons e.1 existing e.2 (List.mem_append_left _ hmem)
        (List.mem_append_right _ List.mem_cons_self)))

theorem foldlM_merge (m : OrderedMap lt) (fail : κ → ε) (hd : Discerns lt s)
    (hsame : ∀ v v', same v v' = true ↔ v = v') (h : Merged es l) (hes : ∀ z ∈ keys (es ++ fs), z ∈ s) :
    Ensures (fs.foldlM (merge m same fail) l) (Merged (es ++ fs)) fun _ => ¬ Consistent (es ++ fs) := by
  induction fs generalizing es l with
  | nil =>
    rw [List.append_nil]
    exact h
  | cons e fs ih =>
    rw [List.append_cons] at hes ⊢
    have hstep := merge_ensures m fail hd hsame h (e := e) fun z hz =>
      hes z (keys_append ▸ List.mem_append_left _ hz)
    rw [List.foldlM_cons]
    cases hmerge : merge m same fail l e with
    | error err =>
      refine fun hcons => hstep.of_error hmerge (hcons.mono fun e' he' => ?_)
      exact List.mem_append_left _ he'
    | ok l' => exact ih (hstep.of_ok hmerge) hes

end Tesla.Lib
