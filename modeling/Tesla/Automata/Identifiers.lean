/-
# `Tesla.Automata.Identifiers` — the order of identifiers, and automata found by location

Maps of automata are ordered by `operator <` on identifiers.  It looks for a name on the right
only where there is one on the left: a name comes before a location, but an identifier without
name and one with name are compared by their locations, which an identifier with name can have
too.  Then each of the two can be less than the other.

File names are compared as C strings, hence up to the first NUL.  Strings are compared by their
characters; the order of the code points is that of the bytes in UTF-8.

`AssertionParser` gives every inline assertion its location, and its name if it has one, and
an assertion site looks for its automaton with the location alone.
-/
import Mathlib.Data.List.Lex
import Mathlib.Data.Char
import Mathlib.Data.Prod.Lex
import Mathlib.Data.Sum.Order
import Tesla.Automata.Manifest
import Tesla.Lib.OrderedMap

namespace Tesla.Automata

open Lib

/-! ## The comparator -/

/-- `c_str ()`, as C functions read it. -/
def cString (s : String) : List Char := s.toList.takeWhile fun c => c.toNat ≠ 0

/-- `operator <` on locations. -/
def Location.lt (x y : Location) : Bool :=
  if cString x.filename < cString y.filename then true
  else if cString y.filename < cString x.filename then false
  else if x.line < y.line then true
  else if x.line > y.line then false
  else decide (x.counter < y.counter)

/-- `location ()`, with its default. -/
def Identifier.loc (id : Identifier) : Location := id.location.getD ⟨"", 0, 0⟩

/-- `operator <` on identifiers. -/
def Identifier.lt (x y : Identifier) : Bool :=
  match x.name with
  | some name =>
    match y.name with
    | none => true
    | some name' => decide (name.toList < name'.toList)
  | none => x.loc.lt y.loc

variable {x y z : Identifier} {loc loc' : Location}

/-! ## What it compares -/

abbrev LocationKey := List Char ×ₗ (ℤ ×ₗ ℤ)

def Location.key (loc : Location) : LocationKey :=
  toLex (cString loc.filename, toLex (loc.line, loc.counter))

/-- Names come before locations. -/
def Identifier.key (id : Identifier) : List Char ⊕ₗ LocationKey :=
  match id.name with
  | some name => toLex (.inl name.toList)
  | none => toLex (.inr id.loc.key)

theorem Location.lt_iff : loc.lt loc' = true ↔ loc.key < loc'.key := by
  rw [Location.lt, Location.key, Location.key, Prod.Lex.toLex_lt_toLex, Prod.Lex.toLex_lt_toLex]
  rcases lt_trichotomy (cString loc.filename) (cString loc'.filename) with h | h | h
  · simp [h]
  · rw [h]
    rcases lt_trichotomy loc.line loc'.line with h' | h' | h'
    · simp [h']
    · simp [h']
    · simp [h', h'.ne', h'.not_gt]
  · simp [h, h.ne', h.not_gt]

/-- No identifier without name is located before one that has a name. -/
def NamesFirst (s : Set Identifier) : Prop :=
  ∀ x ∈ s, ∀ y ∈ s, x.name = none → y.name ≠ none → x.loc.lt y.loc = false

theorem Identifier.lt_iff (h : x.name = none → y.name ≠ none → x.loc.lt y.loc = false) :
    x.lt y = true ↔ x.key < y.key := by
  rw [Identifier.lt, Identifier.key, Identifier.key]
  cases hx : x.name with
  | some name =>
    cases hy : y.name with
    | some name' => rw [decide_eq_true_eq, Sum.Lex.toLex_lt_toLex, Sum.lex_inl_inl]
    | none => simp [Sum.Lex.toLex_lt_toLex]
  | none =>
    cases hy : y.name with
    | some name' =>
      have hloc := h hx (by rw [hy]; exact Option.some_ne_none _)
      simp [hloc, Sum.Lex.toLex_lt_toLex]
    | none => simp [Location.lt_iff, Sum.Lex.toLex_lt_toLex]

theorem NamesFirst.strictWeakOn {s : Set Identifier} (h : NamesFirst s) :
    StrictWeakOn Identifier.lt s :=
  .of_key Identifier.key fun x hx y hy => Identifier.lt_iff (h x hx y hy)

theorem namesFirst_of_strictWeakOn {s : Set Identifier} (h : StrictWeakOn Identifier.lt s) :
    NamesFirst s := by
  intro x hx y hy hxname hyname
  obtain ⟨name, hname⟩ := Option.ne_none_iff_exists'.mp hyname
  have hyx : y.lt x = true := by rw [Identifier.lt, hname, hxname]
  have hxy := h.asymm y hy x hx hyx
  rwa [Identifier.lt, hxname] at hxy

/-- On a set of identifiers `operator <` is a strict weak order if and only if no identifier
without name is located before one that has a name. -/
theorem identifiers_strictWeakOn (s : Set Identifier) :
    StrictWeakOn Identifier.lt s ↔ NamesFirst s :=
  ⟨namesFirst_of_strictWeakOn, NamesFirst.strictWeakOn⟩

/-- An assertion in `a.c` without name, and one in `b.c` with a name: each is less. -/
theorem identifiers_not_strictWeakOn :
    Identifier.lt ⟨none, some ⟨"a.c", 1, 0⟩⟩ ⟨some "foo", some ⟨"b.c", 2, 0⟩⟩ = true ∧
      Identifier.lt ⟨some "foo", some ⟨"b.c", 2, 0⟩⟩ ⟨none, some ⟨"a.c", 1, 0⟩⟩ = true ∧
        ¬ StrictWeakOn Identifier.lt Set.univ := by
  have hxy : Identifier.lt ⟨none, some ⟨"a.c", 1, 0⟩⟩ ⟨some "foo", some ⟨"b.c", 2, 0⟩⟩ = true := by
    decide
  have hyx : Identifier.lt ⟨some "foo", some ⟨"b.c", 2, 0⟩⟩ ⟨none, some ⟨"a.c", 1, 0⟩⟩ = true := rfl
  refine ⟨hxy, hyx, fun h => ?_⟩
  have hnot := h.asymm _ (Set.mem_univ _) _ (Set.mem_univ _) hxy
  rw [hyx] at hnot
  cases hnot

/-! ## Automata by location -/

namespace ManifestFile

variable (m : OrderedMap Identifier.lt) (graph : AutomatonDescription → Graph) (file : ManifestFile)

/-- The assignments to `Descriptions` in `Manifest::load`. -/
def described : List (Identifier × AutomatonDescription) :=
  file.automaton.map fun d => (d.identifier, d)

/-- The assignments to `Automata`, with the graph that each description becomes. -/
def built : List (Identifier × Automaton) :=
  (m.walk file.described).map fun e => (e.1, ⟨e.2, graph e.2⟩)

/-- `Manifest::FindAutomaton (const Identifier&)`; nothing is found in a panic. -/
def findAutomaton (id : Identifier) : Option Automaton := m.find (file.built m graph) id

/-- `Manifest::FindAutomaton (const Location&)`. -/
def findAutomatonAt (loc : Location) : Option Automaton :=
  file.findAutomaton m graph ⟨none, some loc⟩

variable {m : OrderedMap Identifier.lt} {graph : AutomatonDescription → Graph} {file : ManifestFile}
  {d : AutomatonDescription} {pre post : List AutomatonDescription} {k : Identifier} {loc : Location}

theorem mem_described {id : Identifier} {d : AutomatonDescription} :
    (id, d) ∈ file.described ↔ d ∈ file.automaton ∧ d.identifier = id := by
  simp [described]

theorem lastAssigned_built : lastAssigned Identifier.lt (file.built m graph) k =
    (lastAssigned Identifier.lt (m.walk file.described) k).map fun d => ⟨d, graph d⟩ :=
  lastAssigned_map fun d => (⟨d, graph d⟩ : Automaton)

/-- With an order on all keys, what is found was described last under the key. -/
theorem findAutomaton_eq (h : StrictWeakOn Identifier.lt {x | x = k ∨ x ∈ keys file.described}) :
    file.findAutomaton m graph k =
      (lastAssigned Identifier.lt file.described k).map fun d => ⟨d, graph d⟩ := by
  have hl : ∀ z ∈ keys file.described, z ∈ {x | x = k ∨ x ∈ keys file.described} :=
    fun _ hz => .inr hz
  have hw := m.walk_spec file.described (h.mono hl)
  have hkeys : keys (file.built m graph) = keys (m.walk file.described) := by
    simp [built, keys]
  rw [findAutomaton, m.find_spec, lastAssigned_built, hw.lastAssigned_eq h hl (.inl rfl)]
  refine h.mono fun z hz => ?_
  rw [Set.mem_ofPred_eq, hkeys] at hz
  exact hz.imp_right (hw.keys_mem z)

theorem not_described {ds : List AutomatonDescription} :
    lastAssigned Identifier.lt (ds.map fun d => (d.identifier, d)) k = none ↔
      ∀ d ∈ ds, ¬ Equivalent Identifier.lt d.identifier k := by
  rw [lastAssigned_eq_none, keys, List.map_map]
  exact List.forall_mem_map

theorem lastAssigned_described (hfile : file.automaton = pre ++ d :: post) :
    lastAssigned Identifier.lt file.described k =
      (lastAssigned Identifier.lt (post.map fun d => (d.identifier, d)) k).or
        ((if Equivalent Identifier.lt d.identifier k then some d else none).or
          (lastAssigned Identifier.lt (pre.map fun d => (d.identifier, d)) k)) := by
  rw [described, hfile, List.map_append, List.map_cons, lastAssigned_append, lastAssigned_cons,
    Option.or_assoc]

/-- With distinct identifiers, and none that the comparator takes for `k`, the map is the one that
the descriptions are. -/
theorem findAutomaton_descriptions
    (h : StrictWeakOn Identifier.lt {x | x = k ∨ x ∈ keys file.described})
    (hdistinct : (file.automaton.map (·.identifier)).Nodup)
    (hequiv : ∀ d ∈ file.automaton, Equivalent Identifier.lt d.identifier k → d.identifier = k) :
    file.findAutomaton m graph k = (file.descriptions k).map fun d => ⟨d, graph d⟩ := by
  rw [findAutomaton_eq h]
  congr 1
  cases hfind : file.descriptions k with
  | none =>
    refine not_described.mpr fun d hd heq => ?_
    exact List.find?_eq_none.mp hfind d hd (decide_eq_true (hequiv d hd heq))
  | some d =>
    obtain ⟨hk, pre, post, hfile, _⟩ := List.find?_eq_some_iff_append.mp hfind
    rw [decide_eq_true_eq] at hk
    subst hk
    have hself := h.irrefl d.identifier (.inl rfl)
    have hnone : lastAssigned Identifier.lt (post.map fun d => (d.identifier, d)) d.identifier =
        none := by
      refine not_described.mpr fun e he heq => ?_
      have hmem : e ∈ file.automaton := hfile ▸ List.mem_append_right _ (List.mem_cons_of_mem _ he)
      rw [hfile, List.map_append, List.map_cons] at hdistinct
      have hcons := (List.nodup_append.mp hdistinct).2.1
      exact (List.nodup_cons.mp hcons).1 (hequiv e hmem heq ▸ List.mem_map_of_mem he)
    rw [lastAssigned_described hfile, hnone, if_pos ⟨hself, hself⟩]
    rfl

/-- What is equivalent to an identifier without name has none. -/
theorem name_of_equivalent (h : Equivalent Identifier.lt x y) (hy : y.name = none) :
    x.name = none := by
  by_contra hname
  obtain ⟨name, hname⟩ := Option.ne_none_iff_exists'.mp hname
  have hlt : x.lt y = true := by rw [Identifier.lt, hname, hy]
  rw [h.1] at hlt
  cases hlt

/-- What says that the search for a location finds a description, before `post` in its file. -/
structure Findable (file : ManifestFile) (d : AutomatonDescription)
    (post : List AutomatonDescription) : Prop where
  name : d.identifier.name = none
  namesFirst : NamesFirst {id | ∃ e ∈ file.automaton, e.identifier = id}
  last : ∀ e ∈ post, ¬ Equivalent Identifier.lt e.identifier d.identifier

theorem keys_described : {id | ∃ e ∈ file.automaton, e.identifier = id} =
    {id | id ∈ keys file.described} := by
  ext id
  simp [keys, described]

theorem Findable.found (h : Findable file d post) (hfile : file.automaton = pre ++ d :: post)
    (hloc : d.identifier.location = some loc) :
    file.findAutomatonAt m graph loc = some ⟨d, graph d⟩ := by
  have hkey : (⟨none, some loc⟩ : Identifier) = d.identifier := by
    rw [← h.name, ← hloc]
  have hd : d ∈ file.automaton := hfile ▸ List.mem_append_right _ List.mem_cons_self
  have hlt := h.namesFirst.strictWeakOn
  have hself : Equivalent Identifier.lt d.identifier d.identifier :=
    ⟨hlt.irrefl _ ⟨d, hd, rfl⟩, hlt.irrefl _ ⟨d, hd, rfl⟩⟩
  have hnone : lastAssigned Identifier.lt (post.map fun d => (d.identifier, d)) d.identifier = none :=
    not_described.mpr h.last
  rw [findAutomatonAt, hkey, findAutomaton_eq, lastAssigned_described hfile, hnone, if_pos hself]
  · rfl
  · refine hlt.mono fun z hz => ?_
    rw [keys_described]
    rcases hz with rfl | hz
    · exact key_mem (mem_described.mpr ⟨hd, rfl⟩)
    · exact hz

/-- The automaton of an inline assertion is found at its location, whatever the map does where its
comparator is no order, if and only if the assertion has no name, no description without name is
located before one that has a name, and no later one has an equivalent identifier. -/
theorem findAutomatonAt_iff (graph : AutomatonDescription → Graph) (file : ManifestFile)
    (pre post : List AutomatonDescription) (d : AutomatonDescription) (loc : Location)
    (hfile : file.automaton = pre ++ d :: post)
    (hdistinct : (file.automaton.map (·.identifier)).Nodup)
    (hloc : d.identifier.location = some loc) :
    (∀ m, file.findAutomatonAt m graph loc = some ⟨d, graph d⟩) ↔ Findable file d post := by
  refine ⟨fun h => ?_, fun h m => h.found hfile hloc⟩
  have hfound := h (.unspecified Identifier.lt)
  have hautomaton := (find_unspecified hfound).2
  rw [lastAssigned_built] at hautomaton
  obtain ⟨d', hlast, heq⟩ := Option.map_eq_some_iff.mp hautomaton
  obtain rfl : d' = d := congrArg Automaton.assertion heq
  obtain ⟨k, hk, hequiv⟩ := exists_of_lastAssigned hlast
  have hids := strictWeakOn_of_walk hk
  have hw := OrderedMap.walk_spec (.unspecified Identifier.lt) file.described hids
  have hkname : k.name = none := name_of_equivalent hequiv rfl
  obtain ⟨x, hx, hxk⟩ := exists_of_lastAssigned (hw.values _ hk)
  obtain ⟨hd, rfl⟩ := mem_described.mp hx
  have hvalue : lastAssigned Identifier.lt file.described d'.identifier = some d' := by
    rw [lastAssigned_congr hids (fun _ hz => hz) (key_mem hx) (hw.keys_mem k (key_mem hk)) hxk]
    exact hw.values _ hk
  refine ⟨name_of_equivalent hxk hkname, ?_, fun e he hequiv => ?_⟩
  · rw [keys_described]
    exact namesFirst_of_strictWeakOn hids
  · rw [lastAssigned_described hfile] at hvalue
    cases hpost : lastAssigned Identifier.lt (post.map fun d => (d.identifier, d)) d'.identifier with
    | none =>
      exact not_described.mp hpost e he hequiv
    | some v =>
      rw [hpost, Option.some_or, Option.some_inj] at hvalue
      obtain ⟨x, hx, _⟩ := exists_of_lastAssigned hpost
      obtain ⟨e', he', heq⟩ := List.mem_map.mp hx
      cases heq
      rw [hfile, List.map_append, List.map_cons] at hdistinct
      have hcons := (List.nodup_append.mp hdistinct).2.1
      exact (List.nodup_cons.mp hcons).1 (hvalue ▸ List.mem_map_of_mem he')

/-- An inline assertion with the location and the name given. -/
def inlineAssertion (name : Option String) (loc : Location) : AutomatonDescription :=
  ⟨⟨name, some loc⟩, .global, .assertionSite ⟨loc⟩, []⟩

/-- The automaton of a description alone. -/
def unlinked (d : AutomatonDescription) : Graph :=
  match NFA.parse false d none 2 with
  | .ok g => g
  | .error _ => Graph.empty

/-- Two assertions without names. -/
theorem findAutomatonAt_iff_two :
    (inlineAssertion none ⟨"a.c", 1, 0⟩).identifier.location = some ⟨"a.c", 1, 0⟩ ∧
      ∀ m, (⟨[inlineAssertion none ⟨"a.c", 1, 0⟩, inlineAssertion none ⟨"b.c", 2, 0⟩], []⟩ :
        ManifestFile).findAutomatonAt m unlinked ⟨"a.c", 1, 0⟩ =
          some ⟨inlineAssertion none ⟨"a.c", 1, 0⟩, unlinked (inlineAssertion none ⟨"a.c", 1, 0⟩)⟩ := by
  refine ⟨rfl, (findAutomatonAt_iff unlinked _ [] [inlineAssertion none ⟨"b.c", 2, 0⟩]
    (inlineAssertion none ⟨"a.c", 1, 0⟩) ⟨"a.c", 1, 0⟩ rfl (by decide) rfl).mpr ⟨rfl, ?_, ?_⟩⟩
  · rintro x ⟨d, hd, rfl⟩ y ⟨e, he, rfl⟩ _ hname
    rcases List.mem_pair.mp he with rfl | rfl
    · exact absurd rfl hname
    · exact absurd rfl hname
  · intro e he
    rw [List.mem_singleton] at he
    subst he
    decide

/-- An assertion with a name, the only one there is. -/
theorem findAutomatonAt_named :
    (inlineAssertion (some "foo") ⟨"a.c", 1, 0⟩).identifier.location = some ⟨"a.c", 1, 0⟩ ∧
      ∀ m, (⟨[inlineAssertion (some "foo") ⟨"a.c", 1, 0⟩], []⟩ : ManifestFile).findAutomatonAt m
        unlinked ⟨"a.c", 1, 0⟩ = none := by
  refine ⟨rfl, fun m => ?_⟩
  have hlt : NamesFirst ({⟨none, some ⟨"a.c", 1, 0⟩⟩, ⟨some "foo", some ⟨"a.c", 1, 0⟩⟩} :
      Set Identifier) := by
    rintro x (rfl | rfl) y (rfl | rfl)
    all_goals decide
  rw [findAutomatonAt, findAutomaton_eq]
  · rfl
  · refine hlt.strictWeakOn.mono fun z hz => ?_
    simpa [keys, described, inlineAssertion] using hz

end ManifestFile

end Tesla.Automata
