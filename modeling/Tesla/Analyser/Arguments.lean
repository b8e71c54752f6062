/-
# `Tesla.Analyser.Arguments` — the variables of an automaton are numbered

`Parser::RegisterArg` looks for an argument among the ones that are registered already.  It
compares whole messages, the index included, so before each comparison it gives its argument the
index that it would have at this place.

    the code                                   what it amounts to
    `References`                               the arguments without their indices, as they come
    the index that an argument receives        its place among them (`registerArg_eq`)

An index is an `int32`, and the place is a `size_t`.  An argument may be registered again; it is
in the list itself then and is found at its own place, if not before.  The objects are apart from
each other: of an argument and the one inside it the parser registers at most one.
-/
import Mathlib.Logic.Function.Basic
import Tesla.Automata.Encoding
import Tesla.Lib.Numbering

namespace Tesla.Automata

/-- The value of a `size_t` as an `int32`. -/
def int32 (n : Nat) : Int := (n : Int).bmod (2 ^ 32)

namespace Argument

def withIndex (i : Option Int) : Argument → Argument
  | .mk type _ name free value constantMatch indirection field =>
    .mk type i name free value constantMatch indirection field

/-- `set_index`. -/
def setIndex (a : Argument) (pos : Nat) : Argument := a.withIndex (some (int32 pos))

/-- An argument apart from its index. -/
def noIndex (a : Argument) : Argument := a.withIndex none

variable {x y : Argument} {i j : Option Int}

@[simp] theorem index_withIndex : (x.withIndex i).index = i := by cases x; rfl

@[simp] theorem type_withIndex : (x.withIndex i).type = x.type := by cases x; rfl

@[simp] theorem withIndex_withIndex : (x.withIndex i).withIndex j = x.withIndex j := by cases x; rfl

theorem withIndex_index (h : x.index = i) : x.withIndex i = x := by
  cases x
  subst h
  rfl

/-- With one index, arguments are equal if they are apart from it. -/
theorem withIndex_inj : x.withIndex i = y.withIndex i ↔ x.noIndex = y.noIndex := by
  rw [noIndex, noIndex]
  constructor
  · intro h
    rw [← withIndex_withIndex (i := i), h, withIndex_withIndex]
  · intro h
    rw [← withIndex_withIndex (i := none), h, withIndex_withIndex]

@[simp] theorem noIndex_withIndex : (x.withIndex i).noIndex = x.noIndex := withIndex_withIndex

/-- `operator ==` on arguments. -/
theorem equals_message (x y : Argument) : x.message.equals y.message = .ok (decide (x = y)) := by
  rw [Message.equals_eq _ _ x.message_ofSchema y.message_ofSchema, Except.ok.injEq,
    Bool.eq_iff_iff, Message.same_iff x.message_wf y.message_wf, decide_eq_true_eq]
  exact message_inj.eq_iff

end Argument

/-! ## Indices -/

theorem int32_of_lt {n : Nat} (h : n < 2 ^ 31) : int32 n = n :=
  Int.bmod_eq_of_le (by omega) (by omega)

theorem int32_inj {m n : Nat} (hm : m < 2 ^ 32) (hn : n < 2 ^ 32) (h : int32 m = int32 n) :
    m = n := by
  have hmod : (m : Int) % (2 ^ 32 : Nat) = n % (2 ^ 32 : Nat) := by
    rw [← Int.bmod_emod, ← Int.bmod_emod (x := n)]
    exact congrArg (· % ((2 ^ 32 : Nat) : Int)) h
  omega

end Tesla.Automata

namespace Tesla.Analyser

open Automata Lib

/-! ## `Parser::RegisterArg` -/

/-- The `Argument` objects by their addresses, and `Parser::References`. -/
structure Registry where
  arguments : Nat → Argument
  references : List Nat

/-- How `RegisterArg` ends when it does not return: with one of its two assertions, or with a
comparison. -/
inductive Stop where
  | any | constant | refused (r : Refusal)

/-- `A->set_index (Pos)`. -/
def setIndex (arguments : Nat → Argument) (a pos : Nat) : Nat → Argument :=
  Function.update arguments a ((arguments a).setIndex pos)

/-- The loop over the references; each time round the argument is changed. -/
def findReference (a : Nat) : List Nat → Nat → (Nat → Argument) →
    Except Stop (Nat × (Nat → Argument))
  | [], pos, arguments => .ok (pos, arguments)
  | r :: rs, pos, arguments =>
    match (arguments r).message.equals (arguments a).message with
    | .error e => .error (.refused e)
    | .ok true => .ok (pos, arguments)
    | .ok false => findReference a rs (pos + 1) (setIndex arguments a (pos + 1))

/-- `Parser::RegisterArg`, which returns true whenever it returns. -/
def registerArg (s : Registry) (a : Nat) : Except Stop Registry :=
  if (s.arguments a).type = .any then .error .any
  else if (s.arguments a).type = .constant then .error .constant
  else do
    let (pos, arguments) ← findReference a s.references 0 (setIndex s.arguments a 0)
    if pos = s.references.length then .ok ⟨arguments, s.references ++ [a]⟩
    else .ok ⟨arguments, s.references⟩

/-- A sequence of calls, with the index that the argument has after each. -/
def registerAll : Registry → List Nat → Except Stop (Registry × List (Option Int))
  | s, [] => .ok (s, [])
  | s, a :: as => do
    let s ← registerArg s a
    let (s', indices) ← registerAll s as
    .ok (s', (s.arguments a).index :: indices)

variable {s s' : Registry} {arguments : Nat → Argument} {a b r pos : Nat} {rs as calls : List Nat}

/-! ## One call -/

theorem setIndex_self : setIndex arguments a pos a = (arguments a).setIndex pos :=
  Function.update_self ..

theorem setIndex_of_ne (hb : b ≠ a) : setIndex arguments a pos b = arguments b :=
  Function.update_of_ne hb ..

@[simp] theorem setIndex_setIndex {pos' : Nat} :
    setIndex (setIndex arguments a pos) a pos' = setIndex arguments a pos' := by
  simp [setIndex, Argument.setIndex]

@[simp] theorem noIndex_setIndex : (setIndex arguments a pos b).noIndex = (arguments b).noIndex := by
  by_cases hb : b = a
  · rw [hb, setIndex_self, Argument.setIndex, Argument.noIndex_withIndex]
  · rw [setIndex_of_ne hb]

/-- With the index that a reference has there, the argument is the same if it is apart from it. -/
theorem equals_setIndex (hr : (arguments r).index = some (int32 pos)) :
    (setIndex arguments a pos r).message.equals (setIndex arguments a pos a).message =
      .ok (decide ((arguments r).noIndex = (arguments a).noIndex)) := by
  have hleft : setIndex arguments a pos r = (arguments r).setIndex pos := by
    by_cases hra : r = a
    · rw [hra, setIndex_self]
    · rw [setIndex_of_ne hra, Argument.setIndex, Argument.withIndex_index hr]
  rw [Argument.equals_message, hleft, setIndex_self, Argument.setIndex, Argument.setIndex]
  simp only [Argument.withIndex_inj]

/-- The loop ends at the first of the references that is the argument apart from the index. -/
theorem findReference_eq
    (hrs : ∀ j r, rs[j]? = some r → (arguments r).index = some (int32 (pos + j))) :
    findReference a rs pos (setIndex arguments a pos) =
      .ok (pos + (rs.map fun r => (arguments r).noIndex).idxOf (arguments a).noIndex,
        setIndex arguments a
          (pos + (rs.map fun r => (arguments r).noIndex).idxOf (arguments a).noIndex)) := by
  induction rs generalizing pos with
  | nil => rfl
  | cons r rs ih =>
    have hr : (arguments r).index = some (int32 pos) := hrs 0 r rfl
    have hrest : ∀ j r, rs[j]? = some r → (arguments r).index = some (int32 (pos + 1 + j)) := by
      intro j r hj
      rw [Nat.add_right_comm, Nat.add_assoc]
      exact hrs (j + 1) r hj
    rw [findReference, equals_setIndex hr, List.map_cons, List.idxOf_cons]
    by_cases hsame : (arguments r).noIndex = (arguments a).noIndex
    · rw [decide_eq_true hsame, beq_iff_eq.mpr hsame]
      rfl
    · rw [decide_eq_false hsame, beq_eq_false_iff_ne.mpr hsame, cond_false]
      dsimp only
      rw [setIndex_setIndex, ih hrest, Nat.add_right_comm, Nat.add_assoc]

/-- The references apart from their indices. -/
def Registry.contents (s : Registry) : List Argument :=
  s.references.map fun r => (s.arguments r).noIndex

/-- Each reference has its place as its index, and no two are equal apart from it. -/
structure Registry.Numbered (s : Registry) : Prop where
  index : ∀ i r, s.references[i]? = some r → (s.arguments r).index = some (int32 i)
  nodup : s.contents.Nodup

/-- What is left of a call of `RegisterArg`. -/
def Registry.after (s : Registry) (a : Nat) : Registry where
  arguments := setIndex s.arguments a (s.contents.idxOf (s.arguments a).noIndex)
  references :=
    if (s.arguments a).noIndex ∈ s.contents then s.references else s.references ++ [a]

/-- Neither a constant nor ANY. -/
def Numberable (x : Argument) : Prop := x.type ≠ .any ∧ x.type ≠ .constant

theorem registerArg_eq (h : s.Numbered) (ha : Numberable (s.arguments a)) :
    registerArg s a = .ok (s.after a) := by
  have hfind : findReference a s.references 0 (setIndex s.arguments a 0) =
      .ok (s.contents.idxOf (s.arguments a).noIndex,
        setIndex s.arguments a (s.contents.idxOf (s.arguments a).noIndex)) := by
    rw [findReference_eq fun j r hj => ?_, Nat.zero_add]
    · rfl
    · rw [Nat.zero_add]
      exact h.index j r hj
  have hlen : s.contents.length = s.references.length := List.length_map ..
  rw [registerArg, if_neg ha.1, if_neg ha.2, hfind, Registry.after, ← hlen]
  by_cases hmem : (s.arguments a).noIndex ∈ s.contents
  · rw [if_pos hmem]
    exact if_neg (List.idxOf_lt_length_iff.mpr hmem).ne
  · rw [if_neg hmem]
    exact if_pos (List.idxOf_eq_length_iff.mpr hmem)

theorem Registry.after_noIndex : ((s.after a).arguments b).noIndex = (s.arguments b).noIndex :=
  noIndex_setIndex

theorem Registry.after_contents :
    (s.after a).contents = intern s.contents (s.arguments a).noIndex := by
  have hmap (rs : List Nat) : (rs.map fun r => ((s.after a).arguments r).noIndex) =
      rs.map fun r => (s.arguments r).noIndex :=
    List.map_congr_left fun r _ => after_noIndex
  rw [contents, hmap, intern, after]
  dsimp only
  split
  · rfl
  · rw [List.map_append, List.map_singleton]
    rfl

theorem Registry.after_index_self : ((s.after a).arguments a).index =
    some (int32 (s.contents.idxOf (s.arguments a).noIndex)) := by
  show (setIndex s.arguments a _ a).index = _
  rw [setIndex_self, Argument.setIndex, Argument.index_withIndex]

theorem Registry.after_of_ne (hb : b ≠ a) : (s.after a).arguments b = s.arguments b :=
  setIndex_of_ne hb

/-- One call keeps the numbering. -/
theorem Registry.Numbered.after (h : s.Numbered) (a : Nat) : (s.after a).Numbered := by
  have hnodup : (s.after a).contents.Nodup := by
    rw [after_contents]
    exact nodup_intern h.nodup
  refine ⟨fun i r hr => ?_, hnodup⟩
  by_cases hra : r = a
  · -- the argument is in the list, and found where it is
    subst hra
    have hi : (s.after r).contents[i]? = some (s.arguments r).noIndex := by
      rw [contents, List.getElem?_map, hr, Option.map_some, after_noIndex]
    obtain ⟨hlt, heq⟩ := List.getElem?_eq_some_iff.mp hi
    have hplace := hnodup.idxOf_getElem i hlt
    rw [heq, after_contents, idxOf_intern] at hplace
    rw [after_index_self, hplace]
  · have hold : s.references[i]? = some r := by
      rw [Registry.after] at hr
      dsimp only at hr
      split at hr
      · exact hr
      · rw [List.getElem?_append] at hr
        split at hr
        · exact hr
        · exact absurd (List.mem_singleton.mp (List.mem_of_getElem? hr)) hra
    rw [after_of_ne hra]
    exact h.index i r hold

/-! ## All calls -/

/-- The argument has been registered: its index is its place. -/
structure Known (s : Registry) (a : Nat) : Prop where
  mem : (s.arguments a).noIndex ∈ s.contents
  index : (s.arguments a).index = some (int32 (s.contents.idxOf (s.arguments a).noIndex))

theorem known_after : Known (s.after a) a := by
  constructor
  · rw [Registry.after_contents, Registry.after_noIndex]
    exact mem_intern.mpr (.inr rfl)
  · rw [Registry.after_index_self, Registry.after_contents, Registry.after_noIndex, idxOf_intern]

theorem Known.after (h : Known s b) (a : Nat) : Known (s.after a) b := by
  by_cases hb : b = a
  · subst hb
    exact known_after
  · constructor
    · rw [Registry.after_contents, Registry.after_noIndex]
      exact mem_intern.mpr (.inl h.mem)
    · rw [Registry.after_of_ne hb, Registry.after_contents, idxOf_eq_of_mem prefix_intern h.mem]
      exact h.index

/-- What is left of all calls. -/
structure RegisteredAll (s : Registry) (calls : List Nat) (s' : Registry) : Prop where
  result : registerAll s calls = .ok (s', calls.map fun a => (s'.arguments a).index)
  numbered : s'.Numbered
  contents : s'.contents = internAll s.contents (calls.map fun a => (s.arguments a).noIndex)
  noIndex : ∀ b, (s'.arguments b).noIndex = (s.arguments b).noIndex
  called : ∀ a ∈ calls, Known s' a
  known : ∀ b, Known s b → Known s' b

theorem numberable_iff_noIndex {x : Argument} : Numberable x ↔ Numberable x.noIndex := by
  rw [Numberable, Numberable, Argument.noIndex, Argument.type_withIndex]

theorem exists_registeredAll (calls : List Nat) (h : s.Numbered)
    (hcalls : ∀ a ∈ calls, Numberable (s.arguments a)) : ∃ s', RegisteredAll s calls s' := by
  induction calls generalizing s with
  | nil => exact ⟨s, rfl, h, rfl, fun _ => rfl, nofun, fun _ => id⟩
  | cons a calls ih =>
    rw [List.forall_mem_cons] at hcalls
    obtain ⟨s', hs'⟩ := ih (h.after a) fun b hb => by
      rw [numberable_iff_noIndex, Registry.after_noIndex, ← numberable_iff_noIndex]
      exact hcalls.2 b hb
    have ha : Known s' a := hs'.known a known_after
    have hcontents : s'.contents = internAll s.contents
        ((a :: calls).map fun a => (s.arguments a).noIndex) := by
      rw [hs'.contents, Registry.after_contents, List.map_cons, internAll_cons]
      exact congrArg _ (List.map_congr_left fun b _ => Registry.after_noIndex)
    refine ⟨s', ?_, hs'.numbered, hcontents, fun b => ?_, ?_, fun b hb => hs'.known b (hb.after a)⟩
    · -- what the argument received is what it still has
      have hreceived : ((s.after a).arguments a).index = (s'.arguments a).index := by
        rw [Registry.after_index_self, ha.index, hs'.noIndex, Registry.after_noIndex, hcontents,
          List.map_cons, internAll_cons, idxOf_internAll]
      rw [registerAll, registerArg_eq h hcalls.1, List.map_cons, ← hreceived]
      show (do
        let (s', indices) ← registerAll (s.after a) calls
        .ok (s', ((s.after a).arguments a).index :: indices)) = _
      rw [hs'.result]
      rfl
    · rw [hs'.noIndex, Registry.after_noIndex]
    · exact List.forall_mem_cons.mpr ⟨ha, hs'.called⟩

/-- No argument has been registered yet. -/
def Registry.start (arguments : Nat → Argument) : Registry := ⟨arguments, []⟩

theorem numbered_start : (Registry.start arguments).Numbered := ⟨nofun, List.nodup_nil⟩

/-- A variable of the program. -/
def variableNamed (name : String) : Argument :=
  .mk .variable none (some name) none none none none none

/-- Names of all lengths. -/
def longName (a : Nat) : String := String.ofList (List.replicate (a + 1) 'x')

end Tesla.Analyser
