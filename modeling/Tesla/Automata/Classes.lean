/-
# `Tesla.Automata.Classes` — equivalence classes, `Init` and `Cleanup`

`Transition::GroupClasses` sorts the transitions of an automaton by the symbol they
consume.  `Automaton::Init` and `Automaton::Cleanup` then look for the class that begins
and the class that ends the automaton's lifetime, and judge a class by its head alone.

The head of a class is what its `SmallPtrSet` comes to first.  Such a set does not say
in which order it is walked, so the order is a parameter here: an `Iteration` takes the
elements in the order of their insertion to the order of the walk.
-/
import Tesla.Automata.Graph
import Tesla.Lib.Grouping

namespace Tesla.Automata

open Lib

variable {t u : Transition} {c : List Transition} {ts : List Transition}
  {cs : List (List Transition)} {o : Option Letter}

/-- How sets of transitions are walked. -/
structure Iteration where
  walk : List Transition → List Transition
  perm : ∀ c, (walk c).Perm c

/-- `*Set.begin ()`. -/
def Iteration.head (it : Iteration) (c : List Transition) : Option Transition := (it.walk c).head?

/-- In the order of insertion, as sets of up to four elements are walked. -/
def Iteration.insertion : Iteration := ⟨id, List.Perm.refl⟩

/-- Into the first class whose head is equivalent, or a new one. -/
def insertClass (it : Iteration) (t : Transition) : List (List Transition) → List (List Transition)
  | [] => [[t]]
  | c :: cs =>
    if (it.head c).any fun head => t.label.equivalentTo head.label then (c ++ [t]) :: cs
    else c :: insertClass it t cs

/-- `Transition::GroupClasses`. -/
def groupClasses (it : Iteration) (ts : List Transition) : List (List Transition) :=
  ts.foldl (fun cs t => insertClass it t cs) []

namespace Automaton

/-- `Automaton::Init`. -/
def init (it : Iteration) (g : Graph) : Option Transition :=
  (groupClasses it g.transitions).findSome? fun c => (it.head c).filter (·.init)

/-- `Automaton::Cleanup`. -/
def cleanup (it : Iteration) (g : Graph) : List Transition :=
  ((groupClasses it g.transitions).find? fun c => (it.head c).any (·.cleanup)).getD []

end Automaton

/-! ## Grouping -/

theorem Iteration.mem_of_head {it : Iteration} (h : it.head c = some t) : t ∈ c :=
  (it.perm c).mem_iff.mp (List.mem_of_head? h)

theorem Iteration.head_isSome (it : Iteration) (hc : c ≠ []) : ∃ t ∈ c, it.head c = some t :=
  exists_head_of_perm (it.perm c) hc

/-- Do no two classes have a letter in common? -/
def Apart (c c' : List Transition) : Prop := ∀ u ∈ c, ∀ v ∈ c', u.label.letter ≠ v.label.letter

/-- Each class holds, among `ts`, all that read one thing. -/
structure Grouped (ts : List Transition) (cs : List (List Transition)) : Prop where
  cover : ∀ t ∈ ts, ∃ c ∈ cs, t ∈ c
  nonempty : ∀ c ∈ cs, c ≠ []
  apart : cs.Pairwise Apart
  classes : ∀ c ∈ cs, ∃ o, ∀ t, t ∈ c ↔ t ∈ ts ∧ t.label.letter = o

/-- A class is all that its head is equivalent to. -/
theorem Grouped.mem_iff (h : Grouped ts cs) (hc : c ∈ cs) (ht : t ∈ c) :
    u ∈ c ↔ u ∈ ts ∧ u.label.letter = t.label.letter := by
  obtain ⟨o, ho⟩ := h.classes c hc
  rw [ho, ((ho t).mp ht).2]

theorem insertClass_cases (it : Iteration) (t : Transition) (hne : ∀ c ∈ cs, c ≠ [])
    (hcs : ∀ c ∈ cs, ∀ u ∈ c, ∀ v ∈ c, u.label.letter = v.label.letter) :
    (∃ pre c post, cs = pre ++ c :: post ∧ insertClass it t cs = pre ++ (c ++ [t]) :: post ∧
        ∀ u ∈ c, u.label.letter = t.label.letter) ∨
      insertClass it t cs = cs ++ [[t]] ∧ ∀ c ∈ cs, ∀ u ∈ c, u.label.letter ≠ t.label.letter := by
  induction cs with
  | nil => exact .inr ⟨rfl, fun c hc => absurd hc List.not_mem_nil⟩
  | cons c cs ih =>
    rw [List.forall_mem_cons] at hne hcs
    obtain ⟨head, hhead, hget⟩ := it.head_isSome hne.1
    rw [insertClass, hget, Option.any_some]
    split
    · next heq =>
      refine .inl ⟨[], c, cs, rfl, rfl, ?_⟩
      intro u hu
      rw [hcs.1 u hu head hhead, Label.equivalentTo_iff.mp heq]
    · next heq =>
      have hdiff : ∀ u ∈ c, u.label.letter ≠ t.label.letter := by
        intro u hu hut
        refine heq (Label.equivalentTo_iff.mpr ?_)
        rw [← hut, hcs.1 u hu head hhead]
      obtain ⟨pre, c', post, rfl, heq', hc'⟩ | ⟨heq', hall⟩ := ih hne.2 hcs.2
      · exact .inl ⟨c :: pre, c', post, rfl, by rw [heq']; rfl, hc'⟩
      · refine .inr ⟨by rw [heq']; rfl, ?_⟩
        rw [List.forall_mem_cons]
        exact ⟨hdiff, hall⟩

theorem grouping_insertClass (it : Iteration) (h : Grouping (·.label.letter) ts cs) (t : Transition) :
    Grouping (·.label.letter) (ts ++ [t]) (insertClass it t cs) := by
  obtain ⟨pre, c, post, rfl, heq, hc⟩ | ⟨heq, hall⟩ := insertClass_cases it t h.nonempty h.uniform
  · rw [heq]
    refine h.join hc fun u => ?_
    rw [List.mem_append, List.mem_singleton]
  · rw [heq]
    exact h.newGroup hall

theorem grouping (it : Iteration) (ts : List Transition) :
    Grouping (·.label.letter) ts (groupClasses it ts) := by
  induction ts using List.reverseRecOn with
  | nil => exact grouping_nil
  | append_singleton ts t ih =>
    rw [groupClasses, List.foldl_append]
    exact grouping_insertClass it ih t

theorem grouped (it : Iteration) (ts : List Transition) : Grouped ts (groupClasses it ts) := by
  have h := grouping it ts
  refine ⟨fun t ht => (h.mem_iff t).mp ht, h.nonempty, h.apart, fun c hc => ?_⟩
  obtain ⟨v, hv⟩ := List.exists_mem_of_ne_nil c (h.nonempty c hc)
  exact ⟨v.label.letter, fun t => h.mem_group_iff hc hv⟩

end Tesla.Automata
