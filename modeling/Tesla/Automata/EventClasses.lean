/-
# `Tesla.Automata.EventClasses` — the classes of events

`Transition::GroupClasses` on transitions as objects with the messages that they refer to.  What
is in a class is a set of pointers, and its head is whatever the walk over the set comes to first;
a transition is compared with the head alone, by the messages and `operator ==`.

A class takes the number of classes before it as its `Symbol`, which has 32 bits.
-/
import Tesla.Automata.Classes
import Tesla.Automata.Messages
import Tesla.Lib.Ensures
import Tesla.Lib.Grouping

namespace Tesla.Automata

open Lib

/-! ## Transitions -/

/-- What transitions are compared by. -/
inductive EventMessage where
  | null
  | assertSite (site : Msg)
  | fn (ev : Msg)
  | fieldAssign (assign : Msg)
  | subAutomaton (id : Msg)

/-- `TransitionKind`. -/
inductive TransitionKind where
  | null | assertSite | fn | fieldAssign | subAutomaton
deriving DecidableEq, Repr

namespace EventMessage

/-- `getKind`. -/
def kind : EventMessage → TransitionKind
  | null => .null
  | assertSite _ => .assertSite
  | fn _ => .fn
  | fieldAssign _ => .fieldAssign
  | subAutomaton _ => .subAutomaton

/-- `EquivalentTo`, in each of its five forms. -/
def equivalentTo : EventMessage → EventMessage → Bool
  | null, t => t.kind = .null
  | assertSite _, t => t.kind = .assertSite
  | fn ev, fn ev' => ev.same ev'
  | fieldAssign assign, fieldAssign assign' => assign.same assign'
  | subAutomaton id, subAutomaton id' => id.same id'
  | _, _ => false

/-- The kind, and the message where it is compared. -/
def key (t : EventMessage) : TransitionKind × Option Msg :=
  match t with
  | null | assertSite _ => (t.kind, none)
  | fn ev => (t.kind, some ev)
  | fieldAssign assign => (t.kind, some assign)
  | subAutomaton id => (t.kind, some id)

theorem equivalentTo_iff {t u : EventMessage} : t.equivalentTo u = true ↔ t.key = u.key := by
  cases t <;> cases u <;> simp [equivalentTo, key, kind, Msg.same_iff]

end EventMessage

/-! ## `GroupClasses` -/

section

variable {ι : Type} [DecidableEq ι]

/-- How sets of pointers are walked. -/
structure PointerWalk (ι : Type) where
  walk : List ι → List ι
  perm : ∀ c, (walk c).Perm c

/-- `*Set.begin ()`. -/
def PointerWalk.head (it : PointerWalk ι) (c : List ι) : Option ι := (it.walk c).head?

/-- `TEquivalenceClass`; the pointers are in the order of their insertion. -/
structure EventClass (ι : Type) where
  symbol : Nat
  transitions : List ι

def EventClass.insert (c : EventClass ι) (t : ι) : EventClass ι :=
  if t ∈ c.transitions then c else { c with transitions := c.transitions ++ [t] }

inductive GroupFailure where
  /-- A class is empty and has no head. -/
  | noHead
  /-- `assert (Head->EquivalentTo (*T))`. -/
  | asymmetric
deriving DecidableEq, Repr

/-- The loop over the classes; it returns nothing if none is found. -/
def joinClass (it : PointerWalk ι) (event : ι → EventMessage) (t : ι) :
    List (EventClass ι) → Except GroupFailure (Option (List (EventClass ι)))
  | [] => .ok none
  | c :: cs =>
    match it.head c.transitions with
    | none => .error .noHead
    | some head =>
      if (event t).equivalentTo (event head) then
        if (event head).equivalentTo (event t) then .ok (some (c.insert t :: cs))
        else .error .asymmetric
      else do
        let found ← joinClass it event t cs
        return found.map (c :: ·)

/-- A round of the loop over the transitions. -/
def groupNext (it : PointerWalk ι) (event : ι → EventMessage) (cs : List (EventClass ι)) (t : ι) :
    Except GroupFailure (List (EventClass ι)) := do
  match ← joinClass it event t cs with
  | some cs' => return cs'
  | none => return cs ++ [⟨cs.length % 2 ^ 32, [t]⟩]

/-- `Transition::GroupClasses`. -/
def groupTransitions (it : PointerWalk ι) (event : ι → EventMessage) (ts : List ι) :
    Except GroupFailure (List (EventClass ι)) :=
  ts.foldlM (groupNext it event) []

/-- The transitions that `BuildAutomatonDescription` puts into the automaton. -/
def taTransitions {β : Type} (buildTransitions : EventClass ι → β) (cs : List (EventClass ι)) :
    List β :=
  cs.map buildTransitions

/-! ## The classes are groups -/

variable {it : PointerWalk ι} {event : ι → EventMessage} {ts : List ι} {t u : ι}
  {c : EventClass ι} {cs : List (EventClass ι)}

/-- What two transitions have in common if they are equivalent. -/
abbrev eventKey (event : ι → EventMessage) (t : ι) : TransitionKind × Option Msg := (event t).key

omit [DecidableEq ι] in
theorem PointerWalk.head_isSome (it : PointerWalk ι) {c : List ι} (hc : c ≠ []) :
    ∃ t ∈ c, it.head c = some t := exists_head_of_perm (it.perm c) hc

theorem EventClass.mem_insert : u ∈ (c.insert t).transitions ↔ u ∈ c.transitions ∨ u = t := by
  rw [EventClass.insert]
  split
  · next ht =>
    constructor
    · exact .inl
    · rintro (hu | rfl)
      · exact hu
      · exact ht
  · rw [List.mem_append, List.mem_singleton]

theorem EventClass.insert_symbol : (c.insert t).symbol = c.symbol := by
  rw [EventClass.insert]
  split <;> rfl

/-- The loop over the classes ends with the class of the transition, or says that there is none. -/
theorem joinClass_spec (it : PointerWalk ι) (event : ι → EventMessage) (t : ι)
    (hne : ∀ c ∈ cs, c.transitions ≠ [])
    (huniform : ∀ c ∈ cs, ∀ u ∈ c.transitions, ∀ v ∈ c.transitions,
      eventKey event u = eventKey event v) :
    (joinClass it event t cs = .ok none ∧
        ∀ c ∈ cs, ∀ u ∈ c.transitions, eventKey event u ≠ eventKey event t) ∨
      ∃ pre c post, cs = pre ++ c :: post ∧
        joinClass it event t cs = .ok (some (pre ++ c.insert t :: post)) ∧
          ∀ u ∈ c.transitions, eventKey event u = eventKey event t := by
  induction cs with
  | nil => exact .inl ⟨rfl, nofun⟩
  | cons c cs ih =>
    rw [List.forall_mem_cons] at hne huniform
    obtain ⟨head, hhead, hget⟩ := it.head_isSome hne.1
    rw [joinClass, hget]
    dsimp only
    split
    · next heq =>
      have hkey := EventMessage.equivalentTo_iff.mp heq
      -- the assertion: what is compared is an equivalence
      rw [if_pos (EventMessage.equivalentTo_iff.mpr hkey.symm)]
      refine .inr ⟨[], c, cs, rfl, rfl, fun u hu => ?_⟩
      rw [huniform.1 u hu head hhead]
      exact hkey.symm
    · next hne' =>
      have hother : ∀ u ∈ c.transitions, eventKey event u ≠ eventKey event t := by
        intro u hu hut
        exact hne' (EventMessage.equivalentTo_iff.mpr (hut.symm.trans (huniform.1 u hu head hhead)))
      rcases ih hne.2 huniform.2 with ⟨heq, hall⟩ | ⟨pre, c', post, rfl, heq, hc'⟩
      · refine .inl ⟨by rw [heq]; rfl, ?_⟩
        rw [List.forall_mem_cons]
        exact ⟨hother, hall⟩
      · exact .inr ⟨c :: pre, c', post, rfl, by rw [heq]; rfl, hc'⟩

/-- The classes so far: groups, each with its position as its symbol. -/
structure Classed (event : ι → EventMessage) (ts : List ι) (cs : List (EventClass ι)) : Prop where
  grouping : Grouping (eventKey event) ts (cs.map (·.transitions))
  symbols : cs.map (·.symbol) = (List.range cs.length).map (· % 2 ^ 32)

theorem Classed.next (it : PointerWalk ι) (h : Classed event ts cs) (t : ι) :
    ∃ cs', groupNext it event cs t = .ok cs' ∧ Classed event (ts ++ [t]) cs' := by
  have hne := List.forall_mem_map.mp h.grouping.nonempty
  have huniform := List.forall_mem_map.mp h.grouping.uniform
  rcases joinClass_spec it event t hne huniform with ⟨heq, hall⟩ | ⟨pre, c, post, rfl, heq, hc⟩
  · refine ⟨cs ++ [⟨cs.length % 2 ^ 32, [t]⟩], by rw [groupNext, heq]; rfl, ?_, ?_⟩
    · rw [List.map_append, List.map_singleton]
      exact h.grouping.newGroup (List.forall_mem_map.mpr hall)
    · rw [List.map_append, h.symbols, List.length_append, List.length_singleton, List.range_succ,
        List.map_append]
      rfl
  · refine ⟨pre ++ c.insert t :: post, by rw [groupNext, heq]; rfl, ?_, ?_⟩
    · have hgrouping := h.grouping
      rw [List.map_append, List.map_cons] at hgrouping ⊢
      exact hgrouping.join hc fun u => EventClass.mem_insert
    · have hsymbols := h.symbols
      rw [List.map_append, List.map_cons, List.length_append, List.length_cons] at hsymbols ⊢
      rwa [EventClass.insert_symbol]

theorem groupTransitions_classed (it : PointerWalk ι) (event : ι → EventMessage) (ts : List ι) :
    ∃ cs, groupTransitions it event ts = .ok cs ∧ Classed event ts cs := by
  induction ts using List.reverseRecOn with
  | nil => exact ⟨[], rfl, grouping_nil, rfl⟩
  | append_singleton ts t ih =>
    obtain ⟨cs, hcs, h⟩ := ih
    obtain ⟨cs', hcs', h'⟩ := h.next it t
    rw [groupTransitions] at hcs
    refine ⟨cs', ?_, h'⟩
    rw [groupTransitions, List.foldlM_append, hcs]
    change [t].foldlM (groupNext it event) cs = .ok cs'
    rw [List.foldlM_cons, hcs']
    rfl

omit [DecidableEq ι] in
theorem Classed.symbol (h : Classed event ts cs) {k : Nat} (hk : cs[k]? = some c) :
    c.symbol = k % 2 ^ 32 := by
  have hsymbol := congrArg (·[k]?) h.symbols
  have hlt := (List.getElem?_eq_some_iff.mp hk).1
  rw [List.getElem?_map, List.getElem?_map, hk, List.getElem?_range hlt] at hsymbol
  exact Option.some.inj hsymbol

/-- Every transition is in one class, and two are in one class if they are equivalent and only then;
no assertion fails, and the symbol of a class is its position as far as 32 bits can say it. -/
theorem groupTransitions_partitions {β : Type} (it : PointerWalk ι) (event : ι → EventMessage)
    (buildTransitions : EventClass ι → β) (ts : List ι) :
    ∃ cs, groupTransitions it event ts = .ok cs ∧
      (∀ t, t ∈ ts ↔ ∃ c ∈ cs, t ∈ c.transitions) ∧
      (∀ t ∈ ts, ∃! k : Nat, ∃ c, cs[k]? = some c ∧ t ∈ c.transitions) ∧
      (∀ t ∈ ts, ∀ u ∈ ts, (∃ c ∈ cs, t ∈ c.transitions ∧ u ∈ c.transitions) ↔
        (event t).equivalentTo (event u) = true) ∧
      ∀ (k : Nat) (c : EventClass ι), cs[k]? = some c → c.symbol = k % 2 ^ 32 ∧
        (k < 2 ^ 32 → (taTransitions buildTransitions cs)[c.symbol]? = some (buildTransitions c)) := by
  obtain ⟨cs, hcs, h⟩ := groupTransitions_classed it event ts
  refine ⟨cs, hcs, fun t => ?_, fun t ht => ?_, fun t ht u hu => ?_, fun k c hk => ?_⟩
  · rw [h.grouping.mem_iff]
    simp only [List.mem_map, exists_exists_and_eq_and]
  · obtain ⟨k, ⟨_, hk, htc⟩, hunique⟩ := h.grouping.existsUnique ht
    rw [List.getElem?_map] at hk
    obtain ⟨c, hc, rfl⟩ := Option.map_eq_some_iff.mp hk
    refine ⟨k, ⟨c, hc, htc⟩, ?_⟩
    rintro k' ⟨c', hc', htc'⟩
    exact hunique k' ⟨c'.transitions, by rw [List.getElem?_map, hc']; rfl, htc'⟩
  · rw [EventMessage.equivalentTo_iff, ← h.grouping.same_iff ht hu]
    simp only [List.mem_map, exists_exists_and_eq_and]
  · refine ⟨h.symbol hk, fun hlt => ?_⟩
    rw [h.symbol hk, Nat.mod_eq_of_lt hlt, taTransitions, List.getElem?_map, hk, Option.map_some]

end

/-- In the order of insertion. -/
def PointerWalk.insertion : PointerWalk Nat := ⟨id, List.Perm.refl⟩

/-- A call of the function with the name of `n` letters. -/
def callEvent (n : Nat) : EventMessage :=
  .fn ⟨.mk "tesla.FunctionEvent" [.singular 1 (.message (.mk "tesla.FunctionRef"
    [.singular 1 (.scalar (.string (String.ofList (List.replicate n 'f'))))]))],
      by simp [Field.number]⟩

theorem callEvent_inj {m n : Nat} (h : (callEvent m).key = (callEvent n).key) : m = n := by
  have hname : List.replicate m 'f' = List.replicate n 'f' := by
    simpa [callEvent, EventMessage.key, EventMessage.kind, String.ofList_inj] using h
  simpa using congrArg List.length hname

/-- One call more than there are symbols: the last class has the symbol of the first. -/
theorem groupTransitions_wraps :
    ∃ cs, groupTransitions .insertion callEvent (List.range (2 ^ 32 + 1)) = .ok cs ∧
      ∃ c, cs[2 ^ 32]? = some c ∧ c.symbol = 0 := by
  obtain ⟨cs, hcs, h⟩ := groupTransitions_classed .insertion callEvent (List.range (2 ^ 32 + 1))
  have hlen := h.grouping.le_length (2 ^ 32 + 1) (fun i => i.val)
    (fun i => List.mem_range.mpr i.isLt) fun i j hij => Fin.ext (callEvent_inj hij)
  rw [List.length_map] at hlen
  have hget : cs[2 ^ 32]? = some (cs.get ⟨2 ^ 32, hlen⟩) := List.getElem?_eq_getElem hlen
  exact ⟨cs, hcs, _, hget, (h.symbol hget).trans (Nat.mod_self _)⟩

end Tesla.Automata
