/-
# `Tesla.Automata.Graph` — states and transitions

The containers that `NFAParser` and `DFABuilder` fill: a vector of states, where
a state's identifier is its position, and a vector of transitions in the order
of their creation.  The transitions that a state owns are those with it as their
source, in the same order; a transition is told from an equal one by its
position.

    C++                        here
    State*                     position in `states`
    Transition*                (transition, position in `transitions`)
    State::begin () .. end ()  `out`

An assertion of the source does not stop the model: what it checks is recorded
in `failed` when it does not hold, and the code goes on as it does in a build
without assertions.
-/
import Tesla.Automata.Protocol
import Tesla.Lib.Walks

namespace Tesla.Automata

open Lib

/-! ## Labels -/

inductive Label where
  | null
  | assertSite (site : AssertionSite) (refs : List Argument)
  | fn (ev : FunctionEvent)
  | fieldAssign (assign : FieldAssignment)
  | subAutomaton (id : Identifier)
deriving DecidableEq

namespace Label

/-- `EquivalentTo`: do two transitions consume the same symbol? -/
def equivalentTo : Label → Label → Bool
  | null, null => true
  | assertSite .., assertSite .. => true
  | fn ev, fn ev' => ev = ev'
  | fieldAssign assign, fieldAssign assign' => assign = assign'
  | subAutomaton id, subAutomaton id' => id = id'
  | _, _ => false

/-- `IsStrict`. -/
def isStrict : Label → Bool
  | fn ev => ev.strict.getD true
  | fieldAssign assign => assign.strict.getD true
  | null | assertSite .. | subAutomaton _ => false

/-- `IsRealisable`: can instrumentation observe it? -/
def isRealisable : Label → Bool
  | null | subAutomaton _ => false
  | assertSite .. | fn _ | fieldAssign _ => true

/-- `Arguments`. -/
def arguments : Label → List Argument
  | null | subAutomaton _ => []
  | assertSite _ refs => refs
  | fn ev => ev.argument
  | fieldAssign assign => [assign.field.base, assign.value]

/-- The receiver of an Objective-C message, which `ReferencesThusFar` adds to the
arguments. -/
def receiver : Label → Option Argument
  | fn ev => ev.receiver
  | null | assertSite .. | fieldAssign _ | subAutomaton _ => none

end Label

/-- The symbols that labels fall into. -/
inductive Letter where
  | assertSite
  | fn (ev : FunctionEvent)
  | fieldAssign (assign : FieldAssignment)
  | subAutomaton (id : Identifier)
deriving DecidableEq

/-- What a label reads; the null transition reads nothing. -/
def Label.letter : Label → Option Letter
  | .null => none
  | .assertSite .. => some .assertSite
  | .fn ev => some (.fn ev)
  | .fieldAssign assign => some (.fieldAssign assign)
  | .subAutomaton id => some (.subAutomaton id)

/-- Equivalence of labels is equality of letters, hence an equivalence. -/
theorem Label.equivalentTo_iff {l l' : Label} : l.equivalentTo l' = true ↔ l.letter = l'.letter := by
  cases l <;> cases l' <;> simp [equivalentTo, letter]

theorem Label.letter_eq_none {l : Label} : l.letter = none ↔ l = .null := by
  cases l <;> simp [letter]

/-! ## States and transitions -/

structure Transition where
  source : Nat
  dest : Nat
  label : Label
  init : Bool
  cleanup : Bool
  outOfScope : Bool
deriving DecidableEq

/-- With this a list is searched for a transition by its place in the graph. -/
instance : LawfulBEq (Transition × Nat) := inferInstance

/-- `refs` is `none` until `VariableReferences` is allocated.  `name` has the NFA
states that the name of a DFA state lists. -/
structure State where
  start : Bool
  accept : Bool
  name : List Nat
  refs : Option (List (Option Argument))
deriving DecidableEq

/-- `References`. -/
def State.references (s : State) : List (Option Argument) := s.refs.getD []

/-- The assertions checked while automata are built. -/
inductive Check where
  | destNotStart | sameSize | maskBits | indexInSize | sameArgument | constantsKnown
  | initInScope | nullInScope | assertSiteInScope | subAutomatonInScope
  | realisable | unfinished
deriving DecidableEq, Repr

structure Graph where
  states : List State
  transitions : List Transition
  failed : List Check
deriving DecidableEq

def Transition.edge (t : Transition) : Edge Nat Letter := ⟨t.source, t.label.letter, t.dest⟩

namespace Graph

def empty : Graph := ⟨[], [], []⟩

def edges (g : Graph) : List (Edge Nat Letter) := g.transitions.map Transition.edge

/-- The transitions that leave a state. -/
def out (g : Graph) (s : Nat) : List (Transition × Nat) :=
  g.transitions.zipIdx.filter fun t => t.1.source = s

def isStart (g : Graph) (s : Nat) : Bool := (g.states[s]?).any (·.start)

def isAccepting (g : Graph) (s : Nat) : Bool := (g.states[s]?).any (·.accept)

/-- The automaton that a graph describes. -/
def toεNFA (g : Graph) : εNFA Letter Nat :=
  ofEdges g.edges {s | g.isStart s = true} {s | g.isAccepting s = true}

/-! ## Construction -/

/-- `State::Builder::Build`. -/
def newState (g : Graph) (start accept : Bool) (name : List Nat) (refCount : Option Nat) :
    Nat × Graph :=
  (g.states.length,
    { g with states := g.states ++ [⟨start, accept, name, refCount.map (List.replicate · none)⟩] })

/-- An `assert`. -/
def check (g : Graph) (c : Check) (holds : Bool) : Graph :=
  if holds then g else { g with failed := g.failed ++ [c] }

end Graph

/-- The argument that a transition binds to variable `i`; a later one replaces an
earlier one, and the receiver comes last. -/
def Label.binds (l : Label) (i : Nat) : Option Argument :=
  (l.arguments ++ l.receiver.toList).reverse.find? fun a => a.argIndex = i

/-- `ReferencesThusFar`. -/
def referencesThusFar (l : Label) (fromRefs : List (Option Argument)) : List (Option Argument) :=
  fromRefs.mapIdx fun i old => (l.binds i).or old

/-- `State::Mask`. -/
def State.mask (s : State) : List Nat :=
  s.references.filterMap fun r => r.bind fun a =>
    if a.argIndex < 0 then none else some a.argIndex.toNat

/-- The assertions of `State::UpdateReferences` on a state that knows its
references. -/
def referenceChecks (st : State) (newRefs : List (Option Argument)) : List (Check × Bool) :=
  [(.indexInSize, newRefs.all fun r => r.all fun a =>
      a.argIndex ≤ (newRefs.length : Int)),
    (.sameArgument, newRefs.all fun r => r.all fun a => a.argIndex < 0 ||
      ((st.references[a.argIndex.toNat]?).getD none).all (a = ·)),
    (.constantsKnown, (newRefs.zipIdx).all fun r =>
      r.1.all fun a => a.type ≠ .constant || r.2 ∈ st.mask)]

/-- `State::UpdateReferences`: the state after it, and what its assertions check. -/
def State.updateReferences (st : State) (t : Transition) (fromRefs : List (Option Argument)) :
    State × List (Check × Bool) :=
  let newRefs := referencesThusFar t.label fromRefs
  let size := (Check.maskBits, decide (newRefs.length < 32))
  match st.refs with
  | none => ({ st with refs := some newRefs }, [size])
  | some refs =>
    if t.outOfScope then (st, [])
    else
      (st, (.sameSize, newRefs.all (·.isNone) || refs.length = newRefs.length) :: size ::
        referenceChecks st newRefs)

namespace Graph

/-- `Transition::Register`. -/
def register (g : Graph) (t : Transition) : Graph :=
  let g := { g with transitions := g.transitions ++ [t] }
  let g := g.check .destNotStart (t.dest ≠ 0)
  match g.states[t.dest]? with
  | none => g
  | some st =>
    let fromRefs := ((g.states[t.source]?).map State.references).getD []
    let (st', checks) := st.updateReferences t fromRefs
    checks.foldl (fun g c => g.check c.1 c.2) { g with states := g.states.set t.dest st' }

/-- `Transition::Create` for a null transition. -/
def createNull (g : Graph) (source dest : Nat) : Graph :=
  g.register ⟨source, dest, .null, false, false, false⟩

/-- `Transition::Create` for an event. -/
def create (g : Graph) (source dest : Nat) (label : Label) (init cleanup : Bool) : Graph :=
  g.register ⟨source, dest, label, init, cleanup, false⟩

/-- `Transition::Copy`.  A null transition is not copied. -/
def copy (g : Graph) (source dest : Nat) (other : Transition) (outOfScope : Bool) : Graph :=
  let outOfScope := outOfScope || other.outOfScope
  let g := g.check .initInScope (!other.init || !outOfScope)
  match other.label with
  | .null => g.check .nullInScope !outOfScope
  | .assertSite .. =>
    (g.check .assertSiteInScope !outOfScope).register
      ⟨source, dest, other.label, other.init, other.cleanup, false⟩
  | .fn _ | .fieldAssign _ =>
    g.register ⟨source, dest, other.label, other.init, other.cleanup, outOfScope⟩
  | .subAutomaton _ =>
    (g.check .subAutomatonInScope !outOfScope).register
      ⟨source, dest, other.label, false, false, false⟩

/-! ## What construction changes -/

/-- The fixed part of a state. -/
def flags (g : Graph) : List (Bool × Bool × List Nat) :=
  g.states.map fun s => (s.start, s.accept, s.name)

end Graph

variable {g g' : Graph} {t : Transition} {s p q : Nat} {c : Check} {holds : Bool}

@[simp] theorem Graph.check_transitions : (g.check c holds).transitions = g.transitions := by
  cases holds <;> rfl

@[simp] theorem Graph.check_states : (g.check c holds).states = g.states := by
  cases holds <;> rfl

theorem Graph.checks_states (cs : List (Check × Bool)) (g : Graph) :
    (cs.foldl (fun g c => g.check c.1 c.2) g).states = g.states ∧
      (cs.foldl (fun g c => g.check c.1 c.2) g).transitions = g.transitions := by
  induction cs generalizing g with
  | nil => exact ⟨rfl, rfl⟩
  | cons c cs ih => simpa using ih (g.check c.1 c.2)

theorem State.updateReferences_flags (st : State) (fromRefs : List (Option Argument)) :
    (st.updateReferences t fromRefs).1.start = st.start ∧
      (st.updateReferences t fromRefs).1.accept = st.accept ∧
      (st.updateReferences t fromRefs).1.name = st.name := by
  simp only [updateReferences]
  split
  · exact ⟨rfl, rfl, rfl⟩
  · split <;> exact ⟨rfl, rfl, rfl⟩

@[simp] theorem Graph.register_transitions : (g.register t).transitions = g.transitions ++ [t] := by
  simp only [register]
  split
  · simp
  · rw [(checks_states _ _).2]
    simp

@[simp] theorem Graph.register_flags : (g.register t).flags = g.flags := by
  simp only [register, flags]
  split
  · simp
  · next st hst =>
    rw [(checks_states _ _).1]
    rw [check_states] at hst
    obtain ⟨hstart, haccept, hname⟩ := State.updateReferences_flags (t := t) st
      ((g.states[t.source]?.map State.references).getD [])
    simp only [check_states, List.map_set, hstart, haccept, hname]
    refine List.ext_getElem? fun i => ?_
    rw [List.getElem?_set]
    split
    · next hi =>
      subst hi
      simp only [List.length_map, List.getElem?_map, hst, Option.map_some]
      rw [if_pos (List.getElem?_eq_some_iff.mp hst).1]
    · rfl

/-- A transition that reads something is copied; nothing else is added. -/
theorem Graph.copy_eq_register {outOfScope : Bool} (ht : t.label ≠ .null) (g : Graph) (p q : Nat) :
    ∃ (g' : Graph) (c : Transition), g.copy p q t outOfScope = g'.register c ∧
      g'.transitions = g.transitions ∧ g'.states = g.states ∧ c.source = p ∧ c.dest = q ∧ c.label = t.label := by
  simp only [copy]
  split
  · next h => exact absurd h ht
  all_goals exact ⟨_, _, rfl, by simp, by simp, rfl, rfl, rfl⟩

theorem Graph.copy_flags {outOfScope : Bool} (ht : t.label ≠ .null) (g : Graph) (p q : Nat) :
    (g.copy p q t outOfScope).flags = g.flags := by
  obtain ⟨g', c, heq, _, hstates, _⟩ := copy_eq_register ht g p q
  rw [heq, register_flags, flags, hstates, flags]

theorem Graph.mem_out {t : Transition × Nat} :
    t ∈ g.out s ↔ t ∈ g.transitions.zipIdx ∧ t.1.source = s := by
  simp [out]

theorem Graph.mem_edges_iff {e : Edge Nat Letter} :
    e ∈ g.edges ↔ ∃ t ∈ g.out e.src, t.1.edge = e := by
  constructor
  · intro he
    obtain ⟨t, ht, rfl⟩ := List.mem_map.mp he
    obtain ⟨i, hi⟩ := List.mem_iff_getElem?.mp ht
    exact ⟨(t, i), mem_out.mpr ⟨List.mk_mem_zipIdx_iff_getElem?.mpr hi, rfl⟩, rfl⟩
  · rintro ⟨t, ht, rfl⟩
    exact List.mem_map_of_mem (List.fst_mem_of_mem_zipIdx (mem_out.mp ht).1)

@[simp] theorem Graph.flags_length : g.flags.length = g.states.length := List.length_map ..

@[simp] theorem Graph.register_length : (g.register t).states.length = g.states.length := by
  rw [← flags_length, register_flags, flags_length]

end Tesla.Automata
