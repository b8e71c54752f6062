/-
# `Tesla.Automata.DFABuilder` — the subset construction

`DFABuilder` of `Automaton.cpp`.  A state of the DFA stands for a set of states
of the NFA; the sets that have been met are kept in a map, and those whose
transitions have not been made yet on a stack.

For each set the transitions of its states are walked in order.  The first one of
a symbol collects what all later ones of that symbol reach; these are marked
finished and passed over.

`collectFrontier` follows null transitions without marking where it has been, so
it does not come back from a cycle of them; `fuel` bounds its depth and the
number of rounds of the main loop.
-/
import Tesla.Automata.Graph

namespace Tesla.Automata

/-! ## Sets of NFA states -/

/-- Insertion into an increasing list. -/
def insertId (n : Nat) : List Nat → List Nat
  | [] => [n]
  | m :: ids => if n < m then n :: m :: ids else if n = m then m :: ids else m :: insertId n ids

theorem mem_insertId {n m : Nat} {ids : List Nat} : m ∈ insertId n ids ↔ m = n ∨ m ∈ ids := by
  induction ids with
  | nil => simp [insertId]
  | cons k ids ih =>
    simp only [insertId]
    split
    · exact List.mem_cons
    · split
      · next h =>
        subst h
        simp
      · rw [List.mem_cons, ih, List.mem_cons]
        tauto

theorem pairwise_insertId {n : Nat} {ids : List Nat} (h : ids.Pairwise (· < ·)) :
    (insertId n ids).Pairwise (· < ·) := by
  induction ids with
  | nil => simp [insertId]
  | cons k ids ih =>
    rw [List.pairwise_cons] at h
    simp only [insertId]
    split
    · next hlt =>
      refine List.pairwise_cons.mpr ⟨?_, List.pairwise_cons.mpr h⟩
      intro m hm
      obtain rfl | hm := List.mem_cons.mp hm
      · exact hlt
      · exact hlt.trans (h.1 m hm)
    · split
      · exact List.pairwise_cons.mpr h
      · refine List.pairwise_cons.mpr ⟨?_, ih h.2⟩
        intro m hm
        obtain rfl | hm := mem_insertId.mp hm
        · omega
        · exact h.1 m hm

/-- `std::set<unsigned>`: its elements in the order of iteration. -/
structure NFAState where
  ids : List Nat
  sorted : ids.Pairwise (· < ·)
deriving DecidableEq

namespace NFAState

instance : EmptyCollection NFAState := ⟨⟨[], .nil⟩⟩

def insert (S : NFAState) (n : Nat) : NFAState := ⟨insertId n S.ids, pairwise_insertId S.sorted⟩

end NFAState

/-! ## The builder -/

structure DFABuilder where
  dfaStates : List (NFAState × Nat)
  finishedStates : List Nat
  /-- The last one pushed comes first. -/
  unfinishedStates : List (NFAState × Bool × Bool)
  graph : Graph
  refCount : Nat

/-- `collectFrontier (N, S)`: a state and what null transitions reach from it. -/
def collectFrontier (N : Graph) : Nat → NFAState → Nat → Option NFAState
  | 0, _, _ => none
  | fuel + 1, S, s =>
    (N.out s).foldlM (fun S t =>
      if t.1.label = .null then collectFrontier N fuel S t.1.dest else some S) (S.insert s)

/-- A set under construction, with `Start` and `Final`. -/
structure Frontier where
  states : NFAState
  start : Bool
  final : Bool

/-- `collectFrontier (N, S, Start, Final)`; the flags are those of the state itself. -/
def Frontier.collect (N : Graph) (fuel : Nat) (F : Frontier) (s : Nat) : Option Frontier :=
  (collectFrontier N fuel F.states s).map fun S =>
    ⟨S, F.start || N.isStart s, F.final || N.isAccepting s⟩

namespace DFABuilder

def find (B : DFABuilder) (S : NFAState) : Option Nat := B.dfaStates.lookup S

/-- `stateForNFAStates`. -/
def stateForNFAStates (B : DFABuilder) (S : NFAState) (start final : Bool) : Nat × DFABuilder :=
  match B.find S with
  | some d => (d, B)
  | none =>
    let (d, graph) := B.graph.newState start final S.ids (if start then some B.refCount else none)
    (d, { B with
      dfaStates := (S, d) :: B.dfaStates
      unfinishedStates := (S, start, final) :: B.unfinishedStates
      graph := graph })

def check (B : DFABuilder) (c : Check) (holds : Bool) : DFABuilder :=
  { B with graph := B.graph.check c holds }

end DFABuilder

/-- The walk over the transitions of one set: which are finished, and the flags, which
the transitions of one NFA state share. -/
structure Expansion where
  finished : List (Transition × Nat)
  start : Bool
  final : Bool
  builder : DFABuilder

/-- The later transitions that are equivalent to `t`, into the frontier. -/
def collectEquivalent (N : Graph) (fuel : Nat) (t : Transition) :
    List (Transition × Nat) → Frontier → List (Transition × Nat) → DFABuilder →
      Option (Frontier × List (Transition × Nat) × DFABuilder)
  | [], F, finished, B => some (F, finished, B)
  | u :: us, F, finished, B =>
    if u.1.label.equivalentTo t.label then do
      let B := B.check .unfinished (u ∉ finished)
      let F ← F.collect N fuel u.1.dest
      collectEquivalent N fuel t us F (finished ++ [u]) B
    else collectEquivalent N fuel t us F finished B

/-- The transitions of one NFA state, with those of the states after it in `later`. -/
def expandTransitions (N : Graph) (fuel ds : Nat) (later : List (Transition × Nat)) :
    List (Transition × Nat) → Expansion → Option Expansion
  | [], X => some X
  | t :: ts, X =>
    if t.1.label = .null then expandTransitions N fuel ds later ts X
    else
      let B := X.builder.check .realisable t.1.label.isRealisable
      if t ∈ X.finished then expandTransitions N fuel ds later ts { X with builder := B }
      else do
        let F ← Frontier.collect N fuel ⟨∅, X.start, X.final⟩ t.1.dest
        let (F, finished, B) ← collectEquivalent N fuel t.1 (ts ++ later) F (X.finished ++ [t]) B
        let (dest, B) := B.stateForNFAStates F.states F.start F.final
        expandTransitions N fuel ds later ts
          ⟨finished, F.start, F.final, { B with graph := B.graph.copy ds dest t.1 false }⟩

/-- The NFA states of one set, in increasing order. -/
def expandStates (N : Graph) (fuel ds : Nat) :
    List Nat → List (Transition × Nat) → DFABuilder → Option DFABuilder
  | [], _, B => some B
  | s :: rest, finished, B => do
    let X ← expandTransitions N fuel ds (rest.flatMap N.out) (N.out s) ⟨finished, false, false, B⟩
    expandStates N fuel ds rest X.finished X.builder

/-- The main loop of `ConstructDFA`. -/
def constructLoop (N : Graph) (fuel : Nat) : Nat → DFABuilder → Option DFABuilder
  | 0, _ => none
  | rounds + 1, B =>
    match B.unfinishedStates with
    | [] => some B
    | (current, start, final) :: rest =>
      let (ds, B) := { B with unfinishedStates := rest }.stateForNFAStates current start final
      if ds ∈ B.finishedStates then constructLoop N fuel rounds B
      else do
        let B := { B with finishedStates := ds :: B.finishedStates }
        let B ← expandStates N fuel ds current.ids [] B
        constructLoop N fuel rounds B

/-- `ConstructDFA`. -/
def constructDFA (N : Graph) (fuel : Nat) : Option DFABuilder := do
  let F ← Frontier.collect N fuel ⟨∅, false, false⟩ 0
  let refCount := ((N.states[0]?).map (·.references.length)).getD 0
  let B : DFABuilder := ⟨[], [], [], .empty, refCount⟩
  let (_, B) := B.stateForNFAStates F.states F.start F.final
  constructLoop N fuel fuel B

/-- `DFA::Convert`; `none` when it does not come to an end within `fuel`. -/
def DFA.convert (N : Graph) (fuel : Nat) : Option Graph := (constructDFA N fuel).map (·.graph)

end Tesla.Automata
