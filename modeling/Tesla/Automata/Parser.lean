/-
# `Tesla.Automata.Parser` — from descriptions to NFAs

`NFAParser` of `Automaton.cpp`.  Each `Parse` takes the state it starts from,
adds states and transitions, and returns the state it ends in.

    event             a new final state
    NULL              the starting state itself
    SEQUENCE          repetitions in a row; the caller's state is the first of them
    XOR, AND, OR      a fork with null transitions, and a join
    sub-automaton     one transition (`NFA::Parse`), or its expression (`NFA::Link`)

For OR, `ConvertIncOrToExcOr` then lays copies of the right operand along the
transitions of the left one.

The recursion goes through the descriptions of sub-automata, which may refer to
one another in a circle; `fuel` bounds its depth.
-/
import Tesla.Automata.Graph

namespace Tesla.Automata

inductive Panic where
  | message (text : String)
  /-- The recursion has not come to an end. -/
  | stuck
deriving DecidableEq, Repr

structure Parser where
  automaton : AutomatonDescription
  descriptions : Option AutomataMap
  subAutomataAllowed : Bool
  suppressInclusiveOr : Bool

/-- A call of `Parse` on an operand: it neither initialises nor cleans up. -/
abbrev Operand := Expression → Nat → Graph → Except Panic (Nat × Graph)

/-! ## Inclusive or -/

/-- `CalculateReachableTransitionsBetween`, to a given depth. -/
def reachableFrom (g : Graph) (stop : Nat) :
    Nat → Nat → List (Transition × Nat) → List (Transition × Nat)
  | 0, _, ts => ts
  | depth + 1, start, ts =>
    if start = stop then ts
    else (g.out start).foldl (fun ts t =>
      if t ∈ ts then ts else reachableFrom g stop depth t.1.dest (ts ++ [t])) ts

/-- Every level of the recursion adds a transition, so their number bounds its
depth. -/
def calculateReachableTransitionsBetween (g : Graph) (start stop : Nat) :
    List (Transition × Nat) :=
  reachableFrom g stop (g.transitions.length + 1) start []

/-- The copy of a state, made on its first use. -/
def stateCopy (stateMap : List (Nat × Nat)) (g : Graph) (s : Nat) :
    Nat × List (Nat × Nat) × Graph :=
  match stateMap.lookup s with
  | some s' => (s', stateMap, g)
  | none =>
    let (s', g) := g.newState false false [] none
    (s', (s, s') :: stateMap, g)

/-- The clone of one transition; a null transition is made anew. -/
def cloneTransition (g : Graph) (newSource newDest : Nat) (t : Transition) : Graph :=
  match t.label with
  | .null => g.createNull newSource newDest
  | _ => g.copy newSource newDest t false

/-- `CreateTransitionChainCopy`, from the state map `[(OldStartState, NewStartState)]`. -/
def createTransitionChainCopy : List (Transition × Nat) → List (Nat × Nat) → Graph →
    List Transition × Graph
  | [], _, g => ([], g)
  | t :: chain, stateMap, g =>
    let (newSource, stateMap, g) := stateCopy stateMap g t.1.source
    let (newDest, stateMap, g) := stateCopy stateMap g t.1.dest
    let g := cloneTransition g newSource newDest t.1
    let new := g.transitions.getLast?
    let (clone, g) := createTransitionChainCopy chain stateMap g
    (new.toList ++ clone, g)

/-- One row of the grid: `T1` from each state of the row above to the one below. -/
def fillRow (t1 : Transition) (lastRow : Bool) (endState : Nat) :
    List (Nat × Transition) → Graph → Graph
  | [], g => g
  | (above, t2) :: rest, g =>
    let g := g.copy above t2.dest t1 false
    let g := if lastRow || rest.isEmpty then g.createNull t2.dest endState else g
    fillRow t1 lastRow endState rest g

def fillGrid (rhs : List (Transition × Nat)) (rhsStart endState : Nat) :
    List (Transition × Nat) → List Nat → Graph → Graph
  | [], _, g => g
  | t1 :: lhs, row, g =>
    let (rhsCopy, g) := createTransitionChainCopy rhs [(rhsStart, t1.1.dest)] g
    let g := fillRow t1.1 lhs.isEmpty endState (row.zip rhsCopy) g
    fillGrid rhs rhsStart endState lhs (rhsCopy.map (·.dest)) g

/-- `ConvertIncOrToExcOr`. -/
def convertIncOrToExcOr (suppress : Bool) (lhsStart rhsStart lhsFinal rhsFinal endState : Nat)
    (g : Graph) : Graph :=
  if suppress then g
  else
    let lhs := calculateReachableTransitionsBetween g lhsStart lhsFinal
    let rhs := calculateReachableTransitionsBetween g rhsStart rhsFinal
    fillGrid rhs rhsStart endState lhs (rhs.map (·.1.dest)) g

/-! ## Expressions -/

def bounds (what : String) (init cleanup : Bool) : Except Panic Unit :=
  if init then .error (.message (what ++ " cannot do initialisation"))
  else if cleanup then .error (.message (what ++ " cannot do cleanup"))
  else .ok ()

theorem bounds_panic (what : String) {init cleanup : Bool} (hbound : (init || cleanup) = true) :
    ∃ text, bounds what init cleanup = .error (.message text) := by
  cases init with
  | true => exact ⟨_, rfl⟩
  | false =>
    obtain rfl : cleanup = true := hbound
    exact ⟨_, rfl⟩

def parseBoolean (suppress : Bool) (parse : Operand) (operation : Operation)
    (lhs rhs : Expression) (branch : Nat) (g : Graph) : Except Panic (Nat × Graph) := do
  let (lhsStart, g) := g.newState false false [] none
  let (rhsStart, g) := g.newState false false [] none
  let (lhsFinal, g) ← parse lhs lhsStart g
  let (rhsFinal, g) ← parse rhs rhsStart g
  let g := g.createNull branch lhsStart
  let g := g.createNull branch rhsStart
  let (join, g) := g.newState false false [] none
  let g := g.createNull lhsFinal join
  let g := g.createNull rhsFinal join
  match operation with
  | .xor | .and => return (join, g)
  | .or =>
    return (join, convertIncOrToExcOr suppress lhsStart rhsStart lhsFinal rhsFinal join g)

/-- The expressions of a sequence, one after the other. -/
def parseBody (parse : Operand) : List Expression → Nat → Graph → Except Panic (Nat × Graph)
  | [], current, g => return (current, g)
  | e :: es, current, g => do
    let (current, g) ← parse e current g
    parseBody parse es current g

/-- The loop over the repetitions, of which `count` are left. -/
def parseRepetitions (body : Nat → Graph → Except Panic (Nat × Graph)) (min max : Int)
    (infiniteLoop : Bool) (final : Nat) : Nat → Nat → Nat → Graph → Except Panic Graph
  | 0, _, current, g => return g.createNull current final
  | count + 1, i, current, g => do
    let g := if min ≤ i then g.createNull current final else g
    let (next, g) ← body current g
    let g := if infiniteLoop || max < i then g.createNull next current else g
    parseRepetitions body min max infiniteLoop final count (i + 1) next g

def parseSequence (parse : Operand) (expression : List Expression) (minReps maxReps : Int)
    (start : Nat) (g : Graph) : Except Panic (Nat × Graph) := do
  let (final, g) := g.newState false false [] none
  let infiniteLoop := maxReps = infiniteRepetitions
  let max := if infiniteLoop then 1 else maxReps
  let g ← parseRepetitions (parseBody parse expression) minReps max infiniteLoop final
    (Max.max minReps max).toNat 0 start g
  return (final, g)

def parseEvent (label : Label) (start : Nat) (init cleanup : Bool) (g : Graph) : Nat × Graph :=
  let (final, g) := g.newState false cleanup [] none
  (final, g.create start final label init cleanup)

namespace Parser

/-- The arguments of the automaton that an assertion site binds. -/
def siteRefs (P : Parser) : List Argument := P.automaton.argument.filter fun a => !a.free

def parse (P : Parser) : Nat → Expression → Nat → Bool → Bool → Graph →
    Except Panic (Nat × Graph)
  | 0, _, _, _, _, _ => .error .stuck
  | fuel + 1, e, start, init, cleanup, g =>
    let operand : Operand := fun e s g => P.parse fuel e s false false g
    match e with
    | .booleanExpr operation lhs rhs => do
      bounds "boolean expression" init cleanup
      parseBoolean P.suppressInclusiveOr operand operation lhs rhs start g
    | .sequence es minReps maxReps => do
      bounds "sequence transition" init cleanup
      parseSequence operand es minReps maxReps start g
    | .nullExpr => do
      bounds "epsilon transition" init cleanup
      return (start, g)
    | .assertionSite site =>
      return parseEvent (.assertSite site P.siteRefs) start init cleanup g
    | .function ev => return parseEvent (.fn ev) start init cleanup g
    | .fieldAssign assign => return parseEvent (.fieldAssign assign) start init cleanup g
    | .subAutomaton id => do
      bounds "sub-automaton transition" init cleanup
      if P.subAutomataAllowed then
        return parseEvent (.subAutomaton id) start false false g
      else
        match P.descriptions.bind (· id) with
        | none => .error (.message ("subautomaton '" ++ id.shortName ++ "' not defined"))
        | some a => operand a.expression start g

/-- The transitions for which an out-of-scope copy is wanted: the first of each
symbol that is neither strict nor an initialisation. -/
def outOfScope (noted : List Transition) : List Transition → List Transition
  | [] => noted
  | t :: ts =>
    if noted.any (fun existing => existing.label.equivalentTo t.label) || t.label.isStrict || t.init
    then outOfScope noted ts
    else outOfScope (noted ++ [t]) ts

/-- Out-of-scope events keep the automaton in the state after initialisation, or
take it to the end. -/
def addOutOfScope (start stop : Nat) (g : Graph) : Graph :=
  (outOfScope [] g.transitions).foldl (fun g t =>
    match t.label with
    | .assertSite .. | .null | .subAutomaton _ => g
    | .fieldAssign _ | .fn _ => g.copy start (if t.cleanup then stop else start) t true) g

/-- `NFAParser::Parse (OwningPtr<NFA>&, unsigned int)`. -/
def parseAutomaton (P : Parser) (fuel : Nat) (use : Option Usage) : Except Panic Graph := do
  let (start, g) := Graph.empty.newState true false [] (some P.automaton.argument.length)
  let (start, g) ← match use.bind (·.beginning) with
    | some e => P.parse fuel e start true false g
    | none => pure (start, g)
  let (stop, g) ← P.parse fuel P.automaton.expression start false false g
  let (stop, g) ← match use.bind (·.ending) with
    | some e => P.parse fuel e stop false true g
    | none => pure (stop, g)
  return addOutOfScope start stop g

end Parser

namespace NFA

/-- `NFA::Parse`; `xorOnly` is the option `tesla-xor-only`. -/
def parse (xorOnly : Bool) (a : AutomatonDescription) (use : Option Usage) (fuel : Nat) :
    Except Panic Graph :=
  Parser.parseAutomaton ⟨a, none, true, xorOnly⟩ fuel use

/-- The parser that `NFA::Link` runs. -/
def linker (xorOnly : Bool) (a : AutomatonDescription) (descriptions : AutomataMap) : Parser :=
  ⟨a, some descriptions, false, xorOnly⟩

/-- `NFA::Link`. -/
def link (xorOnly : Bool) (a : AutomatonDescription) (use : Option Usage)
    (descriptions : AutomataMap) (fuel : Nat) : Except Panic Graph :=
  (linker xorOnly a descriptions).parseAutomaton fuel use

end NFA

end Tesla.Automata
