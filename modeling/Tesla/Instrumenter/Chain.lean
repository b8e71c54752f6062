/-
# `Tesla.Instrumenter.Chain` — what a call of an instrumented function does to an automaton

An instrumentation function goes through its blocks one after the other; where the constants
of a block match, the run-time is called, and then the next block is tried all the same:

    blocks of the function            `TranslationFn.chain`
    those that match the call         `TranslationFn.run`
    symbols and keys for one          `TranslationFn.updates`
    automaton
    what they do to its class         `Runtime.oneStep`

The run-time automaton is the one that `BuildAutomatonDescription` writes: a table of
transitions for each equivalence class, in the order of the classes.
-/
import Tesla.Instrumenter.Callee
import Tesla.Instrumenter.Keys
import Tesla.Runtime.Chain

namespace Tesla.Instrumenter

open Automata Lib Tesla.Runtime

/-! ## The chain of calls -/

namespace TranslationFn

/-- The calls of the run-time, with their keys, that a call of the function makes. -/
def run (f : TranslationFn) (fr : Frame) : List (Hook × Key) :=
  (f.chain.filter fun b => b.code.matched fr).map fun b => (b.call, b.code.key.run fr)

/-- The symbols and keys that `tesla_update_state` is called with for an automaton. -/
def updates (f : TranslationFn) (fr : Frame) (name : String) : List (Nat × Key) :=
  (f.run fr).filterMap fun
    | (.updateState _ automaton symbol, key) => if automaton = name then some (symbol, key) else none
    | (.sunrise _, _) | (.sunset _, _) => none

end TranslationFn

/-! ## The automaton at run time -/

/-- `State::Mask`, of the state with an identifier. -/
def stateMask (g : Graph) (s : Nat) : Mask :=
  (((g.states[s]?).map State.mask).getD []).foldl (fun mask i => mask ||| 1#32 <<< i) 0

/-- `BuildTransition`. -/
def buildTransition (g : Graph) (t : Automata.Transition) : Runtime.Transition where
  fromState := t.source
  fromMask := stateMask g t.source
  toState := t.dest
  toMask := stateMask g t.dest
  flags := (if t.init then 0x02 else 0) ||| (if t.cleanup then 0x04 else 0)

/-- `BuildAutomatonDescription`; the lifetime is written from the messages of its bounds, and
given here.  A class that is not found has the symbol `-1`. -/
def buildAutomatonDescription (it : Iteration) (a : Automata.Automaton) (l : Runtime.Lifetime) :
    Runtime.Automaton where
  taTransitions := (groupClasses it a.graph.transitions).map fun c =>
    (it.walk c).map (buildTransition a.graph)
  taCleanupSymbol := ((groupClasses it a.graph.transitions).findIdx? fun c =>
    (it.head c).any (·.cleanup)).getD (2 ^ 32 - 1)
  taLifetime := l

/-! ## One event, one step -/

/-- A call of a function moves an instance of an automaton once at most, and the copies that it
makes not at all, if none of the symbols that it matches continues an earlier one. -/
theorem event_steps_once (f : TranslationFn) (fr : Frame) (name : String) (P : Program)
    (autom : Runtime.Automaton) (cls : Nat) (c : Runtime.Class) (ls : LifetimeState)
    (h : Unchained autom (f.updates fr name)) :
    oneStep P autom cls (f.updates fr name) c ls (fun _ => false) = true :=
  oneStep_of_unchained h

/-! ## A session -/

/-- A call of `serve`, by the callee, with an argument. -/
def callServe (arg : Argument) : FunctionEvent := { Parser.callTo "serve" with argument := [arg] }

def anyValue : Argument := .mk .any none none none none none none none

def theValue (n : Int) : Argument := .mk .constant none none none (some n) none none none

/-- Between `enter` and `leave`, the events happen one after the other. -/
def sessionFile (events : List FunctionEvent) : ManifestFile where
  automaton := [⟨⟨some "session", none⟩, .global, .sequence (events.map .function) 1 1, []⟩]
  root := [⟨⟨some "session", none⟩, some (.function (Parser.callTo "enter")),
    some (.function (Parser.callTo "leave"))⟩]

def sessionModule : Module where
  functions := [⟨"enter", ⟨[], none⟩, true, 1⟩, ⟨"login", ⟨[], none⟩, true, 1⟩,
    ⟨"serve", ⟨[.int 32], none⟩, true, 1⟩, ⟨"leave", ⟨[], none⟩, true, 1⟩]
  selectors := []

/-- `serve (5)`. -/
def serveFive : Frame := ⟨[.int 32 5], zeroMemory, fun _ => 0⟩

/-- The automaton, and the symbols and keys that `serve (5)` has for it. -/
def serving (events : List FunctionEvent) : Option (Runtime.Automaton × List (Nat × Key)) := do
  let M ← ((sessionFile events).load false .insertion 3 12).toOption
  let I ← (runOnModule .insertion M sessionModule).toOption
  let f ← I.find? (Instrumentation.IsFor "serve" .entry)
  let a ← M.findAutomaton ⟨some "session", none⟩
  return (buildAutomatonDescription .insertion a callLifetime, f.updates serveFive "session")

theorem serving_eq_some {events : List FunctionEvent} {autom : Runtime.Automaton}
    {xs : List (Nat × Key)} (h : serving events = some (autom, xs)) :
    ∃ M I f a, (sessionFile events).load false .insertion 3 12 = .ok M ∧
      runOnModule .insertion M sessionModule = .ok I ∧ f ∈ I ∧ f.target = "serve" ∧
      M.findAutomaton ⟨some "session", none⟩ = some a ∧
      buildAutomatonDescription .insertion a callLifetime = autom ∧
      f.updates serveFive "session" = xs := by
  obtain ⟨M, hM, h⟩ := Option.bind_eq_some_iff.mp h
  obtain ⟨I, hI, h⟩ := Option.bind_eq_some_iff.mp h
  obtain ⟨f, hf, h⟩ := Option.bind_eq_some_iff.mp h
  obtain ⟨a, ha, h⟩ := Option.bind_eq_some_iff.mp h
  cases h
  have hfor := List.find?_some hf
  rw [Instrumentation.IsFor, decide_eq_true_eq] at hfor
  exact ⟨M, I, f, a, ok_of_toOption hM, ok_of_toOption hI, List.mem_of_find?_eq_some hf, hfor.1, ha,
    rfl, rfl⟩

/-- Three events in turn, within the bounds. -/
def inTurn : Runtime.Automaton where
  taTransitions := [[⟨0, 0, 1, 0, 2⟩], [⟨1, 0, 2, 0, 0⟩], [⟨2, 0, 3, 0, 0⟩], [⟨3, 0, 4, 0, 0⟩],
    [⟨4, 0, 5, 0, 4⟩]]
  taCleanupSymbol := 4
  taLifetime := callLifetime

def inTurnProgram : Program := ⟨fun _ => inTurn, true⟩

/-- A class with an instance in a state, and room for one more. -/
def standingIn (state : Nat) : Runtime.Class := ⟨some 1, 1, [⟨Key.zero, state⟩, Instance.zero]⟩

/-- `serve (5)`, `login ()`, `serve (ANY)`: the call `serve (5)` matches the first event and the
third, and the instance that waits for the first moves once. -/
theorem event_steps_once_session : ∃ M I f a,
    (sessionFile [callServe (theValue 5), Parser.callTo "login", callServe anyValue]).load
      false .insertion 3 12 = .ok M ∧
    runOnModule .insertion M sessionModule = .ok I ∧ f ∈ I ∧ f.target = "serve" ∧
    M.findAutomaton ⟨some "session", none⟩ = some a ∧
    f.updates serveFive "session" = [(1, Key.zero), (3, Key.zero)] ∧
    oneStep inTurnProgram (buildAutomatonDescription .insertion a callLifetime) 0
      (f.updates serveFive "session") (standingIn 1) (LifetimeState.fresh callLifetime)
      (fun _ => false) = true := by
  have hserving : serving [callServe (theValue 5), Parser.callTo "login", callServe anyValue] =
      some (inTurn, [(1, Key.zero), (3, Key.zero)]) := by decide +kernel
  obtain ⟨M, I, f, a, hM, hI, hf, htarget, ha, hbuild, hxs⟩ := serving_eq_some hserving
  refine ⟨M, I, f, a, hM, hI, hf, htarget, ha, hxs, ?_⟩
  refine event_steps_once f serveFive "session" inTurnProgram _ 0 _ _ ?_
  rw [hbuild, hxs]
  decide +kernel

/-- `login ()`, `serve (ANY)`, `serve (5)`: one call of `serve (5)` is the second event and the
third, and takes an instance from state 2 over state 3 to state 4. -/
theorem event_steps_twice : ∃ M I f a,
    (sessionFile [Parser.callTo "login", callServe anyValue, callServe (theValue 5)]).load
      false .insertion 3 12 = .ok M ∧
    runOnModule .insertion M sessionModule = .ok I ∧ f ∈ I ∧ f.target = "serve" ∧
    M.findAutomaton ⟨some "session", none⟩ = some a ∧
    buildAutomatonDescription .insertion a callLifetime = inTurn ∧
    f.updates serveFive "session" = [(2, Key.zero), (3, Key.zero)] ∧
    (updateFound inTurnProgram inTurn 0 2 Key.zero (standingIn 2)
      (LifetimeState.fresh callLifetime)).toOption.map Prod.fst = some (standingIn 3) ∧
    (updateFound inTurnProgram inTurn 0 3 Key.zero (standingIn 3)
      (LifetimeState.fresh callLifetime)).toOption.map Prod.fst = some (standingIn 4) ∧
    oneStep inTurnProgram inTurn 0 (f.updates serveFive "session") (standingIn 2)
      (LifetimeState.fresh callLifetime) (fun _ => false) = false := by
  have hserving : serving [Parser.callTo "login", callServe anyValue, callServe (theValue 5)] =
      some (inTurn, [(2, Key.zero), (3, Key.zero)]) := by decide +kernel
  obtain ⟨M, I, f, a, hM, hI, hf, htarget, ha, hbuild, hxs⟩ := serving_eq_some hserving
  refine ⟨M, I, f, a, hM, hI, hf, htarget, ha, hbuild, hxs, by decide, by decide, ?_⟩
  rw [hxs]
  decide

end Tesla.Instrumenter
