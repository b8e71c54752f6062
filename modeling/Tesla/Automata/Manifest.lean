/-
# `Tesla.Automata.Manifest` — the automata of a program and their lifetimes

`Manifest::load` builds the automata that a manifest describes and notes the lifetime of
each, once: lifetimes are compared by their context and by the messages of their bounds.
An assertion site has no message, and a comparison of lifetimes that have one as a bound
is a null reference.

The descriptions come in the order in which `AutomataMap` is walked.
-/
import Tesla.Automata.Classes
import Tesla.Automata.DFABuilder
import Tesla.Automata.Parser
import Tesla.Lib.Ensures

namespace Tesla.Automata

open Lib

inductive LoadError where
  | panic (p : Panic)
  | unconverted
  | noProtobuf
deriving DecidableEq, Repr

/-! ## Lifetimes -/

/-- `Automaton::Lifetime`; of a bound, only what its transition reads is used. -/
structure Lifetime where
  context : Context
  init : Option Label
  cleanup : Option Label
deriving DecidableEq

/-- Is `Protobuf ()` other than null? -/
def Label.hasProtobuf : Label → Bool
  | .fn _ | .fieldAssign _ => true
  | .null | .assertSite .. | .subAutomaton _ => false

def sameBound : Option Label → Option Label → Except LoadError Bool
  | none, none => .ok true
  | some l, some l' =>
    if l.hasProtobuf ∧ l'.hasProtobuf then .ok (decide (l = l')) else .error .noProtobuf
  | none, some _ | some _, none => .ok false

/-- `Lifetime::operator ==`. -/
def Lifetime.same (x y : Lifetime) : Except LoadError Bool :=
  if x.context = y.context then do
    if ← sameBound x.init y.init then sameBound x.cleanup y.cleanup else return false
  else .ok false

/-- `find (Lifetimes.begin (), Lifetimes.end (), L)`. -/
def Lifetime.isAmong (l : Lifetime) : List Lifetime → Except LoadError Bool
  | [] => .ok false
  | x :: xs => do if ← x.same l then return true else l.isAmong xs

/-- A lifetime is noted if it has a beginning and is not there yet. -/
def noteLifetime (xs : List Lifetime) (l : Lifetime) : Except LoadError (List Lifetime) :=
  if l.init.isSome then do
    if ← l.isAmong xs then return xs else
      let _ ← l.same l
      return xs ++ [l]
  else .ok xs

/-! ## Loading -/

structure Automaton where
  assertion : AutomatonDescription
  graph : Graph

/-- `Automaton::getLifetime`. -/
def Automaton.getLifetime (it : Iteration) (a : Automaton) : Lifetime where
  context := a.assertion.context
  init := (Automaton.init it a.graph).map (·.label)
  cleanup := (it.head (Automaton.cleanup it a.graph)).map (·.label)

structure ManifestFile where
  automaton : List AutomatonDescription
  root : List Usage

structure Manifest where
  automata : List Automaton
  roots : List Usage
  lifetimes : List Lifetime

/-- `Manifest::FindAutomaton`. -/
def Manifest.findAutomaton (M : Manifest) (id : Identifier) : Option Automaton :=
  M.automata.find? fun a => a.assertion.identifier = id

namespace ManifestFile

/-- `Descriptions`. -/
def descriptions (file : ManifestFile) : AutomataMap :=
  fun id => file.automaton.find? fun d => d.identifier = id

/-- `Uses[ID]`. -/
def uses (file : ManifestFile) (id : Identifier) : Option Usage :=
  file.root.reverse.find? fun u => u.identifier = id

/-- One automaton, deterministic. -/
def loadAutomaton (file : ManifestFile) (xorOnly : Bool) (fuel rounds : Nat)
    (d : AutomatonDescription) : Except LoadError Automaton := do
  let _ ← (NFA.parse xorOnly d (file.uses d.identifier) fuel).mapError .panic
  let N ← (NFA.link xorOnly d (file.uses d.identifier) file.descriptions fuel).mapError .panic
  match DFA.convert N rounds with
  | some D => return ⟨d, D⟩
  | none => throw .unconverted

/-- A round of the loop in `Manifest::load`. -/
def loadNext (file : ManifestFile) (xorOnly : Bool) (it : Iteration) (fuel rounds : Nat)
    (M : Manifest) (d : AutomatonDescription) : Except LoadError Manifest := do
  let a ← file.loadAutomaton xorOnly fuel rounds d
  let lifetimes ← noteLifetime M.lifetimes (a.getLifetime it)
  return { M with automata := M.automata ++ [a], lifetimes := lifetimes }

/-- `Manifest::load`. -/
def load (file : ManifestFile) (xorOnly : Bool) (it : Iteration) (fuel rounds : Nat) :
    Except LoadError Manifest :=
  file.automaton.foldlM (file.loadNext xorOnly it fuel rounds) ⟨[], file.root, []⟩

end ManifestFile

/-! ## Each lifetime once -/

variable {l l' : Lifetime} {xs : List Lifetime} {b : Bool}

theorem sameBound_self {x : Option Label} (h : sameBound x x = .ok b) : b = true := by
  cases x with
  | none => cases h; rfl
  | some x =>
    rw [sameBound] at h
    split at h
    · cases h
      exact decide_eq_true rfl
    · cases h

theorem Lifetime.same_self (h : l.same l = .ok b) : b = true := by
  rw [same, if_pos rfl] at h
  obtain ⟨b', hinit, h⟩ := bind_eq_ok.mp h
  obtain rfl := sameBound_self hinit
  exact sameBound_self h

theorem Lifetime.not_mem_of_isAmong (h : l.isAmong xs = .ok false) : l ∉ xs := by
  induction xs with
  | nil => exact List.not_mem_nil
  | cons x xs ih =>
    rw [isAmong] at h
    obtain ⟨b, hb, h⟩ := bind_eq_ok.mp h
    cases b with
    | true => cases h
    | false =>
      rw [List.mem_cons, not_or]
      refine ⟨?_, ih h⟩
      rintro rfl
      cases same_self hb

theorem noteLifetime_nodup {ys : List Lifetime} (h : noteLifetime xs l = .ok ys)
    (hxs : xs.Nodup) : ys.Nodup := by
  rw [noteLifetime] at h
  split at h
  · obtain ⟨b, hb, h⟩ := bind_eq_ok.mp h
    cases b with
    | true => cases h; exact hxs
    | false =>
      obtain ⟨_, _, h⟩ := bind_eq_ok.mp h
      cases h
      exact List.nodup_append.mpr ⟨hxs, List.nodup_singleton l, fun x hx y hy => by
        rintro rfl
        rw [List.mem_singleton] at hy
        exact Lifetime.not_mem_of_isAmong hb (hy ▸ hx)⟩
  · cases h
    exact hxs

theorem ManifestFile.load_nodup {file : ManifestFile} {xorOnly : Bool} {it : Iteration}
    {fuel rounds : Nat} {M : Manifest} (h : file.load xorOnly it fuel rounds = .ok M) :
    M.lifetimes.Nodup := by
  refine foldlM_keeps (P := fun M => M.lifetimes.Nodup) ?_ h List.nodup_nil
  intro M₀ d M₁ hM₀ hnext
  obtain ⟨a, _, hnext⟩ := bind_eq_ok.mp hnext
  obtain ⟨ys, hys, hnext⟩ := bind_eq_ok.mp hnext
  cases hnext
  exact noteLifetime_nodup hys hM₀

end Tesla.Automata
