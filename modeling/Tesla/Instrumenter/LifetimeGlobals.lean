/-
# `Tesla.Instrumenter.LifetimeGlobals` — the global variables for lifetimes

A lifetime is passed to the run-time as a global variable that holds the serialised events
it begins and ends with:

    ShortName (..)                      `shortName`
    ShortLabel ()                       `shortLabel`
    SuperFastHash (..)                  `superFastHash`
    M.getGlobalVariable (..)            `Globals.getGlobalVariable`
    BuildLifetimeEvent, BuildLifetime   `Globals.buildLifetimeEvent`, `Globals.buildLifetime`

`BuildLifetime` looks for a variable that has the label of the lifetime as its name.  Labels
leave a good deal out (`shortLabel_strict`), so they do not tell lifetimes apart; but the
variables that `BuildLifetime` makes have internal linkage, and `getGlobalVariable` does not
return such variables unless it is asked to.  Each call makes a variable of its own, then,
unless something else in the module is visible under the name of the label.
-/
import Tesla.Automata.Manifest
import Tesla.Runtime.Automaton

namespace Tesla.Instrumenter

open Automata

/-! ## Labels -/

mutual

/-- `ShortName (const Argument*)`, where its assertions hold. -/
def shortName : Argument → Option String
  | .mk .constant _ name _ value _ _ _ => some (name.getD (toString (value.getD 0)))
  | .mk .variable _ name _ _ _ _ _ => some (name.getD "")
  | .mk .any .. => some "X"
  | .mk .indirect _ _ _ _ _ indirection _ => indirectionShortName indirection
  | .mk .field _ _ _ _ _ _ field => fieldShortName field

def indirectionShortName : Option Argument → Option String
  | none => none
  | some a => (shortName a).map ("&" ++ ·)

def fieldShortName : Option StructField → Option String
  | none => none
  | some (.mk _ base name _) => (shortName base).map (· ++ "." ++ name)

end

/-- `Direction_Name`. -/
def directionName : Direction → String
  | .entry => "Entry"
  | .exit => "Exit"

/-- `CallContext_Name`. -/
def callContextName : CallContext → String
  | .caller => "Caller"
  | .callee => "Callee"

/-- `OpString`. -/
def opString : AssignType → String
  | .simpleAssign => "="
  | .plusEqual => "+="
  | .minusEqual => "-="

/-- What `FnTransition::ShortLabel` says of the direction. -/
def directionLabel (ev : FunctionEvent) : Option String :=
  match ev.expectedReturnValue with
  | some ret =>
    if ev.direction.getD .entry = .exit then (shortName ret).map (" == " ++ ·) else none
  | none => some (": " ++ directionName (ev.direction.getD .entry))

/-- `ShortLabel`, where its assertions hold. -/
def shortLabel : Label → Option String
  | .null => some "ε"
  | .assertSite .. => some "<<assertion>>"
  | .fn ev => do
    let args ← ev.argument.mapM shortName
    return ev.function ++ "(" ++ ",".intercalate args ++ ")" ++ (← directionLabel ev) ++
      " (" ++ callContextName (ev.context.getD .caller) ++ ")"
  | .fieldAssign ⟨.mk _ base name _, operation, value, _⟩ => do
    return (← shortName base) ++ "." ++ name ++ " " ++ opString operation ++ " " ++ (← shortName value)
  | .subAutomaton id => some id.shortName

/-! ## Hashes -/

/-- `get16bits`. -/
def get16bits (lo hi : UInt8) : BitVec 32 := (hi.toBitVec.setWidth 32 <<< 8) + lo.toBitVec.setWidth 32

/-- A byte as a `char`, which has a sign. -/
def signedChar (b : UInt8) : BitVec 32 := b.toBitVec.signExtend 32

/-- The loop over four bytes at a time, and the end cases. -/
def hashBytes (hash : BitVec 32) : List UInt8 → BitVec 32
  | a :: b :: c :: d :: rest =>
    let hash := hash + get16bits a b
    let tmp := (get16bits c d <<< 11) ^^^ hash
    let hash := (hash <<< 16) ^^^ tmp
    hashBytes (hash + hash >>> 11) rest
  | [a, b, c] =>
    let hash := hash + get16bits a b
    let hash := hash ^^^ (hash <<< 16)
    let hash := hash ^^^ (signedChar c <<< 18)
    hash + hash >>> 11
  | [a, b] =>
    let hash := hash + get16bits a b
    let hash := hash ^^^ (hash <<< 11)
    hash + hash >>> 17
  | [a] =>
    let hash := hash + signedChar a
    let hash := hash ^^^ (hash <<< 10)
    hash + hash >>> 1
  | [] => hash

/-- `SuperFastHash`. -/
def superFastHash (data : List UInt8) : BitVec 32 :=
  if data = [] then 0 else
    let hash := hashBytes 0 data
    let hash := hash ^^^ (hash <<< 3)
    let hash := hash + hash >>> 5
    let hash := hash ^^^ (hash <<< 4)
    let hash := hash + hash >>> 17
    let hash := hash ^^^ (hash <<< 25)
    hash + hash >>> 6

/-! ## Global variables -/

inductive Linkage where
  | externalLinkage | internalLinkage | privateLinkage
deriving DecidableEq, Repr

/-- `hasLocalLinkage`. -/
def Linkage.isLocal : Linkage → Bool
  | externalLinkage => false
  | internalLinkage | privateLinkage => true

inductive Initialiser where
  | string (bytes : List UInt8)
  /-- A `struct tesla_lifetime`, with its name. -/
  | lifetime (l : Runtime.Lifetime) (name : String)
  /-- Anything else, or nothing. -/
  | other
deriving DecidableEq

structure GlobalVariable where
  name : String
  linkage : Linkage
  initialiser : Initialiser
deriving DecidableEq

/-- The global variables of a module; a new one comes last, and keeps its position. -/
abbrev Globals := List GlobalVariable

namespace Globals

/-- `getGlobalVariable`: variables with local linkage are returned on demand only. -/
def getGlobalVariable (M : Globals) (name : String) (allowInternal : Bool) : Option Nat :=
  (M.findIdx? fun g => g.name = name).filter fun i =>
    (M[i]?).any fun g => allowInternal || !g.linkage.isLocal

section Build

-- the library that serialises messages, and the name that a value gets in a module where the one
-- that is asked for may be taken
variable (serialize : Label → List UInt8) (uniqueName : Globals → String → String)

/-- `new GlobalVariable (M, ..)`. -/
def add (M : Globals) (name : String) (linkage : Linkage) (initialiser : Initialiser) : Globals :=
  M ++ [⟨uniqueName M name, linkage, initialiser⟩]

/-- `ConstStr`. -/
def constStr (M : Globals) (s : List UInt8) (name : String) : Globals :=
  add uniqueName M name .internalLinkage (.string s)

/-- What is written for the event of a transition. -/
def lifetimeEvent (l : Label) : Runtime.LifetimeEvent :=
  ⟨serialize l, (serialize l).length, superFastHash (serialize l)⟩

/-- `BuildLifetimeEvent`; a transition without a message has nothing to serialise. -/
def buildLifetimeEvent (M : Globals) (l : Label) : Option (Runtime.LifetimeEvent × Globals) :=
  if l.hasProtobuf then do
    return (lifetimeEvent serialize l,
      constStr uniqueName M (serialize l) ((← shortLabel l) ++ ":protobuf"))
  else none

/-- The name that `BuildLifetime` looks for. -/
def lifetimeName (l : Lifetime) : Option String := do
  return "(" ++ (← shortLabel (← l.init)) ++ " -> " ++ (← shortLabel (← l.cleanup)) ++ ")"

/-- `BuildLifetime`, where its assertions hold: the variable that it returns, and the module. -/
def buildLifetime (M : Globals) (l : Lifetime) : Option (Nat × Globals) := do
  let name ← lifetimeName l
  match M.getGlobalVariable name false with
  | some existing => return (existing, M)
  | none =>
    let (sunrise, M) ← buildLifetimeEvent serialize uniqueName M (← l.init)
    let (sunset, M) ← buildLifetimeEvent serialize uniqueName M (← l.cleanup)
    let M := constStr uniqueName M name.toUTF8.toList ""
    return (M.length, add uniqueName M name .internalLinkage (.lifetime ⟨sunrise, sunset⟩ name))

/-- Any number of calls. -/
def buildLifetimes : Globals → List Lifetime → Option (List Nat × Globals)
  | M, [] => some ([], M)
  | M, l :: ls => do
    let (g, M) ← buildLifetime serialize uniqueName M l
    let (gs, M) ← buildLifetimes M ls
    return (g :: gs, M)

end Build

/-! ## What a call returns -/

/-- The variable holds the serialised events of the lifetime. -/
def Faithful (serialize : Label → List UInt8) (M : Globals) (l : Lifetime) (g : Nat) : Prop :=
  ∃ v init cleanup name, M[g]? = some v ∧ l.init = some init ∧ l.cleanup = some cleanup ∧
    v.initialiser =
      .lifetime ⟨lifetimeEvent serialize init, lifetimeEvent serialize cleanup⟩ name

/-- Nothing but another lifetime's events keeps a call from returning its own. -/
def Free (serialize : Label → List UInt8) (M : Globals) (l : Lifetime) : Prop :=
  ∀ name, lifetimeName l = some name → ∀ g, M.getGlobalVariable name false = some g →
    Faithful serialize M l g

/-- A module grows by variables with local linkage. -/
def Grows (M M' : Globals) : Prop := ∃ vs : Globals, M' = M ++ vs ∧ ∀ v ∈ vs, v.linkage.isLocal = true

variable {serialize : Label → List UInt8} {uniqueName : Globals → String → String}
  {M M' M'' : Globals} {l : Lifetime} {g i : Nat} {name : String}

theorem Grows.refl : Grows M M := ⟨[], (List.append_nil M).symm, nofun⟩

theorem Grows.trans (h : Grows M M') (h' : Grows M' M'') : Grows M M'' := by
  obtain ⟨vs, rfl, hvs⟩ := h
  obtain ⟨ws, rfl, hws⟩ := h'
  exact ⟨vs ++ ws, List.append_assoc .., List.forall_mem_append.mpr ⟨hvs, hws⟩⟩

theorem Grows.length_le (h : Grows M M') : M.length ≤ M'.length := by
  obtain ⟨vs, rfl, _⟩ := h
  rw [List.length_append]
  exact Nat.le_add_right _ _

theorem grows_add (name : String) {linkage : Linkage} (initialiser : Initialiser)
    (hlocal : linkage.isLocal = true) :
    Grows M (add uniqueName M name linkage initialiser) :=
  ⟨_, rfl, List.forall_mem_singleton.mpr hlocal⟩

/-- Variables with local linkage are not found. -/
theorem Grows.getGlobalVariable (h : Grows M M') :
    M'.getGlobalVariable name false = M.getGlobalVariable name false := by
  obtain ⟨vs, rfl, hvs⟩ := h
  rw [Globals.getGlobalVariable, Globals.getGlobalVariable, List.findIdx?_append]
  cases hfind : M.findIdx? fun g => g.name = name with
  | some i =>
    have hi := (List.findIdx?_eq_some_iff_getElem.mp hfind).1
    rw [Option.some_or, Option.filter_some, Option.filter_some, List.getElem?_append_left hi]
  | none =>
    rw [Option.none_or, Option.filter_none]
    refine Option.filter_eq_none_iff.mpr fun i hi => ?_
    obtain ⟨j, hj, rfl⟩ := Option.map_eq_some_iff.mp hi
    obtain ⟨hlt, _⟩ := List.findIdx?_eq_some_iff_getElem.mp hj
    rw [List.getElem?_append_right (Nat.le_add_left _ _), Nat.add_sub_cancel,
      List.getElem?_eq_getElem hlt, Option.any_some, hvs _ (List.getElem_mem hlt)]
    exact Bool.false_ne_true

theorem Grows.faithful (h : Grows M M') (hg : g < M.length) :
    Faithful serialize M' l g ↔ Faithful serialize M l g := by
  obtain ⟨vs, rfl, _⟩ := h
  rw [Faithful, Faithful, List.getElem?_append_left hg]

theorem lt_of_getGlobalVariable {b : Bool} (h : M.getGlobalVariable name b = some g) :
    g < M.length := by
  obtain ⟨hfind, _⟩ := Option.filter_eq_some_iff.mp h
  exact (List.findIdx?_eq_some_iff_getElem.mp hfind).1

theorem buildLifetimeEvent_spec {l : Label} {ev : Runtime.LifetimeEvent}
    (h : buildLifetimeEvent serialize uniqueName M l = some (ev, M')) :
    ev = lifetimeEvent serialize l ∧ Grows M M' := by
  rw [buildLifetimeEvent] at h
  split at h
  · obtain ⟨label, _, h⟩ := Option.bind_eq_some_iff.mp h
    cases h
    exact ⟨rfl, grows_add _ _ rfl⟩
  · cases h

/-- A variable that is visible under the name of the lifetime, or a new one. -/
theorem buildLifetime_spec (h : buildLifetime serialize uniqueName M l = some (g, M')) :
    ∃ name, lifetimeName l = some name ∧ Grows M M' ∧
      (M.getGlobalVariable name false = some g ∧ M' = M ∨
        M.getGlobalVariable name false = none ∧ Faithful serialize M' l g ∧ M.length ≤ g) ∧
      g < M'.length := by
  rw [buildLifetime] at h
  obtain ⟨name, hname, h⟩ := Option.bind_eq_some_iff.mp h
  refine ⟨name, hname, ?_⟩
  cases hfound : M.getGlobalVariable name false with
  | some existing =>
    rw [hfound] at h
    cases h
    exact ⟨.refl, .inl ⟨rfl, rfl⟩, lt_of_getGlobalVariable hfound⟩
  | none =>
    rw [hfound] at h
    obtain ⟨init, hinit, h⟩ := Option.bind_eq_some_iff.mp h
    obtain ⟨⟨sunrise, M₁⟩, hsunrise, h⟩ := Option.bind_eq_some_iff.mp h
    obtain ⟨cleanup, hcleanup, h⟩ := Option.bind_eq_some_iff.mp h
    obtain ⟨⟨sunset, M₂⟩, hsunset, h⟩ := Option.bind_eq_some_iff.mp h
    cases h
    obtain ⟨rfl, h₁⟩ := buildLifetimeEvent_spec hsunrise
    obtain ⟨rfl, h₂⟩ := buildLifetimeEvent_spec hsunset
    have hgrown : Grows M
        (add uniqueName M₂ "" .internalLinkage (.string name.toUTF8.toList)) :=
      (h₁.trans h₂).trans (grows_add "" _ rfl)
    refine ⟨hgrown.trans (grows_add _ _ rfl), .inr ⟨rfl, ?_, hgrown.length_le⟩, ?_⟩
    · exact ⟨_, init, cleanup, name, List.getElem?_concat_length, hinit, hcleanup, rfl⟩
    · simp [add]

theorem Grows.free (h : Grows M M') : Free serialize M' l ↔ Free serialize M l := by
  refine forall_congr' fun name => imp_congr_right fun _ => forall_congr' fun g => ?_
  rw [h.getGlobalVariable]
  exact imp_congr_right fun hg => h.faithful (lt_of_getGlobalVariable hg)

/-! ## Any number of calls -/

/-- Each lifetime has a variable that holds its own events. -/
structure OwnGlobals (serialize : Label → List UInt8) (M : Globals) (ls : List Lifetime)
    (gs : List Nat) : Prop where
  own : List.Forall₂ (Faithful serialize M) ls gs
  /-- Lifetimes that differ do not share a variable. -/
  apart : ∀ (i j : Nat) (l l' : Lifetime) (g : Nat), ls[i]? = some l → ls[j]? = some l' →
    gs[i]? = some g → gs[j]? = some g →
      l.init.map serialize = l'.init.map serialize ∧ l.cleanup.map serialize = l'.cleanup.map serialize

variable {ls : List Lifetime} {gs : List Nat}

theorem buildLifetimes_grows (h : buildLifetimes serialize uniqueName M ls = some (gs, M')) :
    Grows M M' := by
  induction ls generalizing M gs with
  | nil =>
    cases h
    exact .refl
  | cons l ls ih =>
    rw [buildLifetimes] at h
    obtain ⟨⟨g, M₁⟩, hhead, h⟩ := Option.bind_eq_some_iff.mp h
    obtain ⟨⟨gs', M₂⟩, htail, h⟩ := Option.bind_eq_some_iff.mp h
    cases h
    obtain ⟨_, _, hgrows, _⟩ := buildLifetime_spec hhead
    exact hgrows.trans (ih htail)

theorem buildLifetimes_own (h : buildLifetimes serialize uniqueName M ls = some (gs, M')) :
    List.Forall₂ (Faithful serialize M') ls gs ↔ ∀ l ∈ ls, Free serialize M l := by
  induction ls generalizing M gs with
  | nil =>
    cases h
    exact ⟨fun _ l hl => absurd hl List.not_mem_nil, fun _ => .nil⟩
  | cons l ls ih =>
    rw [buildLifetimes] at h
    obtain ⟨⟨g, M₁⟩, hhead, h⟩ := Option.bind_eq_some_iff.mp h
    obtain ⟨⟨gs', M₂⟩, htail, h⟩ := Option.bind_eq_some_iff.mp h
    cases h
    obtain ⟨name, hname, hgrows, hcase, hlt⟩ := buildLifetime_spec hhead
    have hrest := buildLifetimes_grows htail
    have hhere : Faithful serialize M' l g ↔ Free serialize M l := by
      rw [hrest.faithful hlt]
      rcases hcase with ⟨hfound, rfl⟩ | ⟨hnone, hfaithful, _⟩
      · constructor
        · intro hfaithful name' hname' g' hfound'
          rw [hname] at hname'
          cases hname'
          rw [hfound] at hfound'
          cases hfound'
          exact hfaithful
        · exact fun hfree => hfree name hname g hfound
      · refine iff_of_true hfaithful fun name' hname' g' hfound' => ?_
        rw [hname] at hname'
        cases hname'
        rw [hnone] at hfound'
        cases hfound'
    rw [List.forall₂_cons, hhere, ih htail, List.forall_mem_cons]
    exact and_congr_right fun _ => forall₂_congr fun l' _ => hgrows.free

theorem Faithful.same {l' : Lifetime} (h : Faithful serialize M l g) (h' : Faithful serialize M l' g) :
    l.init.map serialize = l'.init.map serialize ∧ l.cleanup.map serialize = l'.cleanup.map serialize := by
  obtain ⟨v, init, cleanup, name, hv, hinit, hcleanup, hl⟩ := h
  obtain ⟨v', init', cleanup', name', hv', hinit', hcleanup', hl'⟩ := h'
  rw [hv] at hv'
  cases hv'
  rw [hl, Initialiser.lifetime.injEq, Runtime.Lifetime.mk.injEq, lifetimeEvent, lifetimeEvent,
    Runtime.LifetimeEvent.mk.injEq, lifetimeEvent, lifetimeEvent, Runtime.LifetimeEvent.mk.injEq] at hl'
  obtain ⟨⟨⟨hsunrise, _⟩, hsunset, _⟩, _⟩ := hl'
  rw [hinit, hinit', hcleanup, hcleanup', Option.map_some, Option.map_some, Option.map_some,
    Option.map_some, hsunrise, hsunset]
  exact ⟨rfl, rfl⟩

/-- Every call of `BuildLifetime` returns a variable that holds the events of its own lifetime if and
only if the module has no other variable that is visible under the name of one of the lifetimes. -/
theorem buildLifetimes_faithful (serialize : Label → List UInt8)
    (uniqueName : Globals → String → String) (M M' : Globals) (ls : List Lifetime) (gs : List Nat)
    (h : buildLifetimes serialize uniqueName M ls = some (gs, M')) :
    OwnGlobals serialize M' ls gs ↔ ∀ l ∈ ls, Free serialize M l := by
  rw [← buildLifetimes_own h]
  constructor
  · exact OwnGlobals.own
  · intro hown
    refine ⟨hown, fun i j l l' g hl hl' hg hg' => ?_⟩
    have hat {k : Nat} {x : Lifetime} (hx : ls[k]? = some x) (hgk : gs[k]? = some g) :
        Faithful serialize M' x g := by
      obtain ⟨hlt, rfl⟩ := List.getElem?_eq_some_iff.mp hx
      obtain ⟨hlt', rfl⟩ := List.getElem?_eq_some_iff.mp hgk
      exact hown.get hlt hlt'
    exact (hat hl hg).same (hat hl' hg')

/-! ## Labels that are the same -/

/-- A call of `main`, and its return. -/
def callOfMain (direction : Direction) (strict : Bool) : FunctionEvent :=
  ⟨"main", some direction, some .callee, [], none, some strict, none, none⟩

/-- While `main` runs. -/
def withinMain (strict : Bool) : Lifetime :=
  ⟨.global, some (.fn (callOfMain .entry strict)), some (.fn (callOfMain .exit strict))⟩

def mainName : String := "(main(): Entry (Callee) -> main(): Exit (Callee))"

/-- Two lifetimes that differ have one label. -/
theorem shortLabel_strict : withinMain true ≠ withinMain false ∧
    lifetimeName (withinMain true) = some mainName ∧ lifetimeName (withinMain false) = some mainName := by
  decide +kernel

/-- The serialised form of a call without arguments of a function with a short name. -/
def serializeCall : Label → List UInt8
  | .fn ev =>
    let name := ev.function.toUTF8.toList
    let length := UInt8.ofNat name.length
    let optional {α : Type} (tag : UInt8) (value : α → UInt8) (field : Option α) : List UInt8 :=
      (field.map fun x => [tag, value x]).getD []
    [0x0A, length + 2, 0x0A, length] ++ name ++
      optional 0x10 (fun | .entry => 1 | .exit => 2) ev.direction ++
      optional 0x18 (fun | .caller => 1 | .callee => 2) ev.context ++
      optional 0x30 (fun b => if b then 1 else 0) ev.strict
  | .null | .assertSite .. | .fieldAssign _ | .subAutomaton _ => []

/-- A number is put behind a name that is taken. -/
def numbered (M : Globals) (name : String) : String :=
  if M.any (fun g => g.name = name) then name ++ toString M.length else name

/-- Each has a variable of its own. -/
theorem buildLifetimes_faithful_strict : ∃ gs M', buildLifetimes serializeCall numbered
      [⟨"x", .externalLinkage, .other⟩] [withinMain true, withinMain false, withinMain true] =
        some (gs, M') ∧
    OwnGlobals serializeCall M' [withinMain true, withinMain false, withinMain true] gs := by
  obtain ⟨r, hr⟩ := Option.isSome_iff_exists.mp (by decide +kernel : (buildLifetimes serializeCall
    numbered [⟨"x", .externalLinkage, .other⟩]
      [withinMain true, withinMain false, withinMain true]).isSome)
  refine ⟨r.1, r.2, hr, (buildLifetimes_faithful serializeCall numbered _ r.2 _ r.1 hr).mpr ?_⟩
  intro l hl name hname g hg
  obtain ⟨_, htrue, hfalse⟩ := shortLabel_strict
  have hmain : lifetimeName l = some mainName := by
    rcases List.mem_cons.mp hl with rfl | hl
    · exact htrue
    · rcases List.mem_cons.mp hl with rfl | hl
      · exact hfalse
      · rw [List.mem_singleton.mp hl, htrue]
  have hnone : getGlobalVariable [⟨"x", .externalLinkage, .other⟩] mainName false = none := by
    decide +kernel
  rw [hmain] at hname
  cases hname
  rw [hnone] at hg
  cases hg

/-- A variable that has the label as its name, and is visible, is taken for the lifetime. -/
theorem buildLifetimes_other : buildLifetimes serializeCall numbered
      [⟨mainName, .externalLinkage, .other⟩] [withinMain true] =
        some ([0], [⟨mainName, .externalLinkage, .other⟩]) ∧
    ¬ OwnGlobals serializeCall [⟨mainName, .externalLinkage, .other⟩] [withinMain true] [0] := by
  refine ⟨by decide +kernel, fun h => ?_⟩
  obtain ⟨v, init, cleanup, name, hv, _, _, hl⟩ := (List.forall₂_cons.mp h.own).1
  cases hv
  cases hl

end Globals

end Tesla.Instrumenter
