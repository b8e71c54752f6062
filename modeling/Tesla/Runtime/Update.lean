/-
# `Tesla.Runtime.Update` — one event delivered to one class

`tesla_update_class_state` once the class's lifetime has been found, phase by
phase as the source has them:

    late initialisation   `lateInit`      the class is empty: pretend the init transition was taken
    registration          `register`      note the class in its lifetime, for cleanup
    the scan              `scanLoop`      one action per slot; forks are only noted
    the clones            `moveClones`    the noted forks become new instances
    the end               `updateFound`   no-instance report, class reset

The function updates in place and can return from the middle of a phase, so
the phases hand on what they have written so far together with a flag that
says the source has returned.  Notifications are collected in the order they
are made; an instance in a notification is its value at that moment.

`initInner` has the two loop variables of the source, `i` and `j`, including
that the inner loop tests and advances `i` and never `j`.
-/
import Tesla.Runtime.Action

namespace Tesla.Runtime

/-- The messages passed to `ev_err`. -/
inductive Msg
  /-- `"failed to initialise instance"` -/
  | failedToInitialise
  /-- `"automaton has no init transition"` -/
  | noInitTransition
  /-- `"too many clones"` -/
  | tooManyClones
  /-- `"failed to clone instance"` -/
  | failedToClone
  /-- `"failed to union keys"` -/
  | failedToUnion
  deriving DecidableEq, Repr

/-- A call of one of the `ev_*` notification functions. -/
inductive Event
  | sunrise (l : Lifetime)
  | sunset (l : Lifetime)
  | newInstance (cls slot : Nat) (inst : Instance)
  | transition (cls slot : Nat) (inst : Instance) (t : Transition)
  | clone (cls slot copySlot : Nat) (orig copy : Instance) (t : Transition)
  | noInstance (cls symbol : Nat) (key : Key)
  | badTransition (cls slot : Nat) (inst : Instance) (symbol : Nat)
  | err (cls symbol : Nat) (e : Err) (msg : Msg)
  | accept (cls slot : Nat) (inst : Instance)
  | ignored (cls symbol : Nat) (key : Key)
  deriving DecidableEq

/-! ## Late initialisation -/

/-- The inner loop, `for (j = 0; i < trans->length; i++)`, with `n` rounds to
go: where it leaves `i`, and the init transition it broke off at. -/
def initInner (trans : List Transition) : Nat → Nat → Nat × Option Transition
  | 0, i => (i, none)
  | n + 1, i =>
      match trans[0]? with
      | some t => if t.init then (i, some t) else initInner trans n (i + 1)
      | none => (i, none)

/-- What the two loops have done: the class, the last instance created and the
error they returned with. -/
structure LateInit where
  cls : Class
  inst : Option Nat
  err : Option Err

/-- The outer loop, with `fuel` rounds at most to go. -/
def initOuter (autom : Automaton) : Nat → Nat → Class → Option Nat → Except Abort LateInit
  | 0, _, c, inst => .ok ⟨c, inst, none⟩
  | fuel + 1, i, c, inst =>
      match autom.taTransitions[i]? with
      | none => .ok ⟨c, inst, none⟩
      | some ts =>
          match initInner ts (ts.length - i) i with
          | (i', none) => initOuter autom fuel (i' + 1) c inst
          | (i', some t) =>
              match instanceNew c Key.zero t.toState with
              | .ok (c', slot) => initOuter autom fuel (i' + 1) c' (some slot)
              | .error (.err e) => .ok ⟨c, inst, some e⟩
              | .error (.abort a) => .error a

/-- Both loops, from the first symbol. -/
def lateInit (autom : Automaton) (c : Class) : Except Abort LateInit :=
  initOuter autom autom.taAlphabetSize 0 c none

/-! ## Registration -/

/-- Space for one more dynamic registration: `calloc` the first time, then
twice as much every time.  Twice a `uint32_t` is a `uint32_t`.  What `realloc`
leaves in the new entries does not matter: only those below the count are read. -/
def growDyn (ls : LifetimeState) : LifetimeState :=
  if ls.tlsDynCapacity = 0 then
    { ls with tlsDynClasses := List.replicate 8 none, tlsDynCapacity := 8 }
  else
    let count := 2 * ls.tlsDynCapacity % 2 ^ 32
    { ls with
      tlsDynClasses := ls.tlsDynClasses.take count ++
        List.replicate (count - ls.tlsDynClasses.length) none
      tlsDynCapacity := count }

/-- Register class `cls` with its lifetime for eventual cleanup. -/
def register (ls : LifetimeState) (cls : Nat) : Except Abort LifetimeState :=
  match ls.tlsClasses.findIdx? Option.isNone with
  | some i => .ok { ls with tlsClasses := ls.tlsClasses.set i (some cls) }
  | none =>
      let ls' := growDyn ls
      if ls'.tlsDynCount < ls'.tlsDynCapacity then
        .ok { ls' with
          tlsDynClasses := ls'.tlsDynClasses.set ls'.tlsDynCount (some cls)
          tlsDynCount := ls'.tlsDynCount + 1 }
      else .error .dynCapacity

/-! ## The scan -/

/-- `struct clone_info`. -/
structure Clone where
  old : Nat
  transition : Transition
  deriving DecidableEq

/-- The local state of the scan. -/
structure Scan where
  insts : List Instance
  expected : Int
  clones : List Clone
  matched : Bool
  cleanup : Bool
  returned : Bool
  evs : List Event

/-- What does not change while one event is processed. -/
structure Delivery where
  haveTransitions : Bool
  cls : Nat
  symbol : Nat
  pattern : Key
  trans : List Transition
  maxClones : Nat

/-- The body of the scan's `switch`, for the instance in slot `i`. -/
def applyAction (d : Delivery) (i : Nat) (inst : Instance) (s : Scan) :
    Action → Except Abort Scan
  | .fail => .ok { s with evs := s.evs ++ [.badTransition d.cls i inst d.symbol] }
  | .ignore => .ok s
  | .update t =>
      let inst' := { inst with tiState := t.toState }
      .ok { s with
        insts := s.insts.set i inst'
        matched := true
        cleanup := s.cleanup || t.cleanup
        evs := s.evs ++ (if d.haveTransitions then [.transition d.cls i inst t] else [])
          ++ (if t.cleanup then [.accept d.cls i inst'] else []) }
  | .fork t =>
      if d.maxClones ≤ s.clones.length then
        .ok { s with
          returned := true
          evs := s.evs ++ [.err d.cls d.symbol .enomem .tooManyClones] }
      else
        .ok { s with
          clones := s.clones ++ [⟨i, t⟩]
          matched := true
          cleanup := s.cleanup || t.cleanup }
  | .join t =>
      if s.insts.any (fun u => u.tiState == t.toState) then
        .ok { s with
          insts := s.insts.set i Instance.zero
          cleanup := s.cleanup || t.cleanup }
      else .error .joinTarget

/-- One round of the scan. -/
def scanSlot (d : Delivery) (i : Nat) (s : Scan) : Except Abort Scan :=
  match s.insts[i]? with
  | none => .ok s
  | some inst =>
      match action inst d.pattern d.trans with
      | .error a => .error a
      | .ok a =>
          applyAction d i inst
            { s with expected := s.expected - (if a = .ignore then 0 else 1) } a

/-- The scan over the slots `is`: it stops when nothing more is expected, or
when the source has returned. -/
def scanLoop (d : Delivery) : List Nat → Scan → Except Abort Scan
  | [], s => .ok s
  | i :: is, s =>
      if 0 < s.expected ∧ s.returned = false then
        match scanSlot d i s with
        | .error a => .error a
        | .ok s' => scanLoop d is s'
      else .ok s

/-! ## The clones -/

/-- What an event adds to the name of an instance forked by `t`. -/
def newName (pattern : Key) (t : Transition) : Key :=
  { pattern with tkMask := pattern.tkMask &&& t.toMask }

/-- The class with its clones, the notifications, and whether the source has
returned. -/
structure Cloned where
  cls : Class
  returned : Bool
  evs : List Event

/-- Move the clones into the class. -/
def moveClones (d : Delivery) : List Clone → Class → List Event → Except Abort Cloned
  | [], c, evs => .ok ⟨c, false, evs⟩
  | k :: ks, c, evs =>
      let orig := c.tcInstances.getD k.old Instance.zero
      match instanceClone c orig with
      | .error (.abort a) => .error a
      | .error (.err e) => .ok ⟨c, true, evs ++ [.err d.cls d.symbol e .failedToClone]⟩
      | .ok (c', slot) =>
          match keyUnion orig.tiKey (newName d.pattern k.transition) with
          | (key, .success) =>
              let copy : Instance := ⟨key, k.transition.toState⟩
              moveClones d ks (c'.setInstance slot copy)
                (evs ++ [.clone d.cls k.old slot orig copy k.transition]
                  ++ (if k.transition.cleanup then [.accept d.cls slot copy] else []))
          | (key, e) =>
              .ok ⟨c'.setInstance slot ⟨key, orig.tiState⟩, true,
                evs ++ [.err d.cls d.symbol e .failedToUnion]⟩

/-! ## The whole update -/

/-- The scan of a class: `expected` is an `int`. -/
def Scan.start (c : Class) (evs : List Event) : Scan where
  insts := c.tcInstances
  expected := ((c.tcLimit : Int) - c.tcFree).bmod (2 ^ 32)
  clones := []
  matched := false
  cleanup := false
  returned := false
  evs := evs

/-- The scan, the clones and the end of `tesla_update_class_state`. -/
def deliver (d : Delivery) (c : Class) (evs : List Event) : Except Abort (Class × List Event) :=
  match scanLoop d (List.range c.tcLimit) (Scan.start c evs) with
  | .error a => .error a
  | .ok s =>
      let c₁ := { c with tcInstances := s.insts }
      if s.returned then .ok (c₁, s.evs)
      else
        match moveClones d s.clones c₁ s.evs with
        | .error a => .error a
        | .ok r =>
            if r.returned then .ok (r.cls, r.evs)
            else
              .ok (if s.cleanup then classReset r.cls else r.cls,
                if s.matched then r.evs else r.evs ++ [.noInstance d.cls d.symbol d.pattern])

/-- How the initialisation part of the update ends: the source returns, or
goes on with the class, its lifetime and the notifications so far. -/
inductive Prepared
  | returned (c : Class) (evs : List Event)
  | go (c : Class) (ls : LifetimeState) (evs : List Event)

/-- `else if (class->tc_limit == class->tc_free) { … }`. -/
def prepare (autom : Automaton) (cls symbol : Nat) (c : Class) (ls : LifetimeState) :
    Except Abort Prepared :=
  if c.tcLimit = c.tcFree then
    match lateInit autom c with
    | .error a => .error a
    | .ok ⟨c', _, some e⟩ => .ok (.returned c' [.err cls symbol e .failedToInitialise])
    | .ok ⟨c', none, none⟩ => .ok (.returned c' [.err cls symbol .einval .noInitTransition])
    | .ok ⟨c', some slot, none⟩ =>
        let inst := c'.tcInstances.getD slot Instance.zero
        if instanceActive inst then
          match register ls cls with
          | .error a => .error a
          | .ok ls' => .ok (.go c' ls' [.newInstance cls slot inst])
        else .error .inactiveNewInstance
  else .ok (.go c ls [])

/-- The event `symbol`, `pattern` as class `cls` sees it. -/
def delivery (P : Program) (cls symbol : Nat) (pattern : Key) (trans : List Transition)
    (maxClones : Nat) : Delivery :=
  ⟨P.haveTransitions, cls, symbol, pattern, trans, maxClones⟩

/-- `tesla_update_class_state` for a class whose lifetime is `ls`.  The space
for clones is measured before late initialisation. -/
def updateFound (P : Program) (autom : Automaton) (cls symbol : Nat) (pattern : Key)
    (c : Class) (ls : LifetimeState) : Except Abort (Class × LifetimeState × List Event) :=
  match prepare autom cls symbol c ls with
  | .error a => .error a
  | .ok (.returned c' evs) => .ok (c', ls, evs)
  | .ok (.go c' ls' evs) =>
      match autom.taTransitions[symbol]? with
      | none => .error .wildPointer
      | some ts =>
          if ts.length = 0 then .error .noTransitions
          else if 10000 ≤ ts.length then .error .tooManyTransitions
          else
            match deliver (delivery P cls symbol pattern ts c.tcFree) c' evs with
            | .error a => .error a
            | .ok (c'', evs') => .ok (c'', ls', evs')

end Tesla.Runtime
