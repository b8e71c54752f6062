/-
# `Tesla.Runtime.Store` — the store, and the three calls the instrumented program makes

A store holds a hash table of classes and a table of the lifetimes seen so
far.  The instrumented program calls

    tesla_sunrise        `sunrise`       a lifetime begins
    tesla_update_state   `updateState`   an event for one automaton
    tesla_sunset         `sunset`        a lifetime ends

and a run is any sequence of them (`Call`, `call`).  A call that fails an
assertion does not return, so it is an error here and no step of a run.

The class table carries its own length (`ts_length`), and the lifetime table
is the list of its first `ts_lifetime_count` entries.  The key `tesla_sunset`
builds is a local of which only `tk_mask` is set; its other fields are the
parameter `junk`.
-/
import Tesla.Lib.Run
import Tesla.Runtime.Update

namespace Tesla.Runtime

/-- `struct tesla_store`. -/
structure Store where
  tsClasses : List Class
  tsLifetimes : List LifetimeState

instance : DecidableEq Store := fun ⟨cs, ls⟩ ⟨cs', ls'⟩ =>
  decidable_of_iff (cs = cs' ∧ ls = ls') (by rw [Store.mk.injEq])

/-- `ts_length`. -/
def Store.tsLength (s : Store) : Nat := s.tsClasses.length

/-- `ts_lifetime_count`. -/
def Store.tsLifetimeCount (s : Store) : Nat := s.tsLifetimes.length

/-- The number of elements of `tls_classes`. -/
abbrev staticClasses : Nat := 32

/-- A class slot as `tesla_store_init` leaves it. -/
def Class.fresh (instances : Nat) : Class :=
  ⟨none, instances, List.replicate instances Instance.zero⟩

/-- `tesla_store_init`, the allocations succeeding. -/
def storeInit (classes instances : UInt32) : Store :=
  ⟨List.replicate classes.toNat (Class.fresh instances.toNat), []⟩

/-- The zeroed lifetime slot that `tesla_sunrise` takes for `l`. -/
def LifetimeState.fresh (l : Lifetime) : LifetimeState where
  tlsBegin := l.tlBegin
  tlsEnd := l.tlEnd
  tlsClasses := List.replicate staticClasses none
  tlsDynClasses := []
  tlsDynCapacity := 0
  tlsDynCount := 0

/-- The first lifetime slot that is the same as `l`. -/
def Store.findLifetime (s : Store) (l : Lifetime) : Option Nat :=
  s.tsLifetimes.findIdx? (sameStaticLifetime l)

/-! ## Finding a class -/

/-- `fnv_hash32`. -/
def fnvHash32 (x : BitVec 32) : BitVec 32 := x * 0x01000193

/-- The bucket looked at in round `i` of `tesla_class_get`. -/
def bucket (description : Ptr) (len i : Nat) : Nat :=
  (((fnvHash32 (description.setWidth 32)).toNat + i) % 2 ^ 32) % len

/-- The loop of `tesla_class_get` over the rounds `is`. -/
def classGetLoop (s : Store) (description : Ptr) : List Nat → Option (Store × Nat)
  | [] => none
  | i :: is =>
      let b := bucket description s.tsLength i
      match s.tsClasses[b]? with
      | none => none
      | some t =>
          match t.tcAutomaton with
          | none => some ({ s with
              tsClasses := s.tsClasses.set b { t with tcAutomaton := some description } }, b)
          | some a => if a = description then some (s, b) else classGetLoop s description is

/-- `tesla_class_get`: the store, in which a bucket may have been taken, and
the bucket; `none` is `TESLA_ERROR_ENOENT`. -/
def classGet (s : Store) (description : Ptr) : Option (Store × Nat) :=
  classGetLoop s description (List.range s.tsLength)

/-- `tesla_store_reset`. -/
def storeReset (s : Store) : Store := { s with tsClasses := s.tsClasses.map classReset }

/-! ## The calls -/

/-- `tesla_update_class_state`. -/
def updateClassState (P : Program) (cls symbol : Nat) (pattern : Key) (s : Store) :
    Except Abort (Store × List Event) :=
  match s.tsClasses[cls]? with
  | none => .error .wildPointer
  | some c =>
      match c.tcAutomaton with
      | none => .error .wildPointer
      | some a =>
          let autom := P.automaton a
          match s.findLifetime autom.taLifetime with
          | none => .ok (s, [.ignored cls symbol pattern])
          | some li =>
              match s.tsLifetimes[li]? with
              | none => .error .wildPointer
              | some ls =>
                  match updateFound P autom cls symbol pattern c ls with
                  | .error e => .error e
                  | .ok (c', ls', evs) =>
                      .ok (⟨s.tsClasses.set cls c', s.tsLifetimes.set li ls'⟩, evs)

/-- `tesla_update_state`. -/
def updateState (P : Program) (autom : Ptr) (symbol : Nat) (pattern : Key) (s : Store) :
    Except Abort (Store × List Event) :=
  match classGet s autom with
  | none => .error .noClassSlot
  | some (s', cls) => updateClassState P cls symbol pattern s'

/-- `tesla_sunrise`. -/
def sunrise (l : Lifetime) (s : Store) : Except Abort (Store × List Event) :=
  if s.tsLifetimeCount < s.tsLength then
    match s.findLifetime l with
    | some _ => .ok (s, [.sunrise l])
    | none => .ok ({ s with tsLifetimes := s.tsLifetimes ++ [LifetimeState.fresh l] },
        [.sunrise l])
  else .error .lifetimeTableFull

/-- The event `tesla_sunset` sends to a registered class. -/
def cleanupClass (P : Program) (key : Key) (cls : Nat) (s : Store) :
    Except Abort (Store × List Event) :=
  match (s.tsClasses[cls]?).bind Class.tcAutomaton with
  | none => .error .wildPointer
  | some a => updateClassState P cls (P.automaton a).taCleanupSymbol key s

/-- One of the two loops of `tesla_sunset`, over the slots `is` of the list
`slots` selects; it reads the list as it is in each round and stops at the
first NULL. -/
def sunsetLoop (P : Program) (key : Key) (li : Nat)
    (slots : LifetimeState → List (Option Nat)) :
    List Nat → Store → List Event → Except Abort (Store × List Event)
  | [], s, evs => .ok (s, evs)
  | i :: is, s, evs =>
      match (s.tsLifetimes[li]?).bind (fun ls => (slots ls)[i]?.join) with
      | none => .ok (s, evs)
      | some cls =>
          match cleanupClass P key cls s with
          | .error a => .error a
          | .ok (s', evs') => sunsetLoop P key li slots is s' (evs ++ evs')

/-- `bzero` of the first `n` entries of a registration list. -/
def clearSlots (n : Nat) (slots : List (Option Nat)) : List (Option Nat) :=
  List.replicate (min n slots.length) none ++ slots.drop n

/-- Rewriting one lifetime slot. -/
def Store.modifyLifetime (s : Store) (li : Nat) (f : LifetimeState → LifetimeState) : Store :=
  { s with tsLifetimes := s.tsLifetimes.modify li f }

/-- The `tesla_key` that `tesla_sunset` leaves all but the mask of undefined. -/
def emptyKey (junk : Key) : Key := { junk with tkMask := 0 }

/-- The static half of `tesla_sunset`, up to and including its `bzero`. -/
def sunsetStatic (P : Program) (junk : Key) (li : Nat) (s : Store) (evs : List Event) :
    Except Abort (Store × List Event) :=
  match sunsetLoop P (emptyKey junk) li LifetimeState.tlsClasses
      (List.range staticClasses) s evs with
  | .error a => .error a
  | .ok (s', evs') =>
      .ok (s'.modifyLifetime li fun ls =>
        { ls with tlsClasses := clearSlots staticClasses ls.tlsClasses }, evs')

/-- The dynamic half: `tls_dyn_count` is read before the loop and, for the
`bzero`, again after it. -/
def sunsetDynamic (P : Program) (junk : Key) (li : Nat) (s : Store) (evs : List Event) :
    Except Abort (Store × List Event) :=
  match sunsetLoop P (emptyKey junk) li LifetimeState.tlsDynClasses
      (List.range (((s.tsLifetimes[li]?).map LifetimeState.tlsDynCount).getD 0)) s evs with
  | .error a => .error a
  | .ok (s', evs') =>
      .ok (s'.modifyLifetime li fun ls =>
        { ls with tlsDynClasses := clearSlots ls.tlsDynCount ls.tlsDynClasses }, evs')

/-- `tesla_sunset`. -/
def sunset (P : Program) (l : Lifetime) (junk : Key) (s : Store) :
    Except Abort (Store × List Event) :=
  if s.tsLifetimeCount < s.tsLength then
    match s.findLifetime l with
    | none => .error .sunsetWithoutSunrise
    | some li =>
        match sunsetStatic P junk li s [.sunset l] with
        | .error a => .error a
        | .ok (s', evs) => sunsetDynamic P junk li s' evs
  else .error .lifetimeTableFull

/-- A call of the instrumented program on one store. -/
inductive Call
  | sunrise (l : Lifetime)
  | updateState (autom : Ptr) (symbol : Nat) (pattern : Key)
  | sunset (l : Lifetime) (junk : Key)
  deriving DecidableEq

/-- The store after a call that returns, and the notifications it made. -/
def call (P : Program) (s : Store) : Call → Except Abort (Store × List Event)
  | .sunrise l => sunrise l s
  | .updateState autom symbol pattern => updateState P autom symbol pattern s
  | .sunset l junk => sunset P l junk s

/-- One step of a run: the call returns. -/
def Step (P : Program) (s : Store) (k : Call) (s' : Store) : Prop :=
  ∃ evs, call P s k = .ok (s', evs)

/-- The runs of the library on a store of `classes` class slots of
`instances` instances each. -/
abbrev LibRun (P : Program) (classes instances : UInt32) : List Call → Store → Prop :=
  Lib.Run (Step P) (storeInit classes instances)

end Tesla.Runtime
