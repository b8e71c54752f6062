/-
# `Tesla.Instrumenter.Translation` — from events to keys

An instrumentation function is called with the values that an event has at run time and
translates them: each value is compared with the constants of a pattern, and where all of
them match a `struct tesla_key` is filled and handed to the run-time.  The instrumenter
(`TranslationFn.cpp`, `Instrumentation.cpp`) writes this code; here is what it writes, and
what that does when it is run.

    Value*                        `Operand`, with its type
    Match (..)                    `matchPattern`, giving a `Test`
    GetArgumentValue (..)         `getArgumentValue`
    ConstructKey (..)             `constructKey`, giving a `KeyCode`
    AddInstrumentation (..)       `addInstrumentation`, giving `Code`

The key is built on the stack and only the slots with a value are stored to: what another
slot holds at run time is not known (`Frame.stack`).  A failed assertion and a panic end
the instrumenter without a result.
-/
import Tesla.Automata.Protocol
import Tesla.Runtime.Key

namespace Tesla.Instrumenter

open Automata Tesla.Runtime

/-! ## Types and values -/

/-- LLVM types, as far as the instrumenter tells them apart; `other` is neither an integer
nor a pointer. -/
inductive Ty where
  | int (width : Nat)
  | ptr (elem : Ty)
  | other
deriving DecidableEq

structure FunctionType where
  params : List Ty
  /-- `none` is `void`. -/
  result : Option Ty
deriving DecidableEq

inductive Value where
  | int (width : Nat) (bits : BitVec width)
  | ptr (elem : Ty) (address : Word)
  | other

def Value.ty : Value → Ty
  | .int width _ => .int width
  | .ptr elem _ => .ptr elem
  | .other => .other

/-- `Cast (.., IntPtrTy, ..)`: integers are extended with zeros, or cut. -/
def Value.word : Value → Word
  | .int _ bits => bits.setWidth 64
  | .ptr _ address => address
  | .other => 0

structure Memory where
  read : Word → Ty → Value
  typed : ∀ a t, (read a t).ty = t

/-- A call of an instrumentation function. -/
structure Frame where
  args : List Value
  memory : Memory
  stack : Fin keySize → Word

def Frame.Fits (fr : Frame) (params : List Ty) : Prop := fr.args.map Value.ty = params

/-! ## The code that is written -/

inductive Operand where
  | param (i : Nat)
  | load (pointer : Operand)
deriving DecidableEq

def Operand.eval (fr : Frame) : Operand → Value
  | param i => (fr.args[i]?).getD .other
  | load pointer =>
    match pointer.eval fr with
    | .ptr elem address => fr.memory.read address elem
    | v => v

/-- What a conditional branch compares: a parameter with the constant of a pattern, or the
new value of a field with the value that the assignment gives it. -/
inductive Test where
  | constant (param : Nat) (how : MatchType) (value : Int)
  | assigned (operation : AssignType) (value : Int)
deriving DecidableEq

def Test.holds (fr : Frame) : Test → Bool
  | constant param how value =>
    match (Operand.param param).eval fr with
    | .int width bits =>
      let pattern := BitVec.ofInt width value
      match how with
      | .exact => bits == pattern
      -- contains the pattern
      | .flags => bits &&& pattern == pattern
      -- contains no more than the pattern
      | .mask => bits &&& pattern == bits
    | _ => false
  -- the second parameter is the new value, the third a pointer to the field
  | assigned operation value =>
    match (Operand.param 1).eval fr with
    | .int width bits =>
      let pattern := BitVec.ofInt width value
      let old :=
        match (Operand.load (.param 2)).eval fr with
        | .int _ old => old.setWidth width
        | _ => 0
      match operation with
      | .simpleAssign => bits == pattern
      | .plusEqual => bits == old + pattern
      | .minusEqual => bits == old - pattern
    | _ => false

structure KeyCode where
  slots : Fin keySize → Option Operand
  mask : Mask
  freeMask : Mask

def KeyCode.run (fr : Frame) (k : KeyCode) : Key where
  tkKeys i :=
    match k.slots i with
    | some o => (o.eval fr).word
    | none => fr.stack i
  tkMask := k.mask
  tkFreemask := k.freeMask

/-- The blocks that one event adds to an instrumentation function. -/
structure Code where
  tests : List Test
  key : KeyCode

/-- Do the constants of the event match? -/
def Code.matched (fr : Frame) (c : Code) : Bool := c.tests.all (Test.holds fr)

/-! ## Writing it -/

inductive Failure where
  | returnOnEntry | receiverOfCall | objectiveC | patternCount
  | constantType | keyIndex | keyTaken | loadType | castType
  | newValueType | anyAssigned | indirectAssigned | fieldAssigned
  | lifetimeBound | noProtobuf | noAutomaton | emptyClass
deriving DecidableEq, Repr

/-- The part of `Match` for the value of a parameter. -/
def matchPattern (i : Nat) (ty : Ty) (p : Argument) : Except Failure (List Test) :=
  if p.type = .constant then
    match ty with
    | .int _ => .ok [.constant i p.constantMatch p.value]
    | _ => .error .constantType
  else .ok []

mutual

/-- `GetArgumentValue`, away from an assertion site. -/
def getArgumentValue (v : Operand × Ty) : Argument → Except Failure (Operand × Ty)
  | .mk .indirect _ _ _ _ _ indirection _ =>
    match v.2 with
    | .ptr elem => getIndirection (.load v.1, elem) indirection
    | _ => .error .loadType
  | .mk .constant .. | .mk .any .. | .mk .variable .. | .mk .field .. => .ok v

/-- A message that is not there is a constant by default. -/
def getIndirection (v : Operand × Ty) : Option Argument → Except Failure (Operand × Ty)
  | none => .ok v
  | some p => getArgumentValue v p

end

/-- `KeyArgs`. -/
abbrev KeyArgs := Fin keySize → Option (Operand × Ty)

/-- The index of a pattern into `KeyArgs`; a negative one is outside the vector. -/
def keyIndex (n : Int) : Except Failure (Fin keySize) :=
  if h : n.toNat < keySize ∧ 0 ≤ n then .ok ⟨n.toNat, h.1⟩ else .error .keyIndex

/-- A round of the loop in `AddInstrumentation`, for the slots. -/
def placePattern (indirectionRequired : Bool) (i : Nat) (ty : Ty) (p : Argument) (args : KeyArgs) :
    Except Failure KeyArgs :=
  match p.index with
  | none => .ok args
  | some n => do
    let slot ← keyIndex n
    if (args slot).isSome then .error .keyTaken else do
      let v ← if indirectionRequired then getArgumentValue (.param i, ty) p else .ok (.param i, ty)
      return Function.update args slot (some v)

def placePatterns (indirectionRequired : Bool) : Nat → List Ty → List Argument →
    List Test × KeyArgs → Except Failure (List Test × KeyArgs)
  | i, ty :: tys, p :: ps, (tests, args) => do
    let test ← matchPattern i ty p
    let args ← placePattern indirectionRequired i ty p args
    placePatterns indirectionRequired (i + 1) tys ps (tests ++ test, args)
  | _, _, _, acc => .ok acc

def castable : Ty → Bool
  | .int _ | .ptr _ => true
  | .other => false

/-- A store to a slot of the key, and the bit for it. -/
def KeyCode.store (k : KeyCode) (slot : Fin keySize) (o : Operand) : KeyCode :=
  { k with slots := Function.update k.slots slot (some o), mask := k.mask ||| 1#32 <<< slot.val }

def storeKeys : Nat → List (Option (Operand × Ty)) → KeyCode → Except Failure KeyCode
  | _, [], k => .ok k
  | i, none :: args, k => storeKeys (i + 1) args k
  | i, some (o, ty) :: args, k =>
    if h : i < keySize then
      if castable ty then storeKeys (i + 1) args (k.store ⟨i, h⟩ o)
      else .error .castType
    else .error .keyIndex

/-- `ConstructKey`. -/
def constructKey (args : List (Option (Operand × Ty))) (freeMask : Mask) : Except Failure KeyCode :=
  storeKeys 0 args ⟨fun _ => none, 0, freeMask⟩

/-- `AddInstrumentation`, of patterns, to a function with parameters `params`. -/
def addInstrumentation (params : List Ty) (patterns : List Argument) (indirectionRequired : Bool)
    (freeMask : Mask) : Except Failure Code :=
  if patterns.length = params.length then do
    let (tests, args) ← placePatterns indirectionRequired 0 params patterns ([], fun _ => none)
    let key ← constructKey (List.ofFn args) freeMask
    return ⟨tests, key⟩
  else .error .patternCount

/-- The patterns of a function event, in the order of the parameters. -/
def eventPatterns (ev : FunctionEvent) : List Argument :=
  ev.argument ++ ev.expectedReturnValue.toList ++ ev.receiver.toList

/-- `AddInstrumentation`, of a function event. -/
def addEvent (params : List Ty) (ev : FunctionEvent) : Except Failure Code :=
  if ev.expectedReturnValue.isSome ∧ ev.direction.getD .entry ≠ .exit then .error .returnOnEntry
  else if ev.receiver.isSome ∧ ev.kind.getD .cCall = .cCall then .error .receiverOfCall
  else addInstrumentation params (eventPatterns ev) true 0

/-- The parameters of the instrumentation function for a direction. -/
def instrParams (direction : Direction) (target : FunctionType) : List Ty :=
  match direction with
  | .entry => target.params
  | .exit => target.params ++ target.result.toList

/-- `CreateInstrFn`, of which the parameters matter. -/
def createInstrFn (ev : FunctionEvent) (target : FunctionType) : Except Failure (List Ty) :=
  match ev.kind.getD .cCall with
  | .cCall => .ok (instrParams (ev.direction.getD .entry) target)
  | .objCInstanceMessage | .objCClassMessage | .objCSuperMessage => .error .objectiveC

/-! ## Field assignments -/

/-- `FieldInstrumentation::AppendInstrumentation`, for a field of type `ty`.  The parameters of
the instrumentation function are the structure, the new value and a pointer to the field. -/
def appendInstrumentation (assign : FieldAssignment) (ty : Ty) : Except Failure Code :=
  let struct := (Operand.param 0, Ty.ptr .other)
  let newValue := (Operand.param 1, ty)
  match assign.value.type with
  | .constant =>
    match ty with
    | .int _ => do
      let key ← constructKey [some struct] 0
      return ⟨[.assigned assign.operation assign.value.value], key⟩
    | _ => .error .newValueType
  | .variable => do
    let key ← constructKey [some struct, some newValue] 0
    return ⟨[], key⟩
  | .any => .error .anyAssigned
  | .indirect => .error .indirectAssigned
  | .field => .error .fieldAssigned

end Tesla.Instrumenter
