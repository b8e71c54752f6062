/-
# `Tesla.Automata.Protocol` — automaton descriptions

The messages of `tesla.proto` that the automata compiler reads.  An optional
field is an `Option`, also where the schema gives a default: the comparison of
messages (`operator ==` in `Protocol.cpp`) sees whether a field is set, the
accessors (`strict ()`, `free ()`) do not.

`Expression` and `BooleanExpr` are unions in the schema; here they are inductive
types, so a sequence cannot come without its `Sequence` message and a boolean
expression has its two operands.  Texts that only reach printed output are left
out.
-/
import Mathlib.Data.Option.Basic

namespace Tesla.Automata

/-! ## Names -/

structure Location where
  filename : String
  line : Int
  counter : Int
deriving DecidableEq, Repr

structure Identifier where
  name : Option String
  location : Option Location
deriving DecidableEq, Repr

/-- `ShortName (const Location&)`. -/
def Location.shortName (loc : Location) : String :=
  loc.filename ++ ":" ++ toString loc.line ++ "#" ++ toString loc.counter

/-- `ShortName (const Identifier&)`. -/
def Identifier.shortName (id : Identifier) : String :=
  match id.name with
  | some name => name
  | none => (id.location.getD ⟨"", 0, 0⟩).shortName

/-! ## Arguments -/

inductive ArgumentType where
  | constant | variable | any | indirect | field
deriving DecidableEq, Repr

inductive MatchType where
  | exact | flags | mask
deriving DecidableEq, Repr

mutual

inductive Argument where
  | mk (type : ArgumentType) (index : Option Int) (name : Option String) (free : Option Bool)
      (value : Option Int) (constantMatch : Option MatchType) (indirection : Option Argument)
      (field : Option StructField)

inductive StructField where
  | mk (type : String) (base : Argument) (name : String) (index : Int)

end

mutual

-- Equality is decided along the message tree: an argument may name another one
-- (`*x`, `x.f`), so none of the four can be derived alone.
def Argument.decEq (x y : Argument) : Decidable (x = y) :=
  match x, y with
  | .mk t i n fr v c ind fld, .mk t' i' n' fr' v' c' ind' fld' =>
    if h : t = t' ∧ i = i' ∧ n = n' ∧ fr = fr' ∧ v = v' ∧ c = c' then
      match Argument.decEqOpt ind ind', StructField.decEqOpt fld fld' with
      | isTrue hi, isTrue hf =>
          isTrue (by obtain ⟨rfl, rfl, rfl, rfl, rfl, rfl⟩ := h; rw [hi, hf])
      | isFalse hi, _ => isFalse fun e => hi (by injection e)
      | _, isFalse hf => isFalse fun e => hf (by injection e)
    else isFalse fun e => h (by injection e; simp [*])
termination_by structural x

def Argument.decEqOpt (x y : Option Argument) : Decidable (x = y) :=
  match x, y with
  | none, none => isTrue rfl
  | none, some _ => isFalse nofun
  | some _, none => isFalse nofun
  | some x, some y =>
    match Argument.decEq x y with
    | isTrue h => isTrue (h ▸ rfl)
    | isFalse h => isFalse fun e => h (Option.some.inj e)
termination_by structural x

def StructField.decEq (x y : StructField) : Decidable (x = y) :=
  match x, y with
  | .mk t b n i, .mk t' b' n' i' =>
    if h : t = t' ∧ n = n' ∧ i = i' then
      match Argument.decEq b b' with
      | isTrue hb => isTrue (by obtain ⟨rfl, rfl, rfl⟩ := h; rw [hb])
      | isFalse hb => isFalse fun e => hb (by injection e)
    else isFalse fun e => h (by injection e; simp [*])
termination_by structural x

def StructField.decEqOpt (x y : Option StructField) : Decidable (x = y) :=
  match x, y with
  | none, none => isTrue rfl
  | none, some _ => isFalse nofun
  | some _, none => isFalse nofun
  | some x, some y =>
    match StructField.decEq x y with
    | isTrue h => isTrue (h ▸ rfl)
    | isFalse h => isFalse fun e => h (Option.some.inj e)
termination_by structural x

end

instance : DecidableEq Argument := Argument.decEq

instance : DecidableEq StructField := StructField.decEq

namespace Argument

def type : Argument → ArgumentType
  | .mk t _ _ _ _ _ _ _ => t

def index : Argument → Option Int
  | .mk _ i _ _ _ _ _ _ => i

/-- `free ()`, with its default. -/
def free : Argument → Bool
  | .mk _ _ _ f _ _ _ _ => f.getD false

/-- `value ()`, with its default. -/
def value : Argument → Int
  | .mk _ _ _ _ v _ _ _ => v.getD 0

/-- `constantmatch ()`, with its default. -/
def constantMatch : Argument → MatchType
  | .mk _ _ _ _ _ c _ _ => c.getD .exact

/-- `ArgIndex`. -/
def argIndex (a : Argument) : Int :=
  match a.type with
  | .any | .constant => -1
  | .variable | .field | .indirect => a.index.getD 0

end Argument

def StructField.base : StructField → Argument
  | .mk _ b _ _ => b

/-! ## Events -/

structure AssertionSite where
  location : Location
deriving DecidableEq, Repr

inductive Direction where
  | entry | exit
deriving DecidableEq, Repr

inductive CallContext where
  | caller | callee
deriving DecidableEq, Repr

inductive CallKind where
  | cCall | objCInstanceMessage | objCClassMessage | objCSuperMessage
deriving DecidableEq, Repr

structure FunctionEvent where
  function : String
  direction : Option Direction
  context : Option CallContext
  argument : List Argument
  expectedReturnValue : Option Argument
  strict : Option Bool
  kind : Option CallKind
  receiver : Option Argument
deriving DecidableEq

inductive AssignType where
  | simpleAssign | plusEqual | minusEqual
deriving DecidableEq, Repr

structure FieldAssignment where
  field : StructField
  operation : AssignType
  value : Argument
  strict : Option Bool
deriving DecidableEq

/-! ## Expressions -/

inductive Operation where
  | and | or | xor
deriving DecidableEq, Repr

inductive Expression where
  | booleanExpr (operation : Operation) (lhs rhs : Expression)
  | sequence (expression : List Expression) (minReps maxReps : Int)
  | nullExpr
  | assertionSite (site : AssertionSite)
  | function (ev : FunctionEvent)
  | fieldAssign (assign : FieldAssignment)
  | subAutomaton (id : Identifier)

/-- `__TESLA_INFINITE_REPETITIONS`, which is `INT_MAX`. -/
def infiniteRepetitions : Int := 2147483647

inductive Context where
  | global | threadLocal
deriving DecidableEq, Repr

structure AutomatonDescription where
  identifier : Identifier
  context : Context
  expression : Expression
  argument : List Argument

/-- The field `ending` is `end` in the schema. -/
structure Usage where
  identifier : Identifier
  beginning : Option Expression
  ending : Option Expression

/-- What the parser asks of an `AutomataMap`: `find`. -/
abbrev AutomataMap := Identifier → Option AutomatonDescription

end Tesla.Automata
