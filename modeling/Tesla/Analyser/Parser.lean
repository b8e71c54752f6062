/-
# `Tesla.Analyser.Parser` — from C expressions to automaton descriptions

`Parser.cpp` goes down the syntax tree of an assertion and builds the messages for it.  What it
cannot read it reports, and then gives up; there are things that it reports and then goes on
with, and things that it gives up without an error.

    `bool Parse (..)`     an attempt; `false` is `Stop.refused`, and a failed C assertion, or the
                          use of a null pointer, is `Stop.abort`
    `ArgFactory`          what is set in each argument that is made; they are given back
    `References`          the registered arguments, as they stand

A place for one argument that is given several, one for each member of a structure, is one object
that is written over again; it is not followed, and the attempt ends as `aliased`.
-/
import Tesla.Analyser.Arguments
import Tesla.Analyser.Syntax
import Tesla.Lib.Attempt

namespace Tesla.Analyser

open Automata Lib

/-! ## The parser and its state -/

inductive Severity where
  | error | warning | note
deriving DecidableEq, Repr

structure Diagnostic where
  severity : Severity
  text : String
deriving DecidableEq, Repr

structure ParserState where
  /-- The addresses of `FreeVariables`. -/
  freeVariables : List Nat
  references : List Argument
  /-- `FieldAssignments`: is the first one to a member a simple assignment? -/
  fieldAssignments : List (Nat × Bool)
  diagnostics : List Diagnostic

def ParserState.empty : ParserState := ⟨[], [], [], []⟩

inductive Gave where
  | refused | abort | aliased
deriving DecidableEq, Repr

abbrev ParserM := Attempt Gave ParserState

structure Flags where
  fnInstrContext : CallContext
  /-- `none` where it has not been set to an operation. -/
  orOperator : Option Operation
  strictMode : Bool
deriving DecidableEq

/-- `getLimitedValue`, in a field of this many bits. -/
def limitedValue (bits value : Nat) : Int :=
  ((min value (2 ^ 64 - 1) : Nat) : Int).bmod (2 ^ bits)

/-! ## Reports -/

def report (d : Diagnostic) : ParserM PUnit :=
  modify fun s => { s with diagnostics := s.diagnostics ++ [d] }

/-- `ReportError`. -/
def reportError (message : String) : ParserM PUnit := report ⟨.error, "TESLA: " ++ message⟩

/-- `ReportError (..); return false`. -/
def refuse {α : Type} (message : String) : ParserM α := do
  reportError message
  throw .refused

/-- `ParseStringLiteral`. -/
def parseStringLiteral (e : Expr) : ParserM String :=
  match e.ignoreImplicit with
  | .stringLiteral s => return s
  | _ => do
    reportError "expected string literal"
    return ""

/-- `ParseIntegerLiteral`: the width, and the value. -/
def parseIntegerLiteral (clang : Clang) (e : Expr) : ParserM (Nat × Nat) :=
  match e.ignoreImplicit with
  | .intLiteral width value => return (width, value)
  | _ => do
    reportError "expected integer literal"
    return (1, clang.uninitialised)

/-- `CheckIgnore`. -/
def checkIgnore (e : Expr) : ParserM PUnit :=
  match e.ignoreParenCasts with
  | .value d => if d.name = "__tesla_ignore" then return ⟨⟩ else refuse "expected __tesla_ignore"
  | .function f => if f.name = "__tesla_ignore" then return ⟨⟩ else refuse "expected __tesla_ignore"
  | _ => refuse "expected __tesla_ignore"

/-- `CheckAssignmentKind`. -/
def checkAssignmentKind (d : ValueDecl) (simple : Bool) : ParserM PUnit := do
  match (← get).fieldAssignments.lookup d.id with
  | none => modify fun s => { s with fieldAssignments := (d.id, simple) :: s.fieldAssignments }
  | some old =>
    if simple = old then return ⟨⟩ else
      report ⟨.warning, "TESLA: mixing instrumentation of simple and compound assignments"⟩
      report ⟨.note, "TESLA: previous assignment here"⟩
      throw .refused

/-! ## Arguments -/

/-- The loop of `RegisterArg`: where the argument is found, and with which index. -/
def findArg : List Argument → Argument → Nat → Nat × Argument
  | [], a, pos => (pos, a)
  | r :: rs, a, pos => if r = a then (pos, a) else findArg rs (a.setIndex (pos + 1)) (pos + 1)

/-- `RegisterArg`, which gives back the argument with its index. -/
def registerArgument (a : Argument) : ParserM Argument := do
  if a.type = .any ∨ a.type = .constant then throw .abort
  let s ← get
  let r := findArg s.references (a.setIndex 0) 0
  if r.1 = s.references.length then set { s with references := s.references ++ [r.2] }
  return r.2

/-- `DoNotRegister || RegisterArg (A)`. -/
def registerIf (register : Bool) (a : Argument) : ParserM Argument :=
  if register then registerArgument a else return a

/-- What is set in an argument when it is made. -/
structure ArgFactory where
  free : Option Bool
  constantMatch : Option MatchType

def ArgFactory.argument (m : ArgFactory) (type : ArgumentType) (name : Option String) (value : Option Int)
    (indirection : Option Argument) (field : Option StructField) : Argument :=
  .mk type none name m.free value m.constantMatch indirection field

mutual

/-- The declarations that an argument of the type is made up of, each with those that it has been
reached through. -/
def CType.leaves (ids : List Nat) (d : ValueDecl) : CType → Option (List (List Nat × ValueDecl))
  | .record _ _ ms | .typedef (.record _ _ ms) => membersLeaves ids ms
  | .enumeration | .typedef .enumeration => none
  | .void | .plain | .pointer _ | .typedef .void | .typedef .plain | .typedef (.pointer _)
  | .typedef (.typedef _) => some [(ids, d)]

def membersLeaves (ids : List Nat) : List Member → Option (List (List Nat × ValueDecl))
  | [] => some []
  | .field (.mk i name kind type) :: ms => do
    let xs ← type.leaves (i :: ids) (.mk i name kind type)
    let ys ← membersLeaves ids ms
    return xs ++ ys
  | .other :: _ => none

end

/-- The end of `ParseArg`, of a declaration. -/
def parseLeaf (m : ArgFactory) (allowAny register : Bool) (d : ValueDecl) : ParserM Argument :=
  match d.kind with
  | .enumerator _ bits =>
    return m.argument .constant (some d.name) (some (limitedValue 64 bits.toNat)) none none
  | .plain | .field _ =>
    if allowAny then return m.argument .any (some d.name) none none none
    else registerIf register (m.argument .variable (some d.name) none none none)

def parseLeaves (m : ArgFactory) (allowAny register : Bool) :
    List (List Nat × ValueDecl) → ParserM (List Argument)
  | [] => return []
  | (ids, d) :: ds => do
    let free := ids.any ((← get).freeVariables.contains ·)
    let a ← parseLeaf (if free then { m with free := some true } else m) allowAny register d
    return a :: (← parseLeaves m allowAny register ds)

/-- `ParseArg`, of a declaration. -/
def parseDecl (m : ArgFactory) (allowAny register : Bool) (d : ValueDecl) : ParserM (List Argument) :=
  match d.type.leaves [d.id] d with
  | some ds => parseLeaves m allowAny register ds
  | none => throw .abort

/-- A place for one argument. -/
def one (as : List Argument) : ParserM Argument :=
  match as with
  | [a] => return a
  | _ => throw .aliased

/-- A type, or what it points to. -/
def CType.pointed : CType → CType
  | .pointer t => t
  | t => t

/-- `ParseStructField`, with the parser for its base. -/
def parseStructField (clang : Clang) (base : Expr) (d : ValueDecl)
    (parseBase : ParserM (List Argument)) : ParserM StructField := do
  match (clang.typeOf base.ignoreImplicit).pointed.asStructure with
  | none => throw .abort
  | some structure' =>
    match d.kind with
    | .field index => return .mk structure' (← one (← parseBase)) d.name index
    | .plain | .enumerator .. => refuse "struct member is not a FieldDecl"

/-- An integer constant, or nothing that can be read. -/
def parseConstant (clang : Clang) (m : ArgFactory) (e : Expr) : ParserM (List Argument) :=
  match clang.constant e with
  | some v => return [m.argument .constant (clang.macroName e) (some v) none none]
  | none => refuse "Invalid argument to function within TESLA assertion"

/-- `Name.slice (0, ANY.length ()) == ANY`. -/
def isAny (name : String) : Bool :=
  name.toList.take "__tesla_any".length == "__tesla_any".toList

/-- `ParseArg`.  What is left after a modifier is not stripped of casts again; it is not at the
`top`. -/
def parseArg (clang : Clang) (register : Bool) : ArgFactory → Bool → Expr → ParserM (List Argument)
  | m, true, .implicit e | m, true, .paren e | m, true, .cast e | m, true, .choose e =>
    parseArg clang register m true e
  | _, true, .call none _ => refuse "expected TESLA modifier"
  | m, true, .call (some f) [a] =>
    if f.name = "__tesla_flags" then
      parseArg clang register { m with constantMatch := some .flags } false a
    else if f.name = "__tesla_mask" then
      parseArg clang register { m with constantMatch := some .mask } false a
    else if isAny f.name then return [m.argument .any none none none none]
    else refuse "expected __tesla_{flags,mask,any}"
  | m, true, .call (some f) _ =>
    if f.name = "__tesla_flags" ∨ f.name = "__tesla_mask" then refuse "expected one argument"
    else if isAny f.name then return [m.argument .any none none none none]
    else refuse "expected __tesla_{flags,mask,any}"
  | m, _, .value d => parseDecl m false register d
  | m, _, .function f => return [← registerIf register (m.argument .variable (some f.name) none none none)]
  | m, _, .unary op e =>
    if (clang.constant (.unary op e)).isNone ∧ op = .addrOf then do
      let inner ← one (← parseArg clang false ⟨none, none⟩ true e)
      return [← registerIf register (m.argument .indirect none none (some inner) none)]
    else parseConstant clang m (.unary op e)
  | m, _, .member base d =>
    if (clang.constant (.member base d)).isNone then do
      let field ← parseStructField clang base d (parseArg clang false ⟨none, none⟩ true base)
      return [← registerIf register (m.argument .field none none none (some field))]
    else parseConstant clang m (.member base d)
  | m, _, e => parseConstant clang m e

/-- The arguments of an event, one after the other. -/
def parseArgs (clang : Clang) (strip : Expr → Expr) : List Expr → ParserM (List Argument)
  | [] => return []
  | e :: es => do
    let as ← parseArg clang true ⟨none, none⟩ true (strip e)
    return as ++ (← parseArgs clang strip es)

/-- The parameters of a function, as any values that have their names. -/
def parseParams : List ValueDecl → ParserM (List Argument)
  | [] => return []
  | d :: ds => do
    let as ← parseDecl ⟨none, none⟩ true true d
    return as ++ (← parseParams ds)

/-! ## Events -/

/-- `Parse (FunctionRef*, ..)`. -/
def parseFunctionRef (f : FunctionDecl) : ParserM String :=
  if f.name = "" then refuse "Function must have a name" else return f.name

/-- The function that is called or named, and the arguments that are given. -/
def parseReference : Expr → ParserM (FunctionDecl × List Expr)
  | .function f => return (f, [])
  | .value _ => refuse "not a function"
  | .call (some f) args => return (f, args)
  | .call none _ => throw .abort
  | _ => refuse "expected C function or Objective-C message send"

/-- The arguments of the event, of a function that gives back a value or does not. -/
def parseDetails (clang : Clang) (f : FunctionDecl) (args : List Expr) (haveRetVal : Bool) :
    ParserM (List Argument) :=
  if args = [] then parseParams f.params
  else if args.length ≠ f.params.length + (if haveRetVal then 1 else 0) then
    refuse "specify all args (possibly __tesla_any()) or none"
  else parseArgs clang id args

/-- The value that a function is to give back. -/
def parseRetVal (clang : Clang) : Option Expr → ParserM Argument
  | some e => do one (← parseArg clang true ⟨none, none⟩ true e)
  | none => return .mk .any none none none none none none none

/-- What is expected of a function that gives back a value. -/
def parseExpected (clang : Clang) (haveRetVal : Bool) (ret : Option Expr) :
    ParserM (Option Argument) :=
  if haveRetVal then do
    let a ← parseRetVal clang ret
    return some a
  else return none

/-- `ParseFunctionDetails`. -/
def parseFunctionDetails (clang : Clang) (name : String) (args : List Expr) (direction : Direction)
    (retVal : Bool) (flags : Flags) : ParserM Expression :=
  if name ≠ "__tesla_call" ∧ name ≠ "__tesla_return" then
    refuse "expected __tesla_call or __tesla_return"
  else
    match args with
    | [arg] =>
      match arg.ignoreParenCasts with
      | .binary .comma lhs _ =>
        match lhs.ignoreParenCasts with
        | .binary _ l r =>
          if name ≠ "__tesla_return" then
            refuse "'fn(args) == ret' syntax only permitted in return"
          else event l.ignoreParenCasts (some r.ignoreParenCasts)
        | call => event call none
      | _ => refuse "expected ((void) call, __tesla_ignore)"
    | _ => refuse "expected one argument: ((void) call, __tesla_ignore)"
where
  event (call : Expr) (ret : Option Expr) : ParserM Expression := do
    let (f, args) ← parseReference call
    let name ← parseFunctionRef f
    let haveRetVal := retVal && !f.result.isVoid
    let arguments ← parseDetails clang f args haveRetVal
    let expected ← parseExpected clang haveRetVal ret
    return .function ⟨name, some direction, some flags.fnInstrContext, arguments, expected,
      some flags.strictMode, none, none⟩

/-- `ParseFunctionCall`, of `foo (x) == y`. -/
def parseFunctionResult (clang : Clang) (lhs rhs : Expr) (flags : Flags) : ParserM Expression := do
  let constantLeft := (clang.constant lhs).isSome
  if constantLeft = (clang.constant rhs).isSome then
    refuse "one of {LHS,RHS} must be a constant"
  let expected ← parseRetVal clang (some (if constantLeft then lhs else rhs).ignoreParenCasts)
  match (if constantLeft then rhs else lhs).ignoreParenCasts with
  | .call (some f) args => do
    let name ← parseFunctionRef f
    let arguments ← parseArgs clang Expr.ignoreImplicit args
    return .function ⟨name, some .exit, some flags.fnInstrContext, arguments, some expected,
      some flags.strictMode, none, none⟩
  | .call none _ => refuse "not a direct function call"
  | _ => refuse "not a function call"

/-- `ParseFieldAssign`; the kind of the operator is checked before its sides are looked at. -/
def parseFieldAssign (clang : Clang) (op : BinaryOp) (lhs rhs : Expr) (flags : Flags) :
    ParserM Expression :=
  match op with
  | .assign => assign .simpleAssign
  | .addAssign => assign .plusEqual
  | .subAssign => assign .minusEqual
  | _ => refuse "unhandled compound assignment type"
where
  assign (operation : AssignType) : ParserM Expression :=
    match lhs with
    | .member base d => do
      checkAssignmentKind d (decide (op = .assign))
      let field ← parseStructField clang base d (parseArg clang true ⟨none, none⟩ true base)
      let value ← one (← parseArg clang true ⟨none, none⟩ true rhs)
      return .fieldAssign ⟨field, operation, value, some flags.strictMode⟩
    | _ => refuse "expected struct member"

/-- `Parse (Expression*, const UnaryOperator*, Flags)`. -/
def parseUnary (clang : Clang) (op : UnaryOp) (e : Expr) (flags : Flags) : ParserM Expression :=
  match op with
  | .preInc | .postInc => step .plusEqual
  | .preDec | .postDec => step .minusEqual
  | .addrOf | .other => refuse "unsupported unary operator"
where
  step (operation : AssignType) : ParserM Expression :=
    match e with
    | .member base d => do
      checkAssignmentKind d false
      let field ← parseStructField clang base d (parseArg clang true ⟨none, none⟩ true base)
      return .fieldAssign ⟨field, operation, .mk .constant none none none (some 1) none none none,
        some flags.strictMode⟩
    | _ => refuse "expected struct member"

/-- `Parse (Expression*, const DeclRefExpr*, Flags)`. -/
def parseRef (site : Location) (name : String) : ParserM Expression :=
  if name = "__tesla_assertion_site" then return .assertionSite ⟨site⟩
  else if name = "__tesla_ignore" then return .nullExpr
  else refuse "unsupported reference"

/-! ## Expressions -/

/-- A part of an expression, to be parsed with the flags that are in force there. -/
abbrev SubParser := Flags → ParserM Expression

def parseAll (flags : Flags) : List SubParser → ParserM (List Expression)
  | [] => return []
  | p :: ps => do
    let e ← p flags
    return e :: (← parseAll flags ps)

/-- `ParseSequence`. -/
def parseSequence (subs : List SubParser) (flags : Flags) : ParserM Expression := do
  return .sequence (← parseAll flags subs) 1 1

/-- `ParseRepetition`. -/
def parseRepetition (clang : Clang) (args : List Expr) (subs : List SubParser) (flags : Flags) :
    ParserM Expression :=
  match args, subs with
  | min :: max :: _ :: _, _ :: _ :: subs => do
    let (_, minReps) ← parseIntegerLiteral clang min
    let (_, maxReps) ← parseIntegerLiteral clang max
    return .sequence (← parseAll flags subs) (limitedValue 32 minReps) (limitedValue 32 maxReps)
  | _, _ => refuse "repetition should have at least three arguments (min, max, expr)"

/-- `ParseOptional`. -/
def parseOptional (subs : List SubParser) (flags : Flags) : ParserM Expression :=
  match subs with
  | [_, sub] => return .booleanExpr .xor .nullExpr (← sub flags)
  | _ => refuse "'optional' modifier takes exactly one user argument"

/-- `ParseCallee`, `ParseCaller`, `ParseStrictMode` and `ParseConditional`, with what each of them
sets. -/
def parseWith (set : Flags → Flags) (args : List Expr) (subs : List SubParser) (flags : Flags) :
    ParserM Expression :=
  match args, subs with
  | [ignore, _], [_, sub] => do
    checkIgnore ignore
    sub (set flags)
  | _, _ => refuse "expected two arguments: __tesla_ignore, expression"

def parseCallee : List Expr → List SubParser → Flags → ParserM Expression :=
  parseWith fun flags => { flags with fnInstrContext := .callee }

def parseCaller : List Expr → List SubParser → Flags → ParserM Expression :=
  parseWith fun flags => { flags with fnInstrContext := .caller }

def parseStrictMode : List Expr → List SubParser → Flags → ParserM Expression :=
  parseWith fun flags => { flags with strictMode := true }

def parseConditional : List Expr → List SubParser → Flags → ParserM Expression :=
  parseWith fun flags => { flags with strictMode := false }

/-- `ParseModifier`. -/
def parseModifier (clang : Clang) (name : String) (args : List Expr) (subs : List SubParser)
    (flags : Flags) : ParserM Expression :=
  if name = "__tesla_call" then parseFunctionDetails clang name args .entry false flags
  else if name = "__tesla_return" then parseFunctionDetails clang name args .exit true flags
  else if name = "__tesla_callee" then parseCallee args subs flags
  else if name = "__tesla_caller" then parseCaller args subs flags
  else if name = "__tesla_strict" then parseStrictMode args subs flags
  else if name = "__tesla_conditional" then parseConditional args subs flags
  else if name = "__tesla_sequence" then parseSequence subs flags
  else if name = "__tesla_repeat" then parseRepetition clang args subs flags
  else if name = "__tesla_optional" then parseOptional subs flags
  else refuse "unsupported modifier"

/-- `Parse (Expression*, const CallExpr*, Flags)`. -/
def parseCall (clang : Clang) (callee : Option FunctionDecl) (args : List Expr)
    (subs : List SubParser) (flags : Flags) : ParserM Expression :=
  match callee with
  | none => refuse "expected direct call to modifier or sub-automaton"
  | some f =>
    match f.result with
    | .pointer pointee =>
      match pointee.asStructure with
      | none => refuse "expected pointer-to-struct return type"
      | some structure' =>
        if structure' = "__tesla_automaton_description" then
          return .subAutomaton ⟨some f.name, none⟩
        else if structure' = "__tesla_event" then parseModifier clang f.name args subs flags
        else refuse "unsupported function call"
    | _ => refuse "expected modifier or sub-automaton"

/-- `Parse (Expression*, const BinaryOperator*, Flags)`. -/
def parseBinary (clang : Clang) (op : BinaryOp) (lhs rhs : Expr) (parseLhs parseRhs : SubParser)
    (flags : Flags) : ParserM Expression :=
  match flags.orOperator with
  | none => throw .abort
  | some orOperator =>
    match op with
    | .assign => parseFieldAssign clang op lhs rhs flags
    | .eq => parseFunctionResult clang lhs rhs flags
    | .land => both .and
    | .lor => both orOperator
    | _ => refuse "unsupported boolean operation"
where
  both (operation : Operation) : ParserM Expression := do
    let l ← parseLhs flags
    let r ← parseRhs flags
    return .booleanExpr operation l r

/-- A `return`, which has to call something. -/
def parseReturn : Option Expr → ParserM PUnit
  | none => refuse "automaton description returns nothing"
  | some e =>
    match e.ignoreParenCasts with
    | .call _ _ => return ⟨⟩
    | _ => refuse "expected __tesla_automaton_done"

mutual

/-- `Parse (Expression*, const Expr*, Flags)`. -/
def parseExpr (clang : Clang) (site : Location) : Expr → SubParser
  | .implicit e, flags => parseExpr clang site e flags
  | .block body, flags => do
    return .sequence (← parseBody clang site body flags) 1 1
  | .binary op lhs rhs, flags =>
    if op = .addAssign ∨ op = .subAssign ∨ op = .otherAssign then
      parseFieldAssign clang op lhs rhs flags
    else parseBinary clang op lhs rhs (parseExpr clang site lhs) (parseExpr clang site rhs) flags
  | .call callee args, flags => parseCall clang callee args (parseExprs clang site args) flags
  | .value d, _ => parseRef site d.name
  | .function f, _ => parseRef site f.name
  | .unary op e, flags => parseUnary clang op e flags
  | .paren _, _ | .cast _, _ | .choose _, _ | .member _ _, _ | .intLiteral _ _, _
  | .stringLiteral _, _ | .other _, _ => refuse "unsupported TESLA expression"

def parseExprs (clang : Clang) (site : Location) : List Expr → List SubParser
  | [] => []
  | e :: es => parseExpr clang site e :: parseExprs clang site es

/-- The loop over the statements of `Parse (Expression*, const CompoundStmt*, Flags)`. -/
def parseBody (clang : Clang) (site : Location) : List Stmt → Flags → ParserM (List Expression)
  | [], _ => return []
  | .ret e :: ss, flags => do
    parseReturn e
    parseBody clang site ss flags
  | .decl ds :: ss, flags => do
    modify fun s => { s with freeVariables := s.freeVariables ++ ds.map ValueDecl.id }
    parseBody clang site ss flags
  | .expr e :: ss, flags => do
    let e ← parseExpr clang site e flags
    return e :: (← parseBody clang site ss flags)
  | .other :: _, _ => refuse "unhandled C statement type"

end

/-- `Parse (Expression*, const CompoundStmt*, Flags)`. -/
def parseCompound (clang : Clang) (site : Location) (body : List Stmt) (flags : Flags) :
    ParserM Expression := do
  return .sequence (← parseBody clang site body flags) 1 1

/-! ## Descriptions -/

/-- The root of a description: of a statement, what the parser tells apart. -/
inductive Root where
  | compound (body : List Stmt)
  | expr (e : Expr)
  | other

/-- The members of a `Parser` that do not change. -/
structure Parser where
  id : Identifier
  context : Context
  beginning : Option Expr
  ending : Option Expr
  root : Option Root
  rootFlags : Flags

def Parser.site (p : Parser) : Location := p.id.location.getD ⟨"", 0, 0⟩

/-- A bound of the automaton, if there is one. -/
def parseBound (clang : Clang) (p : Parser) : Option Expr → ParserM (Option Expression)
  | none => return none
  | some e => do
    let e ← parseExpr clang p.site e p.rootFlags
    return some e

def parseRoot (clang : Clang) (p : Parser) : Option Root → ParserM (Option Expression)
  | none => return none
  | some (.compound body) => do
    let e ← parseCompound clang p.site body p.rootFlags
    return some e
  | some (.expr e) => do
    let e ← parseExpr clang p.site e p.rootFlags
    return some e
  | some .other => refuse "expected expression or compound statement"

/-- `Parse (OwningPtr<AutomatonDescription>&, OwningPtr<Usage>&)`. -/
def Parser.parse (clang : Clang) (p : Parser) :
    ParserM (Option AutomatonDescription × Option Usage) := do
  let beginning ← parseBound clang p p.beginning
  let ending ← parseBound clang p p.ending
  let expression ← parseRoot clang p p.root
  let references := (← get).references
  return (expression.map fun e => ⟨p.id, p.context, e, references⟩,
    if beginning.isSome ∨ ending.isSome then some ⟨p.id, beginning, ending⟩ else none)

/-! ## The three kinds of parsers -/

/-- `Parse (Location*, Expr*, Expr*, Expr*)`. -/
def parseLocation (clang : Clang) (filename line count : Expr) : ParserM Location := do
  let filename ← parseStringLiteral filename
  let (width, lineNumber) ← parseIntegerLiteral clang line
  if width = 0 then refuse "invalid line number"
  let (width, counter) ← parseIntegerLiteral clang count
  if width = 0 then refuse "invalid counter value"
  return ⟨filename, limitedValue 32 lineNumber, limitedValue 32 counter⟩

/-- `Parse (AutomatonDescription::Context*, Expr*)`. -/
def parseContext (e : Expr) : ParserM Context :=
  match e.ignoreImplicit with
  | .value d => named d.name
  | .function f => named f.name
  | _ => refuse "invalid locality specifier (must be per-thread or global)"
where
  named (name : String) : ParserM Context :=
    if name = "__tesla_global" then return .global
    else if name = "__tesla_perthread" then return .threadLocal
    else refuse "invalid locality specifier (must be per-thread or global)"

/-- `AssertionParser`. -/
def assertionParser (clang : Clang) : List Expr → ParserM Parser
  | [name, filename, line, counter, context, beginning, ending, expression] => do
    let name ← parseStringLiteral name
    let location ← parseLocation clang filename line counter
    let context ← parseContext context
    return ⟨⟨if name = "" then none else some name, some location⟩, context, some beginning,
      some ending, some (.expr expression), ⟨.callee, some .or, false⟩⟩
  | _ => refuse ("expected seven arguments: " ++
      "filename, line, counter, context, start, end, expression")

/-- `AutomatonParser`. -/
def automatonParser (f : FunctionDecl) (body : List Stmt) : ParserM Parser :=
  match f.params with
  | [param] =>
    match param.type with
    | .pointer pointee =>
      if pointee.asStructure.isSome then
        return ⟨⟨some f.name, none⟩, .global, none, none, some (.compound body),
          ⟨.callee, some .xor, true⟩⟩
      else refuse "expected pointer to struct"
    | _ => refuse "expected pointer to struct"
  | _ => refuse "expected one parameter: the struct"

/-- `MappingParser`.  Of the flags it sets the context; `left` is what the others hold. -/
def mappingParser (left : Option Operation × Bool) (body : List Stmt) : ParserM Parser :=
  match body with
  | [.ret none] => throw .abort
  | [.ret (some (.call (some f) args))] =>
    if f.name ≠ "__tesla_struct_uses_automaton" then
      refuse "expected call to __tesla_struct_uses_automaton"
    else
      match args with
      | [automaton, locality, beginning, ending] => do
        let name ← parseStringLiteral automaton
        if name = "" then refuse "expected automaton name"
        let context ← match locality.ignoreImplicit with
          | .value _ | .function _ => parseContext locality
          | _ => refuse "expected TESLA locality"
        return ⟨⟨some name, none⟩, context, some beginning, some ending, none,
          ⟨.callee, left.1, left.2⟩⟩
      | _ => refuse "expected automaton, locality, start, end"
  | [.ret (some _)] => refuse "expected call to __tesla_struct_uses_automaton"
  | [_] => refuse "expected a return statement"
  | _ => refuse "expected a single statement"

end Tesla.Analyser
