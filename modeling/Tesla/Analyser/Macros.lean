/-
# `Tesla.Analyser.Macros` — assertions as programmers write them

`tesla-macros.h` stands between the programmer and the parser.  A `Term` is what is written with
its macros, `expand` is the C expression that Clang makes of it, and `meaning` is the message that
it stands for.

    `TSEQUENCE (a, b)`        `__tesla_sequence (TIGNORE, a, b)`
    `call (f (x))`            `__tesla_call (((void) f (x), TIGNORE))`
    `returnfrom (f () == y)`  `__tesla_return (((void) (f () == y), TIGNORE))`
    `strict (a)`              `__tesla_strict (TIGNORE, a)`

Variables get their numbers as they come, from left to right: where a term is parsed, its message
is the meaning under the numbering by first occurrence (`parse_expand`).
-/
import Tesla.Analyser.Accepted

namespace Tesla.Analyser

open Automata Lib

/-! ## What can be written -/

/-- An argument of an event. -/
inductive Pattern where
  /-- `ANY (type)` -/
  | any (type : String)
  | variable (d : ValueDecl)
  /-- `&x` -/
  | address (d : ValueDecl)
  | enumerator (d : ValueDecl) (width : Nat) (bits : BitVec width)
  /-- Another integer constant, with its value. -/
  | constant (e : Expr) (v : Int)
  | flags (e : Expr) (v : Int)
  | bitmask (e : Expr) (v : Int)

/-- What `call` and `returnfrom` are given. -/
inductive Target where
  | function (f : FunctionDecl)
  | applied (f : FunctionDecl) (args : List Pattern)

inductive Term where
  /-- `TESLA_ASSERTION_SITE` -/
  | site
  | call (target : Target)
  | returnfrom (target : Target)
  /-- `returnfrom (f (..) == v)` -/
  | returned (target : Target) (v : Pattern)
  /-- `f (..) == v` -/
  | result (f : FunctionDecl) (args : List Pattern) (e : Expr) (v : Int)
  /-- `x->field = v`, `x->field += v` and `x->field -= v` -/
  | assign (op : AssignType) (x field : ValueDecl) (v : Pattern)
  | sequence (ts : List Term)
  | both (l r : Term)
  | either (l r : Term)
  | optional (t : Term)
  | repeated (min max : Nat) (ts : List Term)
  | callee (t : Term)
  | caller (t : Term)
  | strict (t : Term)
  | conditional (t : Term)

/-- `previously (..)`. -/
def Term.previously (ts : List Term) : Term := .sequence (ts ++ [.site])

/-- `eventually (..)`. -/
def Term.eventually (ts : List Term) : Term := .sequence (.site :: ts)

/-- `ATLEAST (n, ..)`. -/
def Term.atLeast (n : Nat) (ts : List Term) : Term := .repeated n 2147483647 ts

/-- `UPTO (n, ..)`. -/
def Term.upTo (n : Nat) (ts : List Term) : Term := .repeated 1 n ts

/-! ## What Clang makes of it -/

/-- `__tesla_event*`. -/
def eventType : CType := .pointer (.record true "__tesla_event" [])

/-- The value of a variable. -/
def load (d : ValueDecl) : Expr := .implicit (.value d)

/-- A variable of `tesla.h`. -/
def event (name : String) : Expr := load (.mk 0 name .plain eventType)

/-- `TIGNORE`. -/
def ignored : Expr := event "__tesla_ignore"

/-- A call of one of the functions of `tesla.h` that give back events. -/
def modifier (name : String) (args : List Expr) : Expr := .call (some ⟨name, [], eventType⟩) args

/-- `((void) e, TIGNORE)`. -/
def reference (e : Expr) : Expr := .implicit (.paren (.binary .comma (.cast e) ignored))

def Pattern.expand : Pattern → Expr
  | .any type => .call (some ⟨"__tesla_any" ++ type, [], .plain⟩) []
  | .variable d => load d
  | .address d => .unary .addrOf (.value d)
  | .enumerator d _ _ => .value d
  | .constant e _ => e
  | .flags e _ => .call (some ⟨"__tesla_flags", [], .plain⟩) [e]
  | .bitmask e _ => .call (some ⟨"__tesla_mask", [], .plain⟩) [e]

def Target.expand : Target → Expr
  | .function f => .implicit (.function f)
  | .applied f args => .call (some f) (args.map Pattern.expand)

def operator : AssignType → BinaryOp
  | .simpleAssign => .assign
  | .plusEqual => .addAssign
  | .minusEqual => .subAssign

mutual

def Term.expand : Term → Expr
  | .site => event "__tesla_assertion_site"
  | .call target => modifier "__tesla_call" [reference target.expand]
  | .returnfrom target => modifier "__tesla_return" [reference (.paren target.expand)]
  | .returned target v =>
    modifier "__tesla_return" [reference (.paren (.binary .eq target.expand v.expand))]
  | .result f args e _ => .binary .eq (.call (some f) (args.map Pattern.expand)) e
  | .assign op x field v => .binary (operator op) (.member (load x) field) v.expand
  | .sequence ts => modifier "__tesla_sequence" (ignored :: Term.expandAll ts)
  | .both l r => .binary .land l.expand r.expand
  | .either l r => .binary .lor l.expand r.expand
  | .optional t => modifier "__tesla_optional" [ignored, t.expand]
  | .repeated min max ts =>
    modifier "__tesla_repeat" (.intLiteral 32 min :: .intLiteral 32 max :: Term.expandAll ts)
  | .callee t => modifier "__tesla_callee" [ignored, t.expand]
  | .caller t => modifier "__tesla_caller" [ignored, t.expand]
  | .strict t => modifier "__tesla_strict" [ignored, t.expand]
  | .conditional t => modifier "__tesla_conditional" [ignored, t.expand]

def Term.expandAll : List Term → List Expr
  | [] => []
  | t :: ts => t.expand :: Term.expandAll ts

end

/-! ## What it stands for -/

section

variable (clang : Clang) (freeVariables : List Nat) (ρ : Argument → Argument)

/-- A variable before it is numbered. -/
def ValueDecl.argument (d : ValueDecl) : Argument :=
  .mk .variable none (some d.name) (if d.id ∈ freeVariables then some true else none) none none none
    none

def Pattern.argument : Pattern → Argument
  | .any _ => .mk .any none none none none none none none
  | .variable d => ρ (d.argument freeVariables)
  | .address d => ρ (.mk .indirect none none none none none (some (d.argument freeVariables)) none)
  | .enumerator d _ bits => .mk .constant none (some d.name)
      (if d.id ∈ freeVariables then some true else none) (some (limitedValue 64 bits.toNat)) none none
      none
  | .constant e v => .mk .constant none (clang.macroName e) none (some v) none none none
  | .flags e v => .mk .constant none (clang.macroName e) none (some v) (some .flags) none none
  | .bitmask e v => .mk .constant none (clang.macroName e) none (some v) (some .mask) none none

def Target.fn : Target → FunctionDecl
  | .function f | .applied f _ => f

/-- The arguments of the event; a bare reference has the parameters for information. -/
def Target.arguments : Target → List Argument
  | .function f => f.params.map fun d =>
      .mk .any none (some d.name) (if d.id ∈ freeVariables then some true else none) none none none
        none
  | .applied _ args => args.map (Pattern.argument clang freeVariables ρ)

/-- A function that is not void gives back any value, if nothing else is said. -/
def Target.anyResult (target : Target) : Option Argument :=
  if target.fn.result.isVoid then none else some (.mk .any none none none none none none none)

/-- The structure that a variable points to. -/
def structureOf (x : ValueDecl) : String :=
  (clang.typeOf (.value x)).pointed.asStructure.getD ""

def fieldIndex (d : ValueDecl) : Int :=
  match d.kind with
  | .field index => index
  | .plain | .enumerator .. => 0

mutual

def Term.meaning (site : Location) (ρ : Argument → Argument) : Flags → Term → Expression
  | _, .site => .assertionSite ⟨site⟩
  | flags, .call target => .function ⟨target.fn.name, some .entry, some flags.fnInstrContext,
      target.arguments clang freeVariables ρ, none, some flags.strictMode, none, none⟩
  | flags, .returnfrom target => .function ⟨target.fn.name, some .exit, some flags.fnInstrContext,
      target.arguments clang freeVariables ρ, target.anyResult, some flags.strictMode, none, none⟩
  | flags, .returned target v => .function ⟨target.fn.name, some .exit, some flags.fnInstrContext,
      target.arguments clang freeVariables ρ, some (v.argument clang freeVariables ρ),
      some flags.strictMode, none, none⟩
  | flags, .result f args e v => .function ⟨f.name, some .exit, some flags.fnInstrContext,
      args.map (Pattern.argument clang freeVariables ρ),
      some (.mk .constant none (clang.macroName e) none (some v) none none none),
      some flags.strictMode, none, none⟩
  | flags, .assign op x field v => .fieldAssign ⟨.mk (structureOf clang x)
      (ρ (x.argument freeVariables)) field.name (fieldIndex field), op,
      v.argument clang freeVariables ρ, some flags.strictMode⟩
  | flags, .sequence ts => .sequence (.nullExpr :: Term.meanings site ρ flags ts) 1 1
  | flags, .both l r => .booleanExpr .and (l.meaning site ρ flags) (r.meaning site ρ flags)
  | flags, .either l r =>
    .booleanExpr (flags.orOperator.getD .or) (l.meaning site ρ flags) (r.meaning site ρ flags)
  | flags, .optional t => .booleanExpr .xor .nullExpr (t.meaning site ρ flags)
  | flags, .repeated min max ts =>
    .sequence (Term.meanings site ρ flags ts) (limitedValue 32 min) (limitedValue 32 max)
  | flags, .callee t => t.meaning site ρ { flags with fnInstrContext := .callee }
  | flags, .caller t => t.meaning site ρ { flags with fnInstrContext := .caller }
  | flags, .strict t => t.meaning site ρ { flags with strictMode := true }
  | flags, .conditional t => t.meaning site ρ { flags with strictMode := false }

def Term.meanings (site : Location) (ρ : Argument → Argument) : Flags → List Term → List Expression
  | _, [] => []
  | flags, t :: ts => t.meaning site ρ flags :: Term.meanings site ρ flags ts

end

end

/-! ## What C and the parser ask of it -/

/-- A variable that is one argument. -/
structure Scalar (d : ValueDecl) : Prop where
  leaves : d.type.leaves [d.id] d = some [([d.id], d)]
  kind : ∀ width (bits : BitVec width), d.kind ≠ .enumerator width bits

/-- An expression that is parsed as a constant, and has this value. -/
def IsConstant (clang : Clang) (e : Expr) (v : Int) : Prop :=
  clang.constant e = some v ∧
    match e with
    | .implicit _ | .paren _ | .cast _ | .choose _ | .call _ _ | .value _ | .function _ => False
    | _ => True

def Pattern.Proper (clang : Clang) : Pattern → Prop
  | .any _ => True
  | .variable d => Scalar d
  | .address d => Scalar d ∧ clang.constant (.unary .addrOf (.value d)) = none
  | .enumerator d width bits =>
    d.type.leaves [d.id] d = some [([d.id], d)] ∧ d.kind = .enumerator width bits
  | .constant e v | .flags e v | .bitmask e v => IsConstant clang e v

/-- As many arguments as there are parameters. -/
def Target.Proper (clang : Clang) : Target → Prop
  | .function f => f.name ≠ "" ∧ ∀ d ∈ f.params, Scalar d
  | .applied f args =>
    f.name ≠ "" ∧ args.length = f.params.length ∧ ∀ a ∈ args, a.Proper clang

/-- Of a function that gives back a value, no arguments are said. -/
def Target.Plain : Target → Prop
  | .function _ => True
  | .applied f args => f.result.isVoid ∨ args = []

/-- The members of a structure, each with the kind of its assignments. -/
def AssignProper (clang : Clang) (K : Nat → Bool) (op : AssignType) (x field : ValueDecl) : Prop :=
  Scalar x ∧ K field.id = decide (op = .simpleAssign) ∧ (∃ index, field.kind = .field index) ∧
    (clang.typeOf (.value x)).pointed.asStructure.isSome

mutual

def Term.Proper (clang : Clang) (K : Nat → Bool) : Term → Prop
  | .site => True
  | .call target => target.Proper clang
  | .returnfrom target => target.Proper clang ∧ target.Plain
  | .returned target v =>
    target.Proper clang ∧ target.Plain ∧ target.fn.result.isVoid = false ∧ v.Proper clang
  | .result f args e v => f.name ≠ "" ∧ (∀ a ∈ args, a.Proper clang) ∧ IsConstant clang e v ∧
      clang.constant (.call (some f) (args.map Pattern.expand)) = none
  | .assign op x field v => AssignProper clang K op x field ∧ v.Proper clang
  | .sequence ts => Term.AllProper clang K ts
  | .repeated _ _ ts => ts ≠ [] ∧ Term.AllProper clang K ts
  | .both l r | .either l r => l.Proper clang K ∧ r.Proper clang K
  | .optional t | .callee t | .caller t | .strict t | .conditional t => t.Proper clang K

def Term.AllProper (clang : Clang) (K : Nat → Bool) : List Term → Prop
  | [] => True
  | t :: ts => t.Proper clang K ∧ Term.AllProper clang K ts

end

/-! ## Its variables -/

def Pattern.variables (freeVariables : List Nat) : Pattern → List Argument
  | .variable d => [d.argument freeVariables]
  | .address d =>
    [.mk .indirect none none none none none (some (d.argument freeVariables)) none]
  | .any _ | .enumerator .. | .constant .. | .flags .. | .bitmask .. => []

def Target.variables (freeVariables : List Nat) : Target → List Argument
  | .function _ => []
  | .applied _ args => args.flatMap (Pattern.variables freeVariables)

mutual

/-- The variables of a term, each as often as it occurs. -/
def Term.variables (freeVariables : List Nat) : Term → List Argument
  | .site => []
  | .call target | .returnfrom target => target.variables freeVariables
  | .returned target v => target.variables freeVariables ++ v.variables freeVariables
  | .result _ args _ _ => args.flatMap (Pattern.variables freeVariables)
  | .assign _ x _ v => x.argument freeVariables :: v.variables freeVariables
  | .sequence ts | .repeated _ _ ts => Term.allVariables freeVariables ts
  | .both l r | .either l r => l.variables freeVariables ++ r.variables freeVariables
  | .optional t | .callee t | .caller t | .strict t | .conditional t => t.variables freeVariables

def Term.allVariables (freeVariables : List Nat) : List Term → List Argument
  | [] => []
  | t :: ts => t.variables freeVariables ++ Term.allVariables freeVariables ts

end

/-! ## Numbering -/

/-- The references after all of these have been registered. -/
def registeredAll (refs vs : List Argument) : List Argument := vs.foldl registered refs

/-- The number of an argument in the list. -/
def numberIn (refs : List Argument) (a : Argument) : Argument := a.setIndex (placeOf refs a)

section

variable {R refs refs' vs vs' : List Argument} {a b : Argument}

theorem registeredAll_append :
    registeredAll refs (vs ++ vs') = registeredAll (registeredAll refs vs) vs' :=
  List.foldl_append ..

theorem prefix_registeredAll : refs <+: registeredAll refs vs := by
  induction vs generalizing refs with
  | nil => exact List.prefix_refl _
  | cons v vs ih => exact prefix_registered.trans ih

/-- The contents are numbered by their first occurrence. -/
theorem contents_registeredAll : (registeredAll refs vs).map Argument.noIndex =
    internAll (refs.map Argument.noIndex) (vs.map Argument.noIndex) := by
  induction vs generalizing refs with
  | nil => rfl
  | cons v vs ih =>
    rw [List.map_cons, internAll_cons, ← contents_registered]
    exact ih

/-- What is registered keeps its number. -/
theorem numberIn_of_prefix (h : registered refs a <+: R) :
    numberIn R a = a.setIndex (placeOf refs a) := by
  have hprefix : intern (refs.map Argument.noIndex) a.noIndex <+: R.map Argument.noIndex := by
    rw [← contents_registered]
    exact h.map _
  rw [numberIn, placeOf, idxOf_eq_of_mem hprefix (mem_intern.mpr (.inr rfl)), idxOf_intern]
  rfl

/-! ## Reading -/

/-- What stays so while a term is parsed. -/
structure Ready (K : Nat → Bool) (freeVariables : List Nat) (s : ParserState) : Prop where
  numbered : Numbered s.references
  kinds : ∀ i simple, (i, simple) ∈ s.fieldAssignments → K i = simple
  free : s.freeVariables = freeVariables

/-- The parser gives back `x` and registers the variables, if `R` has the numbers. -/
def Yields (R : List Argument) (K : Nat → Bool) (freeVariables : List Nat) {α : Type}
    (p : ParserM α) (vs : List Argument) (x : α) : Prop :=
  ∀ s, Ready K freeVariables s → registeredAll s.references vs <+: R →
    ∃ t, p s = (.ok x, t) ∧ Ready K freeVariables t ∧
      t.references = registeredAll s.references vs ∧ t.diagnostics = s.diagnostics

variable {K : Nat → Bool} {freeVariables : List Nat} {α β : Type} {p : ParserM α} {x : α}
  {f : α → ParserM β} {y : β} {clang : Clang} {site : Location} {register : Bool} {m : ArgFactory}
  {d : ValueDecl} {e : Expr} {v : Int}

theorem yields_pure : Yields R K freeVariables (pure x) [] x :=
  fun s hs _ => ⟨s, rfl, hs, rfl, rfl⟩

theorem Yields.bind (hp : Yields R K freeVariables p vs x)
    (hf : Yields R K freeVariables (f x) vs' y) :
    Yields R K freeVariables (p >>= f) (vs ++ vs') y := by
  intro s hs hR
  rw [registeredAll_append] at hR
  obtain ⟨t, hpt, ht, hrefs, hdiag⟩ := hp s hs (prefix_registeredAll.trans hR)
  rw [← hrefs] at hR
  obtain ⟨u, hfu, hu, hrefs', hdiag'⟩ := hf t ht hR
  refine ⟨u, ?_, hu, ?_, hdiag'.trans hdiag⟩
  · rw [Attempt.bind_ok hpt, hfu]
  · rw [hrefs', hrefs, registeredAll_append]

/-- Where the first part registers nothing. -/
theorem Yields.after (hp : Yields R K freeVariables p [] x)
    (hf : Yields R K freeVariables (f x) vs y) : Yields R K freeVariables (p >>= f) vs y :=
  hp.bind hf

theorem Yields.map {g : α → β} (hp : Yields R K freeVariables p vs x) :
    Yields R K freeVariables (do return g (← p)) vs (g x) := by
  have hpure : Yields R K freeVariables (pure (g x)) [] (g x) := yields_pure
  have hmap := hp.bind (f := fun x => pure (g x)) hpure
  rwa [List.append_nil] at hmap

theorem yields_registerArgument (ha : Numberable a) :
    Yields R K freeVariables (registerArgument a) [a] (numberIn R a) := by
  intro s hs hR
  refine ⟨{ s with references := registered s.references a }, ?_,
    ⟨hs.numbered.registered ha, hs.kinds, hs.free⟩, rfl, rfl⟩
  rw [registerArgument_eq hs.numbered ha, numberIn_of_prefix hR]

/-! ## Arguments -/

theorem numberable_argument : Numberable (d.argument freeVariables) := ⟨nofun, nofun⟩

/-- The leaves of a scalar are itself. -/
theorem yields_parseDecl {allowAny : Bool} (hleaves : d.type.leaves [d.id] d = some [([d.id], d)])
    (h : Yields R K freeVariables (parseLeaf (if d.id ∈ freeVariables then { m with free := some true } else m)
      allowAny register d) vs a) :
    Yields R K freeVariables (parseDecl m allowAny register d) vs [a] := by
  rw [parseDecl, hleaves]
  intro s hs hR
  obtain ⟨t, hrun, hrest⟩ := h s hs hR
  refine ⟨t, ?_, hrest⟩
  have hfree : ([d.id].any fun i => s.freeVariables.contains i) = decide (d.id ∈ freeVariables) := by
    simp [hs.free]
  show parseLeaves m allowAny register [([d.id], d)] s = _
  rw [parseLeaves, Attempt.bind_ok Attempt.get_apply, hfree]
  simp only [decide_eq_true_eq]
  rw [Attempt.bind_ok hrun]
  rfl

theorem parseLeaf_scalar (h : Scalar d) {allowAny : Bool} : parseLeaf m allowAny register d =
    if allowAny then return m.argument .any (some d.name) none none none
    else registerIf register (m.argument .variable (some d.name) none none none) := by
  rw [parseLeaf]
  split
  · next width bits hkind => exact absurd hkind (h.kind width bits)
  · rfl
  · rfl

theorem parseLeaf_enumerator {width : Nat} {bits : BitVec width} {allowAny : Bool}
    (h : d.kind = .enumerator width bits) : parseLeaf m allowAny register d =
      return m.argument .constant (some d.name) (some (limitedValue 64 bits.toNat)) none none := by
  unfold parseLeaf
  rw [h]

theorem yields_load (h : Scalar d) :
    Yields R K freeVariables (parseArg clang true ⟨none, none⟩ true (load d))
      [d.argument freeVariables] [numberIn R (d.argument freeVariables)] := by
  refine yields_parseDecl h.leaves ?_
  rw [parseLeaf_scalar h, if_neg Bool.false_ne_true, registerIf, if_pos rfl]
  have harg : (if d.id ∈ freeVariables then ({ free := some true, constantMatch := none } : ArgFactory)
      else ⟨none, none⟩).argument .variable (some d.name) none none none =
        d.argument freeVariables := by
    rw [ValueDecl.argument]
    split <;> rfl
  rw [harg]
  exact yields_registerArgument numberable_argument

/-- `ParseArg` strips what has been stripped. -/
theorem parseArg_ignoreParenCasts :
    parseArg clang register m true e.ignoreParenCasts = parseArg clang register m true e := by
  fun_induction Expr.ignoreParenCasts e with
  | case1 _ ih | case2 _ ih | case3 _ ih => exact ih
  | case4 => rfl

theorem parseArg_ignoreImplicit :
    parseArg clang register m true e.ignoreImplicit = parseArg clang register m true e := by
  fun_induction Expr.ignoreImplicit e with
  | case1 _ ih => exact ih
  | case2 => rfl

theorem parseArg_constant (h : IsConstant clang e v) {top : Bool} :
    parseArg clang register m top e =
      return [m.argument .constant (clang.macroName e) (some v) none none] := by
  obtain ⟨hv, hform⟩ := h
  have hconstant : parseConstant clang m e =
      return [m.argument .constant (clang.macroName e) (some v) none none] := by
    rw [parseConstant, hv]
  have hsome : ¬ (clang.constant e).isNone = true := by
    rw [hv]
    exact Bool.false_ne_true
  rw [← hconstant]
  cases e with
  | implicit | paren | cast | choose | call | value | function => exact hform.elim
  | unary op e =>
    rw [parseArg]
    exact if_neg fun h => hsome h.1
  | member base d =>
    rw [parseArg]
    exact if_neg hsome
  | block | binary | intLiteral | stringLiteral | other => cases top <;> rfl

theorem isAny_append (type : String) : isAny ("__tesla_any" ++ type) = true := by
  rw [isAny, String.toList_append]
  exact beq_iff_eq.mpr (List.take_left' rfl)

/-- No type makes another function of it. -/
theorem any_ne (type : String) :
    "__tesla_any" ++ type ≠ "__tesla_flags" ∧ "__tesla_any" ++ type ≠ "__tesla_mask" := by
  have hany := isAny_append type
  constructor
  · intro h
    rw [h] at hany
    exact absurd hany (by decide)
  · intro h
    rw [h] at hany
    exact absurd hany (by decide)

theorem parseArg_any {type : String} :
    parseArg clang register m true (Pattern.any type).expand =
      return [m.argument .any none none none none] := by
  have hne := any_ne type
  rw [Pattern.expand, parseArg, if_neg (not_or.mpr hne), if_pos (isAny_append type)]
  exact nofun

theorem numberable_indirect {a : Argument} :
    Numberable (.mk .indirect none none none none none (some a) none) := ⟨nofun, nofun⟩

theorem yields_address (h : Scalar d)
    (hnone : clang.constant (.unary .addrOf (.value d)) = none) {top : Bool} :
    Yields R K freeVariables (parseArg clang true ⟨none, none⟩ top (.unary .addrOf (.value d)))
      ((Pattern.address d).variables freeVariables)
      [(Pattern.address d).argument clang freeVariables (numberIn R)] := by
  have hinner : Yields R K freeVariables (parseArg clang false ⟨none, none⟩ true (.value d)) []
      [d.argument freeVariables] := by
    refine yields_parseDecl h.leaves ?_
    rw [parseLeaf_scalar h, if_neg Bool.false_ne_true, registerIf, if_neg Bool.false_ne_true,
      ValueDecl.argument]
    split <;> exact yields_pure
  rw [parseArg, hnone, if_pos ⟨rfl, rfl⟩]
  exact hinner.bind (Yields.bind (x := d.argument freeVariables) yields_pure
    (yields_registerArgument numberable_indirect).map)

theorem yields_pattern {w : Pattern} (h : w.Proper clang) :
    Yields R K freeVariables (parseArg clang true ⟨none, none⟩ true w.expand)
      (w.variables freeVariables) [w.argument clang freeVariables (numberIn R)] := by
  cases w with
  | any type =>
    rw [parseArg_any]
    exact yields_pure
  | «variable» d => exact yields_load h
  | address d => exact yields_address h.1 h.2
  | enumerator d width bits =>
    refine yields_parseDecl h.1 ?_
    rw [parseLeaf_enumerator h.2, Pattern.argument]
    split <;> exact yields_pure
  | constant e v =>
    show Yields R K freeVariables (parseArg clang true ⟨none, none⟩ true e) _ _
    rw [parseArg_constant h]
    exact yields_pure
  | flags e v =>
    show Yields R K freeVariables (parseArg clang true ⟨none, some .flags⟩ false e) _ _
    rw [parseArg_constant h]
    exact yields_pure
  | bitmask e v =>
    show Yields R K freeVariables (parseArg clang true ⟨none, some .mask⟩ false e) _ _
    rw [parseArg_constant h]
    exact yields_pure

/-! ## Events -/

variable {ws : List Pattern} {target : Target} {g : FunctionDecl} {flags : Flags} {w : Pattern}

theorem yields_patterns {strip : Expr → Expr} (hws : ∀ w ∈ ws, w.Proper clang)
    (hstrip : ∀ e, parseArg clang true ⟨none, none⟩ true (strip e) =
      parseArg clang true ⟨none, none⟩ true e) :
    Yields R K freeVariables (parseArgs clang strip (ws.map Pattern.expand))
      (ws.flatMap (Pattern.variables freeVariables))
      (ws.map (Pattern.argument clang freeVariables (numberIn R))) := by
  induction ws with
  | nil => exact yields_pure
  | cons w ws ih =>
    obtain ⟨hw, hws⟩ := List.forall_mem_cons.mp hws
    rw [List.map_cons, parseArgs, hstrip, List.flatMap_cons]
    exact (yields_pattern hw).bind (ih hws).map

theorem yields_params {ds : List ValueDecl} (hds : ∀ d ∈ ds, Scalar d) :
    Yields R K freeVariables (parseParams ds) []
      (ds.map fun d => .mk .any none (some d.name)
        (if d.id ∈ freeVariables then some true else none) none none none none) := by
  induction ds with
  | nil => exact yields_pure
  | cons d ds ih =>
    obtain ⟨hd, hds⟩ := List.forall_mem_cons.mp hds
    refine Yields.after (x := [.mk .any none (some d.name)
      (if d.id ∈ freeVariables then some true else none) none none none none]) ?_ (ih hds).map
    refine yields_parseDecl hd.leaves ?_
    rw [parseLeaf_scalar hd, if_pos rfl]
    split <;> exact yields_pure

/-- All arguments of the call are said. -/
theorem parseDetails_applied {args : List Expr} {haveRetVal : Bool} (hargs : args ≠ [])
    (hlen : args.length = g.params.length + if haveRetVal then 1 else 0) :
    parseDetails clang g args haveRetVal = parseArgs clang id args := by
  rw [parseDetails, if_neg hargs, if_neg (not_not.mpr hlen)]

theorem parseReference_expand (freeVariables : List Nat) (h : target.Proper clang) : ∃ args,
    parseReference target.expand.ignoreParenCasts = pure (target.fn, args) ∧
      target.fn.name ≠ "" ∧ ∀ haveRetVal : Bool, (haveRetVal = true → target.Plain ∧
          target.fn.result.isVoid = false) →
        Yields R K freeVariables (parseDetails clang target.fn args haveRetVal)
          (target.variables freeVariables)
          (target.arguments clang freeVariables (numberIn R)) := by
  cases target with
  | function f =>
    refine ⟨[], rfl, h.1, fun _ _ => ?_⟩
    rw [parseDetails, if_pos rfl]
    exact yields_params h.2
  | applied f args =>
    refine ⟨args.map Pattern.expand, rfl, h.1, fun haveRetVal hret => ?_⟩
    show Yields R K freeVariables (parseDetails clang f (args.map Pattern.expand) haveRetVal) _ _
    by_cases hargs : args = []
    · subst hargs
      obtain hparams : f.params = [] := List.length_eq_zero_iff.mp h.2.1.symm
      show Yields R K freeVariables (parseParams f.params) _ _
      rw [hparams]
      exact yields_pure
    · have hnone : haveRetVal = false := by
        rw [← Bool.not_eq_true]
        intro htrue
        obtain ⟨hplain, hvoid⟩ := hret htrue
        obtain hvoid' | hnil := hplain
        · exact absurd (hvoid.symm.trans hvoid') Bool.false_ne_true
        · exact hargs hnil
      have hlen : (args.map Pattern.expand).length = f.params.length + if false = true then 1 else 0 :=
        (List.length_map ..).trans h.2.1
      rw [hnone, parseDetails_applied (fun hnil => hargs (List.map_eq_nil_iff.mp hnil)) hlen]
      exact yields_patterns h.2.2 fun _ => rfl

theorem parseFunctionRef_named (h : g.name ≠ "") : parseFunctionRef g = return g.name :=
  if_neg h

/-- The end of `ParseFunctionDetails`. -/
theorem yields_event {direction : Direction} {retVal : Bool} {ret : Option Expr}
    {expected : Option Argument} {vs : List Argument} {e : Expr}
    (h : target.Proper clang) (he : e.ignoreParenCasts = target.expand.ignoreParenCasts)
    (hplain : retVal = true → target.Plain)
    (hexpected : Yields R K freeVariables
      (parseExpected clang (retVal && !target.fn.result.isVoid) ret) vs expected) :
    Yields R K freeVariables
      (parseFunctionDetails.event clang direction retVal flags e.ignoreParenCasts ret)
      (target.variables freeVariables ++ vs)
      (.function ⟨target.fn.name, some direction, some flags.fnInstrContext,
        target.arguments clang freeVariables (numberIn R), expected, some flags.strictMode, none,
        none⟩) := by
  obtain ⟨args, hreference, hname, hdetails⟩ :=
    parseReference_expand (R := R) (K := K) freeVariables h
  rw [he, parseFunctionDetails.event, hreference]
  refine Yields.after yields_pure ?_
  dsimp only
  rw [parseFunctionRef_named hname]
  refine Yields.after yields_pure ?_
  refine (hdetails _ fun hret => ?_).bind hexpected.map
  rw [Bool.and_eq_true, Bool.not_eq_true'] at hret
  exact ⟨hplain hret.1, hret.2⟩

theorem yields_parseRetVal (h : w.Proper clang) :
    Yields R K freeVariables (parseRetVal clang (some w.expand.ignoreParenCasts))
      (w.variables freeVariables) (w.argument clang freeVariables (numberIn R)) := by
  show Yields R K freeVariables (do one (← parseArg clang true ⟨none, none⟩ true _)) _ _
  rw [parseArg_ignoreParenCasts, ← List.append_nil (w.variables freeVariables)]
  exact (yields_pattern h).bind yields_pure

/-! ## Assignments -/

theorem yields_checkAssignmentKind {simple : Bool} (h : K d.id = simple) :
    Yields R K freeVariables (checkAssignmentKind d simple) [] ⟨⟩ := by
  intro s hs _
  rw [checkAssignmentKind, Attempt.bind_ok Attempt.get_apply]
  cases hlookup : s.fieldAssignments.lookup d.id with
  | none =>
    refine ⟨{ s with fieldAssignments := (d.id, simple) :: s.fieldAssignments }, rfl,
      ⟨hs.numbered, fun i b hib => ?_, hs.free⟩, rfl, rfl⟩
    obtain hib | hib := List.mem_cons.mp hib
    · cases hib
      exact h
    · exact hs.kinds i b hib
  | some old =>
    have hold : simple = old := by
      rw [← h]
      obtain ⟨l, r, heq, _⟩ := List.lookup_eq_some_iff.mp hlookup
      exact hs.kinds d.id old (heq ▸ List.mem_append_right l List.mem_cons_self)
    dsimp only
    rw [if_pos hold]
    exact ⟨s, rfl, hs, rfl, rfl⟩

variable {op : AssignType} {x' field : ValueDecl}

theorem yields_structField (h : AssignProper clang K op x' field) :
    Yields R K freeVariables (parseStructField clang (load x') field
        (parseArg clang true ⟨none, none⟩ true (load x')))
      [x'.argument freeVariables]
      (.mk (structureOf clang x') (numberIn R (x'.argument freeVariables)) field.name
        (fieldIndex field)) := by
  obtain ⟨hscalar, _, ⟨index, hkind⟩, hstructure⟩ := h
  obtain ⟨name, hname⟩ := Option.isSome_iff_exists.mp hstructure
  have hof : structureOf clang x' = name := by
    rw [structureOf, hname]
    rfl
  have hindex : fieldIndex field = index := by
    unfold fieldIndex
    rw [hkind]
  have htype : (clang.typeOf (load x').ignoreImplicit).pointed.asStructure = some name := hname
  rw [hof, hindex, parseStructField, htype]
  dsimp only
  rw [hkind]
  exact (yields_load hscalar).bind (Yields.after (x := numberIn R _) yields_pure yields_pure)

theorem parseFieldAssign_operator {lhs rhs : Expr} :
    parseFieldAssign clang (operator op) lhs rhs flags =
      parseFieldAssign.assign clang (operator op) lhs rhs flags op := by
  cases op <;> rfl

theorem yields_assign (h : AssignProper clang K op x' field) (hw : w.Proper clang) :
    Yields R K freeVariables
      (parseFieldAssign clang (operator op) (.member (load x') field) w.expand flags)
      (x'.argument freeVariables :: w.variables freeVariables)
      (.fieldAssign ⟨.mk (structureOf clang x') (numberIn R (x'.argument freeVariables)) field.name
        (fieldIndex field), op, w.argument clang freeVariables (numberIn R),
        some flags.strictMode⟩) := by
  have hkind : K field.id = decide (operator op = .assign) := by
    rw [h.2.1]
    cases op <;> rfl
  rw [parseFieldAssign_operator, parseFieldAssign.assign]
  refine Yields.after (yields_checkAssignmentKind hkind) ?_
  refine (yields_structField h).bind (?_ : Yields R K freeVariables _ (w.variables freeVariables) _)
  rw [← List.append_nil (w.variables freeVariables)]
  exact (yields_pattern hw).bind (Yields.after yields_pure yields_pure)

/-! ## Terms -/

theorem parseExpr_modifier {name : String} {args : List Expr} :
    parseExpr clang site (modifier name args) flags =
      parseModifier clang name args (parseExprs clang site args) flags := rfl

/-- No compound assignment. -/
theorem parseExpr_binary {op : BinaryOp} {lhs rhs : Expr} {orOperator : Operation}
    (hop : ¬ (op = .addAssign ∨ op = .subAssign ∨ op = .otherAssign))
    (hor : flags.orOperator = some orOperator) :
    parseExpr clang site (.binary op lhs rhs) flags =
      match op with
      | .assign => parseFieldAssign clang op lhs rhs flags
      | .eq => parseFunctionResult clang lhs rhs flags
      | .land =>
        parseBinary.both (parseExpr clang site lhs) (parseExpr clang site rhs) flags .and
      | .lor =>
        parseBinary.both (parseExpr clang site lhs) (parseExpr clang site rhs) flags orOperator
      | _ => refuse "unsupported boolean operation" := by
  rw [parseExpr, if_neg hop, parseBinary, hor]
  cases op <;> rfl

theorem parseExpr_ignored : parseExpr clang site ignored flags = return .nullExpr := rfl

/-- `((void) e, TIGNORE)` is taken apart. -/
theorem parseFunctionDetails_target {name : String} {direction : Direction} {retVal : Bool} {e : Expr}
    (he : e.ignoreParenCasts = target.expand.ignoreParenCasts)
    (hname : name = "__tesla_call" ∨ name = "__tesla_return") :
    parseFunctionDetails clang name [reference e] direction retVal flags =
      parseFunctionDetails.event clang direction retVal flags e.ignoreParenCasts none := by
  have hcheck : ¬ (name ≠ "__tesla_call" ∧ name ≠ "__tesla_return") := by
    rintro ⟨hcall, hreturn⟩
    obtain h | h := hname
    · exact hcall h
    · exact hreturn h
  have hcall : (reference e).ignoreParenCasts = .binary .comma (.cast e) ignored := rfl
  have hlhs : (Expr.cast e).ignoreParenCasts = target.expand.ignoreParenCasts := he
  rw [parseFunctionDetails, if_neg hcheck]
  rw [hcall]
  dsimp only
  rw [hlhs, he]
  cases target <;> rfl

theorem parseExpected_none :
    Yields R K freeVariables (parseExpected clang (true && !target.fn.result.isVoid) none) []
      target.anyResult := by
  rw [Target.anyResult, parseExpected, Bool.true_and]
  cases target.fn.result.isVoid
  · exact Yields.after yields_pure yields_pure
  · exact yields_pure

theorem yields_result {e : Expr} (hname : g.name ≠ "") (hws : ∀ w ∈ ws, w.Proper clang)
    (he : IsConstant clang e v)
    (hnone : clang.constant (.call (some g) (ws.map Pattern.expand)) = none) :
    Yields R K freeVariables
      (parseFunctionResult clang (.call (some g) (ws.map Pattern.expand)) e flags)
      (ws.flatMap (Pattern.variables freeVariables))
      (.function ⟨g.name, some .exit, some flags.fnInstrContext,
        ws.map (Pattern.argument clang freeVariables (numberIn R)),
        some (.mk .constant none (clang.macroName e) none (some v) none none none),
        some flags.strictMode, none, none⟩) := by
  have hexpected : Yields R K freeVariables (parseRetVal clang (some e.ignoreParenCasts)) []
      (.mk .constant none (clang.macroName e) none (some v) none none none) :=
    yields_parseRetVal (w := .constant e v) he
  rw [parseFunctionResult]
  dsimp only
  have hone : ¬ (none : Option Int).isSome = (some v).isSome := Bool.false_ne_true
  rw [hnone, he.1, if_neg hone, Option.isSome_none, if_neg Bool.false_ne_true,
    if_neg Bool.false_ne_true]
  refine Yields.after hexpected ?_
  have hstrip : (Expr.call (some g) (ws.map Pattern.expand)).ignoreParenCasts =
      .call (some g) (ws.map Pattern.expand) := rfl
  rw [hstrip]
  dsimp only
  rw [parseFunctionRef_named hname]
  exact Yields.after yields_pure
    (yields_patterns hws fun _ => parseArg_ignoreImplicit).map

/-- A modifier that sets a flag. -/
theorem parseModifier_with {name : String} (set : Flags → Flags) {e : Expr}
    (h : ∀ args subs, parseModifier clang name args subs flags = parseWith set args subs flags) :
    parseExpr clang site (modifier name [ignored, e]) flags =
      (checkIgnore ignored >>= fun _ => parseExpr clang site e (set flags)) := by
  rw [parseExpr_modifier, h]
  rfl

theorem checkIgnore_ignored : checkIgnore ignored = return ⟨⟩ := rfl

theorem yields_with {name : String} (set : Flags → Flags) {e : Expr} {E : Expression}
    (h : ∀ args subs, parseModifier clang name args subs flags = parseWith set args subs flags)
    (he : Yields R K freeVariables (parseExpr clang site e (set flags)) vs E) :
    Yields R K freeVariables (parseExpr clang site (modifier name [ignored, e]) flags) vs E := by
  rw [parseModifier_with set h, checkIgnore_ignored]
  exact Yields.after yields_pure he

mutual

theorem yields_term (t : Term) (ht : t.Proper clang K) (flags : Flags)
    (hor : flags.orOperator.isSome) :
    Yields R K freeVariables (parseExpr clang site t.expand flags) (t.variables freeVariables)
      (t.meaning clang freeVariables site (numberIn R) flags) := by
  obtain ⟨orOperator, horOp⟩ := Option.isSome_iff_exists.mp hor
  cases t with
  | site => exact yields_pure
  | call target =>
    show Yields R K freeVariables (parseFunctionDetails clang "__tesla_call"
      [reference target.expand] .entry false flags) _ _
    have he : target.expand.ignoreParenCasts = target.expand.ignoreParenCasts := rfl
    rw [parseFunctionDetails_target he (.inl rfl), Term.variables,
      ← List.append_nil (target.variables freeVariables)]
    exact yields_event ht he (fun h => absurd h Bool.false_ne_true) yields_pure
  | returnfrom target =>
    show Yields R K freeVariables (parseFunctionDetails clang "__tesla_return"
      [reference (.paren target.expand)] .exit true flags) _ _
    have he : (Expr.paren target.expand).ignoreParenCasts = target.expand.ignoreParenCasts := rfl
    rw [parseFunctionDetails_target he (.inr rfl), Term.variables,
      ← List.append_nil (target.variables freeVariables)]
    exact yields_event ht.1 he (fun _ => ht.2) parseExpected_none
  | returned target w =>
    show Yields R K freeVariables (parseFunctionDetails.event clang .exit true flags
      target.expand.ignoreParenCasts (some w.expand.ignoreParenCasts)) _ _
    refine yields_event ht.1 rfl (fun _ => ht.2.1) ?_
    rw [parseExpected, ht.2.2.1]
    exact (yields_parseRetVal ht.2.2.2).map
  | result f args e v =>
    rw [Term.expand, parseExpr_binary (by decide) horOp]
    exact yields_result ht.1 ht.2.1 ht.2.2.1 ht.2.2.2
  | assign op x field w =>
    have hparse : parseExpr clang site (Term.assign op x field w).expand flags =
        parseFieldAssign clang (operator op) (.member (load x) field) w.expand flags := by
      cases op with
      | simpleAssign => exact parseExpr_binary (by decide) horOp
      | plusEqual => rfl
      | minusEqual => rfl
    rw [hparse]
    exact yields_assign ht.1 ht.2
  | sequence ts =>
    show Yields R K freeVariables (parseSequence (parseExpr clang site ignored ::
        parseExprs clang site (Term.expandAll ts)) flags) _ _
    have hall : Yields R K freeVariables (parseAll flags (parseExpr clang site ignored ::
        parseExprs clang site (Term.expandAll ts))) (Term.allVariables freeVariables ts)
        (.nullExpr :: Term.meanings clang freeVariables site (numberIn R) flags ts) :=
      Yields.after yields_pure (yields_terms ts ht flags hor).map
    exact hall.map
  | both l r =>
    rw [Term.expand, parseExpr_binary (by decide) horOp]
    exact (yields_term l ht.1 flags hor).bind (yields_term r ht.2 flags hor).map
  | either l r =>
    have hgetD : flags.orOperator.getD .or = orOperator := by
      rw [horOp]
      rfl
    rw [Term.expand, parseExpr_binary (by decide) horOp, Term.meaning, hgetD]
    exact (yields_term l ht.1 flags hor).bind (yields_term r ht.2 flags hor).map
  | optional t => exact (yields_term t ht flags hor).map
  | repeated min max ts =>
    cases ts with
    | nil => exact absurd rfl ht.1
    | cons t ts =>
      refine Yields.after yields_pure (Yields.after yields_pure ?_)
      exact (yields_terms (t :: ts) ht.2 flags hor).map
  | callee t =>
    exact yields_with (fun flags => { flags with fnInstrContext := .callee }) (fun _ _ => rfl)
      (yields_term t ht { flags with fnInstrContext := .callee } hor)
  | caller t =>
    exact yields_with (fun flags => { flags with fnInstrContext := .caller }) (fun _ _ => rfl)
      (yields_term t ht { flags with fnInstrContext := .caller } hor)
  | strict t =>
    exact yields_with (fun flags => { flags with strictMode := true }) (fun _ _ => rfl)
      (yields_term t ht { flags with strictMode := true } hor)
  | conditional t =>
    exact yields_with (fun flags => { flags with strictMode := false }) (fun _ _ => rfl)
      (yields_term t ht { flags with strictMode := false } hor)

theorem yields_terms (ts : List Term) (hts : Term.AllProper clang K ts) (flags : Flags)
    (hor : flags.orOperator.isSome) :
    Yields R K freeVariables (parseAll flags (parseExprs clang site (Term.expandAll ts)))
      (Term.allVariables freeVariables ts)
      (Term.meanings clang freeVariables site (numberIn R) flags ts) := by
  cases ts with
  | nil => exact yields_pure
  | cons t ts =>
    exact (yields_term t hts.1 flags hor).bind (yields_terms ts hts.2 flags hor).map

end

/-- A term is parsed to what it stands for, with its variables numbered by first occurrence. -/
theorem parse_expand {t : Term} (ht : t.Proper clang K) (hor : flags.orOperator.isSome)
    {s : ParserState} (hs : Ready K s.freeVariables s) :
    ∃ s', parseExpr clang site t.expand flags s =
        (.ok (t.meaning clang s.freeVariables site
          (numberIn (registeredAll s.references (t.variables s.freeVariables))) flags), s') ∧
      s'.references = registeredAll s.references (t.variables s.freeVariables) ∧
      s'.diagnostics = s.diagnostics := by
  obtain ⟨s', hrun, _, hrefs, hdiag⟩ := yields_term t ht flags hor s hs (List.prefix_refl _)
  exact ⟨s', hrun, hrefs, hdiag⟩

end

/-! ## Assertions -/

/-- `TESLA_GLOBAL` or `TESLA_PERTHREAD`, at a place in a file. -/
structure Assertion where
  filename : String
  line : Nat
  counter : Nat
  context : Context
  beginning : Term
  ending : Term
  expression : Term

/-- `TESLA_WITHIN`. -/
def Assertion.within (filename : String) (line counter : Nat) (f : FunctionDecl) (t : Term) :
    Assertion :=
  ⟨filename, line, counter, .threadLocal, .callee (.call (.function f)),
    .callee (.returnfrom (.function f)), t⟩

namespace Assertion

/-- `__tesla_global` or `__tesla_perthread`. -/
def locality (a : Assertion) : Expr :=
  load (.mk 0 (match a.context with
    | .global => "__tesla_global"
    | .threadLocal => "__tesla_perthread") .plain (.pointer (.record true "__tesla_locality" [])))

/-- The arguments of `__tesla_inline_assertion`. -/
def args (a : Assertion) : List Expr :=
  [.implicit (.stringLiteral ""), .implicit (.stringLiteral a.filename), .intLiteral 32 a.line,
    .intLiteral 32 a.counter, a.locality, a.beginning.expand, a.ending.expand, a.expression.expand]

def site (a : Assertion) : Location :=
  ⟨a.filename, limitedValue 32 a.line, limitedValue 32 a.counter⟩

def flags : Flags := ⟨.callee, some .or, false⟩

def references (a : Assertion) : List Argument :=
  registeredAll [] (a.beginning.variables [] ++ (a.ending.variables [] ++ a.expression.variables []))

def meaningOf (clang : Clang) (a : Assertion) (t : Term) : Expression :=
  t.meaning clang [] a.site (numberIn a.references) flags

def description (clang : Clang) (a : Assertion) : AutomatonDescription :=
  ⟨⟨none, some a.site⟩, a.context, a.meaningOf clang a.expression, a.references⟩

def usage (clang : Clang) (a : Assertion) : Usage :=
  ⟨⟨none, some a.site⟩, some (a.meaningOf clang a.beginning), some (a.meaningOf clang a.ending)⟩

structure Proper (clang : Clang) (K : Nat → Bool) (a : Assertion) : Prop where
  beginning : a.beginning.Proper clang K
  ending : a.ending.Proper clang K
  expression : a.expression.Proper clang K

def parser (a : Assertion) : Parser :=
  ⟨⟨none, some a.site⟩, a.context, some a.beginning.expand, some a.ending.expand,
    some (.expr a.expression.expand), flags⟩

variable {clang : Clang} {K : Nat → Bool} {a : Assertion} {s : ParserState}

theorem parse_args : assertionParser clang a.args s = (.ok a.parser, s) := by
  cases a with
  | mk filename line counter context beginning ending expression =>
    cases context <;> rfl

theorem parser_parse (ha : a.Proper clang K) (hs : Ready K [] s) (hnil : s.references = []) :
    ∃ t, a.parser.parse clang s = (.ok (some (a.description clang), some (a.usage clang)), t) ∧
      t.diagnostics = s.diagnostics := by
  have hyields (t : Term) (ht : t.Proper clang K) :
      Yields a.references K [] (do
        let e ← parseExpr clang a.site t.expand flags
        return some e) (t.variables []) (some (a.meaningOf clang t)) :=
    (yields_term t ht flags rfl).map
  have hall : Yields a.references K [] (do
      let beginning ← parseBound clang a.parser a.parser.beginning
      let ending ← parseBound clang a.parser a.parser.ending
      let expression ← parseRoot clang a.parser a.parser.root
      return (beginning, ending, expression))
      (a.beginning.variables [] ++ (a.ending.variables [] ++ a.expression.variables []))
      (some (a.meaningOf clang a.beginning), some (a.meaningOf clang a.ending),
        some (a.meaningOf clang a.expression)) :=
    (hyields _ ha.beginning).bind ((hyields _ ha.ending).bind (hyields _ ha.expression).map)
  obtain ⟨t, hrun, _, hrefs, hdiag⟩ := hall s hs (by rw [hnil]; exact List.prefix_refl _)
  refine ⟨t, ?_, hdiag⟩
  have hparse : a.parser.parse clang = (do
      let (beginning, ending, expression) ← (do
        let beginning ← parseBound clang a.parser a.parser.beginning
        let ending ← parseBound clang a.parser a.parser.ending
        let expression ← parseRoot clang a.parser a.parser.root
        return (beginning, ending, expression))
      let references := (← get).references
      return (expression.map fun e => ⟨a.parser.id, a.parser.context, e, references⟩,
        if beginning.isSome ∨ ending.isSome then some ⟨a.parser.id, beginning, ending⟩ else none)) := by
    rw [Parser.parse]
    simp only [bind_assoc, pure_bind]
  have hreferences : t.references = a.references := by
    rw [hrefs, hnil]
    rfl
  rw [hparse, Attempt.bind_ok hrun]
  dsimp only
  rw [Attempt.bind_ok Attempt.get_apply, hreferences]
  rfl

end Assertion

end Tesla.Analyser
