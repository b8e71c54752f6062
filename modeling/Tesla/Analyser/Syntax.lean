/-
# `Tesla.Analyser.Syntax` — C, as the analyser sees it

The analyser walks a syntax tree of Clang's.  Of its nodes this is what the parser for TESLA
assertions asks for: an expression that it has no case for is `other`, a type that is neither a
structure nor a pointer to one is `plain`.

    `ValueDecl`    a variable, a parameter, a member, an enumerator; known by its address
    `Expr`         what `dyn_cast` tells apart, casts and parentheses included
    `Clang`        what else Clang knows of an expression: its type, and its value if it is constant

Objective-C is left out.
-/
import Mathlib.Tactic.TypeStar

namespace Tesla.Analyser

/-! ## Declarations -/

inductive DeclKind where
  | plain
  /-- The value as it stands in memory. -/
  | enumerator (width : Nat) (bits : BitVec width)
  | field (index : Nat)
deriving DecidableEq

mutual

inductive CType where
  | void
  | plain
  | pointer (pointee : CType)
  /-- A structure or a union, spelled with its keyword. -/
  | record (isStruct : Bool) (name : String) (decls : List Member)
  /-- `enum`, spelled with its keyword. -/
  | enumeration
  | typedef (desugared : CType)

inductive Member where
  | field (d : ValueDecl)
  /-- A declaration inside a structure that is no member of it. -/
  | other

inductive ValueDecl where
  | mk (id : Nat) (name : String) (kind : DeclKind) (type : CType)

end

namespace ValueDecl

def id : ValueDecl → Nat
  | .mk i _ _ _ => i

def name : ValueDecl → String
  | .mk _ n _ _ => n

def kind : ValueDecl → DeclKind
  | .mk _ _ k _ => k

def type : ValueDecl → CType
  | .mk _ _ _ t => t

end ValueDecl

/-- `FunctionDecl`. -/
structure FunctionDecl where
  name : String
  params : List ValueDecl
  result : CType

/-- `isVoidType`. -/
def CType.isVoid : CType → Bool
  | .void => true
  | .typedef t => t.isVoid
  | .plain | .pointer _ | .record .. | .enumeration => false

/-- `getAsStructureType`, and the name of the structure. -/
def CType.asStructure : CType → Option String
  | .record true name _ => some name
  | .typedef t => t.asStructure
  | .void | .plain | .pointer _ | .record false .. | .enumeration => none

/-! ## Expressions -/

inductive UnaryOp where
  | preInc | postInc | preDec | postDec | addrOf | other
deriving DecidableEq

inductive BinaryOp where
  | assign | addAssign | subAssign | otherAssign | eq | ne | land | lor | comma | other
deriving DecidableEq

mutual

inductive Expr where
  | implicit (e : Expr)
  | paren (e : Expr)
  | cast (e : Expr)
  /-- `__builtin_choose_expr`, with what has been chosen. -/
  | choose (e : Expr)
  | block (body : List Stmt)
  /-- The callee, if it is called directly. -/
  | call (callee : Option FunctionDecl) (args : List Expr)
  | value (d : ValueDecl)
  | function (f : FunctionDecl)
  | unary (op : UnaryOp) (e : Expr)
  | binary (op : BinaryOp) (lhs rhs : Expr)
  | member (base : Expr) (d : ValueDecl)
  | intLiteral (width value : Nat)
  | stringLiteral (s : String)
  | other (n : Nat)

inductive Stmt where
  | ret (e : Option Expr)
  | decl (ds : List ValueDecl)
  | expr (e : Expr)
  | other

end

namespace Expr

/-- `IgnoreImplicit`. -/
def ignoreImplicit : Expr → Expr
  | .implicit e => e.ignoreImplicit
  | e => e

/-- `IgnoreParenCasts`. -/
def ignoreParenCasts : Expr → Expr
  | .implicit e | .paren e | .cast e => e.ignoreParenCasts
  | e => e

end Expr

structure Clang where
  /-- `isIntegerConstantExpr`, with the value that it has as an `int64_t`. -/
  constant : Expr → Option Int
  /-- `getType`. -/
  typeOf : Expr → CType
  /-- The macro that stands for a constant where it is written. -/
  macroName : Expr → Option String
  /-- What a default `APInt` holds. -/
  uninitialised : Nat

end Tesla.Analyser
