import GameScript.Symbol.Scope

/-!
# Source scripts

A script as it is written: declarations, statements and expressions, each with its place in the
source. Names are not resolved and nothing is typed.
-/
namespace GameScript

inductive UnaryOp where
  | neg
  | not
deriving DecidableEq, Repr

inductive BinaryOp where
  | add | sub | mul | div | mod
  | bitAnd | bitOr | bitXor
  | and | or
  | eq | ne | lt | le | gt | ge
deriving DecidableEq, Repr

namespace UnaryOp

def all : List UnaryOp := [neg, not]

def text : UnaryOp → String
  | neg => "-"
  | not => "NOT"

end UnaryOp

namespace BinaryOp

def all : List BinaryOp :=
  [add, sub, mul, div, mod, bitAnd, bitOr, bitXor, and, or, eq, ne, lt, le, gt, ge]

def text : BinaryOp → String
  | add => "+"
  | sub => "-"
  | mul => "*"
  | div => "/"
  | mod => "%"
  | bitAnd => "&"
  | bitOr => "|"
  | bitXor => "^"
  | and => "AND"
  | or => "OR"
  | eq => "=="
  | ne => "<>"
  | lt => "<"
  | le => "<="
  | gt => ">"
  | ge => ">="

def isArithmetic : BinaryOp → Bool
  | add | sub | mul | div | mod => true
  | _ => false

def isBitwise : BinaryOp → Bool
  | bitAnd | bitOr | bitXor => true
  | _ => false

def isLogical : BinaryOp → Bool
  | and | or => true
  | _ => false

def isEquality : BinaryOp → Bool
  | eq | ne => true
  | _ => false

def isComparison : BinaryOp → Bool
  | eq | ne | lt | le | gt | ge => true
  | _ => false

end BinaryOp

/-- A type as it is written: a name, then the lengths of arrays from the innermost out. -/
structure TypeRef where
  name : String
  lengths : List UInt32 := []
  span : Span := {}
deriving DecidableEq, Repr

inductive Expr where
  | literal (span : Span) (value : Literal)
  | name (span : Span) (name : String)
  | unary (span : Span) (op : UnaryOp) (operand : Expr)
  | binary (span : Span) (op : BinaryOp) (lhs rhs : Expr)
  | field (span : Span) (target : Expr) (field : String)
  | index (span : Span) (target index : Expr)
  | call (span : Span) (callee : Expr) (args : List Expr)
  | vector (span : Span) (x y z : Expr)
  /-- The size of a value or a type, in slots. -/
  | sizeOf (span : Span) (inner : Expr)

def Expr.span : Expr → Span
  | literal s _ | name s _ | unary s _ _ | binary s _ _ _ | field s _ _ | index s _ _ => s
  | call s _ _ | vector s _ _ _ | sizeOf s _ => s

mutual

inductive Stmt where
  | var (span : Span) (name : String) (ty : TypeRef) (init : Option Expr)
  | assign (span : Span) (target value : Expr)
  | cond (span : Span) (condition : Expr) (thenBody elseBody : List Stmt)
  | whileLoop (span : Span) (condition : Expr) (body : List Stmt)
  /-- Count `counter` from zero while it is below `limit`. -/
  | repeatLoop (span : Span) (limit counter : Expr) (body : List Stmt)
  /-- No default differs from an empty one. -/
  | switch (span : Span) (value : Expr) (cases : List SwitchCase) (default : Option (List Stmt))
  | ret (span : Span) (value : Option Expr)
  | call (span : Span) (expr : Expr)
  | label (span : Span) (name : String)
  | goto (span : Span) (name : String)
  | block (span : Span) (body : List Stmt)

structure SwitchCase where
  value : Expr
  body : List Stmt
  span : Span

end

structure FieldDecl where
  name : String
  ty : TypeRef
  init : Option Literal := none
  span : Span := {}

structure StructDecl where
  name : String
  fields : List FieldDecl
  span : Span := {}

/-- A member of an enum declaration. Without a value it is one more than the member before. -/
structure MemberDecl where
  name : String
  value : Option Int32 := none
  span : Span := {}

structure EnumDecl where
  name : String
  members : List MemberDecl
  span : Span := {}

structure StaticDecl where
  name : String
  ty : TypeRef
  init : Option Expr := none
  isArg : Bool := false
  span : Span := {}

structure GlobalDecl where
  name : String
  ty : TypeRef
  init : Option Expr := none
  span : Span := {}

structure GlobalBlockDecl where
  name : String
  vars : List GlobalDecl
  span : Span := {}

structure ParamDecl where
  name : String
  ty : TypeRef
  span : Span := {}

structure FunctionDecl where
  name : String
  params : List ParamDecl
  result : Option TypeRef := none
  body : List Stmt
  span : Span := {}

structure NativeDecl where
  name : String
  params : List ParamDecl
  result : Option TypeRef := none
  span : Span := {}

inductive Item where
  | struct (decl : StructDecl)
  | enum (decl : EnumDecl)
  | static (decl : StaticDecl)
  | globals (block : GlobalBlockDecl)
  | function (decl : FunctionDecl)
  | native (decl : NativeDecl)

abbrev Script := List Item

end GameScript
