import GameScript.Check.Checked
import GameScript.Script.Program

/-!
# Typing expressions

An expression is typed from the inside out against the symbols in scope. Operators on mixed numbers
convert the integer side; a number beside a vector is widened. Type names are values only under a
size.
-/
namespace GameScript

def Literal.type : Literal → Ty
  | .int _ => .int
  | .float _ => .float
  | .bool _ => .bool
  | .text _ => .string
  | .null => .null

/-- What a binary operator does with operands of certain types. -/
structure BinaryRule where
  lhs : Option Conversion := none
  rhs : Option Conversion := none
  result : Ty

/-- The rule for an operator on operands of the given types, if it is defined on them. -/
def binaryRule? (op : BinaryOp) (lhs rhs : Ty) : Option BinaryRule :=
  match lhs, rhs with
  | .int, .int =>
    if op.isArithmetic || op.isBitwise then some { result := .int }
    else some { result := .bool }
  | .float, .float =>
    if op.isArithmetic then some { result := .float }
    else if op.isComparison then some { result := .bool }
    else none
  | .int, .float =>
    if op.isArithmetic then some { lhs := some .intToFloat, result := .float }
    else if op.isComparison then some { lhs := some .intToFloat, result := .bool }
    else none
  | .float, .int =>
    if op.isArithmetic then some { rhs := some .intToFloat, result := .float }
    else if op.isComparison then some { rhs := some .intToFloat, result := .bool }
    else none
  | .int, .bool | .bool, .int => if op.isLogical then some { result := .bool } else none
  | .bool, .bool =>
    if op.isLogical || op.isBitwise || op.isEquality then some { result := .bool } else none
  | .vector, .vector =>
    if op.isArithmetic && op != .mod then some { result := .vector } else none
  | .vector, .float =>
    if op == .mul || op == .div then some { rhs := some .floatToVector, result := .vector }
    else none
  | .float, .vector =>
    if op == .mul || op == .div then some { lhs := some .floatToVector, result := .vector }
    else none
  | .enum a _, .enum b _ =>
    if op.isEquality && sameName a b then some { result := .bool } else none
  | .handle a, .handle b => if op.isEquality && a == b then some { result := .bool } else none
  | .handle _, .null | .null, .handle _ => if op.isEquality then some { result := .bool } else none
  | _, _ => none

def Conversion.type : Conversion → Ty
  | .intToFloat => .float
  | .floatToVector => .vector
  | .labelToString => .string

def TypedExpr.converted (x : TypedExpr) : Option Conversion → TypedExpr
  | none => x
  | some c => .convert c.type x.span c x

/-- Fit a value for storage where `target` is expected. A text label fits a text only by its
address. On failure the type of the value is given back. -/
def coerce (value : TypedExpr) (target : Ty) : Except Ty TypedExpr :=
  if !target.accepts value.ty then .error value.ty
  else
    match target, value.ty with
    | .string, .textLabel _ =>
      if value.isLValue then .ok (value.converted (some .labelToString)) else .error value.ty
    | _, _ => .ok value

namespace Typing

/-- Refuse type names where a value is needed. -/
def asValue (x : Checked TypedExpr) : Checked TypedExpr := do
  let value ← x
  match value.ty with
  | .typeName named => .fail value.span (.typeAsValue named.name)
  | _ => return value

def name (scope : Scope) (span : Span) (name : String) : Checked TypedExpr :=
  match scope.findName? name with
  | none => .fail span (.unknownName name)
  | some s =>
    match s.kind with
    | .arg slot | .frame slot => pure (.frame s.ty span slot)
    | .static _ _ => pure (.static s.ty span s.name)
    | .global => pure (.global s.ty span s.name)
    | .member value => pure (.const s.ty span (.int value))
    | .type => pure (.typeName (.typeName s.ty) span)
    | .function _ => .fail span (.requiredType ("'" ++ s.name ++ "'") "a value" "function")

/-- Whether a unary operator is defined on a type; the result has the same type. -/
def unaryDefined : UnaryOp → Ty → Bool
  | .neg, .int | .neg, .float | .neg, .vector => true
  | .not, .bool | .not, .int => true
  | _, _ => false

/-- Apply a unary operator. Literals are folded, so that a negative constant is a constant. -/
def unary (op : UnaryOp) (operand : TypedExpr) (span : Span) : Checked TypedExpr :=
  match op, operand with
  | .neg, .const .int _ (.int v) => pure (.const .int span (.int (-v)))
  | .neg, .const _ _ (.float v) => pure (.const .float span (.float v.neg))
  | .not, .const _ _ (.bool b) => pure (.const .bool span (.bool !b))
  | _, _ =>
    if unaryDefined op operand.ty then pure (.unary operand.ty span op operand)
    else .fail span (.invalidUnaryOperator op.text operand.ty.name)

def binary (op : BinaryOp) (lhs rhs : TypedExpr) (span : Span) : Checked TypedExpr :=
  match binaryRule? op lhs.ty rhs.ty with
  | none => .fail span (.invalidBinaryOperator op.text lhs.ty.name rhs.ty.name)
  | some rule =>
      pure (.binary rule.result span op (lhs.converted rule.lhs) (rhs.converted rule.rhs))

def field (target : TypedExpr) (name : String) (span : Span) : Checked TypedExpr :=
  match target.ty.field? name with
  | none => .fail span (.unknownField target.ty.name name)
  | some p =>
    if target.isLValue then
      pure (.field p.field.ty span target (UInt32.ofNat (p.offset / slotSize)))
    else .fail target.span .notAnLValue

def index (target index : TypedExpr) (span : Span) : Checked TypedExpr :=
  match target.ty with
  | .array item _ =>
    if index.ty != .int then .fail index.span (.requiredType "array index" "INT" index.ty.name)
    else if !target.isLValue then .fail target.span .notAnLValue
    else pure (.index item span target index (UInt32.ofNat item.slots))
  | _ => .fail span (.notIndexable target.ty.name)

/-- A coordinate of a vector, which must be a `FLOAT`. -/
def component (span : Span) (x : Checked TypedExpr) : Checked TypedExpr := do
  let value ← x
  if value.ty == .float then return value
  else .fail span (.requiredType "vector component" "FLOAT" value.ty.name)

/-- Fit arguments to parameters, the first of which has number `i`. Arguments beyond the last
parameter are checked and dropped. -/
def arguments : Nat → List Ty → List (Span × Checked TypedExpr) → Checked (List TypedExpr)
  | _, _, [] => pure []
  | i, params, (span, x) :: rest =>
    let fitted : Checked (Option TypedExpr) := do
      let value ← x
      match params with
      | [] => return none
      | param :: _ =>
        match coerce value param with
        | .ok value => return some value
        | .error found => .fail span (.argumentType i param.name found.name)
    let pair := fitted.both (arguments (i + 1) params.tail rest)
    { value? := pair.value?.map fun (value, values) => value.toList ++ values
      reports := pair.reports }

def argumentCount (expected found : Nat) (span : Span) : Checked Unit :=
  if found = expected then pure () else .fail span (.argumentCount expected found)

def call (scope : Scope) (callee : Expr) (args : List (Span × Checked TypedExpr)) (span : Span) :
    Checked TypedExpr :=
  match callee with
  | .name place name =>
    match scope.findName? name with
    | none => .fail place (.unknownName name)
    | some s =>
      match s.kind, s.ty with
      | .function linkage, .function result params => do
        let (_, values) ←
          (argumentCount params.length args.length span).both (arguments 0 params args)
        let ty := result.getD .void
        match linkage with
        | .script => return .call ty span s.name values
        | .native =>
          return .native ty span s.name values (UInt32.ofNat (slotsOf params))
            (UInt32.ofNat ((result.map Ty.slots).getD 0))
      | .function _, _ => .fail place (.notCallable s.name)
      | _, _ => .fail place (.notCallable name)
  | _ => .fail callee.span (.notCallable "expression")

/-- The size of a value or a named type, in slots. -/
def sizeOf (inner : TypedExpr) (span : Span) : TypedExpr :=
  let ty := match inner.ty with
    | .typeName named => named
    | other => other
  .const .int span (.int (Int32.ofNat ty.slots))

end Typing

mutual

/-- Type an expression, which may be the name of a type. -/
def typeExpr (scope : Scope) : Expr → Checked TypedExpr
  | .literal span (.text s) => pure (.string .string span s)
  | .literal span value => pure (.const value.type span value)
  | .name span name => Typing.name scope span name
  | .unary span op operand => do
    let operand ← Typing.asValue (typeExpr scope operand)
    Typing.unary op operand span
  | .binary span op lhs rhs => do
    let (lhs, rhs) ←
      (Typing.asValue (typeExpr scope lhs)).both (Typing.asValue (typeExpr scope rhs))
    Typing.binary op lhs rhs span
  | .field span target name => do
    let target ← Typing.asValue (typeExpr scope target)
    Typing.field target name span
  | .index span target index => do
    let (target, index) ←
      (Typing.asValue (typeExpr scope target)).both (Typing.asValue (typeExpr scope index))
    Typing.index target index span
  | .call span callee args => Typing.call scope callee (typeArgs scope args) span
  | .vector span x y z => do
    let cx := Typing.component x.span (Typing.asValue (typeExpr scope x))
    let cy := Typing.component y.span (Typing.asValue (typeExpr scope y))
    let cz := Typing.component z.span (Typing.asValue (typeExpr scope z))
    let (x, y, z) ← cx.both (cy.both cz)
    return .vector .vector span x y z
  | .sizeOf span inner => do
    let inner ← typeExpr scope inner
    return Typing.sizeOf inner span

/-- Type each argument of a call, with the place where it stands. -/
def typeArgs (scope : Scope) : List Expr → List (Span × Checked TypedExpr)
  | [] => []
  | arg :: rest => (arg.span, Typing.asValue (typeExpr scope arg)) :: typeArgs scope rest

end

def typeValue (scope : Scope) (e : Expr) : Checked TypedExpr := Typing.asValue (typeExpr scope e)

end GameScript
