import GameScript.Script.Source

/-!
# Checked programs

A checked script, ready for code generation. Names are resolved: arguments and locals are frame
slots, enum members and sizes are constants, and every expression knows its type.
-/
namespace GameScript

/-- A change of representation that the checker inserts. -/
inductive Conversion where
  | intToFloat
  /-- Use a number as all three coordinates. -/
  | floatToVector
  /-- Use the address of a text label as a text. -/
  | labelToString
deriving DecidableEq, Repr

inductive TypedExpr where
  /-- A constant other than a text. -/
  | const (ty : Ty) (span : Span) (value : Literal)
  | string (ty : Ty) (span : Span) (value : String)
  /-- The first frame slot of an argument or a local. -/
  | frame (ty : Ty) (span : Span) (slot : UInt32)
  | static (ty : Ty) (span : Span) (name : String)
  | global (ty : Ty) (span : Span) (name : String)
  /-- A type used as a value; it only has a meaning as the operand of a size. -/
  | typeName (ty : Ty) (span : Span)
  | convert (ty : Ty) (span : Span) (conversion : Conversion) (operand : TypedExpr)
  | unary (ty : Ty) (span : Span) (op : UnaryOp) (operand : TypedExpr)
  | binary (ty : Ty) (span : Span) (op : BinaryOp) (lhs rhs : TypedExpr)
  /-- A field `offset` slots into `target`. -/
  | field (ty : Ty) (span : Span) (target : TypedExpr) (offset : UInt32)
  | index (ty : Ty) (span : Span) (target index : TypedExpr) (itemSlots : UInt32)
  | call (ty : Ty) (span : Span) (name : String) (args : List TypedExpr)
  | native (ty : Ty) (span : Span) (name : String) (args : List TypedExpr)
      (argSlots resultSlots : UInt32)
  | vector (ty : Ty) (span : Span) (x y z : TypedExpr)

namespace TypedExpr

def ty : TypedExpr → Ty
  | const t _ _ | string t _ _ | frame t _ _ | static t _ _ | global t _ _ | typeName t _ => t
  | convert t _ _ _ | unary t _ _ _ | binary t _ _ _ _ | field t _ _ _ | index t _ _ _ _ => t
  | call t _ _ _ | native t _ _ _ _ _ | vector t _ _ _ _ => t

def span : TypedExpr → Span
  | const _ s _ | string _ s _ | frame _ s _ | static _ s _ | global _ s _ | typeName _ s => s
  | convert _ s _ _ | unary _ s _ _ | binary _ s _ _ _ | field _ s _ _ | index _ s _ _ _ => s
  | call _ s _ _ | native _ s _ _ _ _ | vector _ s _ _ _ => s

/-- Whether the expression names storage, which has an address. -/
def isLValue : TypedExpr → Bool
  | frame _ _ _ | static _ _ _ | global _ _ _ => true
  | field _ _ target _ => target.isLValue
  | index _ _ target _ _ => target.isLValue
  | _ => false

def literal? : TypedExpr → Option Literal
  | const _ _ value => some value
  | string _ _ value => some (.text value)
  | _ => none

def intConstant? : TypedExpr → Option Int32
  | const _ _ (.int value) => some value
  | _ => none

end TypedExpr

mutual

inductive TypedStmt where
  | assign (target value : TypedExpr)
  /-- Write the array counts and field defaults of a fresh local. -/
  | defaultInit (target : TypedExpr)
  | cond (condition : TypedExpr) (thenBody elseBody : List TypedStmt)
  | whileLoop (condition : TypedExpr) (body : List TypedStmt)
  | repeatLoop (limit counter : TypedExpr) (body : List TypedStmt)
  | switch (value : TypedExpr) (cases : List TypedCase) (default : Option (List TypedStmt))
  | ret (value : Option TypedExpr)
  /-- A call whose results are dropped. -/
  | expr (call : TypedExpr)
  | label (name : String)
  | goto (name : String)
  | block (body : List TypedStmt)

structure TypedCase where
  value : Int32
  body : List TypedStmt

end

/-- A static, script argument or global variable. -/
structure TypedData where
  name : String
  ty : Ty
  isArg : Bool := false
  init : Option TypedExpr := none
  span : Span := {}

/-- The initial value, when it can be stored in the data segment right away. -/
def TypedData.literal? (d : TypedData) : Option Literal := d.init.bind TypedExpr.literal?

structure TypedNative where
  name : String
  params : List Ty
  result : Option Ty

structure TypedFunction where
  name : String
  args : List Variable
  locals : List Variable
  result : Option Ty
  body : List TypedStmt
  span : Span := {}

namespace TypedFunction

def argSlots (f : TypedFunction) : Nat := variableSlots f.args

def resultSlots (f : TypedFunction) : Nat := (f.result.map Ty.slots).getD 0

def isMain (f : TypedFunction) : Bool := sameName f.name entryName

end TypedFunction

/-- A checked script with its types and top-level symbols. -/
structure TypedProgram where
  types : Registry := {}
  symbols : GlobalTable := {}
  statics : List TypedData := []
  globals : List TypedData := []
  natives : List TypedNative := []
  functions : List TypedFunction := []

/-- The first function of this name, in any case. -/
def TypedProgram.function? (p : TypedProgram) (name : String) : Option TypedFunction :=
  p.functions.find? fun f => sameName f.name name

end GameScript
