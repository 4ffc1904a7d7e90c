import GameScript.Code.Opcode
import GameScript.Symbol.Scope

/-!
# Assembly

A function of assembly is a named list of statements, each with an optional label and an optional
instruction, together with the arguments and locals that size its frame.
-/
namespace GameScript

inductive Operand where
  | int (value : Int)
  | float (value : Binary32)
  | text (value : String)
  /-- The name of a label, a function or a native command. -/
  | ident (name : String)
  /-- A value of a switch and where it leads. -/
  | case (value : Int) (label : String)
deriving DecidableEq, Repr

/-- One line of assembly. -/
structure Statement where
  label : Option String := none
  mnemonic : Option String := none
  operands : List Operand := []
deriving DecidableEq, Repr

namespace Statement

/-- A line that only defines a label. -/
def mark (label : String) : Statement := { label := some label }

def op (opcode : Opcode) (operands : List Operand := []) : Statement :=
  { mnemonic := some opcode.mnemonic, operands := operands }

/-- The mnemonic that stands for the shortest push of its operand. -/
def pushMnemonic : String := "PUSH_CONST"

/-- Push a constant in whatever form is shortest. -/
def push (value : Operand) : Statement :=
  { mnemonic := some pushMnemonic, operands := [value] }

def pushInt (value : Int) : Statement := push (.int value)

end Statement

/-- A function ready to be assembled. A naked one opens no frame of its own. -/
structure FunctionDef where
  name : String
  naked : Bool := false
  args : List Variable := []
  locals : List Variable := []
  result : Option Ty := none
  body : List Statement := []

namespace FunctionDef

/-- Check a definition: a naked function has no arguments, locals or result. -/
def validate (f : FunctionDef) : Except DeclarationError FunctionDef :=
  if f.naked && (!f.args.isEmpty || !f.locals.isEmpty || f.result.isSome) then
    .error (.malformedNakedFunction f.name)
  else .ok f

def id (f : FunctionDef) : Identity := Identity.ofName f.name

/-- Whether the script starts in this function. Names are told apart by identity. -/
def isEntry (f : FunctionDef) : Bool := f.id == Identity.ofName entryName

/-- One bit for the entry function and one for naked functions. -/
def flags (f : FunctionDef) : Nat := (if f.isEntry then 1 else 0) + (if f.naked then 2 else 0)

def argSlots (f : FunctionDef) : Nat := variableSlots f.args

def localSlots (f : FunctionDef) : Nat := variableSlots f.locals

def resultSlots (f : FunctionDef) : Nat := (f.result.map Ty.slots).getD 0

/-- Arguments, the reserved slots, then locals. -/
def frameSize (f : FunctionDef) : Nat := f.argSlots + reservedSlots + f.localSlots

end FunctionDef

/-- Move the entry function to the front by exchanging it with the first one. -/
def orderFunctions (fs : List FunctionDef) : List FunctionDef :=
  match fs.findIdx? FunctionDef.isEntry, fs with
  | some (i + 1), first :: rest =>
    match rest[i]? with
    | some entry => entry :: rest.set i first
    | none => fs
  | _, _ => fs

end GameScript
