import GameScript.Symbol.Basic

/-!
# Scopes and frames

While a function is checked, its arguments and locals live in nested blocks, and each of them owns
slots of the function's frame. The frame holds the arguments, two reserved slots, then the locals in
the order of their declarations; slots are not shared between blocks.
-/
namespace GameScript

/-- A named piece of a frame: an argument or a local. -/
structure Variable where
  name : String
  ty : Ty

def variableSlots (vs : List Variable) : Nat := slotsOf (vs.map Variable.ty)

/-- Frame slots between the arguments and the locals: the return address and the caller's frame. -/
def reservedSlots : Nat := 2

/-- The symbols visible inside one function, and the frame handed out so far. The block of the
function itself is never left, so there is always an innermost block. -/
structure Scope where
  globals : GlobalTable
  innermost : SymbolTable := []
  enclosing : List SymbolTable := []
  args : List Variable := []
  locals : List Variable := []
  argSlots : UInt32 := 0
  localSlots : UInt32 := 0

namespace Scope

def new (globals : GlobalTable) : Scope := { globals := globals }

def push (s : Scope) : Scope :=
  { s with innermost := [], enclosing := s.innermost :: s.enclosing }

/-- Leave the innermost block and forget its symbols. The function's own block stays. -/
def pop (s : Scope) : Scope :=
  match s.enclosing with
  | [] => s
  | outer :: rest => { s with innermost := outer, enclosing := rest }

/-- How many nested blocks are open inside the function. -/
def depth (s : Scope) : Nat := s.enclosing.length

def frameSize (s : Scope) : UInt32 := s.argSlots + UInt32.ofNat reservedSlots + s.localSlots

/-- Declare an argument; its first slot follows the arguments before it. -/
def declareArg (s : Scope) (name : String) (ty : Ty) (span : Span) :
    Except DeclarationError (UInt32 × Scope) := do
  let slot := s.argSlots
  let block ← s.innermost.insert ⟨name, ty, span, .arg slot⟩
  return (slot, { s with
    innermost := block
    args := s.args ++ [⟨name, ty⟩]
    argSlots := s.argSlots + UInt32.ofNat ty.slots })

/-- Declare a local in the innermost block; its first slot follows the frame handed out so far. A
name of an enclosing block may be used again. -/
def declareLocal (s : Scope) (name : String) (ty : Ty) (span : Span) :
    Except DeclarationError (UInt32 × Scope) := do
  let slot := s.frameSize
  let block ← s.innermost.insert ⟨name, ty, span, .frame slot⟩
  return (slot, { s with
    innermost := block
    locals := s.locals ++ [⟨name, ty⟩]
    localSlots := s.localSlots + UInt32.ofNat ty.slots })

/-- The symbol under an identity in the innermost open block that has one, else the global one. -/
def find? (s : Scope) (id : Identity) : Option Symbol :=
  match (s.innermost :: s.enclosing).findSome? (·.find? id) with
  | some symbol => some symbol
  | none => s.globals.find? id

def findName? (s : Scope) (name : String) : Option Symbol := s.find? (Identity.ofName name)

/-- Whether the innermost block itself declares the name. -/
def declaredHere (s : Scope) (name : String) : Bool :=
  (s.innermost.find? (Identity.ofName name)).isSome

end Scope
end GameScript
