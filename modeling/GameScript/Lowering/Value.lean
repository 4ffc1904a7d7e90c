import GameScript.Code.Assembly
import GameScript.Data.Segment
import GameScript.Script.Program

/-!
# Code for expressions

An expression becomes statements that push its value, or its address if it names storage. A value of
`n` slots takes `n` places on the stack. Values of one slot are moved by `LOAD` and `STORE`, wider
ones by `LOAD_N` and `STORE_N` with their size on the stack.
-/
namespace GameScript

/-- First slot of each static and global, under its folded name. -/
structure DataLayout where
  statics : List (String × Nat) := []
  globals : List (String × Nat) := []

namespace DataLayout

/-- Slots by folded name. Of several equal names the last counts, so it comes first. -/
def slotMap (fields : List DataField) : List (String × Nat) :=
  (segmentLayout fields).reverse.map fun (name, slot) => (foldName name, slot)

def ofFields (statics globals : List DataField) : DataLayout :=
  ⟨slotMap statics, slotMap globals⟩

/-- The first slot of a variable; `kind` is its name in messages. -/
def slot (table : List (String × Nat)) (kind name : String) : Except EncodingError Nat :=
  match table.lookup (foldName name) with
  | some slot => .ok slot
  | none => .error (.unsupported (.unknownStorage kind name))

end DataLayout

namespace Lowering

open Statement (op push pushInt)

/-- Add a number of slots to the address on top of the stack. -/
def offset (slots : UInt32) : List Statement :=
  if slots = 0 then [] else [pushInt slots.toNat, op .iadd]

def literal : Literal → List Statement
  | .int v => [pushInt v.toInt]
  | .float v => [push (.float v)]
  | .bool b => [pushInt (if b then 1 else 0)]
  | .text s => [op .string [.text s]]
  | .null => [op .null]

/-- Push the address of a frame slot. The first eight have opcodes of their own. -/
def frameAddress (slot : UInt32) : List Statement :=
  match Opcode.localAt? slot.toNat with
  | some opcode => [op opcode]
  | none => [pushInt slot.toNat, op .frame]

def unaryOpcode : UnaryOp → Ty → Opcode
  | .neg, .float => .fneg
  | .neg, .vector => .vneg
  | .neg, _ => .ineg
  | .not, _ => .inot

def binaryOpcode? : BinaryOp → Ty → Option Opcode
  | .and, _ => some .iand
  | .or, _ => some .ior
  | .add, .float => some .fadd
  | .sub, .float => some .fsub
  | .mul, .float => some .fmul
  | .div, .float => some .fdiv
  | .mod, .float => some .fmod
  | .eq, .float => some .feq
  | .ne, .float => some .fne
  | .lt, .float => some .flt
  | .le, .float => some .fle
  | .gt, .float => some .fgt
  | .ge, .float => some .fge
  | .add, .vector => some .vadd
  | .sub, .vector => some .vsub
  | .mul, .vector => some .vmul
  | .div, .vector => some .vdiv
  | _, .float | _, .vector => none
  | .add, _ => some .iadd
  | .sub, _ => some .isub
  | .mul, _ => some .imul
  | .div, _ => some .idiv
  | .mod, _ => some .imod
  | .bitAnd, _ => some .iand
  | .bitOr, _ => some .ior
  | .bitXor, _ => some .ixor
  | .eq, _ => some .ieq
  | .ne, _ => some .ine
  | .lt, _ => some .ilt
  | .le, _ => some .ile
  | .gt, _ => some .igt
  | .ge, _ => some .ige

def binaryOp (o : BinaryOp) (operand : Ty) : Except EncodingError Statement :=
  match binaryOpcode? o operand with
  | some opcode => .ok (op opcode)
  | none => .error (.unsupported (.operator o.text operand.name))

/-- Read `slots` slots from the address that `address` pushes. -/
def loadFrom (slots : Nat) (address : List Statement) : List Statement :=
  if slots = 1 then address ++ [op .load] else [pushInt slots] ++ address ++ [op .loadN]

mutual

def address (layout : DataLayout) : TypedExpr → Except EncodingError (List Statement)
  | .frame _ _ slot => .ok (frameAddress slot)
  | .static _ _ name => do
    let slot ← DataLayout.slot layout.statics "static" name
    return [pushInt slot, op .static]
  | .global _ _ name => do
    let slot ← DataLayout.slot layout.globals "global" name
    return [pushInt slot, op .global]
  | .field _ _ target slots => do
    let target ← address layout target
    return target ++ offset slots
  | .index _ _ target index itemSlots => do
    let index ← value layout index
    let target ← address layout target
    return index ++ target ++ [pushInt itemSlots.toNat, op .array]
  | e => .error (.unsupported (.addressOf e.ty.name))

def value (layout : DataLayout) : TypedExpr → Except EncodingError (List Statement)
  | .const _ _ v => .ok (literal v)
  | .string _ _ s => .ok [op .string [.text s]]
  | .frame ty _ slot => .ok (loadFrom ty.slots (frameAddress slot))
  | .static ty _ name => do
    let slot ← DataLayout.slot layout.statics "static" name
    return loadFrom ty.slots [pushInt slot, op .static]
  | .global ty _ name => do
    let slot ← DataLayout.slot layout.globals "global" name
    return loadFrom ty.slots [pushInt slot, op .global]
  | .field ty _ target slots => do
    let target ← address layout target
    return loadFrom ty.slots (target ++ offset slots)
  | .index ty _ target index itemSlots => do
    let index ← value layout index
    let target ← address layout target
    return loadFrom ty.slots (index ++ target ++ [pushInt itemSlots.toNat, op .array])
  | .typeName ty _ => .error (.unsupported (.typeNameValue ty.name))
  | .convert _ _ .intToFloat operand => do
    let operand ← value layout operand
    return operand ++ [op .intToFloat]
  | .convert _ _ .floatToVector operand => do
    let operand ← value layout operand
    return operand ++ [op .floatToVector]
  | .convert _ _ .labelToString operand => address layout operand
  | .unary _ _ o operand => do
    let code ← value layout operand
    return code ++ [op (unaryOpcode o operand.ty)]
  | .binary _ _ o lhs rhs => do
    let left ← value layout lhs
    let right ← value layout rhs
    return left ++ right ++ [← binaryOp o lhs.ty]
  | .call _ _ name args => do
    let args ← values layout args
    return args ++ [op .call [.ident name]]
  | .native _ _ name args argSlots resultSlots => do
    let args ← values layout args
    return args ++
      [op .native [.int argSlots.toNat, .int resultSlots.toNat, .ident name]]
  | .vector _ _ x y z => do
    let x ← value layout x
    let y ← value layout y
    let z ← value layout z
    return x ++ y ++ z

def values (layout : DataLayout) : List TypedExpr → Except EncodingError (List Statement)
  | [] => .ok []
  | e :: rest => do
    let first ← value layout e
    let more ← values layout rest
    return first ++ more

end

/-- Push the value of an expression that names storage by reading it. -/
def load (layout : DataLayout) (e : TypedExpr) : Except EncodingError (List Statement) := do
  return loadFrom e.ty.slots (← address layout e)

/-- Write a value of any other type as it lies on the stack. -/
def storePlain (layout : DataLayout) (target source : TypedExpr) :
    Except EncodingError (List Statement) := do
  let source ← value layout source
  let place ← address layout target
  if target.ty.slots = 1 then return source ++ place ++ [op .store]
  else return source ++ [pushInt target.ty.slots] ++ place ++ [op .storeN]

/-- Write a value to storage. Texts are copied into text labels, and text labels of different
capacities into each other, by instructions of their own. -/
def store (layout : DataLayout) (target source : TypedExpr) :
    Except EncodingError (List Statement) :=
  match target.ty, source.ty with
  | .textLabel length, .string => do
    let code ← value layout source
    let place ← address layout target
    return code ++ place ++ [op .labelAssignString [.int length.toNat]]
  | .textLabel length, .textLabel sourceLength =>
    if sourceLength = length then storePlain layout target source
    else do
      let code ← value layout source
      let place ← address layout target
      return code ++ [pushInt source.ty.slots, pushInt target.ty.slots] ++ place ++ [op .labelCopy]
  | _, _ => storePlain layout target source

mutual

/-- Write array counts and field defaults below the address on top of the stack, which stays
there. -/
def initInPlace : Ty → List Statement
  | .array item length =>
    [pushInt length.toNat, op .storeRev] ++
      if item.needsDefaultInit then
        [op .dup] ++ offset 1 ++
          (List.replicate length.toNat
            (initInPlace item ++ offset (UInt32.ofNat item.slots))).flatten ++
          [op .drop]
      else []
  | .struct _ fields => initFields 0 fields
  | _ => []

/-- Write the defaults of fields, the first of which lies `start` bytes into the whole. -/
def initFields (start : Nat) : Fields → List Statement
  | .nil => []
  | .cons _ ty init rest =>
    let move := [op .dup] ++ offset (UInt32.ofNat (start / slotSize))
    let here :=
      match init with
      | some v => move ++ literal v ++ [op .storeRev, op .drop]
      | none => if ty.needsDefaultInit then move ++ initInPlace ty ++ [op .drop] else []
    here ++ initFields (start + ty.size) rest

end

end Lowering
end GameScript
