import GameScript.Code.Assembly
import GameScript.Code.Buffer

/-!
# Encoding instructions

One instruction becomes a list of pieces: bytes that are known at once, and addresses of labels that
are filled in later. The size of the instruction does not depend on where the labels are.
-/
namespace GameScript

inductive Piece where
  | bytes (value : Bytes)
  /-- The four-byte address of the label `key`, written `name` in the source. -/
  | address (key name : String)
deriving DecidableEq, Repr

def functionKey (name : String) : String := foldName name

/-- The key of a label of one function in the label table. -/
def labelKey (function label : String) : String := foldName function ++ "." ++ foldName label

/-- What a label operand means inside one function: its own label of that name if it has one, else
the function of that name. -/
def referenceKey (function : String) (ownLabels : List String) (name : String) : String :=
  if ownLabels.contains (foldName name) then labelKey function name else functionKey name

/-- The folded names of the labels that a function defines. -/
def ownLabels (body : List Statement) : List String :=
  body.filterMap fun s => s.label.map foldName

namespace Encode

def expectCount (mnemonic : String) (operands : List Operand) (expected : Nat) :
    Except EncodingError Unit :=
  if operands.length = expected then .ok ()
  else .error (.operandCount mnemonic (toString expected) operands.length)

def intOperand (mnemonic : String) (operands : List Operand) (index : Nat) :
    Except EncodingError Int :=
  match operands[index]? with
  | some (.int v) => .ok v
  | _ => .error (.operandType mnemonic index "an integer")

def identOperand (mnemonic : String) (operands : List Operand) (index : Nat) :
    Except EncodingError String :=
  match operands[index]? with
  | some (.ident name) => .ok name
  | _ => .error (.operandType mnemonic index "an identifier")

def byteOf (mnemonic : String) (v : Int) : Except EncodingError Bytes :=
  if 0 ≤ v ∧ v < 0x100 then .ok (leBytes 1 v.toNat) else .error (.operandOutOfRange mnemonic v "u8")

def halfOf (mnemonic : String) (v : Int) : Except EncodingError Bytes :=
  if 0 ≤ v ∧ v < 0x10000 then .ok (leBytes 2 v.toNat)
  else .error (.operandOutOfRange mnemonic v "u16")

/-- An operand of four bytes, signed or unsigned; negative numbers in two's complement. -/
def wordOf (mnemonic : String) (v : Int) : Except EncodingError Bytes :=
  if -0x80000000 ≤ v ∧ v < 0x100000000 then .ok (leBytes 4 (v % 0x100000000).toNat)
  else .error (.operandOutOfRange mnemonic v "32 bits")

/-- The longest name that a frame opening carries, in bytes and without its closing zero. -/
def maxNameLength : Nat := 254

/-- The instruction that opens a frame, with an optional name. -/
def enter (params frame : Bytes) (name : Option String) : Bytes :=
  Opcode.enter.toByte :: params ++ frame ++
    match (name.map utf8Bytes).getD [] with
    | [] => [0]
    | bytes =>
      let kept := bytes.take maxNameLength
      UInt8.ofNat (kept.length + 1) :: kept ++ [0]

/-- The shortest instruction that pushes an integer. -/
def pushInt (mnemonic : String) (v : Int) : Except EncodingError Bytes :=
  match Op.push? v with
  | some op => .ok [op.toByte]
  | none =>
    if 0 ≤ v ∧ v < 0x10000 then .ok (Opcode.pushU16.toByte :: leBytes 2 v.toNat)
    else (wordOf mnemonic v).map (Opcode.pushU32.toByte :: ·)

/-- A text with its closing zero, after its length in the shortest form. -/
def string (mnemonic : String) (s : String) : Except EncodingError Bytes := do
  let body := utf8Bytes s ++ [0]
  let length ←
    if body.length < 0x100 then pure (leBytes 1 body.length)
    else (halfOf mnemonic body.length).map (0 :: ·)
  return Opcode.string.toByte :: length ++ body

/-- The number of a float operand; integers are rounded. -/
def floatOperand (mnemonic : String) (operands : List Operand) : Except EncodingError Binary32 :=
  match operands with
  | .float v :: _ => .ok v
  | .int v :: _ => .ok (Binary32.ofInt v)
  | _ => .error (.operandType mnemonic 0 "a number")

/-- The identity of a native command, given by its name or as a number. -/
def commandOperand (mnemonic : String) (operands : List Operand) : Except EncodingError Bytes :=
  match operands with
  | _ :: _ :: .ident name :: _ => .ok (Word.toBytes (Identity.ofName name).value)
  | _ :: _ :: .int v :: _ => wordOf mnemonic v
  | _ => .error (.operandType mnemonic 2 "a native name or hash")

/-- The name in a frame opening, which may be left out. -/
def nameOperand (mnemonic : String) (operands : List Operand) :
    Except EncodingError (Option String) :=
  match operands with
  | _ :: _ :: .text s :: _ | _ :: _ :: .ident s :: _ => .ok (some s)
  | _ :: _ :: _ :: _ => .error (.operandType mnemonic 2 "a name")
  | _ => .ok none

/-- The cases of a switch, the first of which is operand `index`. -/
def cases (mnemonic : String) (key : String → String) :
    Nat → List Operand → Except EncodingError (List Piece)
  | _, [] => .ok []
  | index, .case value label :: rest => do
    let word ← wordOf mnemonic value
    let more ← cases mnemonic key (index + 1) rest
    return .bytes word :: .address (key label) label :: more
  | index, _ :: _ => .error (.operandType mnemonic index "a switch case")

/-- The pieces of an instruction with a named opcode. `key` gives the meaning of a label operand. -/
def named (key : String → String) (mnemonic : String) (opcode : Opcode) (operands : List Operand) :
    Except EncodingError (List Piece) := do
  let first := opcode.toByte
  match opcode.layout with
  | .none =>
    expectCount mnemonic operands 0
    return [.bytes [first]]
  | .u8 =>
    expectCount mnemonic operands 1
    let v ← byteOf mnemonic (← intOperand mnemonic operands 0)
    return [.bytes (first :: v)]
  | .u16 =>
    expectCount mnemonic operands 1
    let v ← halfOf mnemonic (← intOperand mnemonic operands 0)
    return [.bytes (first :: v)]
  | .u32 =>
    expectCount mnemonic operands 1
    let v ← wordOf mnemonic (← intOperand mnemonic operands 0)
    return [.bytes (first :: v)]
  | .f32 =>
    expectCount mnemonic operands 1
    let v ← floatOperand mnemonic operands
    return [.bytes (first :: Word.toBytes v.bits)]
  | .label =>
    expectCount mnemonic operands 1
    let name ← identOperand mnemonic operands 0
    return [.bytes [first], .address (key name) name]
  | .function =>
    expectCount mnemonic operands 1
    let name ← identOperand mnemonic operands 0
    return [.bytes [first], .address (functionKey name) name]
  | .native =>
    expectCount mnemonic operands 3
    let params ← byteOf mnemonic (← intOperand mnemonic operands 0)
    let results ← byteOf mnemonic (← intOperand mnemonic operands 1)
    let command ← commandOperand mnemonic operands
    return [.bytes (first :: params ++ results ++ command)]
  | .enter =>
    if operands.length < 2 ∨ 3 < operands.length then
      throw (.operandCount mnemonic "2 or 3" operands.length)
    let params ← byteOf mnemonic (← intOperand mnemonic operands 0)
    let frame ← halfOf mnemonic (← intOperand mnemonic operands 1)
    let name ← nameOperand mnemonic operands
    return [.bytes (enter params frame name)]
  | .leave =>
    expectCount mnemonic operands 2
    let params ← byteOf mnemonic (← intOperand mnemonic operands 0)
    let results ← byteOf mnemonic (← intOperand mnemonic operands 1)
    return [.bytes (first :: params ++ results)]
  | .switch =>
    let count ← byteOf mnemonic operands.length
    let more ← cases mnemonic key 0 operands
    return .bytes (first :: count) :: more
  | .string =>
    expectCount mnemonic operands 1
    match operands with
    | .text s :: _ => return [.bytes (← string mnemonic s)]
    | _ => throw (.operandType mnemonic 0 "a string")

def instruction (key : String → String) (mnemonic : String) (operands : List Operand) :
    Except EncodingError (List Piece) :=
  if sameName mnemonic Statement.pushMnemonic then do
    expectCount mnemonic operands 1
    match operands with
    | .int v :: _ => return [.bytes (← pushInt mnemonic v)]
    | .float v :: _ => return [.bytes (Opcode.pushFloat.toByte :: Word.toBytes v.bits)]
    | _ => throw (.operandType mnemonic 0 "a number")
  else
    match Op.ofMnemonic? mnemonic with
    | none => .error (.unknownMnemonic mnemonic)
    | some (.named opcode) => named key mnemonic opcode operands
    | some op => do
      expectCount mnemonic operands 0
      return [.bytes [op.toByte]]

end Encode
end GameScript
