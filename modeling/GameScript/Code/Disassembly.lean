import GameScript.Code.Assembly
import GameScript.Code.NativeNames

/-!
# Disassembly

Code is cut into instructions by the size rule, front to back. The addresses that something refers
to are then named: frame openings after the function they open, targets of jumps and switches after
their address. With these names the operands of every instruction are decoded in the form in which
assembly takes them.
-/
namespace GameScript

/-- The bytes of one instruction inside the code. -/
structure Cut where
  ip : Nat
  size : Nat
  /-- The code from the instruction on. -/
  rest : Bytes

def Cut.bytes (c : Cut) : Bytes := c.rest.take c.size

def Cut.op (c : Cut) : Op := Op.ofByte (c.rest.headD 0)

theorem OperandLayout.constantSize?_pos {l : OperandLayout} {n : Nat}
    (h : l.constantSize? = some n) : 0 < n := by
  cases l <;> grind [OperandLayout.constantSize?]

theorem Op.instructionSize?_pos {bs : Bytes} {n : Nat} (h : Op.instructionSize? bs = some n) :
    0 < n := by
  unfold Op.instructionSize? at h
  repeat' split at h
  all_goals grind [→ OperandLayout.constantSize?_pos, Option.map_eq_some_iff]

theorem Bytes.length_of_split? {n : Nat} {bs front rest : Bytes}
    (h : Bytes.split? n bs = some (front, rest)) : bs.length = n + rest.length := by
  induction n generalizing bs front rest with
  | zero => simp_all [Bytes.split?]
  | succ n ih =>
    cases bs with
    | nil => simp [Bytes.split?] at h
    | cons b bs =>
      simp only [Bytes.split?] at h
      split at h
      · next heq =>
        have := ih heq
        simp_all
        omega
      · contradiction

/-- Cut the code that starts at address `ip` into instructions. Code that ends inside an instruction
is refused with the address of that instruction. -/
def cutFrom (ip : Nat) (code : Bytes) : Except EncodingError (List Cut) :=
  if code.isEmpty then .ok []
  else
    match _hsize : Op.instructionSize? code with
    | none => .error (.truncatedInstruction ip)
    | some size =>
      match _hsplit : code.split? size with
      | none => .error (.truncatedInstruction ip)
      | some (_, rest) => do
        let more ← cutFrom (ip + size) rest
        return ⟨ip, size, code⟩ :: more
termination_by code.length
decreasing_by
  have := Op.instructionSize?_pos _hsize
  have := Bytes.length_of_split? _hsplit
  omega

/-- The name embedded in a frame opening: up to the first zero byte, without leading `0xFF`
bytes. -/
def embeddedName? (bytes : Bytes) : Option String :=
  match bytes with
  | _ :: _ :: _ :: _ :: length :: rest =>
    if length.toNat < 2 then none
    else
      match Bytes.split? length.toNat rest with
      | none => none
      | some (raw, _) =>
        let name := Utf8.decodeLossy (Bytes.beforeNul (raw.dropWhile (· == 0xFF)))
        if name.isEmpty then none else some name
  | _ => none

/-- The label of a frame opening at address `ip`. -/
def functionLabel (ip : Nat) (bytes : Bytes) : String :=
  match embeddedName? bytes with
  | some name => name
  | none => if ip = 0 then entryName else "func_" ++ toString ip

/-- The label of any other address. -/
def codeLabel (ip : Nat) : String := "lbl_" ++ toString ip

abbrev AddressLabels := List (Nat × String)

/-- The number in four bytes from `offset` on. -/
def addressAt (bytes : Bytes) (offset : Nat) : Nat := leValue ((bytes.drop offset).take 4)

/-- The addresses to which an instruction can jump. -/
def Cut.targets (c : Cut) : List Nat :=
  match c.op with
  | .named .jump | .named .jumpZero | .named .jumpNonzero => [addressAt c.bytes 1]
  | .named .switch =>
    (List.range ((c.bytes.drop 1).headD 0).toNat).map fun i => addressAt c.bytes (2 + 8 * i + 4)
  | _ => []

/-- Labels of the functions that frame openings begin. -/
def functionLabels (cuts : List Cut) : AddressLabels :=
  cuts.filterMap fun c =>
    match c.op with
    | .named .enter => some (c.ip, functionLabel c.ip c.bytes)
    | _ => none

/-- Label an address unless it has a label already. -/
def AddressLabels.addTarget (labels : AddressLabels) (ip : Nat) : AddressLabels :=
  if (labels.lookup ip).isSome then labels else labels ++ [(ip, codeLabel ip)]

/-- All labelled addresses: first the functions, then the targets of jumps. -/
def collectLabels (cuts : List Cut) : AddressLabels :=
  (cuts.flatMap Cut.targets).foldl AddressLabels.addTarget (functionLabels cuts)

def targetOperand (labels : AddressLabels) (ip : Nat) : Operand :=
  match labels.lookup ip with
  | some label => .ident label
  | none => .int ip

/-- The cases of a switch and the bytes they take. -/
def decodeCases (labels : AddressLabels) : Nat → Bytes → Option (List Operand × Nat)
  | 0, _ => some ([], 0)
  | n + 1, bs => do
    let (value, bs) ← bs.readWord?
    let (target, bs) ← bs.readWord?
    let (more, used) ← decodeCases labels n bs
    let label := (labels.lookup target.toNat).getD (toString target.toNat)
    return (.case value.toSigned label :: more, used + 8)

/-- Decode the operands that follow an opcode. The second component counts the bytes they take. -/
def decodeOperands? (labels : AddressLabels) (natives : NativeNames) (opcode : Opcode)
    (instruction operands : Bytes) : Option (List Operand × Nat) :=
  match opcode.layout with
  | .none => some ([], 0)
  | .u8 => do
    let (v, _) ← operands.read? 1
    return ([.int v], 1)
  | .u16 => do
    let (v, _) ← operands.read? 2
    return ([.int v], 2)
  | .u32 => do
    let (v, _) ← operands.read? 4
    return ([.int v], 4)
  | .f32 => do
    let (v, _) ← operands.readWord?
    return ([.float ⟨v⟩], 4)
  | .label | .function => do
    let (ip, _) ← operands.read? 4
    return ([targetOperand labels ip], 4)
  | .native => do
    let (params, bs) ← operands.read? 1
    let (results, bs) ← bs.read? 1
    let (hash, _) ← bs.readWord?
    let command :=
      match natives.find? hash with
      | some name => Operand.ident name
      | none => .int hash.toNat
    return ([.int params, .int results, command], 6)
  | .enter => do
    let (params, bs) ← operands.read? 1
    let (frame, bs) ← bs.read? 2
    let (length, bs) ← bs.read? 1
    let _ ← bs.split? length
    let name := (embeddedName? instruction).toList.map Operand.text
    return ([.int params, .int frame] ++ name, 4 + length)
  | .leave => do
    let (params, bs) ← operands.read? 1
    let (results, _) ← bs.read? 1
    return ([.int params, .int results], 2)
  | .switch => do
    let (count, bs) ← operands.read? 1
    let (cases, used) ← decodeCases labels count bs
    return (cases, 1 + used)
  | .string => do
    let (short, bs) ← operands.read? 1
    let (length, header, bs) ←
      if short = 0 then (bs.read? 2).map fun (long, bs) => (long, 3, bs) else some (short, 1, bs)
    let (raw, _) ← bs.split? length
    return ([.text (Utf8.decodeLossy (Bytes.beforeNul raw))], header + length)

structure Instruction where
  label : Option String
  ip : Nat
  op : Op
  operands : List Operand
  bytes : Bytes
deriving DecidableEq, Repr

/-- Decode one instruction. Its operands must take exactly the bytes that the size rule gives it. -/
def decodeCut (labels : AddressLabels) (natives : NativeNames) (c : Cut) :
    Except EncodingError Instruction := do
  let (operands, used) ←
    match c.op with
    | .named opcode =>
      match decodeOperands? labels natives opcode c.rest (c.rest.drop 1) with
      | some decoded => pure decoded
      | none => throw (.truncatedInstruction c.ip)
    | _ => pure ([], 0)
  if 1 + used = c.size then
    return ⟨labels.lookup c.ip, c.ip, c.op, operands, c.bytes⟩
  else throw (.lengthMismatch c.ip c.op.mnemonic c.size (1 + used))

structure Disassembly where
  instructions : List Instruction := []
  labels : AddressLabels := []
  codeLength : Nat := 0
deriving DecidableEq, Repr

namespace Disassembly

/-- A label on the end of the code, which no instruction carries. -/
def endLabel? (d : Disassembly) : Option String := d.labels.lookup d.codeLength

/-- The labelled addresses in ascending order. -/
def sortedLabels (d : Disassembly) : AddressLabels :=
  d.labels.mergeSort fun a b => decide (a.1 ≤ b.1)

end Disassembly

def disassemble (code : Bytes) (natives : NativeNames) : Except EncodingError Disassembly := do
  let cuts ← cutFrom 0 code
  let labels := collectLabels cuts
  let instructions ← cuts.mapM (decodeCut labels natives)
  return { instructions, labels, codeLength := code.length }

end GameScript
