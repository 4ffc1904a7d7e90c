import GameScript.Text.Name
import GameScript.Text.Integer
import GameScript.Bytes

/-!
# Opcodes

Every instruction starts with one byte. The bytes up to `0x4C` are the named opcodes, those from
`0x50` push a small constant, and the three in between are not assigned. What follows an opcode is
given by its operand layout.
-/
namespace GameScript

/-- The named opcodes, in the order of their bytes. -/
inductive Opcode where
  | nop | iadd | isub | imul | idiv | imod | inot | ineg | ieq | ine | igt | ige | ilt | ile
  | fadd | fsub | fmul | fdiv | fmod | fneg | feq | fne | fgt | fge | flt | fle | vadd | vsub
  | vmul | vdiv | vneg | iand | ior | ixor | jump | jumpZero | jumpNonzero | intToFloat
  | floatToInt | floatToVector | pushU16 | pushU32 | pushFloat | dup | drop | native | call
  | enter | leave | load | store | storeRev | loadN | storeN | local0 | local1 | local2 | local3
  | local4 | local5 | local6 | local7 | frame | static | global | array | switch | string | null
  | labelAssignString | labelAssignInt | labelAppendString | labelAppendInt | trap | raise
  | labelCopy | callIndirect
deriving DecidableEq, Repr

/-- How the bytes after an opcode are laid out. -/
inductive OperandLayout where
  | none
  /-- One byte: a text label capacity. -/
  | u8
  | u16
  | u32
  | f32
  /-- The address of a label, in four bytes. -/
  | label
  /-- The address of a function, in four bytes. -/
  | function
  /-- Parameter slots, result slots, and the four bytes of a command's identity. -/
  | native
  /-- Parameter slots, frame slots in two bytes, and a name after its length. -/
  | enter
  /-- Parameter slots and result slots. -/
  | leave
  /-- A count, then a value and an address for each case. -/
  | switch
  /-- A length, then a text with its closing zero. Length zero announces a length in two bytes. -/
  | string
deriving DecidableEq, Repr

namespace Opcode

def all : List Opcode :=
  [ nop, iadd, isub, imul, idiv, imod, inot, ineg, ieq, ine, igt, ige, ilt, ile, fadd, fsub,
    fmul, fdiv, fmod, fneg, feq, fne, fgt, fge, flt, fle, vadd, vsub, vmul, vdiv, vneg, iand,
    ior, ixor, jump, jumpZero, jumpNonzero, intToFloat, floatToInt, floatToVector, pushU16,
    pushU32, pushFloat, dup, drop, native, call, enter, leave, load, store, storeRev, loadN,
    storeN, local0, local1, local2, local3, local4, local5, local6, local7, frame, static,
    global, array, switch, string, null, labelAssignString, labelAssignInt, labelAppendString,
    labelAppendInt, trap, raise, labelCopy, callIndirect ]

def toByte (o : Opcode) : UInt8 := UInt8.ofNat o.ctorIdx

def ofByte? (b : UInt8) : Option Opcode := all[b.toNat]?

def mnemonic : Opcode → String
  | nop => "NOP"
  | iadd => "IADD"
  | isub => "ISUB"
  | imul => "IMUL"
  | idiv => "IDIV"
  | imod => "IMOD"
  | inot => "INOT"
  | ineg => "INEG"
  | ieq => "IEQ"
  | ine => "INE"
  | igt => "IGT"
  | ige => "IGE"
  | ilt => "ILT"
  | ile => "ILE"
  | fadd => "FADD"
  | fsub => "FSUB"
  | fmul => "FMUL"
  | fdiv => "FDIV"
  | fmod => "FMOD"
  | fneg => "FNEG"
  | feq => "FEQ"
  | fne => "FNE"
  | fgt => "FGT"
  | fge => "FGE"
  | flt => "FLT"
  | fle => "FLE"
  | vadd => "VADD"
  | vsub => "VSUB"
  | vmul => "VMUL"
  | vdiv => "VDIV"
  | vneg => "VNEG"
  | iand => "IAND"
  | ior => "IOR"
  | ixor => "IXOR"
  | jump => "J"
  | jumpZero => "JZ"
  | jumpNonzero => "JNZ"
  | intToFloat => "I2F"
  | floatToInt => "F2I"
  | floatToVector => "F2V"
  | pushU16 => "PUSH_CONST_U16"
  | pushU32 => "PUSH_CONST_U32"
  | pushFloat => "PUSH_CONST_F"
  | dup => "DUP"
  | drop => "DROP"
  | native => "NATIVE"
  | call => "CALL"
  | enter => "ENTER"
  | leave => "LEAVE"
  | load => "LOAD"
  | store => "STORE"
  | storeRev => "STORE_REV"
  | loadN => "LOAD_N"
  | storeN => "STORE_N"
  | local0 => "LOCAL_0"
  | local1 => "LOCAL_1"
  | local2 => "LOCAL_2"
  | local3 => "LOCAL_3"
  | local4 => "LOCAL_4"
  | local5 => "LOCAL_5"
  | local6 => "LOCAL_6"
  | local7 => "LOCAL_7"
  | frame => "LOCAL"
  | static => "STATIC"
  | global => "GLOBAL"
  | array => "ARRAY"
  | switch => "SWITCH"
  | string => "STRING"
  | null => "NULL"
  | labelAssignString => "TEXT_LABEL_ASSIGN_STRING"
  | labelAssignInt => "TEXT_LABEL_ASSIGN_INT"
  | labelAppendString => "TEXT_LABEL_APPEND_STRING"
  | labelAppendInt => "TEXT_LABEL_APPEND_INT"
  | trap => "CATCH"
  | raise => "THROW"
  | labelCopy => "TEXT_LABEL_COPY"
  | callIndirect => "CALLINDIRECT"

/-- Look a mnemonic up, in any case. -/
def ofMnemonic? (text : String) : Option Opcode := all.find? fun o => sameName o.mnemonic text

def layout : Opcode → OperandLayout
  | jump | jumpZero | jumpNonzero => .label
  | call => .function
  | pushU16 => .u16
  | pushU32 => .u32
  | pushFloat => .f32
  | native => .native
  | enter => .enter
  | leave => .leave
  | switch => .switch
  | string => .string
  | labelAssignString | labelAssignInt | labelAppendString | labelAppendInt => .u8
  | _ => .none

def isJump : Opcode → Bool
  | jump | jumpZero | jumpNonzero => true
  | _ => false

/-- The opcode that pushes the address of one of the first eight frame slots. -/
def localAt? (slot : Nat) : Option Opcode :=
  [local0, local1, local2, local3, local4, local5, local6, local7][slot]?

end Opcode

/-- The size of an instruction with this layout, when its operands do not decide it. -/
def OperandLayout.constantSize? : OperandLayout → Option Nat
  | none => some 1
  | u8 => some 2
  | u16 | leave => some 3
  | u32 | f32 | label | function => some 5
  | native => some 7
  | enter | switch | string => Option.none

/-- What the first byte of an instruction says. -/
inductive Op where
  | named (opcode : Opcode)
  /-- Push the constant `n - 16`. -/
  | push (n : Fin 176)
  /-- One of the three bytes after the last named opcode. -/
  | unassigned (n : Fin 3)
deriving DecidableEq, Repr

namespace Op

/-- The first byte that pushes a small constant. -/
def firstPush : Nat := 0x50

/-- The first byte without a meaning. -/
def firstUnassigned : Nat := 0x4D

def ofByte (b : UInt8) : Op :=
  match Opcode.ofByte? b with
  | some opcode => named opcode
  | none =>
    if firstPush ≤ b.toNat then push (Fin.ofNat 176 (b.toNat - firstPush))
    else unassigned (Fin.ofNat 3 (b.toNat - firstUnassigned))

def toByte : Op → UInt8
  | named opcode => opcode.toByte
  | push n => UInt8.ofNat (firstPush + n.val)
  | unassigned n => UInt8.ofNat (firstUnassigned + n.val)

/-- The one-byte push of a constant from -16 to 159. -/
def push? (v : Int) : Option Op :=
  if -16 ≤ v ∧ v ≤ 159 then some (push (Fin.ofNat 176 (v + 16).toNat)) else none

/-- What every small push is called, up to its constant. -/
def pushStem : String := "PUSH_CONST_"

def mnemonic : Op → String
  | named opcode => opcode.mnemonic
  | push n =>
    if n.val < 16 then pushStem ++ "M" ++ toString (16 - n.val)
    else pushStem ++ toString (n.val - 16)
  | unassigned n => "INVALID_" ++ hexUpper 2 (firstUnassigned + n.val)

/-- Look a mnemonic up, in any case. Besides the named opcodes these are the small pushes, where the
letter `M` negates what follows it. -/
def ofMnemonic? (text : String) : Option Op :=
  match Opcode.ofMnemonic? text with
  | some opcode => some (named opcode)
  | none =>
    let stem := (foldName pushStem).toList
    let folded := (foldName text).toList
    if stem.isPrefixOf folded then
      match folded.drop stem.length with
      | 'm' :: digits => (parseInt64? digits).bind fun v => push? (-v)
      | digits => (parseInt64? digits).bind push?
    else none

/-- The size of the instruction at the front of a byte string. There is none when the bytes that
decide it are missing. -/
def instructionSize? : Bytes → Option Nat
  | [] => none
  | first :: rest =>
    match ofByte first with
    | push _ | unassigned _ => some 1
    | named opcode =>
      match opcode.layout with
      | .enter => rest[3]?.map fun n => 5 + n.toNat
      | .switch => rest[0]?.map fun n => 2 + 8 * n.toNat
      | .string =>
        match rest with
        | [] => none
        | n :: long =>
          if n == 0 then
            match long with
            | lo :: hi :: _ => some (4 + leValue [lo, hi])
            | _ => none
          else some (2 + n.toNat)
      | layout => layout.constantSize?

end Op
end GameScript
