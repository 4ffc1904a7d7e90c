import GameScript.Code.Encode
import GameScript.Data.Segment

/-!
# Assembling scripts

Functions are written one after the other, the entry function first. Labels belong to their
function; all keys share one label table. Once every function is written, references are resolved
and the data segments are built.
-/
namespace GameScript

structure AssembledScript where
  code : Bytes := []
  statics : List Word := []
  globals : List Word := []
  /-- Slots of script arguments, at the end of the statics. -/
  argsCount : UInt32 := 0
  /-- Name and address of each function, in the order of their addresses. -/
  functions : List (String × Nat) := []
deriving DecidableEq, Repr

def CodeBuffer.writePieces (b : CodeBuffer) (pieces : List Piece) : CodeBuffer :=
  pieces.foldl (fun b piece =>
    match piece with
    | .bytes value => b.write value
    | .address key name => b.writeRef key name .absolute32) b

namespace Assemble

/-- Write a statement of `function`: define its label, then encode its instruction. -/
def statement (function : String) (own : List String) (b : CodeBuffer) (s : Statement) :
    Except EncodingError CodeBuffer := do
  let b ←
    match s.label with
    | none => pure b
    | some label =>
      match b.define (labelKey function label) with
      | .ok b => pure b
      | .error _ => throw (.duplicateLabel label)
  match s.mnemonic with
  | none => return b
  | some mnemonic =>
    let pieces ← Encode.instruction (referenceKey function own) mnemonic s.operands
    return (b.writePieces pieces).endInstruction

/-- The instruction that opens a function's frame; naked functions have none. -/
def prologue (f : FunctionDef) (withName : Bool) : Except EncodingError Bytes :=
  if f.naked then .ok []
  else do
    let mnemonic := Opcode.enter.mnemonic
    let params ← Encode.byteOf mnemonic f.argSlots
    let frame ← Encode.halfOf mnemonic f.frameSize
    return Encode.enter params frame (if withName then some f.name else none)

/-- Write a function: its label, its frame opening, and its statements. -/
def function (withNames : Bool) (b : CodeBuffer) (f : FunctionDef) :
    Except EncodingError CodeBuffer := do
  let b ← b.define (functionKey f.name)
  let opening ← prologue f withNames
  f.body.foldlM (statement f.name (ownLabels f.body)) (b.write opening).endInstruction

/-- Write functions one after the other, with the address at which each begins. -/
def functions (withNames : Bool) :
    CodeBuffer → List FunctionDef → Except EncodingError (CodeBuffer × List (String × Nat))
  | b, [] => .ok (b, [])
  | b, f :: rest => do
    let entry := (f.name, b.ip)
    let b ← function withNames b f
    let (b, entries) ← functions withNames b rest
    return (b, entry :: entries)

end Assemble

/-- Assemble a script. With `withNames`, frame openings carry the names of their functions. -/
def assemble (functions : List FunctionDef) (statics globals : List DataField)
    (withNames : Bool) : Except EncodingError AssembledScript := do
  let (buffer, entries) ← Assemble.functions withNames {} (orderFunctions functions)
  let code ← buffer.resolve
  let staticSegment ← buildSegment statics
  let globalSegment ← buildSegment globals
  return {
    code := code.toList
    statics := staticSegment.words
    globals := globalSegment.words
    argsCount := staticSegment.argsCount
    functions := entries }

end GameScript
