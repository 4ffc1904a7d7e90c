import GameScript.Code.Disassembly
import GameScript.Text.Quoted

/-!
# Text listings

A listing shows a compiled script as text: a header, the data segments with runs of equal values
folded, and the disassembled code.
-/
namespace GameScript

/-- The parts of a compiled script that a listing shows. -/
structure ScriptParts where
  name : String
  code : Bytes := []
  statics : List Word := []
  globals : List Word := []
  /-- Slots of script arguments, at the end of the statics. -/
  argsCount : UInt32 := 0
  globalsSignature : Word := 0

/-- A run of equal values: one value and how often it occurs, counted with 32 bits. -/
structure Run where
  count : Int32
  value : Int
deriving DecidableEq, Repr

/-- Put a value in front of runs, into the first of them if that has the same value. -/
def consRun (value : Int) : List Run → List Run
  | [] => [⟨1, value⟩]
  | r :: rest => if r.value = value then ⟨r.count + 1, value⟩ :: rest else ⟨1, value⟩ :: r :: rest

/-- Fold values into runs that are as long as possible. -/
def foldRuns (values : List Int) : List Run := values.foldr consRun []

/-- A single value, or a count with the value in brackets. -/
def Run.text (r : Run) : String :=
  if r.count = 1 then ".int " ++ toString r.value
  else ".int " ++ toString r.count ++ " dup (" ++ toString r.value ++ ")"

def dataLines (indent : String) (words : List Word) : List String :=
  (foldRuns (words.map Word.toSigned)).map fun r => indent ++ r.text

namespace Operand

def render : Operand → String
  | int v => toString v
  | float v => v.text
  | text s => "'" ++ escape s ++ "'"
  | ident name => name
  | case v label => toString v ++ ":" ++ label

end Operand

/-- How deep instructions and data stand. -/
def indentation : String := "\t\t"

namespace Instruction

/-- The operands as text. A command that has no name is shown in hexadecimal. -/
def operandTexts (natives : NativeNames) (i : Instruction) : List String :=
  match i.op, i.operands with
  | .named .native, [params, results, .int hash] =>
    [params.render, results.render, natives.display (Word.ofInt hash)]
  | _, operands => operands.map Operand.render

/-- The lines of an instruction: its label, if it has one, and the instruction itself. Functions are
set off by a blank line. -/
def lines (natives : NativeNames) (i : Instruction) : List String :=
  let label :=
    match i.label, i.op with
    | none, _ => []
    | some name, .named .enter => ["", name ++ ":"]
    | some name, _ => ["\t" ++ name ++ ":"]
  let operands :=
    match i.operandTexts natives with
    | [] => ""
    | texts => " " ++ ", ".intercalate texts
  label ++ [indentation ++ i.op.mnemonic ++ operands]

end Instruction

namespace ScriptParts

/-- How many statics are not script arguments. -/
def plainCount (p : ScriptParts) : Nat := p.statics.length - p.argsCount.toNat

/-- The lines of one part of the statics, followed by a blank line, or nothing for an empty part. -/
def staticLines (title : String) (words : List Word) : List String :=
  if words.isEmpty then [] else title :: dataLines indentation words ++ [""]

/-- The lines of a listing of the script with the given disassembly. -/
def lines (p : ScriptParts) (d : Disassembly) (natives : NativeNames) : List String :=
  let header := [".script_name '" ++ escape p.name ++ "'"]
  let signature :=
    if p.globalsSignature = 0 then []
    else [".globals_signature 0x" ++ hexUpper 8 p.globalsSignature.toNat]
  let globals := if p.globals.isEmpty then [] else ".global" :: dataLines "" p.globals
  let statics := staticLines ".static" (p.statics.take p.plainCount)
  let args := staticLines ".arg" (p.statics.drop p.plainCount)
  let code :=
    if d.instructions.isEmpty then []
    else
      ".code" :: d.instructions.flatMap (Instruction.lines natives) ++
        d.endLabel?.toList.map fun label => "\t" ++ label ++ ":"
  header ++ signature ++ globals ++ statics ++ args ++ code

def listing (p : ScriptParts) (natives : NativeNames) : Except EncodingError String := do
  let d ← disassemble p.code natives
  return String.join ((p.lines d natives).map (· ++ "\n"))

end ScriptParts
end GameScript
