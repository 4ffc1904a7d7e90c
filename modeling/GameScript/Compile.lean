import GameScript.Check.Script
import GameScript.Code.Assemble
import GameScript.Code.Listing
import GameScript.Container.Basic
import GameScript.Lowering.Body

/-!
# From scripts to images and back to listings

Compiling checks a script, generates its assembly, assembles it and writes the image of the
container. Inspecting reads an image and lists its code.
-/
namespace GameScript

structure CompileOptions where
  format : Format
  functionNames : Bool := false
  globalsSignature : Word := 0

/-- A compiled script: its container, the image of the container, and where each function starts. -/
structure CompiledImage where
  container : Container
  bytes : Bytes
  functions : List (String × Nat)

/-- The result of compiling. There is no image when the script has errors. -/
structure Compiled where
  diagnostics : Diagnostics
  image : Option CompiledImage

/-- Assemble a script into a container. The result also tells where each function starts. -/
def buildContainer (options : CompileOptions) (script : GeneratedScript) :
    Except EncodingError (Container × List (String × Nat)) := do
  let assembled ←
    assemble script.functions script.statics script.globals options.functionNames
  let container : Container := {
    format := options.format
    code := assembled.code
    statics := assembled.statics
    globals := assembled.globals
    argsCount := assembled.argsCount
    globalsSignature := options.globalsSignature }
  return (container, assembled.functions)

/-- Compile a script. Errors in the script are part of the result; what goes wrong later is a
failure. -/
def compile (z : Compression) (options : CompileOptions) (key : Option CipherKey)
    (script : Script) : Except Failure Compiled := do
  let checked := check script
  if !checked.isSuccess then return ⟨checked.diagnostics, none⟩
  let generated ← (generate checked.program).mapError .encoding
  let (container, functions) ← (buildContainer options generated).mapError .encoding
  let bytes ← container.encode z key
  return ⟨checked.diagnostics, some ⟨container, bytes, functions⟩⟩

def Container.listing (c : Container) (name : String) (natives : NativeNames) :
    Except EncodingError String :=
  ScriptParts.listing ⟨name, c.code, c.statics, c.globals, c.argsCount, c.globalsSignature⟩ natives

def inspect (z : Compression) (bs : Bytes) (game : Game) (key : Option CipherKey) (name : String)
    (natives : NativeNames) : Except Failure String := do
  let container ← Container.decode z bs game key
  (container.listing name natives).mapError .encoding

end GameScript
