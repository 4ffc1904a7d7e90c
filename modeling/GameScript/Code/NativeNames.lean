import GameScript.Identity
import GameScript.Text.Blank
import GameScript.Text.Utf8

/-!
# Names of native commands

Code refers to the commands of the game by identity. A name list gives the names back: one command
on a line, either its name alone or its identity in hexadecimal before it.
-/
namespace GameScript

structure NativeNames where
  entries : List (UInt32 × String) := []
deriving DecidableEq, Repr

namespace NativeNames

def find? (n : NativeNames) (hash : UInt32) : Option String := n.entries.lookup hash

/-- Name an identity; a name given before is replaced. -/
def insertHash (n : NativeNames) (hash : UInt32) (name : String) : NativeNames :=
  if (n.find? hash).isSome then
    ⟨n.entries.map fun e => if e.1 == hash then (hash, name) else e⟩
  else ⟨n.entries ++ [(hash, name)]⟩

/-- Name the identity of the name itself. -/
def insert (n : NativeNames) (name : String) : NativeNames :=
  n.insertHash (Identity.ofName name).value name

def ofNames (names : List String) : NativeNames := names.foldl insert {}

def size (n : NativeNames) : Nat := n.entries.length

/-- What a line of a name list adds. Blank lines, lines that start with `#`, malformed identities
and identities without a name add nothing; words after the first two are ignored. -/
def addLine (n : NativeNames) (line : List Char) : NativeNames :=
  match words line with
  | [] => n
  | ('#' :: _) :: _ => n
  | ('0' :: 'x' :: _) :: [] | ('0' :: 'X' :: _) :: [] => n
  | ('0' :: 'x' :: digits) :: name :: _ | ('0' :: 'X' :: digits) :: name :: _ =>
    match parseHexWord? digits with
    | some hash => n.insertHash hash (String.ofList name)
    | none => n
  | name :: _ => n.insert (String.ofList name)

def parse (text : String) : NativeNames := (lines text.toList).foldl addLine {}

/-- Read a name list from the bytes of a file, which must be well-formed UTF-8. -/
def load? (file : List UInt8) : Option NativeNames := (Utf8.decode? file).map parse

/-- The name of a command, or its identity in hexadecimal. -/
def display (n : NativeNames) (hash : UInt32) : String :=
  (n.find? hash).getD ("0x" ++ hexUpper 8 hash.toNat)

end NativeNames
end GameScript
