import GameScript.Bytes
import GameScript.Number.Shortest

/-!
# Literals

The constants that a script can write down. All but texts fit one storage slot.
-/
namespace GameScript

inductive Literal where
  | int (value : Int32)
  | float (value : Binary32)
  | bool (value : Bool)
  | text (value : String)
  | null
deriving DecidableEq, Repr

namespace Literal

/-- The word that holds the literal, when one word can. -/
def word? : Literal → Option Word
  | int v => some v.toUInt32
  | float v => some v.bits
  | bool b => some (if b then 1 else 0)
  | text _ => none
  | null => some 0

/-- Equality of values; floats compare as `Binary32.same` does. -/
def same : Literal → Literal → Bool
  | float a, float b => a.same b
  | a, b => a == b

/-- The literal as it appears in messages. Texts stand between quotes as they are. -/
def display : Literal → String
  | int v => toString v.toInt
  | float v => v.text
  | bool true => "TRUE"
  | bool false => "FALSE"
  | text s => "'" ++ s ++ "'"
  | null => "NULL"

end Literal
end GameScript
