import GameScript.Symbol.Basic

/-!
# Statement labels

The labels of one function share one table, whatever block they stand in.
-/
namespace GameScript

structure Label where
  name : String
  span : Span
deriving DecidableEq, Repr

abbrev LabelTable := List (Identity × Label)

namespace LabelTable

def findName? (t : LabelTable) (name : String) : Option Label := t.lookup (Identity.ofName name)

/-- Add a label whose identity must be free. -/
def add (t : LabelTable) (name : String) (span : Span) : Except DeclarationError LabelTable :=
  match t.findName? name with
  | some _ => .error (.duplicateLabel name)
  | none => .ok (t ++ [(Identity.ofName name, ⟨name, span⟩)])

end LabelTable
end GameScript
