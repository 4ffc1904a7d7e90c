import GameScript.Deflate.Bits
import GameScript.Error

/-!
# Code trees

A compressed block gives the length of the code of each symbol and nothing else. The codes follow
from two rules: codes of one length are in the order of their symbols, and shorter codes come before
longer ones. Level by level, then, the nodes of the tree are the symbols of that length followed by
the inner nodes, which are the pairs of nodes one level deeper.
-/
namespace GameScript

/-- A tree of codes: a clear bit goes left and a set bit goes right. -/
inductive CodeTree where
  | missing
  | symbol (s : Nat)
  | branch (left right : CodeTree)
deriving Repr, DecidableEq

namespace CodeTree

def maxLength : Nat := 15

/-- The inner nodes above the given nodes. -/
def pairs : List CodeTree → List CodeTree
  | a :: b :: rest => .branch a b :: pairs rest
  | [a] => [.branch a .missing]
  | [] => []

/-- The symbols whose codes have the given length. -/
def symbolsOf (lengths : List Nat) (length : Nat) : List CodeTree :=
  lengths.zipIdx.filterMap fun (l, s) => if l = length then some (.symbol s) else none

/-- The nodes at depth `depth`, where `levels` levels reach down to the longest codes. -/
def nodesAt (lengths : List Nat) (depth : Nat) : Nat → List CodeTree
  | 0 => []
  | levels + 1 => symbolsOf lengths depth ++ pairs (nodesAt lengths (depth + 1) levels)

/-- The part of all codes of the greatest length that the given lengths take up. -/
def weight : List Nat → Nat
  | [] => 0
  | 0 :: rest => weight rest
  | l :: rest => Nat.pow 2 (maxLength - l) + weight rest

/-- Whether the codes of the given lengths use up the tree exactly. -/
def isComplete (lengths : List Nat) : Bool := weight lengths = Nat.pow 2 maxLength

/-- The tree of the codes with the given lengths, where zero is the length of a symbol without a
code. A tree without codes still has its first branch: one bit is read before the code is found
missing. -/
def ofLengths (lengths : List Nat) : CodeTree :=
  (pairs (nodesAt lengths 1 maxLength)).headD (.branch .missing .missing)

def read : CodeTree → BitStream → Except StreamFault (Nat × BitStream)
  | .missing, _ => .error .corrupt
  | .symbol s, bits => .ok (s, bits)
  | .branch left right, bits =>
    match bits.next? with
    | none => .error .incomplete
    | some (false, bits) => left.read bits
    | some (true, bits) => right.read bits

end CodeTree
end GameScript
