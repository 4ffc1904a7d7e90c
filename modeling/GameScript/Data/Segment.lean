import GameScript.Data.Init

/-!
# Data segments

The variables of a segment lie back to back, each from a slot boundary on: first those that are not
script arguments, then the arguments, each group in the order of declaration.
-/
namespace GameScript

/-- Variables in the order of their slots. -/
def layoutOrder (fields : List DataField) : List DataField :=
  fields.filter (fun f => !f.isArg) ++ fields.filter DataField.isArg

/-- Name and first slot of each variable, from slot `next` on. -/
def placeFrom (next : Nat) : List DataField → List (String × Nat)
  | [] => []
  | f :: rest => (f.name, next) :: placeFrom (next + f.ty.slots) rest

/-- Name and first slot of each variable, in the order of their slots. -/
def segmentLayout (fields : List DataField) : List (String × Nat) :=
  placeFrom 0 (layoutOrder fields)

structure Segment where
  words : List Word := []
  /-- Slots of script arguments, at the end. -/
  argsCount : UInt32 := 0
  layout : List (String × Nat) := []
deriving DecidableEq, Repr

/-- Fill bytes up to a slot boundary with zeros. -/
def padToSlot (bs : Bytes) : Bytes :=
  bs ++ List.replicate (slotSize * slotsFor bs.length - bs.length) 0

/-- The padded regions of variables, each with the variable and its first slot. -/
def regionsFrom (next : Nat) : List DataField →
    Except EncodingError (List (DataField × Nat × Bytes))
  | [] => .ok []
  | f :: rest => do
    let region := padToSlot (← f.bytes)
    let more ← regionsFrom (next + region.length / slotSize) rest
    return (f, next, region) :: more

/-- Build a segment from its variables. The arguments are counted in bytes, before padding. -/
def buildSegment (fields : List DataField) : Except EncodingError Segment := do
  let regions ← regionsFrom 0 (layoutOrder fields)
  let argBytes := (fields.filter DataField.isArg).foldr (fun f n => f.ty.size + n) 0
  return {
    words := regions.flatMap fun r => wordsOfBytes r.2.2
    argsCount := UInt32.ofNat (slotsFor argBytes)
    layout := regions.map fun r => (r.1.name, r.2.1) }

end GameScript
