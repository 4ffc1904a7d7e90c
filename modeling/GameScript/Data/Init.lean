import GameScript.Symbol.Scope

/-!
# Initial contents of storage

The region of a static or global starts out as zeros. An `Init` tree, derived from the type and an
optional literal, says what is written over it: the counts of arrays, the defaults of struct fields,
and the literal itself.
-/
namespace GameScript

/-- How a region of storage is filled. -/
inductive Init where
  /-- Leave this many bytes zero. -/
  | zero (size : Nat)
  /-- Write a literal into a region of this many bytes. -/
  | literal (value : Literal) (size : Nat)
  /-- Regions back to back. -/
  | group (children : List Init)

namespace Init

mutual

/-- The initial contents of a type. A literal counts only for types without parts. -/
def ofType : Ty → Option Literal → Init
  | .array item length, _ =>
    let count := literal (.int (Int32.ofNat length.toNat)) slotSize
    match item with
    | .auto => group [count, zero (length.toNat * slotSize)]
    | _ => group (count :: List.replicate length.toNat (ofType item none))
  | .struct _ fields, _ => group (ofFields fields)
  | ty, some value => literal value ty.size
  | ty, none => zero ty.size

/-- The initial contents of each field, from its own default. -/
def ofFields : Fields → List Init
  | .nil => []
  | .cons _ ty init rest => ofType ty init :: ofFields rest

end

mutual

def size : Init → Nat
  | zero n => n
  | literal _ n => n
  | group children => sizes children

def sizes : List Init → Nat
  | [] => 0
  | c :: rest => c.size + sizes rest

end

/-- The error for a region of type `ty` that should take `expected` bytes and takes `written`. -/
def mismatch (ty : String) (expected written : Nat) : EncodingError :=
  .staticSizeMismatch ty expected written

/-- A text in a region of `n` bytes: as much of it as leaves room for a closing zero, then zeros. -/
def fillText (s : String) (n : Nat) : Bytes :=
  let kept := (utf8Bytes s).take (n - 1)
  kept ++ List.replicate (n - kept.length) 0

mutual

/-- The bytes of a region that starts where `room` bytes are left. -/
def write (ty : String) : Init → Nat → Except EncodingError Bytes
  | zero n, _ => .ok (List.replicate n 0)
  | literal (.text s) n, room =>
    if n ≤ room then .ok (fillText s n) else .error (mismatch ty room n)
  | literal value n, room =>
    match value.word? with
    | none => .error (.unsupported (.dataInitializer value ty))
    | some w =>
      if n ≠ slotSize then .error (mismatch ty n slotSize)
      else if slotSize ≤ room then .ok (Word.toBytes w)
      else .error (mismatch ty room slotSize)
  | group children, room => writeAll ty children room 0

/-- The bytes of regions back to back, the first of them `offset` bytes into a region of `room`
bytes. -/
def writeAll (ty : String) : List Init → Nat → Nat → Except EncodingError Bytes
  | [], _, _ => .ok []
  | c :: rest, room, offset =>
    if room < offset then .error (mismatch ty room offset)
    else do
      let front ← write ty c (room - offset)
      let back ← writeAll ty rest room (offset + front.length)
      return front ++ back

end
end Init

/-- The most bytes that can be allocated at once: 2^63 - 1. -/
def allocationLimit : Nat := 0x7FFFFFFFFFFFFFFF

/-- A variable in a data segment. Script arguments stand behind all others. -/
structure DataField where
  name : String
  ty : Ty
  init : Option Literal := none
  isArg : Bool := false

namespace DataField

def id (f : DataField) : Identity := Identity.ofName f.name

def tree (f : DataField) : Init := Init.ofType f.ty f.init

/-- The bytes of the variable's region, which is allocated before it is filled. -/
def bytes (f : DataField) : Except EncodingError Bytes :=
  let size := f.ty.size
  if allocationLimit < size then .error .capacityOverflow
  else do
    let written ← f.tree.write f.ty.name size
    if written.length = size then return written
    else throw (Init.mismatch f.ty.name size written.length)

end DataField
end GameScript
