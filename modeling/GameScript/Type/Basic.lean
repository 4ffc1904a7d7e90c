import GameScript.Error

/-!
# Script types

A type says how much storage a value takes and what can be done with it. Sizes are in bytes; a
scalar fills one slot of four bytes and a vector three. An array is preceded in memory by its
element count. Sizes are exact, as those that 64 bits hold are for the machine; a type of 2^64 bytes
or more is beyond what it can count.
-/
namespace GameScript

inductive HandleKind where
  | player
  | entity
  | ped
  | vehicle
  | object
  | camera
  | pickup
  | blip
deriving DecidableEq, Repr

namespace HandleKind

def all : List HandleKind :=
  [player, entity, ped, vehicle, object, camera, pickup, blip]

def name : HandleKind → String
  | player => "PLAYER_INDEX"
  | entity => "ENTITY_INDEX"
  | ped => "PED_INDEX"
  | vehicle => "VEHICLE_INDEX"
  | object => "OBJECT_INDEX"
  | camera => "CAMERA_INDEX"
  | pickup => "PICKUP_INDEX"
  | blip => "BLIP_INFO_ID"

/-- Peds, vehicles and objects are entities. -/
def isEntity : HandleKind → Bool
  | entity | ped | vehicle | object => true
  | player | camera | pickup | blip => false

end HandleKind

mutual

/-- A script type. Its size in bytes is kept with it, and so is whether a fresh variable has to be
written to: arrays hold their count, and struct fields may have defaults. -/
inductive Ty where
  | void
  | int
  | float
  | bool
  /-- A reference to a constant text. -/
  | string
  | null
  | any
  /-- A type that is still to be inferred. -/
  | auto
  | vector
  | handle (kind : HandleKind)
  /-- A text stored in place, with its capacity in bytes. -/
  | textLabel (length : UInt32)
  | enum (name : String) (members : List (String × Int32))
  | struct (name : String) (fields : Fields)
  | array (item : Ty) (length : UInt32)
  /-- A signature; procedures have no result. -/
  | function (result : Option Ty) (params : List Ty)
  /-- The type of an expression that names a type. -/
  | typeName (named : Ty)
with
  @[computed_field] size : Ty → Nat
    | .void | .typeName _ => 0
    | .int | .float | .bool | .string | .null | .any | .auto => slotSize
    | .handle _ | .enum _ _ | .function _ _ => slotSize
    | .vector => 3 * slotSize
    | .textLabel n => n.toNat
    | .struct _ fields => fields.size
    | .array item length => slotSize + length.toNat * item.size
  @[computed_field] needsDefaultInit : Ty → Bool
    | .array _ _ => true
    | .struct _ fields => fields.needDefaultInit
    | _ => false

/-- The fields of a struct in order, each with the constant that a fresh value holds there. Their
total size is kept with them, and so is whether any of them has a default or needs one of its
own. -/
inductive Fields where
  | nil
  | cons (name : String) (ty : Ty) (init : Option Literal) (rest : Fields)
with
  @[computed_field] size : Fields → Nat
    | .nil => 0
    | .cons _ ty _ rest => ty.size + rest.size
  @[computed_field] needDefaultInit : Fields → Bool
    | .nil => false
    | .cons _ ty init rest => init.isSome || ty.needsDefaultInit || rest.needDefaultInit

end

instance : Inhabited Ty := ⟨.void⟩

structure Field where
  name : String
  ty : Ty
  init : Option Literal

namespace Fields

def ofList (fields : List Field) : Fields := fields.foldr (fun f => .cons f.name f.ty f.init) .nil

def toList : Fields → List Field
  | .nil => []
  | .cons name ty init rest => ⟨name, ty, init⟩ :: rest.toList

end Fields

def Ty.ofFields (name : String) (fields : List Field) : Ty := .struct name (.ofList fields)

/-- The number of slots that hold `n` bytes. -/
def slotsFor (n : Nat) : Nat := (n + 3) / slotSize

/-- Size in slots, rounded up. -/
def Ty.slots (t : Ty) : Nat := slotsFor t.size

/-- Total size of a list of types in slots, each rounded up by itself. -/
def slotsOf : List Ty → Nat
  | [] => 0
  | t :: rest => t.slots + slotsOf rest

mutual

/-- The canonical name; its identity is the type's key in a registry. A text label is named for the
characters it can hold besides the closing zero. -/
def Ty.name : Ty → String
  | .void => "VOID"
  | .int => "INT"
  | .float => "FLOAT"
  | .bool => "BOOL"
  | .string => "STRING"
  | .null => "NULL"
  | .any => "ANY"
  | .auto => "AUTO"
  | .vector => "VECTOR"
  | .handle kind => kind.name
  | .textLabel n => "TEXT_LABEL_" ++ toString (n.toNat - 1)
  | .enum name _ => name
  | .struct name _ => name
  | .array item length => item.name ++ "[" ++ toString length.toNat ++ "]"
  | .function (some result) params =>
    "FUNC " ++ result.name ++ "(" ++ ", ".intercalate (Ty.names params) ++ ")"
  | .function none params => "PROC(" ++ ", ".intercalate (Ty.names params) ++ ")"
  | .typeName named => "TYPENAME(" ++ named.name ++ ")"

def Ty.names : List Ty → List String
  | [] => []
  | t :: rest => t.name :: Ty.names rest

end

/-- The key of a type in a registry. -/
def Ty.identity (t : Ty) : Identity := Identity.ofName t.name

/-- A field with its byte offset from the start of the whole. -/
structure PlacedField where
  field : Field
  offset : Nat

/-- Fields laid out back to back from the offset `start`. -/
def placeFields (start : Nat) : Fields → List PlacedField
  | .nil => []
  | .cons name ty init rest => ⟨⟨name, ty, init⟩, start⟩ :: placeFields (start + ty.size) rest

namespace Ty

/-- Look a member up by name in anything that has named members: structs, vectors with their three
coordinates, and handles with their raw value. -/
def field? (name : String) : Ty → Option PlacedField
  | struct _ fields => (placeFields 0 fields).find? fun p => sameName p.field.name name
  | vector =>
    let coordinates := Fields.ofList [⟨"x", float, none⟩, ⟨"y", float, none⟩, ⟨"z", float, none⟩]
    (placeFields 0 coordinates).find? fun p => sameName p.field.name name
  | handle _ => if sameName name "value" then some ⟨⟨"value", int, none⟩, 0⟩ else none
  | _ => none

/-- The value of an enum member; the first of several equal names counts. -/
def member? (name : String) : Ty → Option Int32
  | enum _ members => (members.find? fun m => sameName m.1 name).map Prod.snd
  | _ => none

/-- The types that a type is built from, in the order in which they are written. -/
def children : Ty → List Ty
  | struct _ fields => fields.toList.map Field.ty
  | array item _ => [item]
  | function result params => result.toList ++ params
  | typeName named => [named]
  | _ => []

def isNumeric : Ty → Bool
  | int | float => true
  | _ => false

def isStruct : Ty → Bool
  | struct _ _ => true
  | _ => false

def isArray : Ty → Bool
  | array _ _ => true
  | _ => false

/-- Whether a text label may have this capacity: a multiple of 8 from 8 to 248. -/
def isTextLabelLength (n : UInt32) : Bool := 8 ≤ n && n ≤ 248 && n % 8 == 0

def textLabel? (n : UInt32) : Except DeclarationError Ty :=
  if isTextLabelLength n then .ok (textLabel n) else .error (.invalidTextLabelLength n.toNat)

/-- Every valid text label capacity, ascending. -/
def textLabelLengths : List UInt32 := (List.range 31).map fun i => UInt32.ofNat (8 * (i + 1))

/-- The types that a script can name without declaring them, besides `AUTO`. -/
def builtins : List Ty :=
  [any, int, float, bool, string, vector] ++ HandleKind.all.map handle ++
    textLabelLengths.map textLabel

end Ty
end GameScript
