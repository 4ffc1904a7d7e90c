import GameScript.Error

/-!
# Code under construction

Code is written front to back, before the addresses of all labels are known. A reference to a label
leaves a field of zero bytes and a fix-up that remembers it; resolving the buffer fills every field
once all labels are defined.
-/
namespace GameScript

/-- How the field of a reference is filled. -/
inductive FixupKind where
  /-- The address in four bytes. -/
  | absolute32
  /-- The address in three bytes. -/
  | absolute24
  /-- The distance from the next instruction in two bytes, signed. -/
  | relative16
deriving DecidableEq, Repr

def FixupKind.width : FixupKind → Nat
  | absolute32 => 4
  | absolute24 => 3
  | relative16 => 2

/-- A field that waits for the address of a label. -/
structure Fixup where
  offset : Nat
  /-- Under which the label is defined. -/
  key : String
  /-- The label as it was written, for messages. -/
  name : String
  kind : FixupKind
  /-- Where the instruction that holds the field ends, once that is known. -/
  nextIp : Option Nat := none
deriving DecidableEq, Repr

/-- Code with its open fields and the labels defined so far. -/
structure CodeBuffer where
  code : Array UInt8 := #[]
  /-- Fix-ups, the latest first. -/
  recent : List Fixup := []
  labels : List (String × Nat) := []

namespace CodeBuffer

/-- The address of the next byte. -/
def ip (b : CodeBuffer) : Nat := b.code.size

/-- Fix-ups in the order in which they were written. -/
def fixups (b : CodeBuffer) : List Fixup := b.recent.reverse

def write (b : CodeBuffer) (bytes : Bytes) : CodeBuffer := { b with code := b.code ++ bytes }

def address? (b : CodeBuffer) (key : String) : Option Nat := b.labels.lookup key

/-- Define a label, once. -/
def defineAt (b : CodeBuffer) (key : String) (ip : Nat) : Except EncodingError CodeBuffer :=
  match b.address? key with
  | some _ => .error (.duplicateLabel key)
  | none => .ok { b with labels := b.labels ++ [(key, ip)] }

def define (b : CodeBuffer) (key : String) : Except EncodingError CodeBuffer := b.defineAt key b.ip

/-- Leave a field for the address of `key`. -/
def writeRef (b : CodeBuffer) (key name : String) (kind : FixupKind) : CodeBuffer :=
  { b with
    code := b.code ++ List.replicate kind.width (0 : UInt8)
    recent := ⟨b.ip, key, name, kind, none⟩ :: b.recent }

/-- Note where the fix-ups at the front end, up to the first that knows it already. -/
def closeAll (ip : Nat) : List Fixup → List Fixup
  | [] => []
  | f :: rest =>
    match f.nextIp with
    | some _ => f :: rest
    | none => { f with nextIp := some ip } :: closeAll ip rest

/-- Mark the end of an instruction. Relative references written since the last mark are measured
from here. -/
def endInstruction (b : CodeBuffer) : CodeBuffer := { b with recent := closeAll b.ip b.recent }

end CodeBuffer

/-- The signed 64-bit reading of a number. -/
def signed64 (n : Int) : Int := Int.bmod n 0x10000000000000000

namespace Fixup

/-- From where a relative reference is measured. -/
def base (f : Fixup) : Nat := f.nextIp.getD (f.offset + f.kind.width)

/-- The bytes that fill the field when the label stands at `target`. -/
def fill (f : Fixup) (target : Nat) : Except EncodingError Bytes :=
  match f.kind with
  | .absolute32 =>
    if target < 0x100000000 then .ok (leBytes 4 target)
    else .error (.jumpOutOfRange f.name (signed64 target))
  | .absolute24 =>
    if target < 0x1000000 then .ok (leBytes 3 target)
    else .error (.jumpOutOfRange f.name (signed64 target))
  | .relative16 =>
    let delta := signed64 ((target : Int) - f.base)
    if -0x8000 ≤ delta ∧ delta < 0x8000 then .ok (leBytes 2 (delta % 0x10000).toNat)
    else .error (.jumpOutOfRange f.name delta)

end Fixup

/-- Overwrite bytes from `at` on. -/
def patch (code : Array UInt8) (start : Nat) : Bytes → Array UInt8
  | [] => code
  | b :: rest => patch (code.setIfInBounds start b) (start + 1) rest

/-- Fill every field. The first fix-up that cannot be filled decides the error. -/
def CodeBuffer.resolve (b : CodeBuffer) : Except EncodingError (Array UInt8) :=
  b.fixups.foldlM (fun code f =>
    match b.address? f.key with
    | none => .error (.unresolvedLabel f.name)
    | some target => (f.fill target).map (patch code f.offset)) b.code

end GameScript
