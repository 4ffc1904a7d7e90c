import GameScript.Bytes

/-!
# Reading bits

A compressed stream is read bit by bit, from the least significant bit of each byte on. Numbers have
their least significant bit first.
-/
namespace GameScript

/-- A stream of bits: what is left of the current byte, then whole bytes. -/
structure BitStream where
  bits : List Bool := []
  bytes : Bytes

namespace BitStream

/-- The bits of a byte in the order in which they are read. -/
def ofByte (b : UInt8) : List Bool := (List.range 8).map b.toNat.testBit

def next? : BitStream → Option (Bool × BitStream)
  | ⟨b :: bits, bytes⟩ => some (b, ⟨bits, bytes⟩)
  | ⟨[], []⟩ => none
  | ⟨[], x :: bytes⟩ =>
    match ofByte x with
    | b :: bits => some (b, ⟨bits, bytes⟩)
    | [] => none

def number? : Nat → BitStream → Option (Nat × BitStream)
  | 0, s => some (0, s)
  | n + 1, s => do
    let (b, s) ← s.next?
    let (high, s) ← number? n s
    return (b.toNat + 2 * high, s)

/-- The bytes that follow the current one. The rest of the current byte is skipped. -/
def aligned (s : BitStream) : Bytes := s.bytes

def size (s : BitStream) : Nat := s.bits.length + 8 * s.bytes.length

end BitStream
end GameScript
