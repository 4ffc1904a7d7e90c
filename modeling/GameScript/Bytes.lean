/-!
# Byte strings

Code, data segments and container images are lists of bytes. Numbers inside them are little-endian
at every width, so one writer and one reader serve all of them: `leBytes k n` are the lowest `k`
base-256 digits of `n`, and `leValue` reads digits back.
-/
namespace GameScript

abbrev Bytes := List UInt8

/-- A storage slot: four bytes of a data segment read as one number. -/
abbrev Word := UInt32

def slotSize : Nat := 4

/-- The lowest `k` bytes of `n`, least significant first. -/
def leBytes : Nat → Nat → Bytes
  | 0, _ => []
  | k + 1, n => UInt8.ofNat n :: leBytes k (n / 256)

/-- The number whose little-endian digits are the given bytes. -/
def leValue : Bytes → Nat
  | [] => 0
  | b :: rest => b.toNat + 256 * leValue rest

namespace Bytes

/-- The first `n` bytes and what follows them, or nothing when fewer are left. -/
def split? : Nat → Bytes → Option (Bytes × Bytes)
  | 0, bs => some ([], bs)
  | _ + 1, [] => none
  | n + 1, b :: bs =>
    match split? n bs with
    | some (front, rest) => some (b :: front, rest)
    | none => none

/-- Read a little-endian number of `width` bytes. -/
def read? (width : Nat) (bs : Bytes) : Option (Nat × Bytes) :=
  match bs.split? width with
  | some (front, rest) => some (leValue front, rest)
  | none => none

def readWord? (bs : Bytes) : Option (Word × Bytes) :=
  match bs.read? 4 with
  | some (n, rest) => some (UInt32.ofNat n, rest)
  | none => none

/-- The bytes before the first zero byte, or all of them when there is none. -/
def beforeNul (bs : Bytes) : Bytes := bs.takeWhile (· != 0)

end Bytes

def Word.toBytes (w : Word) : Bytes := leBytes 4 w.toNat

/-- Whole words of a byte string; one to three bytes left over at the end are dropped. -/
def wordsOfBytes : Bytes → List Word
  | a :: b :: c :: d :: rest => UInt32.ofNat (leValue [a, b, c, d]) :: wordsOfBytes rest
  | _ => []

def bytesOfWords (ws : List Word) : Bytes := ws.flatMap Word.toBytes

/-- The two's complement reading of a word. -/
def Word.toSigned (w : Word) : Int := Int.bmod w.toNat 0x100000000

/-- The word that a number has modulo 2^32. -/
def Word.ofInt (n : Int) : Word := UInt32.ofNat (n % 0x100000000).toNat

end GameScript
