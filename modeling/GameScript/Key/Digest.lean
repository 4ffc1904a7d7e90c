import GameScript.Bytes

/-!
# The SHA-1 digest

Keys are recognised by their digests. A message is padded to whole blocks of sixty-four bytes with
its length at the end, and each block is mixed into five words of state in eighty steps.
-/
namespace GameScript
namespace Digest

structure State where
  a : UInt32
  b : UInt32
  c : UInt32
  d : UInt32
  e : UInt32
deriving DecidableEq, Repr

def State.initial : State := ⟨0x67452301, 0xEFCDAB89, 0x98BADCFE, 0x10325476, 0xC3D2E1F0⟩

/-- Rotate to the left by `n` bits, where `n` is between 1 and 31. -/
def rotate (n x : UInt32) : UInt32 := (x <<< n) ||| (x >>> (32 - n))

def words : Bytes → List UInt32
  | a :: b :: c :: d :: rest => UInt32.ofNat (leValue [d, c, b, a]) :: words rest
  | _ => []

def pad (message : Bytes) : Bytes :=
  let zeros := (119 - message.length % 64) % 64
  message ++ 0x80 :: List.replicate zeros 0 ++ (leBytes 8 (8 * message.length)).reverse

/-- Extend the words of a block by `n` more, each from four earlier ones. -/
def schedule : Nat → Array UInt32 → Array UInt32
  | 0, ws => ws
  | n + 1, ws =>
    let back (k : Nat) := ws.getD (ws.size - k) 0
    schedule n (ws.push (rotate 1 (back 3 ^^^ back 8 ^^^ back 14 ^^^ back 16)))

/-- The mixing function and the constant of step `i`. -/
def mixing (i : Nat) (b c d : UInt32) : UInt32 × UInt32 :=
  if i < 20 then ((b &&& c) ||| (~~~b &&& d), 0x5A827999)
  else if i < 40 then (b ^^^ c ^^^ d, 0x6ED9EBA1)
  else if i < 60 then ((b &&& c) ||| (b &&& d) ||| (c &&& d), 0x8F1BBCDC)
  else (b ^^^ c ^^^ d, 0xCA62C1D6)

/-- Step `i` with its word. -/
def step (s : State) (w : UInt32) (i : Nat) : State :=
  let (f, k) := mixing i s.b s.c s.d
  ⟨rotate 5 s.a + f + s.e + k + w, s.a, rotate 30 s.b, s.c, s.d⟩

/-- Mix one block of sixteen words into the state. -/
def compressBlock (s : State) (block : List UInt32) : State :=
  let ws := schedule 64 block.toArray
  let t := ws.toList.zipIdx.foldl (fun t (w, i) => step t w i) s
  ⟨s.a + t.a, s.b + t.b, s.c + t.c, s.d + t.d, s.e + t.e⟩

/-- Mix all words of a message into the state, a block at a time. -/
def compressBlocks (s : State) (ws : List UInt32) : State :=
  if _h : ws.isEmpty then s
  else compressBlocks (compressBlock s (ws.take 16)) (ws.drop 16)
termination_by ws.length
decreasing_by
  have : 0 < ws.length := List.length_pos_iff.2 (by simpa using _h)
  rw [List.length_drop]
  omega

/-- The digest of a message: twenty bytes. -/
def sha1 (message : Bytes) : Bytes :=
  let s := compressBlocks .initial (words (pad message))
  [s.a, s.b, s.c, s.d, s.e].flatMap fun w => (Word.toBytes w).reverse

end Digest
end GameScript
