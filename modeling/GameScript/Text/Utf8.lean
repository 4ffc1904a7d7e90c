/-!
# Decoding UTF-8

Text inside code bytes may be damaged. Lossy decoding replaces each longest run of bytes that
starts a character but does not finish it, and each byte that starts none, by U+FFFD.
-/
namespace GameScript.Utf8

/-- Whether a byte can continue a character after any first byte. -/
def isContinuation (b : UInt8) : Bool := 0x80 ≤ b && b ≤ 0xBF

/-- How many bytes a character with first byte `b` takes, and which second bytes it admits. -/
def leadRange (b : UInt8) : Option (Nat × UInt8 × UInt8) :=
  if b < 0x80 then some (1, 0, 0)
  else if b < 0xC2 then none
  else if b < 0xE0 then some (2, 0x80, 0xBF)
  else if b == 0xE0 then some (3, 0xA0, 0xBF)
  else if b == 0xED then some (3, 0x80, 0x9F)
  else if b < 0xF0 then some (3, 0x80, 0xBF)
  else if b == 0xF0 then some (4, 0x90, 0xBF)
  else if b < 0xF4 then some (4, 0x80, 0xBF)
  else if b == 0xF4 then some (4, 0x80, 0x8F)
  else none

/-- The payload bits of a continuation byte. -/
def tailBits (b : UInt8) : Nat := b.toNat % 64

/-- The character at the front of `b :: rest`, when there is one, and the number of bytes of
`rest` that belong to it or, when there is none, to the damaged run that `b` starts. -/
def front (b : UInt8) (rest : List UInt8) : Option Char × Nat :=
  match leadRange b with
  | none => (none, 0)
  | some (1, _, _) => (some (Char.ofNat b.toNat), 0)
  | some (2, lo, hi) =>
    match rest with
    | c :: _ =>
      if lo ≤ c && c ≤ hi then (some (Char.ofNat (b.toNat % 32 * 64 + tailBits c)), 1)
      else (none, 0)
    | [] => (none, 0)
  | some (3, lo, hi) =>
    match rest with
    | c :: d :: _ =>
      if lo ≤ c && c ≤ hi then
        if isContinuation d then
          (some (Char.ofNat ((b.toNat % 16 * 64 + tailBits c) * 64 + tailBits d)), 2)
        else (none, 1)
      else (none, 0)
    | [c] => (none, if lo ≤ c && c ≤ hi then 1 else 0)
    | [] => (none, 0)
  | some (_, lo, hi) =>
    match rest with
    | c :: d :: e :: _ =>
      if lo ≤ c && c ≤ hi then
        if isContinuation d then
          if isContinuation e then
            (some (Char.ofNat
              (((b.toNat % 8 * 64 + tailBits c) * 64 + tailBits d) * 64 + tailBits e)), 3)
          else (none, 2)
        else (none, 1)
      else (none, 0)
    | [c, d] =>
      (none, if lo ≤ c && c ≤ hi then if isContinuation d then 2 else 1 else 0)
    | [c] => (none, if lo ≤ c && c ≤ hi then 1 else 0)
    | [] => (none, 0)

/-- The characters of a byte string, with `none` for each damaged run. -/
def scan : List UInt8 → List (Option Char)
  | [] => []
  | b :: rest => (front b rest).1 :: scan (rest.drop (front b rest).2)
termination_by bs => bs.length
decreasing_by simp only [List.length_drop, List.length_cons]; omega

def replacement : Char := Char.ofNat 0xFFFD

/-- Decode a byte string, with U+FFFD for each damaged run. -/
def decodeLossy (bs : List UInt8) : String :=
  String.ofList ((scan bs).map fun c => c.getD replacement)

/-- Decode a byte string that must be well-formed. -/
def decode? (bs : List UInt8) : Option String :=
  (scan bs).mapM id |>.map String.ofList

end GameScript.Utf8
