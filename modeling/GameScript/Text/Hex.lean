/-!
# Hexadecimal text

Addresses and hashes are shown in base sixteen with a least number of digits.
-/
namespace GameScript

/-- Lower-case hexadecimal digits of `n`, filled with zeros on the left up to `width` digits. -/
def hexLower (width n : Nat) : String :=
  String.ofList ((Nat.toDigits 16 n).leftpad width '0')

/-- Upper-case hexadecimal digits of `n`, filled with zeros on the left up to `width` digits. -/
def hexUpper (width n : Nat) : String :=
  String.ofList (((Nat.toDigits 16 n).leftpad width '0').map Char.toUpper)

def hexDigitValue? (c : Char) : Option Nat :=
  if '0' ≤ c ∧ c ≤ '9' then some (c.toNat - '0'.toNat)
  else if 'a' ≤ c ∧ c ≤ 'f' then some (c.toNat - 'a'.toNat + 10)
  else if 'A' ≤ c ∧ c ≤ 'F' then some (c.toNat - 'A'.toNat + 10)
  else none

/-- The number written by a list of digits in the given base. No digits at all write no number. -/
def digitsValue? (base : Nat) (digit? : Char → Option Nat) : List Char → Option Nat
  | [] => none
  | c :: cs =>
    (c :: cs).foldl (fun acc d => do
      let n ← acc
      let v ← digit? d
      return n * base + v) (some 0)

/-- A 32-bit number in base sixteen, with an optional plus sign and any number of leading zeros. -/
def parseHexWord? (cs : List Char) : Option UInt32 := do
  let digits := match cs with
    | '+' :: rest => rest
    | _ => cs
  let n ← digitsValue? 16 hexDigitValue? digits
  if n < 0x100000000 then some (UInt32.ofNat n) else none

end GameScript
