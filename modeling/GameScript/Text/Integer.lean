import GameScript.Text.Hex

/-!
# Reading decimal integers
-/
namespace GameScript

def decimalDigitValue? (c : Char) : Option Nat :=
  if '0' ≤ c ∧ c ≤ '9' then some (c.toNat - '0'.toNat) else none

/-- A decimal integer of at most 64 bits, with one optional sign and any number of leading
zeros. -/
def parseInt64? (cs : List Char) : Option Int := do
  let (negative, digits) := match cs with
    | '-' :: rest => (true, rest)
    | '+' :: rest => (false, rest)
    | _ => (false, cs)
  let n ← digitsValue? 10 decimalDigitValue? digits
  let v : Int := if negative then -(n : Int) else n
  if -0x8000000000000000 ≤ v ∧ v < 0x8000000000000000 then some v else none

end GameScript
