/-!
# Single-precision numbers

A `Binary32` is the bit pattern of a 32-bit floating-point number: one sign bit, eight exponent
bits and twenty-three fraction bits. Only what the toolchain does with such numbers is defined
here: negating, comparing, and rounding an integer.
-/
namespace GameScript

/-- A 32-bit floating-point number, given by its bits. NaN payloads are kept. -/
structure Binary32 where
  bits : UInt32
deriving DecidableEq, Repr

namespace Binary32

def isNegative (x : Binary32) : Bool := x.bits.toNat ≥ 0x80000000

def exponent (x : Binary32) : Nat := x.bits.toNat / 0x800000 % 0x100

def fraction (x : Binary32) : Nat := x.bits.toNat % 0x800000

/-- The bits without the sign; they order finite magnitudes. -/
def magnitude (x : Binary32) : Nat := x.bits.toNat % 0x80000000

def isNaN (x : Binary32) : Bool := x.exponent == 255 && x.fraction != 0

def isInfinite (x : Binary32) : Bool := x.exponent == 255 && x.fraction == 0

def isZero (x : Binary32) : Bool := x.magnitude == 0

/-- Flip the sign bit, also of a NaN. -/
def neg (x : Binary32) : Binary32 := ⟨x.bits ^^^ 0x80000000⟩

/-- Equality of values: all NaNs are one value, and the two zeros are equal. -/
def same (x y : Binary32) : Bool :=
  if x.isNaN || y.isNaN then x.isNaN && y.isNaN
  else x.bits == y.bits || (x.isZero && y.isZero)

theorem same_refl (x : Binary32) : x.same x = true := by
  simp [same]

/-- Divide by `2 ^ s` and round to the nearest integer, a half to the even one. -/
def roundShift (n s : Nat) : Nat :=
  let unit := Nat.pow 2 s
  let q := n / unit
  let r := n % unit
  if 2 * r > unit || (2 * r == unit && q % 2 == 1) then q + 1 else q

/-- The nearest number to a positive integer below `2 ^ 128`, ties to the even significand. A
significand that rounds up to `2 ^ 24` carries into the exponent. -/
def ofPositive (n : Nat) : Binary32 :=
  let e := n.log2
  let significand := if e ≤ 23 then n * Nat.pow 2 (23 - e) else roundShift n (e - 23)
  ⟨UInt32.ofNat ((e + 126) * 0x800000 + significand)⟩

def ofInt (n : Int) : Binary32 :=
  if n = 0 then ⟨0⟩
  else if 0 < n then ofPositive n.toNat
  else (ofPositive (-n).toNat).neg

end Binary32
end GameScript
