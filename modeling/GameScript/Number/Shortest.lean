import GameScript.Number.Binary32

/-!
# Shortest decimal text

A finite number is written with the fewest significant digits that read back as the same number.
On the grid of decimals with `k` significant digits only the two neighbours of the value can lie in
the interval of reals that round to it; the first grid with a hit wins, the nearer neighbour if
both hit, and the upper one on a tie. All comparisons are exact, on natural numbers.

`Style.listing` fixes how such digits are laid out in listings.
-/
namespace GameScript.Decimal

/-- A positive decimal `digits * 10 ^ exponent`. -/
structure Scaled where
  digits : Nat
  exponent : Int
deriving DecidableEq, Repr

/-- The value `4 * m * 2 ^ q / 4` with the ends of its rounding interval, over a common denominator:
`low / den`, `value / den` and `high / den`. The ends belong to the interval when `closed` holds. -/
structure Interval where
  low : Nat
  value : Nat
  high : Nat
  den : Nat
  closed : Bool
deriving Repr

/-- The rounding interval of a positive finite number. Below a power of two the neighbour is half
as far away. -/
def interval (x : Binary32) : Interval :=
  let e := x.exponent
  let f := x.fraction
  let m := if e == 0 then f else f + 0x800000
  let q : Int := (if e == 0 then 1 else (e : Int)) - 150
  let scale := Nat.pow 2 q.toNat
  let below := if e != 0 && f == 0 then 1 else 2
  { low := (4 * m - below) * scale
    value := 4 * m * scale
    high := (4 * m + 2) * scale
    den := 4 * Nat.pow 2 (-q).toNat
    closed := m % 2 == 0 }

/-- The exponent of the leading decimal digit of `value / den`, searched upwards from `e`. -/
def leading (value den : Nat) : Nat → Int → Int
  | 0, e => e
  | fuel + 1, e =>
    let next := e + 1
    if den * Nat.pow 10 next.toNat ≤ value * Nat.pow 10 (-next).toNat then
      leading value den fuel next
    else e

/-- The neighbour of the value on the grid of multiples of `10 ^ g` that lies in the interval, if
any does. -/
def onGrid? (i : Interval) (g : Int) : Option Nat :=
  let num := Nat.pow 10 (-g).toNat
  let unit := i.den * Nat.pow 10 g.toNat
  let down := i.value * num / unit
  let up := down + 1
  let inside (n : Nat) : Bool :=
    if i.closed then i.low * num ≤ n * unit && n * unit ≤ i.high * num
    else i.low * num < n * unit && n * unit < i.high * num
  let downIn := inside down
  let upIn := inside up
  if downIn && upIn then
    if i.value * num - down * unit < up * unit - i.value * num then some down else some up
  else if downIn then some down
  else if upIn then some up
  else none

/-- Try grids of more and more digits, from the grid `10 ^ g` down. -/
def search (i : Interval) : Nat → Int → Scaled
  | 0, g => ⟨i.value * Nat.pow 10 (-g).toNat / (i.den * Nat.pow 10 g.toNat), g⟩
  | fuel + 1, g =>
    match onGrid? i g with
    | some n => ⟨n, g⟩
    | none => search i fuel (g - 1)

def stripZeros : Nat → Scaled → Scaled
  | 0, s => s
  | fuel + 1, s =>
    if s.digits % 10 == 0 && s.digits != 0 then stripZeros fuel ⟨s.digits / 10, s.exponent + 1⟩
    else s

/-- The shortest decimal that reads back as the positive finite number `x`. Nine digits always
suffice, and every leading digit lies between `10 ^ -46` and `10 ^ 38`. -/
def shortest (x : Binary32) : Scaled :=
  let i := interval x
  stripZeros 10 (search i 9 (leading i.value i.den 86 (-47)))

/-- How digits are laid out as text: magnitudes from `plainFrom` up to but not including
`plainBelow`, given by their bits, are written positionally and all others with an exponent. -/
structure Style where
  plainFrom : Nat
  plainBelow : Nat
  nan : String
  infinity : String
deriving Repr

/-- Listings write magnitudes from about `1e-4` to about `1e16`, and zero, positionally with at
least one digit after the point. -/
def Style.listing : Style := ⟨0x38D1B717, 0x5A0E1BCA, "NaN", "inf"⟩

/-- Positional text of a positive decimal, with at least one digit after the point. -/
def plainText (s : Scaled) : List Char :=
  let ds := Nat.toDigits 10 s.digits
  let point := (ds.length : Int) + s.exponent
  if point ≤ 0 then ['0', '.'] ++ List.replicate (-point).toNat '0' ++ ds
  else if point < ds.length then ds.take point.toNat ++ ['.'] ++ ds.drop point.toNat
  else ds ++ List.replicate (point.toNat - ds.length) '0' ++ ['.', '0']

/-- Text with one digit before the point and an exponent after the digits. -/
def exponentText (s : Scaled) : List Char :=
  let ds := Nat.toDigits 10 s.digits
  let e := (ds.length : Int) + s.exponent - 1
  let exponent := (toString e).toList
  match ds with
  | [] => []
  | [d] => d :: 'e' :: exponent
  | d :: rest => d :: '.' :: rest ++ 'e' :: exponent

/-- The text of a number. NaN carries no sign. -/
def text (style : Style) (x : Binary32) : String :=
  if x.isNaN then style.nan
  else
    let sign := if x.isNegative then "-" else ""
    let body :=
      if x.isInfinite then style.infinity
      else if x.isZero then "0.0"
      else if style.plainFrom ≤ x.magnitude && x.magnitude < style.plainBelow then
        String.ofList (plainText (shortest x))
      else String.ofList (exponentText (shortest x))
    sign ++ body

end GameScript.Decimal

/-- The text of a number in listings. -/
def GameScript.Binary32.text (x : Binary32) : String :=
  Decimal.text Decimal.Style.listing x
