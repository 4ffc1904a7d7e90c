/-!
# White space

The characters that separate words in a text file are those with the Unicode property
`White_Space`: twenty-five in all, listed here as ranges.
-/
namespace GameScript

/-- First and last code point of each run of white-space characters, in ascending order. -/
def blankRanges : List (Nat × Nat) :=
  [(0x09, 0x0D), (0x20, 0x20), (0x85, 0x85), (0xA0, 0xA0), (0x1680, 0x1680), (0x2000, 0x200A),
    (0x2028, 0x2029), (0x202F, 0x202F), (0x205F, 0x205F), (0x3000, 0x3000)]

/-- Whether a character has the `White_Space` property. -/
def isBlank (c : Char) : Bool :=
  blankRanges.any fun (first, last) => first ≤ c.toNat && c.toNat ≤ last

/-- The words of a line: its longest runs of characters that are not white space. -/
def words (line : List Char) : List (List Char) :=
  (line.splitBy fun a b => isBlank a == isBlank b).filter fun run => !run.any isBlank

def lines (text : List Char) : List (List Char) :=
  text.splitOn '\n'

end GameScript
