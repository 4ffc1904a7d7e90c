import GameScript.Text.Name
import GameScript.Text.Hex

/-!
# Identities

A name is known to the game by a 32-bit hash of its case-folded UTF-8 bytes. Every table of the
toolchain is keyed by this hash, so two different names may share an identity; the tables report
that as a collision.
-/
namespace GameScript

/-- The 32-bit identity of a name. -/
structure Identity where
  value : UInt32
deriving DecidableEq, Repr

namespace Identity

/-- Mix one byte into the running hash. -/
def mix (h : UInt32) (b : UInt8) : UInt32 :=
  let h := h + b.toUInt32
  let h := h + (h <<< 10)
  h ^^^ (h >>> 6)

/-- Spread the running hash over all its bits once every byte is mixed in. -/
def finish (h : UInt32) : UInt32 :=
  let h := h + (h <<< 3)
  let h := h ^^^ (h >>> 11)
  h + (h <<< 15)

/-- The identity of a byte string, taken as it is. -/
def ofBytes (bs : List UInt8) : Identity := ⟨finish (bs.foldl mix 0)⟩

/-- The identity of a name. Names that differ only in case share it. -/
def ofName (name : String) : Identity := ofBytes (utf8Bytes (foldName name))

def isEmpty (i : Identity) : Bool := i.value == 0

/-- Eight upper-case hexadecimal digits after `0x`. -/
def text (i : Identity) : String := "0x" ++ hexUpper 8 i.value.toNat

theorem ofName_eq_of_foldName_eq {a b : String} (h : foldName a = foldName b) :
    ofName a = ofName b := by
  simp only [ofName, h]

end Identity
end GameScript
