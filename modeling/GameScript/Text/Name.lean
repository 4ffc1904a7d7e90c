/-!
# Names

Script names, mnemonics and labels are compared without regard to the case of the letters `A` to
`Z`. No other character has a case here: `É` and `é` are different names.
-/
namespace GameScript

/-- A name with the letters `A` to `Z` in lower case. Two names are the same exactly when their
folded forms are equal. -/
def foldName (s : String) : String := String.ofList (s.toList.map Char.toLower)

/-- Whether two names are equal when the case of `A` to `Z` is ignored. -/
def sameName (a b : String) : Bool := foldName a == foldName b

def utf8Bytes (s : String) : List UInt8 := s.toList.flatMap String.utf8EncodeChar

end GameScript
