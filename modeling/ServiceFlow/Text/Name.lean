/-!
# Names

Which texts are bare identifiers, and the length of a text in 16 bit units.
-/

namespace ServiceFlow

def isNameStart (c : Char) : Bool := c.isAlpha || c = '_' || c = '$'

def isNamePart (c : Char) : Bool := c.isAlphanum || c = '_' || c = '$'

/-- A bare identifier: ASCII letters, digits, `_` and `$`, not starting with a digit. -/
def isIdentifierName (text : String) : Bool :=
  match text.toList with
  | [] => false
  | c :: rest => isNameStart c && rest.all isNamePart

def units16 (text : String) : Nat :=
  text.toList.foldl (fun n c => n + if 0x10000 ≤ c.toNat then 2 else 1) 0

end ServiceFlow
