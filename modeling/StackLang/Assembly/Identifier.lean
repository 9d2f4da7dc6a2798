import StackLang.Text.Digit
import StackLang.Text.Letter
import StackLang.Text.Utf8

/-!
# Identifiers

Names of symbols and labels: a letter or an underscore, then letters, digits and underscores.
-/

set_option autoImplicit false

namespace StackLang

/-- Whether a character may start an identifier. -/
def startsIdentifier (c : Char) : Bool := CharClass.isLetter c || c = '_'

/-- Whether a character may continue an identifier. -/
def continuesIdentifier (c : Char) : Bool :=
  CharClass.isLetter c || CharClass.isDigit c || c = '_'

/-- Whether a text is an identifier. -/
def Text.isIdentifier (t : Text) : Bool :=
  match Utf8.pieces t with
  | [] => false
  | p :: ps => p.is startsIdentifier && ps.all (Utf8.Piece.is continuesIdentifier)

end StackLang
