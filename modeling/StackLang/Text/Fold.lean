import StackLang.Text.Utf8
import StackLang.Text.Upper

/-!
# Case

Words are compared in upper case. Two looser comparisons are only ever made against ASCII words, so
they need no tables: a letter counts as the ASCII letter whose case variant it is. Beside the upper
case letters themselves, these are the long s and the Kelvin sign under case folding, and the
Kelvin sign and the dotted capital I under lower-casing.
-/

set_option autoImplicit false

namespace StackLang

namespace CharClass

/-- The character with an ASCII letter in lower case. -/
def asciiLower (c : Char) : Char := if 'A' ≤ c ∧ c ≤ 'Z' then Char.ofNat (c.toNat + 32) else c

/-- The ASCII letter that a character is a case variant of, in lower case; other characters map to
themselves. -/
def foldAscii (c : Char) : Char :=
  if c.toNat = 0x17F then 's' else if c.toNat = 0x212A then 'k' else asciiLower c

/-- The ASCII letter that is the lower case of a character; other characters map to themselves. -/
def lowerAscii (c : Char) : Char :=
  if c.toNat = 0x130 then 'i' else if c.toNat = 0x212A then 'k' else asciiLower c

end CharClass

namespace Text

/-- The text with each character in upper case. -/
def upper (t : Text) : Text := ofChars ((Utf8.decode t).map CharClass.toUpper)

/-- Whether a text is the lower-case ASCII word `word` in any case. -/
def foldsTo (t word : Text) : Bool :=
  ofChars ((Utf8.decode t).map CharClass.foldAscii) = word

/-- The text with each character that has an ASCII letter as its lower case replaced by it. -/
def lower (t : Text) : Text := ofChars ((Utf8.decode t).map CharClass.lowerAscii)

end Text

end StackLang
