import StackLang.Text.Utf8
import StackLang.Text.Printable

/-!
# Quoted text

A text between quotes as it is shown in messages: printable characters stand for themselves, the
quote and the backslash are escaped, and everything else is written by its code.
-/

set_option autoImplicit false

namespace StackLang.Quoted

/-- The last `width` hexadecimal digits of `n`. -/
def hex (width n : Nat) : Text :=
  match width with
  | 0 => []
  | width + 1 => hex width (n / 16) ++ [Text.byte (Nat.digitChar (n % 16))]

/-- The letter of a control character that is written by one. -/
def letter? (c : Char) : Option Char :=
  match c.toNat with
  | 7 => some 'a'
  | 8 => some 'b'
  | 9 => some 't'
  | 10 => some 'n'
  | 11 => some 'v'
  | 12 => some 'f'
  | 13 => some 'r'
  | _ => none

/-- A character inside quotes of the given kind. -/
def escape (quote c : Char) : Text :=
  if c = quote ∨ c = '\\' then "\\" ++ String.utf8EncodeChar c
  else if CharClass.isPrintable c then String.utf8EncodeChar c
  else
    match letter? c with
    | some l => "\\" ++ [Text.byte l]
    | none =>
      let n := c.toNat
      if n < 0x20 ∨ n = 0x7F then "\\x" ++ hex 2 n
      else if n < 0x10000 then "\\u" ++ hex 4 n
      else "\\U" ++ hex 8 n

/-- A piece of text inside double quotes. -/
def escapePiece : Utf8.Piece → Text
  | .char c => escape '"' c
  | .stray b => "\\x" ++ hex 2 b.toNat

/-- A text in double quotes. -/
def text (t : Text) : Text := "\"" ++ (Utf8.pieces t).flatMap escapePiece ++ "\""

/-- A character in single quotes. -/
def char (c : Char) : Text := "'" ++ escape '\'' c ++ "'"

end StackLang.Quoted
