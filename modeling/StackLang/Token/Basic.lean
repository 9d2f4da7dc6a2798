import StackLang.Location
import StackLang.Text.Quoted

/-!
# Tokens

A token is a kind, a text and a place. The text is normalised: keywords and words are in upper
case, operator signs are replaced by the names of their primitives, and booleans are `1` or `0`.
Quoted literals keep their quotes and arrays their parentheses.
-/

set_option autoImplicit false

namespace StackLang

/-- What a token is. A code outside the assigned ones has a kind of its own. -/
inductive TokenKind where
  | keyword
  | word
  | integer
  | string
  | cstring
  | boolean
  | array
  | unassigned (code : Int)
  deriving DecidableEq, Repr

namespace TokenKind

/-- The assigned kinds in the order of their codes. -/
def all : List TokenKind := [keyword, word, integer, string, cstring, boolean, array]

/-- The kind with a code. -/
def ofCode (code : Int) : TokenKind :=
  if code < 0 then unassigned code else all.getD code.toNat (unassigned code)

/-- The name of a kind. -/
def name : TokenKind → Text
  | keyword => "KEYWORD"
  | word => "WORD"
  | integer => "INTEGER"
  | string => "STRING"
  | cstring => "CSTRING"
  | boolean => "BOOLEAN"
  | array => "ARRAY"
  | unassigned code => "TokenType(" ++ Text.ofInt code ++ ")"

end TokenKind

/-- A lexical unit of a source. -/
structure Token where
  kind : TokenKind
  text : Text
  loc : Location
  deriving DecidableEq, Repr

namespace Token

/-- The token in columns: its kind, its quoted text and its place. -/
def describe (t : Token) : Text :=
  let kind := t.kind.name
  let quoted := Quoted.text t.text
  Text.padTo 8 (Utf8.length kind) kind ++ " " ++ Text.padTo 14 (Utf8.length quoted) quoted
    ++ "  " ++ t.loc.text

/-- Whether the token is the given keyword. -/
def isKeyword (t : Token) (word : Text) : Bool := t.kind = .keyword && t.text = word

end Token

end StackLang
