import StackLang.Text.Basic

/-!
# Tokens of a YAML document

A document is read as tokens: scalars, the marks that are written, and the starts and ends of blocks
that the indentation tells. A token knows its line, counted from one.
-/

set_option autoImplicit false

namespace StackLang.Yaml

/-- What a token is. -/
inductive TokenKind where
  | streamStart
  | streamEnd
  | documentStart
  | documentEnd
  | blockSequenceStart
  | blockMappingStart
  | blockEnd
  | flowSequenceStart
  | flowSequenceEnd
  | flowMappingStart
  | flowMappingEnd
  /-- The mark of an item of a block. -/
  | item
  /-- The comma in brackets and braces. -/
  | comma
  | key
  | value
  | scalar (quoted : Bool) (text : Text)
  deriving DecidableEq, Repr

/-- A token and its line. -/
structure Token where
  kind : TokenKind
  line : Nat
  deriving DecidableEq, Repr

end StackLang.Yaml
