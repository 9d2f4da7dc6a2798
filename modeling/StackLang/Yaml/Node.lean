import StackLang.Text.Basic

/-!
# Nodes of a YAML document

A document is a tree of scalars, sequences and mappings. Each node knows the line where it starts,
counted from one, because messages about it name that line.
-/

set_option autoImplicit false

namespace StackLang.Yaml

/-- A node of a document. -/
inductive Node where
  /-- A text, and whether it stands in quotes. -/
  | scalar (line : Nat) (quoted : Bool) (value : Text)
  | sequence (line : Nat) (items : List Node)
  /-- Keys and values in their order; a key may occur twice. -/
  | mapping (line : Nat) (entries : List (Node × Node))
  deriving Repr

namespace Node

/-- The line where a node starts. -/
def line : Node → Nat
  | scalar line _ _ | sequence line _ | mapping line _ => line

/-- The text of a scalar; a collection has none. -/
def value : Node → Text
  | scalar _ _ value => value
  | sequence _ _ | mapping _ _ => []

/-- Whether two keys of a mapping count as one: nodes of one kind with one text. -/
def sameKey : Node → Node → Bool
  | scalar _ _ a, scalar _ _ b => a = b
  | sequence _ _, sequence _ _ => true
  | mapping _ _, mapping _ _ => true
  | _, _ => false

/-- The node where nothing is written. -/
def absent (line : Nat) : Node := scalar line false []

end Node

end StackLang.Yaml
