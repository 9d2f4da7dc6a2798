import StackLang.Text.Basic

/-!
# Sections

The three fixed regions of an assembly file, in the order in which they are written.
-/

set_option autoImplicit false

namespace StackLang

/-- A region of the assembly. A code outside the assigned ones is kept as it is. -/
inductive Section where
  | rodata
  | bss
  | text
  | unassigned (code : Int)
  deriving DecidableEq, Repr

namespace Section

/-- The sections in the order of their codes. -/
def all : List Section := [rodata, bss, text]

/-- The section with a code. -/
def ofCode (code : Int) : Section :=
  if code < 0 then unassigned code else all.getD code.toNat (unassigned code)

/-- The name of a section. -/
def name : Section → Text
  | rodata => ".rodata"
  | bss => ".bss"
  | text => ".text"
  | unassigned code => "Section(" ++ Text.ofInt code ++ ")"

end Section

end StackLang
