import StackLang.Text.Basic

/-!
# Locations

A place in a source file. Rows and columns count from one; a column counts characters.
-/

set_option autoImplicit false

namespace StackLang

/-- A place in a source file. -/
structure Location where
  file : Text
  row : Int
  col : Int
  deriving DecidableEq, Repr

namespace Location

/-- The place as `file:row:col`. -/
def text (l : Location) : Text := l.file ++ ":" ++ Text.ofInt l.row ++ ":" ++ Text.ofInt l.col

/-- Whether the location names neither a file nor a row. -/
def isNowhere (l : Location) : Bool := l.file.isEmpty && l.row = 0

end Location

/-- A row and a column. -/
structure Position where
  row : Nat
  col : Nat
  deriving DecidableEq, Repr

namespace Position

/-- The first place of a text. -/
def start : Position := ⟨1, 1⟩

/-- The place after a character. -/
def step (p : Position) (c : Char) : Position :=
  if c = '\n' then ⟨p.row + 1, 1⟩ else ⟨p.row, p.col + 1⟩

/-- The place after some characters. -/
def after (p : Position) (cs : List Char) : Position := cs.foldl step p

@[simp] theorem after_nil (p : Position) : p.after [] = p := rfl

@[simp] theorem after_cons (p : Position) (c : Char) (cs : List Char) :
    p.after (c :: cs) = (p.step c).after cs := rfl

theorem after_append (p : Position) (cs ds : List Char) :
    p.after (cs ++ ds) = (p.after cs).after ds := List.foldl_append

/-- The place in a file. -/
def inFile (p : Position) (file : Text) : Location := ⟨file, p.row, p.col⟩

end Position

end StackLang
