import StackLang.Text.Utf8

/-!
# White space

The white space characters of Unicode, and the two cuts of a text that depend on them: `Text.trim`
drops them at both ends, `Text.fields` takes the runs between them. A stray byte is never white
space.
-/

set_option autoImplicit false

namespace StackLang

/-- Whether a character is white space. -/
def CharClass.isSpace (c : Char) : Bool :=
  let n := c.toNat
  (0x09 ≤ n && n ≤ 0x0D) || n = 0x20 || n = 0x85 || n = 0xA0 || n = 0x1680
    || (0x2000 ≤ n && n ≤ 0x200A) || n = 0x2028 || n = 0x2029 || n = 0x202F || n = 0x205F
    || n = 0x3000

namespace Text

/-- The text of a list of pieces. -/
def ofPieces (ps : List Utf8.Piece) : Text := ps.flatMap Utf8.Piece.bytes

/-- Drops the items in `p` at both ends. -/
def trimBy {α : Type} (p : α → Bool) (l : List α) : List α :=
  ((l.dropWhile p).reverse.dropWhile p).reverse

/-- The text without white space at its ends. -/
def trim (t : Text) : Text := ofPieces (trimBy (Utf8.Piece.is CharClass.isSpace) (Utf8.pieces t))

theorem length_flatMap_le_of_sublist {α β : Type} {f : α → List β} {l₁ l₂ : List α}
    (h : l₁.Sublist l₂) : (l₁.flatMap f).length ≤ (l₂.flatMap f).length := by
  induction h with
  | slnil => simp
  | cons a _ ih => simp only [List.flatMap_cons, List.length_append]; omega
  | cons_cons a _ ih => simp only [List.flatMap_cons, List.length_append]; omega

theorem trimBy_sublist {α : Type} (p : α → Bool) (l : List α) : (trimBy p l).Sublist l := by
  have h₁ := (List.dropWhile_sublist (l := (l.dropWhile p).reverse) p).reverse
  simp only [List.reverse_reverse] at h₁
  exact h₁.trans (List.dropWhile_sublist p)

/-- Trimming makes no text longer. -/
theorem length_trim_le (t : Text) : (trim t).length ≤ t.length := by
  have h := length_flatMap_le_of_sublist (f := Utf8.Piece.bytes)
    (trimBy_sublist (Utf8.Piece.is CharClass.isSpace) (Utf8.pieces t))
  rw [Utf8.pieces_bytes] at h
  exact h

/-- Whether a text holds white space only. -/
def isBlank (t : Text) : Bool := (Utf8.pieces t).all (Utf8.Piece.is CharClass.isSpace)

/-- The maximal runs of items outside `p`, where `run` is the one being collected, last item
first. -/
def runsOutside {α : Type} (p : α → Bool) (run : List α) : List α → List (List α)
  | [] => if run.isEmpty then [] else [run.reverse]
  | a :: l =>
    if p a then
      if run.isEmpty then runsOutside p [] l else run.reverse :: runsOutside p [] l
    else runsOutside p (a :: run) l

/-- The maximal runs of a text that hold no white space. -/
def fields (t : Text) : List Text :=
  (runsOutside (Utf8.Piece.is CharClass.isSpace) [] (Utf8.pieces t)).map ofPieces

/-- The text with each run of white space as one blank and none at its ends. -/
def squeeze (t : Text) : Text := join " " (fields t)

end Text

end StackLang
