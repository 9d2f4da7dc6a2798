/-!
# Text

Sources, messages, file names and assembly are byte strings: any of them may hold bytes that are
not UTF-8. A string literal stands for its UTF-8 bytes.

- `Text.ofString_append`: the bytes of a concatenation are the concatenated bytes.
- `Text.split_append`: a text is cut at a separator.
-/

set_option autoImplicit false

namespace StackLang

/-- A byte string. -/
abbrev Text := List UInt8

namespace Text

/-- The UTF-8 bytes of a list of characters. -/
def ofChars (cs : List Char) : Text := cs.flatMap String.utf8EncodeChar

/-- The UTF-8 bytes of a string. -/
def ofString (s : String) : Text := ofChars s.toList

instance : Coe String Text := ⟨ofString⟩

instance lawfulBEq : LawfulBEq Text := List.instLawfulBEq

@[simp] theorem ofChars_nil : ofChars [] = [] := rfl

@[simp] theorem ofChars_cons (c : Char) (cs : List Char) :
    ofChars (c :: cs) = String.utf8EncodeChar c ++ ofChars cs := rfl

@[simp] theorem ofChars_append (cs ds : List Char) :
    ofChars (cs ++ ds) = ofChars cs ++ ofChars ds := List.flatMap_append

theorem ofString_append (s t : String) : ofString (s ++ t) = ofString s ++ ofString t := by
  simp [ofString]

/-- The byte of an ASCII character. -/
def byte (c : Char) : UInt8 := UInt8.ofNat c.toNat

/-! ## Numbers -/

/-- A natural number in decimal. -/
def ofNat (n : Nat) : Text := (Nat.toDigits 10 n).map byte

/-- An integer in decimal, with a minus sign when it is negative. -/
def ofInt (i : Int) : Text := if i < 0 then "-" ++ ofNat i.natAbs else ofNat i.natAbs

/-! ## Cutting -/

/-- Puts a byte in front of the pieces of the text after it. -/
def splitStep (sep b : UInt8) : List Text → List Text
  | [] => [[b]]
  | p :: ps => if b = sep then [] :: p :: ps else (b :: p) :: ps

/-- The pieces between occurrences of `sep`; there is always at least one. -/
def split (sep : UInt8) (t : Text) : List Text := t.foldr (splitStep sep) [[]]

@[simp] theorem split_nil (sep : UInt8) : split sep [] = [[]] := rfl

theorem split_cons (sep b : UInt8) (t : Text) :
    split sep (b :: t) = splitStep sep b (split sep t) := rfl

theorem split_ne_nil (sep : UInt8) (t : Text) : split sep t ≠ [] := by
  cases t with
  | nil => simp
  | cons b t =>
    rw [split_cons]
    cases split sep t with
    | nil => simp [splitStep]
    | cons p ps => by_cases h : b = sep <;> simp [splitStep, h]

theorem split_append (sep : UInt8) (t u : Text) :
    split sep (t ++ sep :: u) = split sep t ++ split sep u := by
  induction t with
  | nil =>
    rw [List.nil_append, split_cons, split_nil]
    cases hs : split sep u with
    | nil => exact absurd hs (split_ne_nil sep u)
    | cons p ps => simp [splitStep]
  | cons b t ih =>
    rw [List.cons_append, split_cons, ih, split_cons]
    cases hs : split sep t with
    | nil => exact absurd hs (split_ne_nil sep t)
    | cons p ps => by_cases h : b = sep <;> simp [splitStep, h]

/-- The text with `sep` between consecutive parts. -/
def join (sep : Text) (parts : List Text) : Text := sep.intercalate parts

/-- The text before the first `b`, and the text after it. -/
def cut? (b : UInt8) : Text → Option (Text × Text)
  | [] => none
  | c :: t => if c = b then some ([], t) else (cut? b t).map fun p => (c :: p.1, p.2)

theorem cut?_append {b : UInt8} {t : Text} (h : b ∉ t) (rest : Text) :
    cut? b (t ++ b :: rest) = some (t, rest) := by
  induction t with
  | nil => simp [cut?]
  | cons c t ih =>
    obtain ⟨hc, ht⟩ := not_or.1 (mt List.mem_cons.2 h)
    simp [cut?, Ne.symm hc, ih ht]

/-- `t` without a leading `start`. -/
def dropStart? (start t : Text) : Option Text :=
  if start.isPrefixOf t then some (t.drop start.length) else none

/-- The text followed by blanks up to a width of `n` in characters, where `width` is its own. -/
def padTo (n width : Nat) (t : Text) : Text := t ++ List.replicate (n - width) (byte ' ')

/-- Byte-wise lexicographic order. -/
def le (a b : Text) : Bool := !(List.lex b a)

end Text

end StackLang
