import StackLang.Text.Basic

/-!
# UTF-8

A text is cut into *pieces*: the characters it encodes and the stray bytes between them that belong
to no well-formed sequence. Overlong forms, surrogates and truncated sequences are stray byte by
byte.

- `Utf8.pieces_bytes`: the pieces spell the text they were cut from.
-/

set_option autoImplicit false

namespace StackLang.Utf8

/-- Stands for a stray byte where a character is wanted. -/
def replacement : Char := '�'

/-- A character or a byte outside every well-formed sequence. -/
inductive Piece where
  | char (c : Char)
  | stray (b : UInt8)
  deriving DecidableEq, Repr

namespace Piece

/-- The bytes a piece was read from. -/
def bytes : Piece → Text
  | char c => String.utf8EncodeChar c
  | stray b => [b]

/-- The character of a piece, with the replacement character for a stray byte. -/
def toChar : Piece → Char
  | char c => c
  | stray _ => replacement

/-- Whether the piece is a character in the class `p`. -/
def is (p : Char → Bool) : Piece → Bool
  | char c => p c
  | stray _ => false

end Piece

/-! ## Sequences of two, three and four bytes -/

/-- Whether `b` continues a sequence. -/
def isTail (b : UInt8) : Bool := 0x80 ≤ b.toNat && b.toNat < 0xC0

/-- The character of a two-byte sequence. -/
def two? (a b : UInt8) : Option Char :=
  let v := (a.toNat - 0xC0) * 64 + (b.toNat - 0x80)
  if isTail b ∧ 0x80 ≤ v then some (Char.ofNat v) else none

/-- The character of a three-byte sequence. -/
def three? (a b c : UInt8) : Option Char :=
  let v := (a.toNat - 0xE0) * 4096 + (b.toNat - 0x80) * 64 + (c.toNat - 0x80)
  if isTail b ∧ isTail c ∧ 0x800 ≤ v ∧ v.isValidChar then some (Char.ofNat v) else none

/-- The character of a four-byte sequence. -/
def four? (a b c d : UInt8) : Option Char :=
  let v := (a.toNat - 0xF0) * 262144 + (b.toNat - 0x80) * 4096 + (c.toNat - 0x80) * 64
    + (d.toNat - 0x80)
  if isTail b ∧ isTail c ∧ isTail d ∧ 0x10000 ≤ v ∧ v.isValidChar then some (Char.ofNat v) else none

/-- The character that a text starts with, and the number of its bytes after the first. -/
def head? : Text → Option (Char × Nat)
  | [] => none
  | a :: t =>
    if a.toNat < 0x80 then some (Char.ofNat a.toNat, 0)
    else if a.toNat < 0xC0 then none
    else if a.toNat < 0xE0 then
      match t with
      | b :: _ => (two? a b).map (·, 1)
      | _ => none
    else if a.toNat < 0xF0 then
      match t with
      | b :: c :: _ => (three? a b c).map (·, 2)
      | _ => none
    else
      match t with
      | b :: c :: d :: _ => (four? a b c d).map (·, 3)
      | _ => none

/-- Cuts the text after its first `skip` bytes, which belong to a character already read; `done`
holds the pieces before it, last one first. -/
def piecesAfter : Nat → List Piece → Text → List Piece
  | _, done, [] => done.reverse
  | skip + 1, done, _ :: t => piecesAfter skip done t
  | 0, done, a :: t =>
    match head? (a :: t) with
    | some (c, more) => piecesAfter more (.char c :: done) t
    | none => piecesAfter 0 (.stray a :: done) t

/-- The characters and stray bytes of a text, in order. -/
def pieces (t : Text) : List Piece := piecesAfter 0 [] t

/-- The characters of a text, with the replacement character for each stray byte. -/
def decode (t : Text) : List Char := (pieces t).map Piece.toChar

/-- Whether a text is well-formed UTF-8. -/
def isValid (t : Text) : Bool := (pieces t).all fun p => p.is fun _ => true

/-- The number of characters of a text, a stray byte counting as one. -/
def length (t : Text) : Nat := (pieces t).length

/-! ## The pieces spell the text -/

theorem toNat_ofNat {v : Nat} (h : v.isValidChar) : (Char.ofNat v).val.toNat = v := by
  rw [Char.ofNat, dif_pos h]
  rfl

theorem ofNat_toNat_eq {n : Nat} {b : UInt8} (h : n = b.toNat) : UInt8.ofNat n = b := by
  simp [h]

theorem isTail_iff {b : UInt8} : isTail b = true ↔ 0x80 ≤ b.toNat ∧ b.toNat < 0xC0 := by
  simp [isTail]

theorem encode_two {a b : UInt8} {c : Char} (ha : 0xC0 ≤ a.toNat) (ha' : a.toNat < 0xE0)
    (h : two? a b = some c) : String.utf8EncodeChar c = [a, b] := by
  simp only [two?, isTail_iff] at h
  split at h
  case isFalse => simp at h
  case isTrue hv =>
    obtain ⟨hb, hv⟩ := hv
    have hc := Option.some.inj h
    have hvalid : ((a.toNat - 0xC0) * 64 + (b.toNat - 0x80)).isValidChar := by
      simp only [Nat.isValidChar]; omega
    subst hc
    simp only [String.utf8EncodeChar, toNat_ofNat hvalid]
    rw [if_neg (by omega), if_pos (by omega), ofNat_toNat_eq (b := a) (by omega),
      ofNat_toNat_eq (b := b) (by omega)]

theorem encode_three {a b c : UInt8} {x : Char} (ha : 0xE0 ≤ a.toNat) (ha' : a.toNat < 0xF0)
    (h : three? a b c = some x) : String.utf8EncodeChar x = [a, b, c] := by
  simp only [three?, isTail_iff] at h
  split at h
  case isFalse => simp at h
  case isTrue hv =>
    obtain ⟨hb, hc, hv, hvalid⟩ := hv
    have hx := Option.some.inj h
    subst hx
    simp only [String.utf8EncodeChar, toNat_ofNat hvalid]
    rw [if_neg (by omega), if_neg (by omega), if_pos (by omega), ofNat_toNat_eq (b := a) (by omega),
      ofNat_toNat_eq (b := b) (by omega), ofNat_toNat_eq (b := c) (by omega)]

theorem encode_four {a b c d : UInt8} {x : Char} (ha : 0xF0 ≤ a.toNat)
    (h : four? a b c d = some x) : String.utf8EncodeChar x = [a, b, c, d] := by
  simp only [four?, isTail_iff] at h
  split at h
  case isFalse => simp at h
  case isTrue hv =>
    obtain ⟨hb, hc, hd, hv, hvalid⟩ := hv
    have hx := Option.some.inj h
    subst hx
    have hlt : (a.toNat - 0xF0) * 262144 + (b.toNat - 0x80) * 4096 + (c.toNat - 0x80) * 64
        + (d.toNat - 0x80) < 0x110000 := by
      simp only [Nat.isValidChar] at hvalid; omega
    simp only [String.utf8EncodeChar, toNat_ofNat hvalid]
    rw [if_neg (by omega), if_neg (by omega), if_neg (by omega), ofNat_toNat_eq (b := a) (by omega),
      ofNat_toNat_eq (b := b) (by omega), ofNat_toNat_eq (b := c) (by omega),
      ofNat_toNat_eq (b := d) (by omega)]

theorem encode_one {a : UInt8} (h : a.toNat < 0x80) :
    String.utf8EncodeChar (Char.ofNat a.toNat) = [a] := by
  have hv : a.toNat.isValidChar := by simp only [Nat.isValidChar]; omega
  simp only [String.utf8EncodeChar, toNat_ofNat hv]
  rw [if_pos (by omega), ofNat_toNat_eq (b := a) rfl]

/-- The character read at the head encodes to the bytes it was read from. -/
theorem encode_head? {a : UInt8} {t : Text} {c : Char} {more : Nat}
    (h : head? (a :: t) = some (c, more)) :
    String.utf8EncodeChar c ++ t.drop more = a :: t := by
  simp only [head?] at h
  split at h
  case isTrue ha =>
    obtain ⟨rfl, rfl⟩ := Prod.mk.inj (Option.some.inj h)
    simp [encode_one ha]
  case isFalse =>
    split at h
    case isTrue => simp at h
    case isFalse =>
      split at h
      case isTrue =>
        cases t with
        | nil => simp at h
        | cons b t =>
          obtain ⟨x, hx, he⟩ := Option.map_eq_some_iff.1 h
          obtain ⟨rfl, rfl⟩ := Prod.mk.inj he
          simp [encode_two (by omega) (by omega) hx]
      case isFalse =>
        split at h
        case isTrue =>
          match t, h with
          | b :: c :: t, h =>
            obtain ⟨x, hx, he⟩ := Option.map_eq_some_iff.1 h
            obtain ⟨rfl, rfl⟩ := Prod.mk.inj he
            simp [encode_three (by omega) (by omega) hx]
        case isFalse =>
          match t, h with
          | b :: c :: d :: t, h =>
            obtain ⟨x, hx, he⟩ := Option.map_eq_some_iff.1 h
            obtain ⟨rfl, rfl⟩ := Prod.mk.inj he
            simp [encode_four (by omega) hx]

theorem piecesAfter_bytes (skip : Nat) (done : List Piece) (t : Text) :
    (piecesAfter skip done t).flatMap Piece.bytes
      = done.reverse.flatMap Piece.bytes ++ t.drop skip := by
  induction t generalizing skip done with
  | nil => simp [piecesAfter]
  | cons a t ih =>
    cases skip with
    | succ skip => simp [piecesAfter, ih]
    | zero =>
      unfold piecesAfter
      split
      case h_1 c more h => simp [Piece.bytes, ih, encode_head? h]
      case h_2 => simp [Piece.bytes, ih]

/-- **Nothing is lost**: the pieces of a text spell it. -/
theorem pieces_bytes (t : Text) : (pieces t).flatMap Piece.bytes = t := by
  simp [pieces, piecesAfter_bytes]

end StackLang.Utf8
