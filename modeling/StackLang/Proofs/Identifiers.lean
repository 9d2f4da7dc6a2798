import StackLang.Assembly.Identifier
import StackLang.Proofs.Characters

/-!
# Words and identifiers in any script

Well-formed text is trimmed and cut into fields by its characters. An identifier is made of letters and
digits of all scripts: none of the signs that shape an assembly line is among its bytes, and none of its
characters is white space.

- `Text.Snug`, `Text.IsWord`: text without white space at its ends, and without any.
- `Text.fields_word`: the first field of a line.
- `Text.isIdentifier_iff`: an identifier as a list of characters.
- `Text.isIdentifierByte_of_mem`: the bytes of an identifier.
-/

set_option autoImplicit false

namespace StackLang

/-- A fact about bytes that holds of each of the 256. -/
theorem forall_byte {p : UInt8 → Prop} (h : ∀ n : Fin 256, p (UInt8.ofNat n.val)) (b : UInt8) :
    p b := by
  have := h ⟨b.toNat, b.toNat_lt⟩
  simpa using this

theorem Utf8.pieces_ofChars (cs : List Char) : pieces (Text.ofChars cs) = cs.map .char := by
  induction cs with
  | nil => rfl
  | cons c cs ih => rw [Text.ofChars_cons, pieces_encode, ih, List.map_cons]

namespace Text

open Utf8 (Piece pieces)

/-! ## Cutting well-formed text -/

theorem ofPieces_char (cs : List Char) : ofPieces (cs.map .char) = ofChars cs := by
  rw [ofPieces, List.flatMap_map]
  rfl

theorem trim_ofChars (cs : List Char) : trim (ofChars cs) = ofChars (trimBy CharClass.isSpace cs) := by
  rw [trim, Utf8.pieces_ofChars, trimBy_map, ofPieces_char]
  rfl

theorem fields_ofChars (cs : List Char) :
    fields (ofChars cs) = (runsOutside CharClass.isSpace [] cs).map ofChars := by
  have hmap := runsOutside_map (Piece.is CharClass.isSpace) Piece.char [] cs
  rw [List.map_nil] at hmap
  rw [fields, Utf8.pieces_ofChars, hmap, List.map_map]
  exact List.map_congr_left fun r _ => ofPieces_char r

theorem upper_ofChars (cs : List Char) : upper (ofChars cs) = ofChars (cs.map CharClass.toUpper) := by
  rw [upper, Utf8.decode_ofChars]

/-! ## Words -/

/-- A text without stray bytes. -/
def Spelled (t : Text) : Prop := ∃ cs, t = ofChars cs

theorem ofChars_asciiChar {t : Text} (h : Ascii t) : ofChars (t.map Utf8.asciiChar) = t := by
  have := ofChars_map_ascii (f := id) (g := id) fun b hb => Utf8.encode_one (h b hb)
  simpa using this

theorem spelled_ascii {t : Text} (h : Ascii t) : Spelled t := ⟨_, (ofChars_asciiChar h).symm⟩

/-- A text with characters at its ends that are no white space. -/
def Snug (t : Text) : Prop :=
  ∃ cs, t = ofChars cs ∧ (∃ c, cs.head? = some c ∧ CharClass.isSpace c = false) ∧
    ∃ c, cs.getLast? = some c ∧ CharClass.isSpace c = false

theorem Snug.spelled {t : Text} (h : Snug t) : Spelled t := by
  obtain ⟨cs, hcs, -⟩ := h
  exact ⟨cs, hcs⟩

theorem Snug.ne_nil {t : Text} (h : Snug t) : t ≠ [] := by
  rintro rfl
  obtain ⟨cs, hcs, ⟨c, hc, -⟩, -⟩ := h
  cases cs with
  | nil => cases hc
  | cons c cs => exact Utf8.encode_ne_nil c (List.append_eq_nil_iff.1 hcs.symm).1

theorem Snug.trim_eq {t : Text} (h : Snug t) : trim t = t := by
  obtain ⟨cs, rfl, ⟨c, hc, hs⟩, ⟨d, hd, hl⟩⟩ := h
  rw [trim_ofChars, trimBy_eq_self]
  · intro a ha
    rw [hc] at ha
    cases ha
    exact hs
  · intro a ha
    rw [hd] at ha
    cases ha
    exact hl

/-- What stands between does not matter. -/
theorem Snug.between {t u : Text} (ht : Snug t) {glue : Text} (hg : Spelled glue) (hu : Snug u) :
    Snug (t ++ (glue ++ u)) := by
  obtain ⟨cs, rfl, ⟨c, hc, hs⟩, -⟩ := ht
  obtain ⟨gs, rfl⟩ := hg
  obtain ⟨ds, rfl, -, d, hd, hl⟩ := hu
  refine ⟨cs ++ (gs ++ ds), by simp, ⟨c, ?_, hs⟩, ⟨d, ?_, hl⟩⟩
  · rw [List.head?_append, hc]
    rfl
  · rw [List.getLast?_append, List.getLast?_append, hd]
    rfl

theorem snug_ascii {t : Text} (ha : Ascii t) {b e : UInt8} (hb : t.head? = some b)
    (hs : isSpaceByte b = false) (he : t.getLast? = some e) (hl : isSpaceByte e = false) :
    Snug t :=
  ⟨t.map Utf8.asciiChar, (ofChars_asciiChar ha).symm, ⟨_, by rw [List.head?_map, hb]; rfl, hs⟩,
    ⟨_, by rw [List.getLast?_map, he]; rfl, hl⟩⟩

/-- A blank in front is trimmed. -/
theorem Snug.trim_blank {t : Text} (h : Snug t) : trim (byte ' ' :: t) = t := by
  have htrim := h.trim_eq
  obtain ⟨cs, rfl, -⟩ := h
  have hblank : byte ' ' :: ofChars cs = ofChars (' ' :: cs) := rfl
  rw [hblank, trim_ofChars, trimBy_cons (by decide), ← trim_ofChars, htrim]

/-- A text of one character or more, none of which is white space. -/
def IsWord (t : Text) : Prop :=
  ∃ cs, t = ofChars cs ∧ cs ≠ [] ∧ ∀ c ∈ cs, CharClass.isSpace c = false

theorem IsWord.snug {t : Text} (h : IsWord t) : Snug t := by
  obtain ⟨cs, rfl, hne, hs⟩ := h
  obtain ⟨c, hc⟩ := Option.ne_none_iff_exists'.1 (mt List.head?_eq_none_iff.1 hne)
  obtain ⟨d, hd⟩ := Option.ne_none_iff_exists'.1 (mt List.getLast?_eq_none_iff.1 hne)
  exact ⟨cs, rfl, ⟨c, hc, hs c (List.mem_of_mem_head? hc)⟩, ⟨d, hd, hs d (List.mem_of_getLast? hd)⟩⟩

theorem IsWord.append {t u : Text} (ht : IsWord t) (hu : IsWord u) : IsWord (t ++ u) := by
  obtain ⟨cs, rfl, hne, hs⟩ := ht
  obtain ⟨ds, rfl, -, hd⟩ := hu
  exact ⟨cs ++ ds, (ofChars_append cs ds).symm, List.append_ne_nil_of_left_ne_nil hne ds,
    List.forall_mem_append.2 ⟨hs, hd⟩⟩

theorem isWord_ascii {t : Text} (ha : Ascii t) (hne : t ≠ [])
    (hs : ∀ b ∈ t, isSpaceByte b = false) : IsWord t := by
  refine ⟨_, (ofChars_asciiChar ha).symm, by simpa using hne, ?_⟩
  rw [List.forall_mem_map]
  exact hs

theorem fields_isWord {w : Text} (h : IsWord w) : fields w = [w] := by
  obtain ⟨cs, rfl, hne, hs⟩ := h
  rw [fields_ofChars, runsOutside_word hs hne]
  rfl

/-- The first field of a line, when a blank follows. -/
theorem fields_word {w u : Text} (hw : IsWord w) (hu : Spelled u) :
    fields (w ++ byte ' ' :: u) = w :: fields u := by
  obtain ⟨ds, rfl⟩ := hu
  have hfields := fields_isWord hw
  obtain ⟨cs, rfl, -⟩ := hw
  have hjoin : ofChars cs ++ byte ' ' :: ofChars ds = ofChars (cs ++ ' ' :: ds) := by
    rw [ofChars_append]
    rfl
  rw [hjoin, fields_ofChars, runsOutside_append (by decide), List.map_append, ← fields_ofChars,
    hfields, ← fields_ofChars]
  rfl

/-! ## Identifiers -/

theorem eq_char_of_is {p : Char → Bool} {ps : List Piece} (h : ps.all (Piece.is p) = true) :
    ∃ cs : List Char, ps = cs.map .char ∧ ∀ c ∈ cs, p c = true := by
  induction ps with
  | nil => exact ⟨[], rfl, by simp⟩
  | cons q ps ih =>
    rw [List.all_cons, Bool.and_eq_true] at h
    obtain ⟨cs, rfl, hcs⟩ := ih h.2
    cases q with
    | stray b => cases h.1
    | char c => exact ⟨c :: cs, rfl, List.forall_mem_cons.2 ⟨h.1, hcs⟩⟩

/-- **An identifier** is a character that may start one, and characters that may continue it. -/
theorem isIdentifier_iff {t : Text} : t.isIdentifier = true ↔ ∃ c cs, t = ofChars (c :: cs) ∧
    startsIdentifier c = true ∧ ∀ d ∈ cs, continuesIdentifier d = true := by
  constructor
  · intro h
    unfold isIdentifier at h
    split at h
    · cases h
    rename_i q qs hp
    rw [Bool.and_eq_true] at h
    obtain ⟨cs, rfl, hcs⟩ := eq_char_of_is h.2
    cases q with
    | stray b => cases h.1
    | char c =>
      refine ⟨c, cs, ?_, h.1, hcs⟩
      rw [← ofPieces_char, List.map_cons, ← hp]
      exact (Utf8.pieces_bytes t).symm
  · rintro ⟨c, cs, rfl, hc, hcs⟩
    unfold isIdentifier
    rw [Utf8.pieces_ofChars, List.map_cons]
    dsimp only
    rw [Bool.and_eq_true, List.all_map, List.all_eq_true]
    exact ⟨hc, hcs⟩

theorem continues_of_starts {c : Char} (h : startsIdentifier c = true) :
    continuesIdentifier c = true := by
  simp only [startsIdentifier, continuesIdentifier, Bool.or_eq_true] at h ⊢
  exact h.imp_left .inl

/-- An identifier is spelled by characters that may stand in one. -/
theorem exists_chars_of_isIdentifier {t : Text} (h : t.isIdentifier = true) :
    ∃ cs, t = ofChars cs ∧ cs ≠ [] ∧ ∀ c ∈ cs, continuesIdentifier c = true := by
  obtain ⟨c, cs, rfl, hc, hcs⟩ := isIdentifier_iff.1 h
  exact ⟨c :: cs, rfl, by simp, List.forall_mem_cons.2 ⟨continues_of_starts hc, hcs⟩⟩

theorem ne_nil_of_isIdentifier {t : Text} (h : t.isIdentifier = true) : t ≠ [] := by
  rintro rfl
  cases h

/-- The code points that are white space, in ranges. -/
def spaceRanges : List (Nat × Nat) :=
  [(0x09, 0x0D), (0x20, 0x20), (0x85, 0x85), (0xA0, 0xA0), (0x1680, 0x1680), (0x2000, 0x200A),
   (0x2028, 0x2029), (0x202F, 0x202F), (0x205F, 0x205F), (0x3000, 0x3000)]

theorem clear_identifierRanges : ∀ r ∈ CharClass.letterRanges ++ CharClass.digitRanges,
    ∀ s ∈ spaceRanges, r.2 < s.1 ∨ s.2 < r.1 := by decide +kernel

theorem isSpace_of_continues {c : Char} (h : continuesIdentifier c = true) :
    CharClass.isSpace c = false := by
  rw [Bool.eq_false_iff]
  intro hspace
  obtain ⟨s, hs, hlo, hhi⟩ : ∃ s ∈ spaceRanges, s.1 ≤ c.toNat ∧ c.toNat ≤ s.2 := by
    simp only [CharClass.isSpace, Bool.or_eq_true, Bool.and_eq_true, decide_eq_true_eq] at hspace
    simp only [spaceRanges, List.mem_cons, List.not_mem_nil, or_false, exists_eq_or_imp,
      exists_eq_left]
    omega
  simp only [continuesIdentifier, Bool.or_eq_true, decide_eq_true_eq] at h
  have hrange : ∀ r ∈ CharClass.letterRanges ++ CharClass.digitRanges,
      ¬ (r.1 ≤ c.toNat ∧ c.toNat ≤ r.2) := fun r hr => by
    have := clear_identifierRanges r hr s hs
    omega
  rcases h with (h | h) | rfl
  · obtain ⟨r, hr, hb⟩ := CharClass.exists_of_inRanges h
    exact hrange r (List.mem_append_left _ hr) hb
  · obtain ⟨r, hr, hb⟩ := CharClass.exists_of_inRanges h
    exact hrange r (List.mem_append_right _ hr) hb
  · have : ∀ s ∈ spaceRanges, ¬ (s.1 ≤ '_'.toNat ∧ '_'.toNat ≤ s.2) := by decide
    exact this s hs ⟨hlo, hhi⟩

theorem isWord_of_isIdentifier {t : Text} (h : t.isIdentifier = true) : IsWord t := by
  obtain ⟨cs, rfl, hne, hcs⟩ := exists_chars_of_isIdentifier h
  exact ⟨cs, rfl, hne, fun c hc => isSpace_of_continues (hcs c hc)⟩

/-- Whether a byte may stand in an identifier: an ASCII letter, digit or underscore, or part of the
encoding of another character. -/
def isIdentifierByte (b : UInt8) : Bool := 0x80 ≤ b || continuesName b

/-- **The bytes of an identifier.** -/
theorem isIdentifierByte_of_mem {t : Text} (h : t.isIdentifier = true) {b : UInt8} (hb : b ∈ t) :
    isIdentifierByte b = true := by
  obtain ⟨cs, rfl, -, hcs⟩ := exists_chars_of_isIdentifier h
  obtain ⟨c, hc, hb⟩ := List.mem_flatMap.1 hb
  by_cases hlt : b.toNat < 0x80
  · have hname : continuesIdentifier (Utf8.asciiChar b) = true := by
      have := hcs c hc
      rwa [Utf8.eq_of_mem_encode hb hlt] at this
    rw [continuesIdentifier_ascii hlt] at hname
    simp [isIdentifierByte, hname]
  · have hle : (0x80 : UInt8) ≤ b := UInt8.le_iff_toNat_le.2 (Nat.le_of_not_lt hlt)
    simp [isIdentifierByte, hle]

/-- What holds of the bytes that may stand in an identifier. -/
theorem forall_of_isIdentifier {t : Text} (h : t.isIdentifier = true) {p : UInt8 → Prop}
    (hp : ∀ n : Fin 256, isIdentifierByte (UInt8.ofNat n.val) = true → p (UInt8.ofNat n.val)) :
    ∀ b ∈ t, p b := fun b hb =>
  forall_byte (p := fun b => isIdentifierByte b = true → p b) hp b (isIdentifierByte_of_mem h hb)

end Text

end StackLang
