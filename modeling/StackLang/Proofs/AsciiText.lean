import Mathlib.Algebra.Group.Nat.Defs
import StackLang.Assembly.Verify

/-!
# Texts of ASCII bytes

On ASCII bytes the functions that read a text by its characters work byte by byte: trimming,
cutting into fields, changing the case, telling identifiers. What is written to an assembly file is
ASCII outside its comments.

- `Text.fields_ascii`, `Text.upper_ascii`, `Text.isIdentifier_ascii`.
- `Text.runsOutside_append`: fields are found on both sides of a separator on their own.
- `Text.ofNat_inj`, `Text.digits_ofNat`, `Text.ofNat_eq`: numbers in decimal.
- `Text.newline_notMem_squeeze`: squeezed text has one line, whatever its bytes.
-/

set_option autoImplicit false

namespace StackLang

/-- All bytes are ASCII. -/
def Ascii (t : Text) : Prop := ∀ b ∈ t, b.toNat < 0x80

theorem Ascii.append {t u : Text} (ht : Ascii t) (hu : Ascii u) : Ascii (t ++ u) :=
  List.forall_mem_append.2 ⟨ht, hu⟩

theorem Ascii.cons {b : UInt8} {t : Text} (hb : b.toNat < 0x80) (ht : Ascii t) : Ascii (b :: t) :=
  List.forall_mem_cons.2 ⟨hb, ht⟩

theorem Ascii.of_cons {b : UInt8} {t : Text} (h : Ascii (b :: t)) : b.toNat < 0x80 ∧ Ascii t :=
  List.forall_mem_cons.1 h

-- A bound over a text is decided along the text, never by trying all the bytes there are.
instance (priority := high) decidableForallMem (t : Text) (p : UInt8 → Prop) [DecidablePred p] :
    Decidable (∀ b ∈ t, p b) :=
  List.decidableBAll p t

instance (t : Text) : Decidable (Ascii t) := inferInstanceAs (Decidable (∀ b ∈ t, b.toNat < 0x80))

/-- A fact about ASCII bytes that holds of each of the 128. -/
theorem forall_ascii {p : UInt8 → Prop} (h : ∀ n : Fin 128, p (UInt8.ofNat n.val)) {b : UInt8}
    (hb : b.toNat < 0x80) : p b := by
  have := h ⟨b.toNat, hb⟩
  simpa using this

namespace Utf8

/-- The character of an ASCII byte. -/
def asciiChar (b : UInt8) : Char := Char.ofNat b.toNat

theorem piecesAfter_ascii {t : Text} (h : Ascii t) (done : List Piece) :
    piecesAfter 0 done t = done.reverse ++ t.map fun b => .char (asciiChar b) := by
  induction t generalizing done with
  | nil => simp [piecesAfter]
  | cons b t ih =>
    obtain ⟨hb, ht⟩ := h.of_cons
    have hhead : head? (b :: t) = some (asciiChar b, 0) := by simp [head?, hb, asciiChar]
    rw [piecesAfter, hhead]
    simp [ih ht]

theorem pieces_ascii {t : Text} (h : Ascii t) :
    pieces t = t.map fun b => .char (asciiChar b) := by
  simp [pieces, piecesAfter_ascii h]

theorem decode_ascii {t : Text} (h : Ascii t) : decode t = t.map asciiChar := by
  simp [decode, pieces_ascii h, Piece.toChar]

end Utf8

namespace Text

open Utf8 (asciiChar)

/-! ## White space -/

/-- Whether an ASCII byte is white space. -/
def isSpaceByte (b : UInt8) : Bool := CharClass.isSpace (asciiChar b)

theorem ofPieces_ascii {t : Text} (h : Ascii t) :
    ofPieces (t.map fun b => .char (asciiChar b)) = t := by
  induction t with
  | nil => rfl
  | cons b t ih =>
    obtain ⟨hb, ht⟩ := h.of_cons
    have hb' : String.utf8EncodeChar (asciiChar b) = [b] := Utf8.encode_one hb
    have := ih ht
    simp only [ofPieces] at this
    simp [ofPieces, Utf8.Piece.bytes, hb', this]

theorem trimBy_map {α β : Type} (p : β → Bool) (f : α → β) (l : List α) :
    trimBy p (l.map f) = (trimBy (p ∘ f) l).map f := by
  simp [trimBy, List.dropWhile_map, ← List.map_reverse]

theorem runsOutside_map {α β : Type} (p : β → Bool) (f : α → β) (run l : List α) :
    runsOutside p (run.map f) (l.map f) = (runsOutside (p ∘ f) run l).map (List.map f) := by
  induction l generalizing run with
  | nil => cases run <;> simp [runsOutside]
  | cons a l ih =>
    have h1 := ih []
    have h2 := ih (a :: run)
    simp only [List.map_nil, List.map_cons] at h1 h2
    simp only [runsOutside, List.map_cons, Function.comp_apply, List.isEmpty_map, h1, h2]
    split
    · split <;> simp
    · rfl

theorem mem_of_mem_runsOutside {α : Type} {p : α → Bool} {run l r : List α}
    (h : r ∈ runsOutside p run l) : ∀ a ∈ r, a ∈ run ∨ a ∈ l := by
  induction l generalizing run with
  | nil =>
    simp only [runsOutside] at h
    split at h
    · cases h
    · simp only [List.mem_singleton] at h
      subst h
      simp
  | cons a l ih =>
    simp only [runsOutside] at h
    split at h
    · split at h
      · intro x hx
        rcases ih h x hx with hx | hx
        · cases hx
        · simp [hx]
      · rcases List.mem_cons.1 h with rfl | h
        · intro x hx
          exact .inl (by simpa using hx)
        · intro x hx
          rcases ih h x hx with hx | hx
          · cases hx
          · simp [hx]
    · intro x hx
      rcases ih h x hx with hx | hx
      · rcases List.mem_cons.1 hx with rfl | hx
        · simp
        · simp [hx]
      · simp [hx]

/-- A run holds no separators. -/
theorem outside_of_mem_runsOutside {α : Type} {p : α → Bool} {run l r : List α}
    (hrun : ∀ a ∈ run, p a = false) (h : r ∈ runsOutside p run l) : ∀ a ∈ r, p a = false := by
  induction l generalizing run with
  | nil =>
    simp only [runsOutside] at h
    split at h
    · cases h
    · simp only [List.mem_singleton] at h
      subst h
      simpa using hrun
  | cons a l ih =>
    simp only [runsOutside] at h
    split at h
    · split at h
      · exact ih (by simp) h
      · rcases List.mem_cons.1 h with rfl | h
        · simpa using hrun
        · exact ih (by simp) h
    · rename_i ha
      exact ih (List.forall_mem_cons.2 ⟨by simpa using ha, hrun⟩) h

theorem fields_ascii {t : Text} (h : Ascii t) : fields t = runsOutside isSpaceByte [] t := by
  have hmap := runsOutside_map (Utf8.Piece.is CharClass.isSpace)
    (fun b => Utf8.Piece.char (asciiChar b)) [] t
  rw [List.map_nil] at hmap
  rw [fields, Utf8.pieces_ascii h, hmap, List.map_map]
  refine (List.map_congr_left fun r hr => ?_).trans (List.map_id _)
  refine ofPieces_ascii fun b hb => h b ?_
  rcases mem_of_mem_runsOutside hr b hb with hb | hb
  · cases hb
  · exact hb

/-! ### Runs -/

section
variable {α : Type} {p : α → Bool}

theorem runsOutside_cons_sep {a : α} (ha : p a = true) (l : List α) :
    runsOutside p [] (a :: l) = runsOutside p [] l := by
  simp [runsOutside, ha]

/-- What follows a separator is cut on its own. -/
theorem runsOutside_append_aux {a : α} (ha : p a = true) (run l l' : List α) :
    runsOutside p run (l ++ a :: l') = runsOutside p run l ++ runsOutside p [] l' := by
  induction l generalizing run with
  | nil => cases run <;> simp [runsOutside, ha]
  | cons b l ih =>
    simp only [List.cons_append, runsOutside, ih]
    split
    · split <;> simp
    · rfl

theorem runsOutside_append {a : α} (ha : p a = true) (l l' : List α) :
    runsOutside p [] (l ++ a :: l') = runsOutside p [] l ++ runsOutside p [] l' :=
  runsOutside_append_aux ha [] l l'

theorem runsOutside_word_aux {l : List α} (hl : ∀ a ∈ l, p a = false) (run : List α)
    (hne : run ≠ [] ∨ l ≠ []) : runsOutside p run l = [run.reverse ++ l] := by
  induction l generalizing run with
  | nil =>
    have : run ≠ [] := by simpa using hne
    simp [runsOutside, this]
  | cons a l ih =>
    have ha : p a = false := hl a (by simp)
    rw [runsOutside, ha, if_neg (by simp), ih (fun b hb => hl b (by simp [hb])) _ (.inl (by simp))]
    simp

/-- A text without separators is one run. -/
theorem runsOutside_word {l : List α} (hl : ∀ a ∈ l, p a = false) (hne : l ≠ []) :
    runsOutside p [] l = [l] := by
  simpa using runsOutside_word_aux hl [] (.inr hne)

end

/-! ### Trimming -/

section
variable {α : Type} {p : α → Bool}

/-- Nothing is dropped where both ends stay. -/
theorem trimBy_eq_self {l : List α} (hh : ∀ a ∈ l.head?, p a = false)
    (hl : ∀ a ∈ l.getLast?, p a = false) : trimBy p l = l := by
  have h1 : l.dropWhile p = l := by
    cases l with
    | nil => rfl
    | cons a l => simp [hh a rfl]
  have h2 : l.reverse.dropWhile p = l.reverse := by
    cases hr : l.reverse with
    | nil => rfl
    | cons a r =>
      have ha : l.getLast? = some a := by rw [List.getLast?_eq_head?_reverse, hr]; rfl
      simp [hl a ha]
  rw [trimBy, h1, h2, List.reverse_reverse]

theorem trimBy_cons {a : α} (ha : p a = true) (l : List α) : trimBy p (a :: l) = trimBy p l := by
  simp [trimBy, ha]

end

/-! ## Case and identifiers -/

/-- An ASCII byte in upper case. -/
def upperByte (b : UInt8) : UInt8 := if 0x61 ≤ b ∧ b ≤ 0x7A then b - 32 else b

/-- An ASCII byte in lower case. -/
def lowerByte (b : UInt8) : UInt8 := if 0x41 ≤ b ∧ b ≤ 0x5A then b + 32 else b

theorem encode_toUpper {b : UInt8} (hb : b.toNat < 0x80) :
    String.utf8EncodeChar (CharClass.toUpper (asciiChar b)) = [upperByte b] := by
  refine forall_ascii (p := fun b => String.utf8EncodeChar (CharClass.toUpper (asciiChar b))
    = [upperByte b]) ?_ hb
  decide

theorem encode_lowerAscii {b : UInt8} (hb : b.toNat < 0x80) :
    String.utf8EncodeChar (CharClass.lowerAscii (asciiChar b)) = [lowerByte b] := by
  refine forall_ascii (p := fun b => String.utf8EncodeChar (CharClass.lowerAscii (asciiChar b))
    = [lowerByte b]) ?_ hb
  decide

theorem ofChars_map_ascii {t : Text} {f : Char → Char} {g : UInt8 → UInt8}
    (hfg : ∀ b ∈ t, String.utf8EncodeChar (f (asciiChar b)) = [g b]) :
    ofChars ((t.map asciiChar).map f) = t.map g := by
  induction t with
  | nil => rfl
  | cons b t ih =>
    simp only [List.map_cons, ofChars_cons, hfg b (by simp), ih fun c hc => hfg c (by simp [hc])]
    rfl

theorem upper_ascii {t : Text} (h : Ascii t) : upper t = t.map upperByte := by
  rw [upper, Utf8.decode_ascii h]
  exact ofChars_map_ascii fun b hb => encode_toUpper (h b hb)

theorem lower_ascii {t : Text} (h : Ascii t) : lower t = t.map lowerByte := by
  rw [lower, Utf8.decode_ascii h]
  exact ofChars_map_ascii fun b hb => encode_lowerAscii (h b hb)

/-- Whether an ASCII byte may start an identifier. -/
def startsName (b : UInt8) : Bool :=
  (0x41 ≤ b && b ≤ 0x5A) || (0x61 ≤ b && b ≤ 0x7A) || b = 0x5F

/-- Whether an ASCII byte may stand in an identifier. -/
def continuesName (b : UInt8) : Bool := startsName b || (0x30 ≤ b && b ≤ 0x39)

theorem startsIdentifier_ascii {b : UInt8} (hb : b.toNat < 0x80) :
    startsIdentifier (asciiChar b) = startsName b := by
  refine forall_ascii (p := fun b => startsIdentifier (asciiChar b) = startsName b) ?_ hb
  decide

theorem continuesIdentifier_ascii {b : UInt8} (hb : b.toNat < 0x80) :
    continuesIdentifier (asciiChar b) = continuesName b := by
  refine forall_ascii (p := fun b => continuesIdentifier (asciiChar b) = continuesName b) ?_ hb
  decide

theorem isIdentifier_ascii {t : Text} (h : Ascii t) :
    t.isIdentifier = true ↔
      ∃ b bs, t = b :: bs ∧ startsName b = true ∧ ∀ c ∈ bs, continuesName c = true := by
  rw [isIdentifier, Utf8.pieces_ascii h]
  cases t with
  | nil => simp
  | cons b bs =>
    obtain ⟨hb, hbs⟩ := h.of_cons
    have hall : (bs.map fun b => Utf8.Piece.char (asciiChar b)).all
        (Utf8.Piece.is continuesIdentifier) = true ↔ ∀ c ∈ bs, continuesName c = true := by
      rw [List.all_map, List.all_eq_true]
      refine ⟨fun h c hc => ?_, fun h c hc => ?_⟩
      · rw [← continuesIdentifier_ascii (hbs c hc)]
        exact h c hc
      · exact (continuesIdentifier_ascii (hbs c hc)).trans (h c hc)
    simp only [List.map_cons, Bool.and_eq_true, hall, Utf8.Piece.is, startsIdentifier_ascii hb]
    constructor
    · exact fun ⟨hs, hc⟩ => ⟨b, bs, rfl, hs, hc⟩
    · rintro ⟨_, _, he, hs, hc⟩
      cases he
      exact ⟨hs, hc⟩

/-! ## Numbers -/

/-- Whether a byte is a decimal digit. -/
def isDigitByte (b : UInt8) : Bool := 0x30 ≤ b && b ≤ 0x39

theorem toNat_byte {c : Char} (h : c.toNat < 256) : (byte c).toNat = c.toNat := by
  simp [byte, Nat.mod_eq_of_lt h]

theorem lt_of_isDigit {c : Char} (h : c.isDigit = true) : 48 ≤ c.toNat ∧ c.toNat ≤ 57 := by
  simpa [Char.isDigit, UInt32.le_iff_toNat_le] using h

theorem digits_ofNat {n : Nat} {b : UInt8} (h : b ∈ ofNat n) : isDigitByte b = true := by
  obtain ⟨c, hc, rfl⟩ := List.mem_map.1 h
  have hd := lt_of_isDigit (Nat.isDigit_of_mem_toDigits (by omega) (by omega) hc)
  have ht := toNat_byte (c := c) (by omega)
  simp only [isDigitByte, Bool.and_eq_true, decide_eq_true_eq, UInt8.le_iff_toNat_le, ht]
  exact hd

theorem ofNat_ne_nil (n : Nat) : ofNat n ≠ [] := by
  simp [ofNat, Nat.toDigits_ne_nil]

/-- Numbers are told apart by how they are written. -/
theorem ofNat_inj {n m : Nat} (h : ofNat n = ofNat m) : n = m := by
  have back : ∀ k : Nat, (ofNat k).map asciiChar = Nat.toDigits 10 k := by
    intro k
    rw [ofNat, List.map_map]
    refine (List.map_congr_left fun c hc => ?_).trans (List.map_id _)
    have hd := lt_of_isDigit (Nat.isDigit_of_mem_toDigits (by omega) (by omega) hc)
    simp [asciiChar, toNat_byte (c := c) (by omega)]
  have hdig : Nat.toDigits 10 n = Nat.toDigits 10 m := by rw [← back n, ← back m, h]
  rw [← Nat.ofDigitChars_ten_toDigits (n := n), hdig, Nat.ofDigitChars_ten_toDigits]

/-- The last digit of a number, and those in front of it. -/
theorem ofNat_eq (n : Nat) :
    ofNat n = (if n < 10 then [] else ofNat (n / 10)) ++ [UInt8.ofNat (0x30 + n % 10)] := by
  have hdigit : ∀ k < 10, byte (Nat.digitChar k) = UInt8.ofNat (0x30 + k) := by decide
  rw [ofNat, Nat.toDigits_eq_if (by decide)]
  split
  · rename_i hn
    rw [List.map_singleton, hdigit n hn, Nat.mod_eq_of_lt hn]
    rfl
  · rw [List.map_append, List.map_singleton, hdigit _ (Nat.mod_lt n (by decide))]
    rfl

theorem length_ofNat_le {n k : Nat} (h : n < 10 ^ (k + 1)) : (ofNat n).length ≤ k + 1 := by
  induction k generalizing n with
  | zero =>
    rw [ofNat_eq, if_pos (by omega)]
    simp
  | succ k ih =>
    rw [ofNat_eq, List.length_append, List.length_singleton]
    split
    · simp
    · have hlen := ih (n := n / 10) (by omega)
      omega

/-- A number that is not zero does not start with a zero. -/
theorem head_ofNat {n : Nat} (h : 0 < n) : (ofNat n).head? ≠ some (byte '0') := by
  induction n using Nat.strongRecOn with
  | ind n ih =>
    rw [ofNat_eq]
    split
    · rename_i hn
      have hdigit : ∀ k < 10, 0 < k → UInt8.ofNat (0x30 + k % 10) ≠ byte '0' := by decide
      simpa using hdigit n hn h
    · have hrest := ih (n / 10) (by omega) (by omega)
      obtain ⟨b, t, hbt⟩ := List.exists_cons_of_ne_nil (ofNat_ne_nil (n / 10))
      rw [hbt] at hrest ⊢
      exact hrest

theorem ofInt_natCast (n : Nat) : ofInt n = ofNat n := by
  rw [ofInt, if_neg (by omega), Int.natAbs_natCast]

theorem isDigitByte_lt {b : UInt8} (h : isDigitByte b = true) : b.toNat < 0x80 := by
  simp only [isDigitByte, Bool.and_eq_true, decide_eq_true_eq, UInt8.le_iff_toNat_le] at h
  have : (0x39 : UInt8).toNat = 0x39 := rfl
  omega

theorem ascii_ofNat (n : Nat) : Ascii (ofNat n) := fun _ hb => isDigitByte_lt (digits_ofNat hb)

/-! ## One line -/

/-- Only the line break is encoded with its byte. -/
theorem eq_newline_of_mem_encode {c : Char} (h : (10 : UInt8) ∈ String.utf8EncodeChar c) :
    c.toNat = 10 := by
  have hval : ∀ {n : Nat}, (10 : UInt8) = UInt8.ofNat n → n % 256 = 10 := fun {n} he => by
    simpa using (congrArg UInt8.toNat he).symm
  have hc : c.toNat = c.val.toNat := rfl
  simp only [String.utf8EncodeChar] at h
  split at h
  · have := hval (List.mem_singleton.1 h)
    omega
  split at h
  · simp only [List.mem_cons, List.not_mem_nil, or_false] at h
    rcases h with h | h <;> have := hval h <;> omega
  split at h
  · simp only [List.mem_cons, List.not_mem_nil, or_false] at h
    rcases h with h | h | h <;> have := hval h <;> omega
  · simp only [List.mem_cons, List.not_mem_nil, or_false] at h
    rcases h with h | h | h | h <;> have := hval h <;> omega

theorem lt_of_stray_mem_piecesAfter {skip : Nat} {done : List Utf8.Piece} {t : Text} {b : UInt8}
    (hd : Utf8.Piece.stray b ∈ done → 0x80 ≤ b.toNat)
    (h : Utf8.Piece.stray b ∈ Utf8.piecesAfter skip done t) : 0x80 ≤ b.toNat := by
  induction t generalizing skip done with
  | nil => exact hd (by simpa [Utf8.piecesAfter] using h)
  | cons a t ih =>
    cases skip with
    | succ skip => exact ih hd h
    | zero =>
      unfold Utf8.piecesAfter at h
      split at h
      · exact ih (fun hm => hd (by simpa using hm)) h
      · rename_i hn
        refine ih (fun hm => ?_) h
        rcases List.mem_cons.1 hm with hm | hm
        · cases hm
          simp only [Utf8.head?] at hn
          split at hn
          · cases hn
          · omega
        · exact hd hm

theorem newline_notMem_fields {t f : Text} (hf : f ∈ fields t) : (10 : UInt8) ∉ f := by
  intro h
  obtain ⟨r, hr, rfl⟩ := List.mem_map.1 hf
  obtain ⟨p, hp, hb⟩ := List.mem_flatMap.1 h
  cases p with
  | stray b =>
    -- a stray byte is never ASCII
    have hb : (10 : UInt8) = b := by simpa [Utf8.Piece.bytes] using hb
    rcases mem_of_mem_runsOutside hr _ hp with hm | hm
    · cases hm
    · have := lt_of_stray_mem_piecesAfter (by simp) hm
      rw [← hb] at this
      simp at this
  | char c =>
    have hc := eq_newline_of_mem_encode hb
    have hspace : Utf8.Piece.is CharClass.isSpace (.char c) = true := by
      simp [Utf8.Piece.is, CharClass.isSpace, hc]
    exact absurd hspace (by simp [outside_of_mem_runsOutside (by simp) hr _ hp])

/-! ## Literals and separators -/

/-- Literals are told apart by their bytes. -/
@[simp] theorem ofString_inj {s t : String} : ofString s = ofString t ↔ s = t := by
  constructor
  · intro h
    have hb : s.toList.utf8Encode = t.toList.utf8Encode := congrArg List.toByteArray h
    rw [String.utf8Encode_toList, String.utf8Encode_toList] at hb
    exact String.toByteArray_inj.1 hb
  · rintro rfl
    rfl

theorem split_of_notMem {sep : UInt8} {t : Text} (h : sep ∉ t) : split sep t = [t] := by
  induction t with
  | nil => rfl
  | cons b t ih =>
    have hb : b ≠ sep := fun he => h (by simp [he])
    rw [split_cons, ih fun hm => h (List.mem_cons_of_mem _ hm)]
    simp [splitStep, hb]

@[simp] theorem join_nil (sep : Text) : join sep [] = [] := rfl

@[simp] theorem join_singleton (sep p : Text) : join sep [p] = p := by
  simp [join, List.intercalate]

@[simp] theorem join_cons_cons (sep p q : Text) (ps : List Text) :
    join sep (p :: q :: ps) = p ++ (sep ++ join sep (q :: ps)) := by
  simp [join, List.intercalate]

/-- Parts without the separator can be told from their join. -/
theorem split_join {sep : UInt8} {parts : List Text} (hne : parts ≠ [])
    (h : ∀ p ∈ parts, sep ∉ p) : split sep (join [sep] parts) = parts := by
  induction parts with
  | nil => exact absurd rfl hne
  | cons p ps ih =>
    obtain ⟨hp, hps⟩ := List.forall_mem_cons.1 h
    cases ps with
    | nil => rw [join_singleton, split_of_notMem hp]
    | cons q qs =>
      rw [join_cons_cons, List.singleton_append, split_append, split_of_notMem hp,
        ih (by simp) hps]
      rfl

theorem mem_join {b : UInt8} {sep : Text} {parts : List Text} (h : b ∈ join sep parts) :
    b ∈ sep ∨ ∃ p ∈ parts, b ∈ p := by
  induction parts with
  | nil => cases h
  | cons p ps ih =>
    cases ps with
    | nil => exact .inr ⟨p, by simp, by simpa using h⟩
    | cons q ps =>
      rw [join_cons_cons, List.mem_append, List.mem_append] at h
      rcases h with h | h | h
      · exact .inr ⟨p, by simp, h⟩
      · exact .inl h
      · rcases ih h with h | ⟨r, hr, h⟩
        · exact .inl h
        · exact .inr ⟨r, List.mem_cons_of_mem _ hr, h⟩

/-- **Squeezed text is one line.** -/
theorem newline_notMem_squeeze (t : Text) : (10 : UInt8) ∉ squeeze t := by
  intro h
  rcases mem_join h with h | ⟨f, hf, h⟩
  · exact absurd h (by decide)
  · exact newline_notMem_fields hf h

end Text

end StackLang
