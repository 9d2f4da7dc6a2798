import StackLang.Proofs.AsciiText
import StackLang.Token.Lexer

/-!
# Characters, their bytes and their case

A list of characters is read back from its bytes, and upper case is a closure: one step reaches it,
and it neither makes nor hides white space or the signs that the lexer looks for.

- `Utf8.decode_ofChars`: what is encoded is read back.
- `CharClass.toUpper_toUpper`: the partner of a character has no partner of its own.
- `CharClass.toUpper_eq_iff`, `CharClass.isSpace_toUpper`: characters without case stand apart.
-/

set_option autoImplicit false

namespace StackLang

/-! ## Bytes -/

namespace Utf8

theorem two?_encode {v : Nat} (hlow : 0x80 ≤ v) (hv : v ≤ 0x7FF) :
    two? (UInt8.ofNat (v / 64 % 32 + 192)) (UInt8.ofNat (v % 64 + 128)) = some (Char.ofNat v) := by
  have hvalue : (v / 64 % 32 + 192 - 0xC0) * 64 + (v % 64 + 128 - 0x80) = v := by omega
  simp only [two?, isTail_iff, UInt8.toNat_ofNat_of_lt' (show v / 64 % 32 + 192 < 256 by omega),
    UInt8.toNat_ofNat_of_lt' (show v % 64 + 128 < 256 by omega), hvalue]
  rw [if_pos (by omega)]

theorem three?_encode {v : Nat} (hlow : 0x800 ≤ v) (hv : v ≤ 0xFFFF) (hvalid : v.isValidChar) :
    three? (UInt8.ofNat (v / 4096 % 16 + 224)) (UInt8.ofNat (v / 64 % 64 + 128))
      (UInt8.ofNat (v % 64 + 128)) = some (Char.ofNat v) := by
  have hvalue : (v / 4096 % 16 + 224 - 0xE0) * 4096 + (v / 64 % 64 + 128 - 0x80) * 64
      + (v % 64 + 128 - 0x80) = v := by omega
  simp only [three?, isTail_iff, UInt8.toNat_ofNat_of_lt' (show v / 4096 % 16 + 224 < 256 by omega),
    UInt8.toNat_ofNat_of_lt' (show v / 64 % 64 + 128 < 256 by omega),
    UInt8.toNat_ofNat_of_lt' (show v % 64 + 128 < 256 by omega), hvalue]
  rw [if_pos ⟨by omega, by omega, hlow, hvalid⟩]

theorem four?_encode {v : Nat} (hlow : 0x10000 ≤ v) (hvalid : v.isValidChar) :
    four? (UInt8.ofNat (v / 262144 % 8 + 240)) (UInt8.ofNat (v / 4096 % 64 + 128))
      (UInt8.ofNat (v / 64 % 64 + 128)) (UInt8.ofNat (v % 64 + 128)) = some (Char.ofNat v) := by
  have hlt : v < 0x110000 := by
    simp only [Nat.isValidChar] at hvalid
    omega
  have hvalue : (v / 262144 % 8 + 240 - 0xF0) * 262144 + (v / 4096 % 64 + 128 - 0x80) * 4096
      + (v / 64 % 64 + 128 - 0x80) * 64 + (v % 64 + 128 - 0x80) = v := by omega
  simp only [four?, isTail_iff, UInt8.toNat_ofNat_of_lt' (show v / 262144 % 8 + 240 < 256 by omega),
    UInt8.toNat_ofNat_of_lt' (show v / 4096 % 64 + 128 < 256 by omega),
    UInt8.toNat_ofNat_of_lt' (show v / 64 % 64 + 128 < 256 by omega),
    UInt8.toNat_ofNat_of_lt' (show v % 64 + 128 < 256 by omega), hvalue]
  rw [if_pos ⟨by omega, by omega, by omega, hlow, hvalid⟩]

/-- An encoded character is read back, and its further bytes are counted. -/
theorem head?_encode (c : Char) (t : Text) : head? (String.utf8EncodeChar c ++ t)
    = some (c, (String.utf8EncodeChar c).length - 1) := by
  have hvalid : c.val.toNat.isValidChar := c.valid
  have hc : Char.ofNat c.val.toNat = c := Char.ofNat_toNat c
  generalize hv : c.val.toNat = v at hvalid hc
  subst hc
  simp only [String.utf8EncodeChar, hv]
  split
  case isTrue h =>
    have ha := UInt8.toNat_ofNat_of_lt' (show v < 256 by omega)
    simp only [List.cons_append, head?, ha]
    rw [if_pos (by omega)]
    rfl
  split
  case isTrue h h' =>
    have ha := UInt8.toNat_ofNat_of_lt' (show v / 64 % 32 + 192 < 256 by omega)
    simp only [List.cons_append, head?, ha, two?_encode (show 0x80 ≤ v by omega) h']
    rw [if_neg (by omega), if_neg (by omega), if_pos (by omega)]
    rfl
  split
  case isTrue h h' h'' =>
    have ha := UInt8.toNat_ofNat_of_lt' (show v / 4096 % 16 + 224 < 256 by omega)
    simp only [List.cons_append, head?, ha, three?_encode (show 0x800 ≤ v by omega) h'' hvalid]
    rw [if_neg (by omega), if_neg (by omega), if_neg (by omega), if_pos (by omega)]
    rfl
  case isFalse h h' h'' =>
    have ha := UInt8.toNat_ofNat_of_lt' (show v / 262144 % 8 + 240 < 256 by omega)
    simp only [List.cons_append, head?, ha, four?_encode (show 0x10000 ≤ v by omega) hvalid]
    rw [if_neg (by omega), if_neg (by omega), if_neg (by omega), if_neg (by omega)]
    rfl

theorem encode_ne_nil (c : Char) : String.utf8EncodeChar c ≠ [] := by
  intro he
  have hnil := head?_encode c []
  rw [he] at hnil
  cases hnil

theorem piecesAfter_length (done : List Piece) (t u : Text) :
    piecesAfter t.length done (t ++ u) = piecesAfter 0 done u := by
  induction t with
  | nil => rfl
  | cons a t ih => exact ih

theorem piecesAfter_done (skip : Nat) (done : List Piece) (t : Text) :
    piecesAfter skip done t = done.reverse ++ piecesAfter skip [] t := by
  induction t generalizing skip done with
  | nil => simp [piecesAfter]
  | cons a t ih =>
    cases skip with
    | succ skip => exact ih skip done
    | zero =>
      simp only [piecesAfter]
      split
      · rw [ih, ih _ [_]]
        simp
      · rw [ih, ih _ [_]]
        simp

/-- The pieces of a text that starts with an encoded character. -/
theorem pieces_encode (c : Char) (t : Text) :
    pieces (String.utf8EncodeChar c ++ t) = .char c :: pieces t := by
  have hhead := head?_encode c t
  cases he : String.utf8EncodeChar c with
  | nil => exact absurd he (encode_ne_nil c)
  | cons a rest =>
    rw [he] at hhead
    simp only [List.cons_append] at hhead ⊢
    rw [pieces, piecesAfter, hhead]
    exact (piecesAfter_length _ rest t).trans (piecesAfter_done 0 _ t)

theorem decode_append (cs : List Char) (t : Text) :
    decode (Text.ofChars cs ++ t) = cs ++ decode t := by
  induction cs with
  | nil => rfl
  | cons c cs ih =>
    rw [Text.ofChars_cons, List.append_assoc, decode, pieces_encode, List.map_cons, ← decode, ih]
    rfl

/-- **What is encoded is read back.** -/
theorem decode_ofChars (cs : List Char) : decode (Text.ofChars cs) = cs := by
  simpa [decode, pieces, piecesAfter] using decode_append cs []

/-- Only the encoding of an ASCII character holds an ASCII byte. -/
theorem eq_of_mem_encode {b : UInt8} {c : Char} (hm : b ∈ String.utf8EncodeChar c)
    (hb : b.toNat < 0x80) : c = Char.ofNat b.toNat := by
  have htail : ∀ n, 0x80 ≤ n → n < 256 → b ≠ UInt8.ofNat n := by
    rintro n hlow hn rfl
    rw [UInt8.toNat_ofNat_of_lt' hn] at hb
    omega
  simp only [String.utf8EncodeChar] at hm
  split at hm
  case isTrue h =>
    obtain rfl := List.mem_singleton.1 hm
    rw [UInt8.toNat_ofNat_of_lt' (show _ < 256 by omega)]
    exact (Char.ofNat_toNat c).symm
  case isFalse =>
    -- Every byte of a longer encoding is at least `0x80`.
    exfalso
    split at hm
    · simp only [List.mem_cons, List.not_mem_nil, or_false] at hm
      rcases hm with h | h <;> exact htail _ (by omega) (by omega) h
    split at hm
    · simp only [List.mem_cons, List.not_mem_nil, or_false] at hm
      rcases hm with h | h | h <;> exact htail _ (by omega) (by omega) h
    · simp only [List.mem_cons, List.not_mem_nil, or_false] at hm
      rcases hm with h | h | h | h <;> exact htail _ (by omega) (by omega) h

end Utf8

namespace Text

theorem length_le_ofChars (cs : List Char) : cs.length ≤ (ofChars cs).length := by
  induction cs with
  | nil => exact Nat.le_refl 0
  | cons c cs ih =>
    have := List.length_pos_iff.2 (Utf8.encode_ne_nil c)
    simp only [ofChars_cons, List.length_cons, List.length_append]
    omega

section
variable {x : Char} (hx : x.toNat < 0x80)
include hx

theorem encode_ascii : String.utf8EncodeChar x = [byte x] := by
  have hb : (byte x).toNat = x.toNat := UInt8.toNat_ofNat_of_lt' (show _ < 256 by omega)
  have := Utf8.encode_one (a := byte x) (by rwa [hb])
  rwa [hb, Char.ofNat_toNat] at this

theorem byte_mem_encode {c : Char} : byte x ∈ String.utf8EncodeChar c ↔ c = x := by
  refine ⟨fun h => ?_, fun h => ?_⟩
  · have hb : (byte x).toNat = x.toNat := UInt8.toNat_ofNat_of_lt' (show _ < 256 by omega)
    rw [Utf8.eq_of_mem_encode h (by rwa [hb]), hb, Char.ofNat_toNat]
  · rw [h, encode_ascii hx]
    exact List.mem_singleton_self _

/-- An ASCII character at the start of a text is one byte there. -/
theorem head?_ofChars (cs : List Char) :
    (ofChars cs).head? = some (byte x) ↔ cs.head? = some x := by
  cases cs with
  | nil => simp
  | cons c cs =>
    rw [ofChars_cons, List.head?_append, List.head?_cons, Option.some_inj]
    refine ⟨fun h => ?_, fun h => ?_⟩
    · cases he : (String.utf8EncodeChar c).head? with
      | none => exact absurd (List.head?_eq_none_iff.1 he) (Utf8.encode_ne_nil c)
      | some b =>
        rw [he, Option.some_or] at h
        exact (byte_mem_encode hx).1 (List.mem_of_head? (he.trans h))
    · rw [h, encode_ascii hx]
      rfl

/-- An ASCII character at the end of a text is one byte there. -/
theorem getLast?_ofChars (cs : List Char) :
    (ofChars cs).getLast? = some (byte x) ↔ cs.getLast? = some x := by
  rcases List.eq_nil_or_concat cs with rfl | ⟨init, c, rfl⟩
  · simp
  · rw [List.concat_eq_append, ofChars_append, ofChars_cons, ofChars_nil, List.append_nil,
      List.getLast?_append, List.getLast?_concat, Option.some_inj]
    refine ⟨fun h => ?_, fun h => ?_⟩
    · cases he : (String.utf8EncodeChar c).getLast? with
      | none => exact absurd (List.getLast?_eq_none_iff.1 he) (Utf8.encode_ne_nil c)
      | some b =>
        rw [he, Option.some_or] at h
        exact (byte_mem_encode hx).1 (List.mem_of_getLast? (he.trans h))
    · rw [h, encode_ascii hx]
      rfl

end

end Text

namespace CharClass

/-! ## Runs of characters with an upper-case partner -/

theorem mapRanges_cases (rs : List CaseRange) (n : Nat) : mapRanges rs n = n ∨
    ∃ r ∈ rs, r.lo ≤ n ∧ n ≤ r.hi ∧ (n - r.lo) % r.step = 0 ∧
      mapRanges rs n = (n + r.delta).toNat := by
  induction rs with
  | nil => exact .inl rfl
  | cons r rs ih =>
    simp only [mapRanges]
    split
    · exact .inl rfl
    split
    · rename_i hlo hhi
      exact .inr ⟨r, List.mem_cons_self, by omega, hhi.1, hhi.2, rfl⟩
    · rcases ih with ih | ⟨s, hs, h⟩
      · exact .inl ih
      · exact .inr ⟨s, List.mem_cons_of_mem r hs, h⟩

/-- The code points of a run. -/
def CaseRange.points (r : CaseRange) : List Nat :=
  (List.range ((r.hi - r.lo) / r.step + 1)).map fun k => r.lo + k * r.step

theorem CaseRange.mem_points {r : CaseRange} {n : Nat} (hlo : r.lo ≤ n) (hhi : n ≤ r.hi)
    (hstep : (n - r.lo) % r.step = 0) : n ∈ r.points := by
  have hk : (n - r.lo) / r.step ≤ (r.hi - r.lo) / r.step := Nat.div_le_div_right (by omega)
  have hn : (n - r.lo) / r.step * r.step = n - r.lo :=
    Nat.div_mul_cancel (Nat.dvd_of_mod_eq_zero hstep)
  exact List.mem_map.2 ⟨(n - r.lo) / r.step, List.mem_range.2 (by omega), by omega⟩

/-- The code points that have an upper-case partner. -/
def lowerPoints : List Nat := upperRanges.flatMap CaseRange.points

/-- The code points that are upper-case partners. -/
def upperPoints : List Nat :=
  upperRanges.flatMap fun r => r.points.map fun n : Nat => (n + r.delta).toNat

/-- A set of numbers as the bits of one, so that sets are compared all at once. -/
def bits (ns : List Nat) : Nat := ns.foldr (fun n b => b ||| 1 <<< n) 0

theorem testBit_bits {ns : List Nat} {n : Nat} (h : n ∈ ns) : (bits ns).testBit n = true := by
  induction ns with
  | nil => cases h
  | cons m ns ih =>
    rw [bits, List.foldr_cons, Nat.testBit_or, ← bits]
    rcases List.mem_cons.1 h with rfl | h
    · simp [Nat.testBit_shiftLeft]
    · simp [ih h]

/-- No partner has a partner of its own. -/
theorem notMem_lowerPoints {n : Nat} (h : n ∈ upperPoints) : n ∉ lowerPoints := by
  intro hl
  have hdisjoint : bits lowerPoints &&& bits upperPoints = 0 := by decide +kernel
  have hbit := congrArg (Nat.testBit · n) hdisjoint
  simp only [Nat.testBit_and, testBit_bits h, testBit_bits hl] at hbit
  simp at hbit

theorem mapRanges_mapRanges (n : Nat) :
    mapRanges upperRanges (mapRanges upperRanges n) = mapRanges upperRanges n := by
  rcases mapRanges_cases upperRanges n with h | ⟨r, hr, hlo, hhi, hstep, h⟩
  · rw [h, h]
  · have hmem : mapRanges upperRanges n ∈ upperPoints :=
      List.mem_flatMap.2 ⟨r, hr, h ▸ List.mem_map_of_mem (CaseRange.mem_points hlo hhi hstep)⟩
    refine (mapRanges_cases upperRanges (mapRanges upperRanges n)).resolve_right ?_
    rintro ⟨s, hs, hlo, hhi, hstep, -⟩
    exact notMem_lowerPoints hmem
      (List.mem_flatMap.2 ⟨s, hs, CaseRange.mem_points hlo hhi hstep⟩)

/-- White space and the ASCII characters that are no letters, in ascending ranges. -/
def caselessRanges : List (Nat × Nat) :=
  [(0, 0x40), (0x5B, 0x60), (0x7B, 0x7F), (0x85, 0x85), (0xA0, 0xA0), (0x1680, 0x1680),
   (0x2000, 0x200A), (0x2028, 0x2029), (0x202F, 0x202F), (0x205F, 0x205F), (0x3000, 0x3000)]

/-- Whether a character is white space or an ASCII character that is no letter. -/
def isCaseless (c : Char) : Bool := inRanges caselessRanges c.toNat

theorem isCaseless_of_isSpace {c : Char} (h : isSpace c = true) : isCaseless c = true := by
  simp [isSpace] at h
  simp [isCaseless, caselessRanges, inRanges]
  omega

theorem isCaseless_ofNat {n : Nat} (h : n ≤ 0x40) : isCaseless (Char.ofNat n) = true := by
  have hn : (Char.ofNat n).toNat = n := Utf8.toNat_ofNat (by simp only [Nat.isValidChar]; omega)
  simp [isCaseless, hn, caselessRanges, inRanges, h]

/-! ## What is checked of the table -/

theorem clear_upperRanges : ∀ r ∈ upperRanges, 0 ≤ r.lo + r.delta ∧ ∀ i ∈ caselessRanges,
    (r.hi < i.1 ∨ i.2 < r.lo) ∧ (r.hi + r.delta < i.1 ∨ i.2 < r.lo + r.delta) := by decide +kernel

theorem valid_upperRanges : ∀ r ∈ upperRanges,
    r.hi + r.delta < 0xD800 ∨ 0xE000 ≤ r.lo + r.delta ∧ r.hi + r.delta < 0x110000 := by
  decide +kernel

theorem ascii_upperRanges : ∀ r ∈ upperRanges,
    0x61 ≤ r.lo ∧ r.hi ≤ 0x7A ∧ r.delta = -32 ∨
    0x80 ≤ r.lo ∧ (0x80 ≤ r.lo + r.delta ∨
      r.lo = r.hi ∧ (r.lo + r.delta = 0x49 ∨ r.lo + r.delta = 0x53)) := by decide +kernel

/-! ## Upper case -/

theorem toNat_toUpper (c : Char) : (toUpper c).toNat = mapRanges upperRanges c.toNat := by
  refine Utf8.toNat_ofNat ?_
  rcases mapRanges_cases upperRanges c.toNat with h | ⟨r, hr, hlo, hhi, -, h⟩
  · rw [h]
    exact c.valid
  · have := valid_upperRanges r hr
    simp only [h, Nat.isValidChar]
    omega

/-- **Upper case is reached in one step.** -/
theorem toUpper_toUpper (c : Char) : toUpper (toUpper c) = toUpper c := by
  rw [toUpper, toNat_toUpper, mapRanges_mapRanges]
  rfl

/-- A character that changes goes to a partner by a run. -/
theorem toUpper_cases (c : Char) : toUpper c = c ∨ ∃ r ∈ upperRanges, r.lo ≤ c.toNat ∧
    c.toNat ≤ r.hi ∧ (toUpper c).toNat = (c.toNat + r.delta).toNat := by
  rcases mapRanges_cases upperRanges c.toNat with h | ⟨r, hr, hlo, hhi, -, h⟩
  · left
    rw [toUpper, h, Char.ofNat_toNat]
  · exact .inr ⟨r, hr, hlo, hhi, (toNat_toUpper c).trans h⟩

/-- Neither end of a change of case is caseless. -/
theorem isCaseless_of_change {c : Char} (h : toUpper c ≠ c) :
    isCaseless c = false ∧ isCaseless (toUpper c) = false := by
  obtain ⟨r, hr, hlo, hhi, hup⟩ := (toUpper_cases c).resolve_left h
  obtain ⟨hpos, hclear⟩ := clear_upperRanges r hr
  refine ⟨Bool.eq_false_iff.2 fun hc => ?_, Bool.eq_false_iff.2 fun hc => ?_⟩
  · obtain ⟨i, hi, hb⟩ := exists_of_inRanges hc
    have := (hclear i hi).1
    omega
  · obtain ⟨i, hi, hb⟩ := exists_of_inRanges hc
    have := (hclear i hi).2
    omega

/-- A caseless character is the upper case of itself and of nothing else. -/
theorem toUpper_eq_iff {x : Char} (hx : isCaseless x = true) (c : Char) :
    toUpper c = x ↔ c = x := by
  by_cases h : toUpper c = c
  · rw [h]
  · obtain ⟨hc, hu⟩ := isCaseless_of_change h
    refine ⟨fun he => ?_, fun he => ?_⟩
    · rw [he, hx] at hu
      cases hu
    · rw [he, hx] at hc
      cases hc

theorem isSpace_toUpper (c : Char) : isSpace (toUpper c) = isSpace c := by
  rw [Bool.eq_iff_iff]
  refine ⟨fun h => ?_, fun h => ?_⟩
  · have hc := (toUpper_eq_iff (isCaseless_of_isSpace h) c).1 rfl
    rwa [← hc] at h
  · rwa [(toUpper_eq_iff (isCaseless_of_isSpace h) c).2 rfl]

theorem toNat_asciiLower (c : Char) : (asciiLower c).toNat =
    if 0x41 ≤ c.toNat ∧ c.toNat ≤ 0x5A then c.toNat + 32 else c.toNat := by
  have hiff : 'A' ≤ c ∧ c ≤ 'Z' ↔ 0x41 ≤ c.toNat ∧ c.toNat ≤ 0x5A := Iff.rfl
  unfold asciiLower
  split
  · rename_i h
    have hle := (hiff.1 h).2
    rw [if_pos (hiff.1 h)]
    refine Utf8.toNat_ofNat ?_
    simp only [Nat.isValidChar]
    omega
  · rename_i h
    rw [if_neg (fun h' => h (hiff.2 h'))]

/-- Changing to upper case does not hide an ASCII character, `i` and `s` apart. -/
theorem asciiLower_toUpper {x : Char} (hx : x.toNat < 0x80) (hi : x ≠ 'i') (hs : x ≠ 's')
    (c : Char) : asciiLower (toUpper c) = x ↔ asciiLower c = x := by
  by_cases h : toUpper c = c
  · rw [h]
  · obtain ⟨r, hr, hlo, hhi, hup⟩ := (toUpper_cases c).resolve_left h
    have hascii := ascii_upperRanges r hr
    have hi' : x.toNat ≠ 0x69 := fun h => hi (Char.toNat_inj.1 h)
    have hs' : x.toNat ≠ 0x73 := fun h => hs (Char.toNat_inj.1 h)
    rw [← Char.toNat_inj, ← Char.toNat_inj, toNat_asciiLower, toNat_asciiLower, hup]
    split <;> split <;> omega

end CharClass

end StackLang
