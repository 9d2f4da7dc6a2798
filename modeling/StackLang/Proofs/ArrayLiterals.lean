import StackLang.Proofs.ArrayParts
import StackLang.Proofs.FrontEnd

/-!
# Array literals

An array lists its elements between parentheses. Elements that are written as quoted literals, with
white space around them, are read back. What is accepted is wider than that: an element starts with
quoted text, but need not end with it.

- `Literal.Lists`: quoted literals with white space and commas between them, and their bytes.
  `Literal.elements_lists`: they are the elements.
- `Literal.writeArray`: an array of any well-formed bytes.
- `Lexer.arrays_read_back`: arrays are read as one token each, with their elements.
- `Lexer.exists_array`: the characters of an array that is read.
- `Literal.QuotedAs`: what a part that starts with a quote stands for.
- `Lexer.array_parts_decoded`: the elements of every array that is read.
-/

set_option autoImplicit false

namespace StackLang

open CharClass (isSpace toUpper)

namespace Literal

open Text (ofChars byte trimBy)

/-! ## Lists of quoted literals -/

/-- A quoted literal with white space around it, and the bytes it stands for. -/
inductive Padded : List Char → Text → Prop
  | mk {q : Char} {before body after : List Char} {bytes : Text} (hq : q = '"' ∨ q = '\'')
    (hb : before.all isSpace = true) (ha : after.all isSpace = true) (h : Spells q body bytes) :
    Padded (before ++ q :: (body ++ q :: after)) bytes

/-- What stands between the parentheses of an array: white space when there are no elements, and else
a literal for each, with commas between them. -/
inductive Lists : List Char → List Text → Prop
  | blank {gap : List Char} (h : gap.all isSpace = true) : Lists gap []
  | one {cs : List Char} {e : Text} (h : Padded cs e) : Lists cs [e]
  | more {cs ds : List Char} {e e' : Text} {es : List Text} (h : Padded cs e)
    (hs : Lists ds (e' :: es)) : Lists (cs ++ ',' :: ds) (e :: e' :: es)

/-- White space belongs to the part that follows it. -/
theorem Parted.space {gap cs p : List Char} {ps : List (List Char)} (hgap : gap.all isSpace = true)
    (h : Parted cs (p :: ps)) : Parted (gap ++ cs) ((gap ++ p) :: ps) := by
  induction gap with
  | nil => exact h
  | cons c gap ih =>
    obtain ⟨hc, hgap⟩ := Bool.and_eq_true_iff.1 hgap
    have hne : ∀ x, isSpace x = false → c ≠ x := by
      rintro x hx rfl
      rw [hx] at hc
      cases hc
    exact .plain (not_or.2 ⟨hne _ rfl, hne _ rfl⟩) (hne _ rfl) (hne _ rfl) (ih hgap)

theorem parted_blank {gap : List Char} (h : gap.all isSpace = true) : Parted gap [gap] := by
  simpa using Parted.space h .nil

theorem Padded.parted {cs : List Char} {e : Text} (h : Padded cs e) : Parted cs [cs] := by
  cases h with
  | mk hq hb ha h => exact .space hb (.quoted hq h.enclosed (parted_blank ha))

theorem Padded.not_blank {cs : List Char} {e : Text} (h : Padded cs e) : cs.all isSpace = false := by
  cases h with
  | mk hq hb ha h => simp [isSpace_quote hq]

theorem Padded.element_eq {cs : List Char} {e : Text} (h : Padded cs e) (lit : Text) :
    element lit (ofChars (trimBy isSpace cs)) = .ok e := by
  cases h with
  | mk hq hb ha h =>
    have hunquote := Lexer.unquote_spells hq h
    rw [trimBy_padded hq hb ha]
    rw [ofChars_quoted hq] at hunquote ⊢
    rw [element, if_pos (isQuote_quote hq), hunquote]

/-- The parts of a list are its padded literals. -/
theorem Lists.exists_parts {inside : List Char} {e : Text} {es : List Text}
    (h : Lists inside (e :: es)) :
    ∃ parts, Parted inside parts ∧ List.Forall₂ Padded parts (e :: es) := by
  generalize hall : e :: es = all at h
  induction h generalizing e es with
  | blank h => cases hall
  | one h => exact ⟨_, h.parted, .cons h .nil⟩
  | more h hs ih =>
    obtain ⟨parts, hparts, helems⟩ := ih rfl
    exact ⟨_, h.parted.append hparts, .cons h helems⟩

theorem Lists.not_blank {inside : List Char} {e : Text} {es : List Text} (h : Lists inside (e :: es)) :
    inside.all isSpace = false := by
  cases h with
  | one h => exact h.not_blank
  | more h hs => rw [List.all_append, h.not_blank, Bool.false_and]

/-- **The elements of an array are those that it lists.** -/
theorem elements_lists {head inside : List Char} {elems : List Text}
    (hhead : head.map CharClass.asciiLower = Lexer.arrayStart) (h : Lists inside elems) :
    ∃ parts, Parted inside parts ∧ elements (ofChars (head ++ (inside ++ [')']))) = .ok elems := by
  cases elems with
  | nil =>
    cases h with
    | blank h => exact ⟨_, parted_blank h, by rw [elements_array hhead (parted_blank h), if_pos h]⟩
  | cons e es =>
    obtain ⟨parts, hparts, helems⟩ := h.exists_parts
    refine ⟨parts, hparts, ?_⟩
    rw [elements_array hhead hparts, if_neg (by rw [h.not_blank]; exact Bool.false_ne_true),
      mapM_eq_ok_iff]
    exact helems.imp fun cs e h => h.element_eq _

/-! ## Writing arrays -/

/-- An element to be written: its bytes, the quote, and the white space around it. -/
structure Item where
  bytes : Text
  quote : Char
  before : List Char
  after : List Char
  valid : Utf8.isValid bytes = true
  quoted : quote = '"' ∨ quote = '\''
  blank_before : before.all isSpace = true
  blank_after : after.all isSpace = true

/-- The literal of an element with its white space. -/
def Item.text (i : Item) : Text := ofChars i.before ++ (write i.quote i.bytes ++ ofChars i.after)

/-- An array of elements, where `head` is the word before them with its parenthesis. -/
def writeArray (head : List Char) (items : List Item) : Text :=
  ofChars head ++ (Text.join "," (items.map Item.text) ++ ")")

theorem Item.exists_padded (i : Item) : ∃ cs, ofChars cs = i.text ∧ Padded cs i.bytes := by
  obtain ⟨body, hbody, hspells⟩ := exists_spells i.quoted (Utf8.decode i.bytes)
  rw [Utf8.ofChars_decode i.valid] at hbody hspells
  refine ⟨i.before ++ i.quote :: (body ++ i.quote :: i.after), ?_,
    .mk i.quoted i.blank_before i.blank_after hspells⟩
  have hquote := Text.encode_ascii (ascii_quote i.quoted)
  simp [Item.text, write, hquote, hbody]

theorem exists_lists (items : List Item) : ∃ inside,
    ofChars inside = Text.join "," (items.map Item.text) ∧ Lists inside (items.map Item.bytes) := by
  induction items with
  | nil => exact ⟨[], rfl, .blank rfl⟩
  | cons i items ih =>
    obtain ⟨cs, hcs, hpadded⟩ := i.exists_padded
    cases items with
    | nil => exact ⟨cs, by simpa using hcs, .one hpadded⟩
    | cons i' items =>
      obtain ⟨inside, hinside, hlists⟩ := ih
      refine ⟨cs ++ ',' :: inside, ?_, .more hpadded hlists⟩
      rw [Text.ofChars_append, Text.ofChars_cons, hcs, hinside]
      simp only [List.map_cons, Text.join_cons_cons]
      rfl

end Literal

namespace Lexer

open Text (ofChars)
open Literal (Parted Lists Item writeArray)

/-! ## Reading arrays -/

/-- A source is one array with these elements. -/
def ReadsArray (file source : Text) (elems : List Text) : Prop :=
  tokens file source = .ok [⟨.array, source, Position.start.inFile file⟩] ∧
    Literal.elements source = .ok elems

theorem beginsToken_array {head : List Char} (h : head.map CharClass.asciiLower = arrayStart)
    (rest : List Char) : BeginsToken (head ++ rest) := by
  cases head with
  | nil => cases h
  | cons c head =>
    have hc : toUpper c = 'A' := (List.cons.inj (map_toUpper_head h)).1
    refine ⟨?_, ?_⟩
    · rw [← CharClass.isSpace_toUpper, hc]
      rfl
    · rw [← atComment_upper]
      change atComment (toUpper c :: _) = false
      rw [hc]
      rfl

/-- Parts whose elements can be told are read as an array. -/
theorem tokens_array {head inside : List Char} {parts : List (List Char)} {elems : List Text}
    (hhead : head.map CharClass.asciiLower = arrayStart) (hparts : Parted inside parts)
    (helems : Literal.elements (ofChars (head ++ (inside ++ [')']))) = .ok elems) (file : Text) :
    ReadsArray file (ofChars (head ++ (inside ++ [')']))) elems := by
  have hlen : head.length = arrayStart.length := by
    rw [← hhead, List.length_map]
  have hat : atArray ((head ++ (inside ++ [')'])).take arrayStart.length) = true :=
    atArray_take.2 (by rw [List.take_left' hlen, hhead])
  have hextent : arrayExtent 0 ((head ++ (inside ++ [')'])).drop arrayStart.length)
      = .closed (inside.length + 1) := by
    rw [List.drop_left' hlen]
    exact arrayExtent_parted hparts []
  have hall : (head ++ (inside ++ [')'])).length = arrayStart.length + (inside.length + 1) := by
    simp [hlen]
  have hkind : classify ((head ++ (inside ++ [')'])).take (arrayStart.length + (inside.length + 1)))
      = .ok (.array, ofChars (head ++ (inside ++ [')']))) := by
    rw [classify_array hat hextent, ← hall, List.take_length, helems]
    rfl
  refine ⟨?_, helems⟩
  rw [tokens, Utf8.decode_ofChars, scan_token (beginsToken_array hhead _) (.array hat hextent) hkind,
    ← hall, List.drop_length]
  rfl

/-- **Arrays are read back.** Let `head` be the word of an array in any case, with its parenthesis.
Whatever well-formed bytes are written behind it as quoted literals with escapes, each between quotes
of its own choice and with any white space around, with commas between them and a parenthesis at the
end, is read as one array, and its elements are these bytes in order. So it is for every other way to
spell them, and white space alone is an array without elements. -/
theorem arrays_read_back {head : List Char} (hhead : head.map CharClass.asciiLower = arrayStart)
    (file : Text) :
    (∀ items : List Item, ReadsArray file (writeArray head items) (items.map Item.bytes)) ∧
    ∀ (inside : List Char) (elems : List Text), Lists inside elems →
      ReadsArray file (ofChars (head ++ (inside ++ [')']))) elems := by
  have hlists : ∀ (inside : List Char) (elems : List Text), Lists inside elems →
      ReadsArray file (ofChars (head ++ (inside ++ [')']))) elems := by
    intro inside elems h
    obtain ⟨parts, hparts, helems⟩ := Literal.elements_lists hhead h
    exact tokens_array hhead hparts helems file
  refine ⟨fun items => ?_, hlists⟩
  obtain ⟨inside, hinside, h⟩ := Literal.exists_lists items
  have htext : writeArray head items = ofChars (head ++ (inside ++ [')'])) := by
    rw [writeArray, Text.ofChars_append, Text.ofChars_append, hinside]
    rfl
  rw [htext]
  exact hlists inside _ h

/-- A comma, a quote and a parenthesis, between double quotes. -/
def signs : Item := ⟨[44, 34, 41], '"', [' '], [], rfl, .inl rfl, rfl, rfl⟩

/-- A character of two bytes and what looks like a comment, between single quotes on a line of their
own. -/
def remark : Item := ⟨[0xC3, 0xA9, 47, 47], '\'', ['\n'], ['\t'], rfl, .inr rfl, rfl, rfl⟩

theorem arrays_read_back_signs :
    writeArray "aRRay(".toList [signs, remark] = "aRRay( \",\\\")\",\n'é//'\t)" ∧
    tokens "a" "aRRay( \",\\\")\",\n'é//'\t)"
      = .ok [⟨.array, "aRRay( \",\\\")\",\n'é//'\t)", ⟨"a", 1, 1⟩⟩] ∧
    Literal.elements "aRRay( \",\\\")\",\n'é//'\t)" = .ok [[44, 34, 41], [0xC3, 0xA9, 47, 47]] ∧
    tokens "a" "ARRAY( )" = .ok [⟨.array, "ARRAY( )", ⟨"a", 1, 1⟩⟩] ∧
    Literal.elements "ARRAY( )" = .ok [] := by
  have hwrite : writeArray "aRRay(".toList [signs, remark] = "aRRay( \",\\\")\",\n'é//'\t)" := by
    decide +kernel
  have hlower : "aRRay(".toList.map CharClass.asciiLower = arrayStart := by decide
  obtain ⟨htokens, helems⟩ := (arrays_read_back hlower "a").1 [signs, remark]
  rw [hwrite] at htokens helems
  have hupper : "ARRAY(".toList.map CharClass.asciiLower = arrayStart := by decide
  obtain ⟨hblank, hnone⟩ := (arrays_read_back hupper "a").2 [' '] [] (.blank rfl)
  exact ⟨hwrite, htokens, helems, hblank, hnone⟩

end Lexer

/-! ## What parts stand for -/

namespace Literal

open Text (ofChars byte trimBy)

/-- A text is one quoted literal: nothing follows the quote that closes it. -/
def Sole (q : Char) (t : Text) : Prop := ∃ body, Enclosed q body ∧ t = ofChars (q :: (body ++ [q]))

/-- What a trimmed part that starts with the quote `q` stands for. It is quoted text and what follows
its closing quote. The element is what is quoted when nothing follows; and else the closing quote and
what follows belong to it, but for the last byte, which is taken for the closing quote. -/
def QuotedAs (q : Char) (t e : Text) : Prop :=
  ∃ body bytes more, t = ofChars (q :: (body ++ q :: more)) ∧ Spells q body bytes ∧
    (Sole q t ↔ more = []) ∧
    if more = [] then e = bytes
    else ∃ rest, unescape t (ofChars more).dropLast = .ok rest ∧ e = bytes ++ byte q :: rest

/-- Quoted text that is decoded together with what follows is spelled out. -/
theorem Enclosed.exists_spells {q : Char} {cs : List Char} (h : Enclosed q cs) {lit t e : Text}
    (he : unescape lit (ofChars cs ++ t) = .ok e) :
    ∃ bytes rest, Spells q cs bytes ∧ unescape lit t = .ok rest ∧ e = bytes ++ rest := by
  induction h generalizing e with
  | nil => exact ⟨[], e, .nil, he, rfl⟩
  | @plain c cs hq hb hn h ih =>
    have hback : byte '\\' ∉ String.utf8EncodeChar c := fun hmem =>
      hb ((Text.byte_mem_encode (by decide)).1 hmem)
    rw [Text.ofChars_cons, List.append_assoc, unescape_append lit hback] at he
    obtain ⟨v, hmore, rfl⟩ := Failure.of_map_ok he
    obtain ⟨bytes, rest, hspells, hrest, rfl⟩ := ih hmore
    exact ⟨_, rest, .plain hq hb hn hspells, hrest, (List.append_assoc _ _ _).symm⟩
  | @escape c cs hn h ih =>
    -- The byte after the backslash is the first one of the character there.
    obtain ⟨b, more, hc⟩ := List.exists_cons_of_ne_nil (Utf8.encode_ne_nil c)
    rw [ofChars_escape, hc, List.cons_append, List.cons_append, List.cons_append] at he
    cases hb : escape? b with
    | none =>
      rw [unescape_unknown lit hb] at he
      cases he
    | some v =>
      obtain ⟨c', hmem, rfl⟩ := exists_of_escape? hb
      have hascii := (ascii_escapes _ hmem).1
      obtain rfl : c = c' := (Text.byte_mem_encode hascii).1 (hc ▸ List.mem_cons_self)
      rw [Text.encode_ascii hascii] at hc
      obtain ⟨-, rfl⟩ := List.cons.inj hc
      rw [unescape_known lit hb, List.nil_append] at he
      obtain ⟨v', hmore, rfl⟩ := Failure.of_map_ok he
      obtain ⟨bytes, rest, hspells, hrest, rfl⟩ := ih hmore
      exact ⟨_, rest, .escape hmem hspells, hrest, rfl⟩

section
variable {q : Char} (hq : q = '"' ∨ q = '\'')
include hq

/-- Quoted text is a literal by itself when nothing follows it. -/
theorem sole_iff {body : List Char} (h : Enclosed q body) (more : List Char) :
    Sole q (ofChars (q :: (body ++ q :: more))) ↔ more = [] := by
  refine ⟨?_, ?_⟩
  · rintro ⟨body', h', heq⟩
    have hchars := congrArg Utf8.decode heq
    rw [Utf8.decode_ofChars, Utf8.decode_ofChars] at hchars
    obtain ⟨-, hchars⟩ := List.cons.inj hchars
    obtain rfl : body = body' := Lexer.enclosed_unique hq h h'
      ⟨more, (List.append_cons body q more).symm⟩ (hchars ▸ List.prefix_rfl)
    exact (List.cons.inj (List.append_cancel_left hchars)).2
  · rintro rfl
    exact ⟨body, h, rfl⟩

/-- **A part that starts with a quote** and has an element. -/
theorem quotedAs_of_element {body more : List Char} (h : Enclosed q body) {lit e : Text}
    (he : element lit (ofChars (q :: (body ++ q :: more))) = .ok e) :
    QuotedAs q (ofChars (q :: (body ++ q :: more))) e := by
  have htext := ofChars_opened hq body more
  have hunquote : unescape (ofChars (q :: (body ++ q :: more)))
      (ofChars body ++ byte q :: ofChars more).dropLast = .ok e := by
    rw [← he]
    generalize ofChars (q :: (body ++ q :: more)) = t at htext
    have hlong : ¬(byte q :: (ofChars body ++ byte q :: ofChars more)).length < 2 := by
      simp only [List.length_cons, List.length_append]
      omega
    rw [htext, element, if_pos (isQuote_quote hq), unquote, if_neg hlong,
      List.tail_cons]
  rw [List.dropLast_append_of_ne_nil (List.cons_ne_nil _ _)] at hunquote
  obtain ⟨bytes, rest, hspells, hrest, rfl⟩ := h.exists_spells hunquote
  refine ⟨body, bytes, more, rfl, hspells, sole_iff hq h more, ?_⟩
  split
  · rename_i hnone
    subst hnone
    obtain rfl := Except.ok.inj hrest
    exact List.append_nil bytes
  · rename_i hmore
    have hne : ofChars more ≠ [] := by
      rw [← List.length_pos_iff]
      exact Nat.lt_of_lt_of_le (List.length_pos_iff.2 hmore) (Text.length_le_ofChars more)
    have hback : byte '\\' ∉ [byte q] := by rcases hq with rfl | rfl <;> decide
    have hclose := unescape_append (ofChars (q :: (body ++ q :: more))) hback (ofChars more).dropLast
    rw [List.singleton_append] at hclose
    rw [List.dropLast_cons_of_ne_nil hne, hclose] at hrest
    obtain ⟨v, hlast, rfl⟩ := Failure.of_map_ok hrest
    exact ⟨v, hlast, rfl⟩

end

/-- What a part of an array stands for: by its quoted text when it starts with a quote, and else what
is left of it without white space at its ends, which is not empty. -/
def StandsFor (part e : Text) : Prop :=
  (∀ q, q = '"' ∨ q = '\'' → (Text.trim part).head? = some (byte q) → QuotedAs q (Text.trim part) e) ∧
    ((∀ q, q = '"' ∨ q = '\'' → (Text.trim part).head? ≠ some (byte q)) →
      e = Text.trim part ∧ e ≠ [])

theorem standsFor_of_element {part : List Char} (h : Parted part [part]) {lit e : Text}
    (he : element lit (ofChars (trimBy isSpace part)) = .ok e) : StandsFor (ofChars part) e := by
  unfold StandsFor
  rw [Text.trim_ofChars]
  refine ⟨fun q hq hhead => ?_, fun hbare => ?_⟩
  · obtain ⟨cs, hcs⟩ := List.head?_eq_some_iff.1 ((Text.head?_ofChars (ascii_quote hq) _).1 hhead)
    obtain ⟨body, more, hbody, rfl⟩ := h.trim_quoted hq hcs
    rw [hcs] at he ⊢
    exact quotedAs_of_element hq hbody he
  · unfold element at he
    split at he
    · cases he
    · rename_i b rest htext
      rw [htext] at hbare ⊢
      have hnot : ¬isQuote b = true := by
        intro hb
        simp only [isQuote, Bool.or_eq_true, decide_eq_true_eq] at hb
        rcases hb with rfl | rfl
        · exact hbare '"' (.inl rfl) rfl
        · exact hbare '\'' (.inr rfl) rfl
      rw [if_neg hnot] at he
      obtain rfl := Except.ok.inj he
      exact ⟨htext, htext ▸ List.cons_ne_nil b rest⟩

end Literal

namespace Lexer

open Text (ofChars)
open Literal (Parted Enclosed Sole StandsFor)

/-! ## The arrays of a source -/

theorem array_of_classify {chars : List Char} {text : Text} (h : classify chars = .ok (.array, text)) :
    Text.ofString "ARRAY(" <+: ofChars (chars.map toUpper) ∧ text = ofChars chars ∧
      ∃ elems, Literal.elements text = .ok elems := by
  unfold classify at h
  dsimp only at h
  split at h
  · cases h
  split at h
  · rename_i harray
    split at h
    · rename_i elems helems
      cases h
      exact ⟨harray.1, rfl, elems, helems⟩
    · cases h
  split at h
  · cases h
  split at h
  · cases h
  split at h
  · split at h
    · split at h <;> cases h
    · cases h
  split at h
  · split at h <;> cases h
  split at h <;> cases h

/-- **The characters of an array that is read.** -/
theorem exists_array {cs : List Char} {n : Nat} {text : Text} (hn : Spans cs n)
    (hk : classify (cs.take n) = .ok (.array, text)) :
    ∃ head inside parts elems, head.map CharClass.asciiLower = arrayStart ∧ Parted inside parts ∧
      text = ofChars (head ++ (inside ++ [')'])) ∧ Literal.elements text = .ok elems := by
  obtain ⟨harray, rfl, elems, helems⟩ := array_of_classify hk
  cases hn with
  | @array _ n hat h =>
    obtain ⟨inside, parts, rest, hcs, rfl, hparts⟩ := exists_parted h
    refine ⟨cs.take arrayStart.length, inside, parts, elems, atArray_take.1 hat, hparts, ?_, helems⟩
    rw [List.drop_zero] at hcs
    rw [List.take_add, hcs, Nat.zero_add, take_closed]
  | @quoted c cs n hc h =>
    obtain ⟨body, rest, rfl, -, rfl⟩ := (quotedExtent_eq_closed_iff hc).1 h
    rw [List.take_succ_cons, take_closed, classify_quoted hc] at hk
    cases hu : Literal.unquote (ofChars (c :: (body ++ [c]))) with
    | error f =>
      rw [hu] at hk
      cases hk
    | ok bytes =>
      rw [hu] at hk
      obtain ⟨hkind, -⟩ := Prod.mk.inj (Except.ok.inj hk)
      split at hkind <;> cases hkind
  | @word c cs hat hc =>
    -- A word that reads `ARRAY(` in upper case starts an array.
    have hno := atArray_append hat (.inl rfl) (wordExtent (c :: cs))
    rw [List.append_nil, ← atArray_upper] at hno
    obtain ⟨more, hmore⟩ := harray
    have hchars := congrArg Utf8.decode hmore
    rw [Text.ofString, Utf8.decode_append, Utf8.decode_ofChars] at hchars
    rw [← hchars] at hno
    cases hno

/-- **What the elements of an array are.** The text between the parentheses of an array that is read is
white space and there are no elements, or there is an element for each part between commas. A part
that starts with a quote starts with a quoted literal, whose bytes are the element if and only if it is
the whole part; what follows the closing quote is accepted all the same, and then that quote and all
that follows but the last byte belong to the element. -/
theorem array_parts_decoded {file source : Text} {ts : List Token} (h : tokens file source = .ok ts)
    {t : Token} (ht : t ∈ ts) (hkind : t.kind = .array) :
    ∃ inner elems, Literal.inner? t.text = some inner ∧ Literal.elements t.text = .ok elems ∧
      if Text.isBlank inner = true then elems = []
      else List.Forall₂ StandsFor (Literal.commaParts none false inner) elems := by
  have harrays : TokensIn (fun t => t.kind = .array → ∃ head inside parts elems,
      head.map CharClass.asciiLower = arrayStart ∧ Parted inside parts ∧
      t.text = ofChars (head ++ (inside ++ [')'])) ∧ Literal.elements t.text = .ok elems) ts := by
    refine (delivers_tokens source fun pos c cs t more _ _ ht hkind => ?_).of_ok h
    obtain ⟨n, kind, text, hn, hk, rfl, -⟩ := token_ok ht
    obtain rfl : kind = .array := hkind
    exact exists_array (tokenExtent_eq_ok_iff.1 hn) hk
  obtain ⟨head, inside, parts, elems, hhead, hparts, htext, helems⟩ := harrays t ht hkind
  refine ⟨ofChars inside, elems, htext ▸ Literal.inner?_array hhead inside, helems, ?_⟩
  rw [htext, Literal.elements_array hhead hparts] at helems
  rw [Text.isBlank_ofChars, Literal.commaParts_parted hparts]
  split at helems
  · rename_i hblank
    rw [if_pos hblank]
    exact (Except.ok.inj helems).symm
  · rename_i hblank
    rw [if_neg hblank, List.forall₂_map_left_iff]
    have hall := Literal.mapM_eq_ok_iff.1 helems
    exact ((List.forall₂_and_left _ _).2 ⟨hparts.part, hall⟩).imp fun p e hp =>
      Literal.standsFor_of_element hp.1 hp.2

/-- A literal, a literal with a letter behind it, and a bare word. -/
def mixed : Text := "ARRAY( 'x' , \"a\"b,c)"

theorem array_parts_decoded_mixed :
    tokens "a" mixed = .ok [⟨.array, mixed, ⟨"a", 1, 1⟩⟩] ∧
    List.Forall₂ StandsFor [" 'x' ", " \"a\"b", "c"] ["x", "a\"", "c"] := by
  have ht : tokens "a" mixed = .ok [⟨.array, mixed, ⟨"a", 1, 1⟩⟩] := by decide +kernel
  obtain ⟨inner, elems, hinner, helems, hparts⟩ :=
    array_parts_decoded ht (List.mem_singleton_self _) rfl
  have hinner' : Literal.inner? mixed = some " 'x' , \"a\"b,c" := by decide +kernel
  obtain rfl := Option.some.inj (hinner'.symm.trans hinner)
  have helems' : Literal.elements mixed = .ok ["x", "a\"", "c"] := by decide +kernel
  obtain rfl := Except.ok.inj (helems'.symm.trans helems)
  have hcut : Literal.commaParts none false " 'x' , \"a\"b,c" = [" 'x' ", " \"a\"b", "c"] := by
    decide +kernel
  rw [if_neg (by decide +kernel), hcut] at hparts
  exact ⟨ht, hparts⟩

/-- **Text behind a closing quote is accepted.** The element has the closing quote in it, and its last
letter is lost. -/
theorem text_behind_quote_accepted :
    tokens "t.stk" "ARRAY(\"a\"b)" = .ok [⟨.array, "ARRAY(\"a\"b)", ⟨"t.stk", 1, 1⟩⟩] ∧
    Literal.commaParts none false "\"a\"b" = ["\"a\"b"] ∧
    Literal.elements "ARRAY(\"a\"b)" = .ok ["a\""] ∧ ¬Sole '"' "\"a\"b" := by
  refine ⟨by decide +kernel, by decide +kernel, by decide +kernel, ?_⟩
  have hbody : Enclosed '"' ['a'] := .plain (by decide) (by decide) (by decide) .nil
  exact fun hsole => absurd ((Literal.sole_iff (.inl rfl) hbody ['b']).1 hsole) (List.cons_ne_nil _ _)

end Lexer

end StackLang
