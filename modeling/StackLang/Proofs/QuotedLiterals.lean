import StackLang.Proofs.Scanning

/-!
# Quoted literals

A quoted literal is found twice: the lexer looks for its closing quote among the characters, passing
over whatever follows a backslash, and then its bytes are decoded, with only some escapes allowed.
The two agree on where it ends, so a literal that is closed is refused for an unknown escape only.

- `Literal.Spells`: characters between quotes and the bytes they stand for, in the allowed escapes.
  `Literal.Enclosed`: the characters that the lexer takes for those between quotes.
- `Lexer.spans_quote_iff`: a literal ends at the first quote that no backslash precedes.
- `Literal.Enclosed.spells_or_unknown`: such a literal is spelled out, or has an unknown escape.
- `Literal.write`: a literal for any bytes.
- `Lexer.quoted_literals_exact`: what is accepted as a literal, and its bytes.
-/

set_option autoImplicit false

namespace StackLang

namespace Utf8

/-- Well-formed text is read back from its characters. -/
theorem ofChars_decode {t : Text} (h : isValid t = true) : Text.ofChars (decode t) = t := by
  have hbytes : ∀ p ∈ pieces t, String.utf8EncodeChar p.toChar = p.bytes := by
    intro p hp
    cases p with
    | char c => rfl
    | stray b => cases List.all_eq_true.1 h _ hp
  rw [Text.ofChars, decode, List.flatMap_map, List.flatMap_def, List.map_congr_left hbytes,
    ← List.flatMap_def, pieces_bytes]

end Utf8

namespace Literal

/-! ## Characters between quotes -/

/-- The characters that may follow a backslash, and the bytes that they stand for there. -/
def escapes : List (Char × UInt8) :=
  [('n', 10), ('t', 9), ('r', 13), ('0', 0), ('\\', 92), ('"', 34), ('\'', 39)]

/-- Characters on one line between two quotes `q`, and the bytes they stand for. -/
inductive Spells (q : Char) : List Char → Text → Prop
  | nil : Spells q [] []
  | plain {c : Char} {cs : List Char} {bytes : Text} (hq : c ≠ q) (hb : c ≠ '\\') (hn : c ≠ '\n')
    (h : Spells q cs bytes) : Spells q (c :: cs) (String.utf8EncodeChar c ++ bytes)
  | escape {c : Char} {b : UInt8} {cs : List Char} {bytes : Text} (he : (c, b) ∈ escapes)
    (h : Spells q cs bytes) : Spells q ('\\' :: c :: cs) (b :: bytes)

/-- Characters on one line between two quotes `q`, whatever follows a backslash. -/
inductive Enclosed (q : Char) : List Char → Prop
  | nil : Enclosed q []
  | plain {c : Char} {cs : List Char} (hq : c ≠ q) (hb : c ≠ '\\') (hn : c ≠ '\n')
    (h : Enclosed q cs) : Enclosed q (c :: cs)
  | escape {c : Char} {cs : List Char} (hn : c ≠ '\n') (h : Enclosed q cs) :
    Enclosed q ('\\' :: c :: cs)

theorem ascii_escapes : ∀ e ∈ escapes, e.1.toNat < 0x80 ∧ e.1 ≠ '\n' := by decide

theorem escape?_escapes : ∀ e ∈ escapes, escape? (Text.byte e.1) = some e.2 := by decide

theorem exists_of_escape? {b v : UInt8} (h : escape? b = some v) :
    ∃ c, (c, v) ∈ escapes ∧ b = Text.byte c := by
  unfold escape? at h
  split at h
  · exact ⟨'n', by cases h; decide, ‹_›⟩
  split at h
  · exact ⟨'t', by cases h; decide, ‹_›⟩
  split at h
  · exact ⟨'r', by cases h; decide, ‹_›⟩
  split at h
  · exact ⟨'0', by cases h; decide, ‹_›⟩
  split at h
  · rename_i hself
    cases h
    rcases hself with rfl | rfl | rfl
    · exact ⟨'\\', by decide, rfl⟩
    · exact ⟨'"', by decide, rfl⟩
    · exact ⟨'\'', by decide, rfl⟩
  · cases h

theorem Spells.enclosed {q : Char} {cs : List Char} {bytes : Text} (h : Spells q cs bytes) :
    Enclosed q cs := by
  induction h with
  | nil => exact .nil
  | plain hq hb hn h ih => exact .plain hq hb hn ih
  | escape he h ih => exact .escape (ascii_escapes _ he).2 ih

/-! ## Decoding -/

section
variable (lit : Text)

theorem unescape_append {bytes : Text} (h : Text.byte '\\' ∉ bytes) (t : Text) :
    unescape lit (bytes ++ t) = (unescape lit t).map (bytes ++ ·) := by
  induction bytes with
  | nil =>
    rw [List.nil_append]
    cases unescape lit t <;> rfl
  | cons b bytes ih =>
    simp only [List.mem_cons, not_or] at h
    rw [List.cons_append, unescape.eq_def]
    simp only [Ne.symm h.1, if_false, ih h.2]
    cases unescape lit t <;> rfl

theorem unescape_plain {c : Char} (hc : c ≠ '\\') (cs : List Char) :
    unescape lit (Text.ofChars (c :: cs))
      = (unescape lit (Text.ofChars cs)).map (String.utf8EncodeChar c ++ ·) :=
  unescape_append lit (fun h => hc ((Text.byte_mem_encode (by decide)).1 h)) _

theorem unescape_unknown {b : UInt8} (h : escape? b = none) (t : Text) :
    unescape lit (Text.byte '\\' :: b :: t) = .error (.unknownEscape b lit) := by
  rw [unescape, if_pos rfl]
  simp only [h]

theorem unescape_known {b v : UInt8} (h : escape? b = some v) (t : Text) :
    unescape lit (Text.byte '\\' :: b :: t) = (unescape lit t).map (v :: ·) := by
  rw [unescape, if_pos rfl]
  simp only [h]

end

theorem ofChars_escape (c : Char) (cs : List Char) : Text.ofChars ('\\' :: c :: cs)
    = Text.byte '\\' :: (String.utf8EncodeChar c ++ Text.ofChars cs) := by
  rw [Text.ofChars_cons, Text.encode_ascii (by decide), Text.ofChars_cons]
  rfl

/-- **What is spelled out is decoded.** -/
theorem Spells.unescape_eq {q : Char} {cs : List Char} {bytes : Text} (h : Spells q cs bytes)
    (lit : Text) : unescape lit (Text.ofChars cs) = .ok bytes := by
  induction h with
  | nil => rfl
  | plain hq hb hn h ih =>
    rw [unescape_plain lit hb, ih]
    rfl
  | escape he h ih =>
    rw [ofChars_escape, Text.encode_ascii (ascii_escapes _ he).1, List.singleton_append,
      unescape_known lit (escape?_escapes _ he), ih]
    rfl

/-- **A literal that is closed is spelled out, or one of its escapes is unknown.** -/
theorem Enclosed.spells_or_unknown {q : Char} {cs : List Char} (h : Enclosed q cs) :
    (∃ bytes, Spells q cs bytes) ∨
      ∃ b, ∀ lit, unescape lit (Text.ofChars cs) = .error (.unknownEscape b lit) := by
  induction h with
  | nil => exact .inl ⟨[], .nil⟩
  | plain hq hb hn h ih =>
    rcases ih with ⟨bytes, hbytes⟩ | ⟨b, hbad⟩
    · exact .inl ⟨_, .plain hq hb hn hbytes⟩
    · refine .inr ⟨b, fun lit => ?_⟩
      rw [unescape_plain lit hb, hbad]
      rfl
  | @escape c cs hn h ih =>
    -- The byte after the backslash is the first one of the character there.
    obtain ⟨b, more, hc⟩ := List.exists_cons_of_ne_nil (Utf8.encode_ne_nil c)
    cases hb : escape? b with
    | none =>
      refine .inr ⟨b, fun lit => ?_⟩
      rw [ofChars_escape, hc, List.cons_append, unescape_unknown lit hb]
    | some v =>
      obtain ⟨c', he, rfl⟩ := exists_of_escape? hb
      have hascii := (ascii_escapes _ he).1
      obtain rfl : c = c' := (Text.byte_mem_encode hascii).1 (hc ▸ List.mem_cons_self)
      rcases ih with ⟨bytes, hbytes⟩ | ⟨b, hbad⟩
      · exact .inl ⟨_, .escape he hbytes⟩
      · refine .inr ⟨b, fun lit => ?_⟩
        rw [ofChars_escape, Text.encode_ascii hascii, List.singleton_append, unescape_known lit hb,
          hbad]
        rfl

section
variable {q : Char} (hq : q = '"' ∨ q = '\'')
include hq

theorem ofChars_quoted (cs : List Char) : Text.ofChars (q :: (cs ++ [q]))
    = Text.byte q :: (Text.ofChars cs ++ [Text.byte q]) := by
  have hascii : q.toNat < 0x80 := by rcases hq with rfl | rfl <;> decide
  simp [Text.encode_ascii hascii]

/-- The characters between the quotes decide what a literal stands for. -/
theorem unquote_quoted (cs : List Char) : unquote (Text.ofChars (q :: (cs ++ [q])))
    = unescape (Text.ofChars (q :: (cs ++ [q]))) (Text.ofChars cs) := by
  have hlit := ofChars_quoted hq cs
  rw [unquote, if_neg (by simp [hlit])]
  congr 1
  rw [hlit, List.tail_cons, List.dropLast_concat]

end

/-! ## Writing literals -/

/-- A byte between quotes: by its escape when there is one, and else as it is. -/
def written (b : UInt8) : Text :=
  (escapes.find? (·.2 = b)).elim [b] fun e => [Text.byte '\\', Text.byte e.1]

/-- The literal for some bytes between two quotes `q`. -/
def write (q : Char) (bytes : Text) : Text :=
  Text.byte q :: (bytes.flatMap written ++ [Text.byte q])

theorem written_escapes : ∀ e ∈ escapes, written e.2 = [Text.byte '\\', Text.byte e.1] := by decide

theorem written_of_notMem {b : UInt8} (h : ∀ e ∈ escapes, e.2 ≠ b) : written b = [b] := by
  have hnone : escapes.find? (·.2 = b) = none := List.find?_eq_none.2 (by simpa using h)
  rw [written, hnone]
  rfl

/-- A character that no escape stands for is written as it is. -/
theorem flatMap_written {c : Char} (h : ∀ e ∈ escapes, e.2 ∉ String.utf8EncodeChar c) :
    (String.utf8EncodeChar c).flatMap written = String.utf8EncodeChar c := by
  have hself : ∀ b ∈ String.utf8EncodeChar c, written b = [b] := fun b hb =>
    written_of_notMem fun e he heq => h e he (heq ▸ hb)
  rw [List.flatMap_def, List.map_congr_left hself, ← List.flatMap_def]
  simp

/-- **What is written spells the bytes.** -/
theorem exists_spells {q : Char} (hq : q = '"' ∨ q = '\'') (cs : List Char) :
    ∃ body, Text.ofChars body = (Text.ofChars cs).flatMap written ∧
      Spells q body (Text.ofChars cs) := by
  have hbytes : ∀ e ∈ escapes, e.2.toNat < 0x80 := by decide
  induction cs with
  | nil => exact ⟨[], rfl, .nil⟩
  | cons c cs ih =>
    obtain ⟨body, hbody, hspells⟩ := ih
    rw [Text.ofChars_cons, List.flatMap_append, ← hbody]
    by_cases h : ∃ e ∈ escapes, e.2 ∈ String.utf8EncodeChar c
    · obtain ⟨⟨x, b⟩, he, hb⟩ := h
      have hc : String.utf8EncodeChar c = [b] := by
        rw [Utf8.eq_of_mem_encode hb (hbytes _ he), Utf8.encode_one (hbytes _ he)]
      refine ⟨'\\' :: x :: body, ?_, ?_⟩
      · rw [ofChars_escape, Text.encode_ascii (ascii_escapes _ he).1, hc, List.flatMap_singleton,
          written_escapes _ he]
        rfl
      · rw [hc]
        exact .escape he hspells
    · have hnone : ∀ e ∈ escapes, e.2 ∉ String.utf8EncodeChar c := fun e he hb => h ⟨e, he, hb⟩
      have hne : ∀ x : Char, x.toNat < 0x80 → Text.byte x ∈ escapes.map Prod.snd → c ≠ x := by
        rintro x hx hmem rfl
        obtain ⟨e, he, heq⟩ := List.mem_map.1 hmem
        exact hnone e he (by rw [heq]; exact (Text.byte_mem_encode hx).2 rfl)
      refine ⟨c :: body, by rw [flatMap_written hnone, Text.ofChars_cons], ?_⟩
      refine .plain ?_ (hne _ (by decide) (by decide)) (hne _ (by decide) (by decide)) hspells
      rcases hq with rfl | rfl <;> exact hne _ (by decide) (by decide)

end Literal

namespace Lexer

open Literal (Enclosed Spells)

theorem mem_of_isKeyword {t : Text} (h : isKeyword t = true) :
    t ∈ Keyword.all.map Keyword.name ++ directives := by
  rcases Bool.or_eq_true_iff.1 h with h | h
  · obtain ⟨k, hk⟩ := Option.isSome_iff_exists.1 h
    have hname : k.name = t := by simpa using List.find?_some hk
    exact List.mem_append_left _ (hname ▸ List.mem_map_of_mem (List.mem_of_find?_eq_some hk))
  · exact List.mem_append_right _ (List.contains_iff_mem.1 h)

/-! ## Finding the closing quote -/

theorem take_closed (body rest : List Char) (q : Char) :
    (body ++ q :: rest).take (body.length + 1) = body ++ [q] := by
  rw [List.append_cons, List.take_left' (by simp)]

theorem exists_enclosed {q : Char} {escaped : Bool} {cs : List Char} {n : Nat}
    (h : quotedExtent q escaped cs = ⟨n, true⟩) :
    ∃ body rest, cs = body ++ q :: rest ∧ n = body.length + 1 ∧
      Enclosed q (if escaped then '\\' :: body else body) := by
  fun_induction quotedExtent q escaped cs generalizing n with
  | case1 => cases h
  | case2 => cases h
  | case3 c cs hnl ih =>
    obtain ⟨m, rfl, hm⟩ := QuotedExtent.succ_eq_closed.1 h
    obtain ⟨body, rest, rfl, rfl, hbody⟩ := ih hm
    exact ⟨c :: body, rest, rfl, rfl, .escape hnl hbody⟩
  | case4 escaped cs he hnl ih =>
    obtain ⟨m, rfl, hm⟩ := QuotedExtent.succ_eq_closed.1 h
    obtain ⟨body, rest, rfl, rfl, hbody⟩ := ih hm
    exact ⟨'\\' :: body, rest, rfl, rfl, by rwa [if_neg he]⟩
  | case5 escaped cs he hnl hb =>
    cases h
    refine ⟨[], cs, rfl, rfl, ?_⟩
    rw [if_neg he]
    exact .nil
  | case6 escaped c cs hnl he hb hq ih =>
    obtain ⟨m, rfl, hm⟩ := QuotedExtent.succ_eq_closed.1 h
    obtain ⟨body, rest, rfl, rfl, hbody⟩ := ih hm
    refine ⟨c :: body, rest, rfl, rfl, ?_⟩
    rw [if_neg he]
    exact .plain hq hb hnl hbody

section
variable {q : Char} (hq : q = '"' ∨ q = '\'')
include hq

theorem quotedExtent_enclosed {body : List Char} (h : Enclosed q body) (rest : List Char) :
    quotedExtent q false (body ++ q :: rest) = ⟨body.length + 1, true⟩ := by
  induction h with
  | nil => rcases hq with rfl | rfl <;> rfl
  | plain hne hb hn h ih =>
    rw [List.cons_append, quotedExtent, if_neg hn, if_neg Bool.false_ne_true, if_neg hb, if_neg hne,
      ih]
    rfl
  | escape hn h ih =>
    rw [List.cons_append, List.cons_append, quotedExtent, if_neg (by decide),
      if_neg Bool.false_ne_true, if_pos rfl, quotedExtent, if_neg hn, if_pos rfl, ih]
    rfl

theorem quotedExtent_eq_closed_iff {cs : List Char} {n : Nat} :
    quotedExtent q false cs = ⟨n, true⟩ ↔
      ∃ body rest, cs = body ++ q :: rest ∧ Enclosed q body ∧ n = body.length + 1 := by
  refine ⟨fun h => ?_, ?_⟩
  · obtain ⟨body, rest, hcs, hn, hbody⟩ := exists_enclosed h
    exact ⟨body, rest, hcs, hbody, hn⟩
  · rintro ⟨body, rest, rfl, hbody, rfl⟩
    exact quotedExtent_enclosed hq hbody rest

/-- **A literal ends at the first quote that no backslash precedes.** -/
theorem spans_quote_iff {cs : List Char} {n : Nat} : Spans (q :: cs) n ↔
    ∃ body rest, cs = body ++ q :: rest ∧ Enclosed q body ∧ n = body.length + 2 := by
  refine ⟨fun h => ?_, ?_⟩
  · cases h with
    | array hat h =>
      rw [not_atArray_quote hq] at hat
      cases hat
    | quoted hc h =>
      obtain ⟨body, rest, rfl, hbody, rfl⟩ := (quotedExtent_eq_closed_iff hq).1 h
      exact ⟨body, rest, rfl, hbody, rfl⟩
    | word hat hc => exact absurd hq hc
  · rintro ⟨body, rest, rfl, hbody, rfl⟩
    exact .quoted hq (quotedExtent_enclosed hq hbody rest)

theorem beginsToken_quote (cs : List Char) : BeginsToken (q :: cs) := by
  rcases hq with rfl | rfl <;> exact ⟨by decide, rfl⟩

/-! ## Literals as tokens -/

theorem unreserved_of_head {upper : Text} (h : upper.head? = some (Text.byte q)) :
    isKeyword upper = false ∧ ¬Text.ofString "ARRAY(" <+: upper ∧ upper ≠ "TRUE" ∧
      upper ≠ "FALSE" := by
  have hreserved : ∀ k ∈ Keyword.all.map Keyword.name ++ directives ++
      [("TRUE" : Text), "FALSE"], k.head? ≠ some (Text.byte q) := by
    rcases hq with rfl | rfl <;> decide
  refine ⟨Bool.eq_false_iff.2 fun hk => ?_, ?_, fun ht => ?_, fun hf => ?_⟩
  · exact hreserved upper (List.mem_append_left _ (mem_of_isKeyword hk)) h
  · rintro ⟨rest, rfl⟩
    have harray : (Text.ofString "ARRAY(" ++ rest).head? = some (Text.byte 'A') := rfl
    rw [harray] at h
    rcases hq with rfl | rfl <;> exact absurd h (by decide)
  · exact hreserved upper (by simp [ht]) h
  · exact hreserved upper (by simp [hf]) h

/-- Quoted text is a literal when it can be decoded, and nothing else when it cannot. -/
theorem classify_quoted (cs : List Char) :
    classify (q :: (cs ++ [q])) = ((Literal.unquote (Text.ofChars (q :: (cs ++ [q])))).map fun _ =>
      (if q = '"' then .string else .cstring, Text.ofChars (q :: (cs ++ [q])))).mapError
      Cause.badLiteral := by
  have hupper : (Text.ofChars ((q :: (cs ++ [q])).map CharClass.toUpper)).head?
      = some (Text.byte q) := by
    rcases hq with rfl | rfl <;> rfl
  obtain ⟨hkeyword, harray, htrue, hfalse⟩ := unreserved_of_head hq hupper
  have hbetween : ∀ x, isBetween x (Text.ofChars (q :: (cs ++ [q])))
      = decide (Text.byte q = Text.byte x) := by
    intro x
    have hlast := List.getLast?_concat (a := Text.byte q) (l := Text.byte q :: Text.ofChars cs)
    rw [Literal.ofChars_quoted hq, isBetween, ← List.cons_append, hlast]
    simp
  unfold classify
  simp only [hkeyword, harray, htrue, hfalse, hbetween, false_and, if_false, Bool.false_eq_true]
  rcases hq with rfl | rfl <;> cases Literal.unquote _ <;> rfl

theorem token_quoted {body : List Char} (h : Enclosed q body) (file : Text) (pos : Position)
    (rest : List Char) : Lexer.token file pos (q :: (body ++ q :: rest))
      = ((Literal.unquote (Text.ofChars (q :: (body ++ [q])))).map fun _ =>
        (⟨if q = '"' then .string else .cstring, Text.ofChars (q :: (body ++ [q])),
          pos.inFile file⟩, body.length + 1)).mapError
        fun fault => (Cause.badLiteral fault).at (pos.inFile file) := by
  have hspan := (spans_quote_iff hq).2 ⟨body, rest, rfl, h, rfl⟩
  have htake : (q :: (body ++ q :: rest)).take (body.length + 2) = q :: (body ++ [q]) := by
    rw [List.take_succ_cons, take_closed]
  simp only [Lexer.token, tokenExtent_eq_ok_iff.2 hspan, htake, classify_quoted hq]
  cases Literal.unquote _ <;> rfl

/-- A literal ends at one place only. -/
theorem enclosed_unique {body body' cs : List Char} (h : Enclosed q body) (h' : Enclosed q body')
    (hp : body ++ [q] <+: cs) (hp' : body' ++ [q] <+: cs) : body = body' := by
  obtain ⟨rest, rfl⟩ := hp
  obtain ⟨rest', heq⟩ := hp'
  rw [← List.append_cons, ← List.append_cons] at heq
  have hlen := quotedExtent_enclosed hq h' rest'
  rw [heq, quotedExtent_enclosed hq h] at hlen
  exact (List.append_inj heq (by simpa using hlen.symm)).1.symm

/-! ## Literals that are accepted -/

theorem unquote_spells {body : List Char} {bytes : Text} (h : Spells q body bytes) :
    Literal.unquote (Text.ofChars (q :: (body ++ [q]))) = .ok bytes := by
  rw [Literal.unquote_quoted hq, h.unescape_eq]

/-- What is spelled out is accepted. -/
theorem token_spells {body cs : List Char} {bytes : Text} (h : Spells q body bytes)
    (hp : body ++ [q] <+: cs) (file : Text) (pos : Position) :
    Lexer.token file pos (q :: cs) = .ok (⟨if q = '"' then .string else .cstring,
      Text.ofChars (q :: (body ++ [q])), pos.inFile file⟩, body.length + 1) := by
  obtain ⟨rest, rfl⟩ := hp
  rw [← List.append_cons, token_quoted hq h.enclosed, unquote_spells hq h]
  rfl

/-- What is accepted is spelled out. -/
theorem spells_of_token {file : Text} {pos : Position} {cs : List Char} {r : Token × Nat}
    (h : Lexer.token file pos (q :: cs) = .ok r) :
    ∃ body bytes, Spells q body bytes ∧ body ++ [q] <+: cs := by
  obtain ⟨t, more⟩ := r
  obtain ⟨n, kind, text, hn, -, -, -⟩ := token_ok h
  obtain ⟨body, rest, rfl, hbody, rfl⟩ := (spans_quote_iff hq).1 (tokenExtent_eq_ok_iff.1 hn)
  rcases hbody.spells_or_unknown with ⟨bytes, hspells⟩ | ⟨b, hbad⟩
  · exact ⟨body, bytes, hspells, rest, (List.append_cons body q rest).symm⟩
  · rw [token_quoted hq hbody, Literal.unquote_quoted hq, hbad] at h
    cases h

/-- A literal that is closed has two quotes, and no backslash before the second one. -/
theorem unquote_closed {cs : List Char} {n : Nat} (h : quotedExtent q false cs = ⟨n, true⟩)
    (lit : Text) : Literal.unquote (Text.ofChars (q :: cs.take n)) ≠ .error (.danglingEscape lit) ∧
      Literal.unquote (Text.ofChars (q :: cs.take n)) ≠ .error (.malformed lit) := by
  obtain ⟨body, rest, rfl, hbody, rfl⟩ := (quotedExtent_eq_closed_iff hq).1 h
  rw [take_closed, Literal.unquote_quoted hq]
  rcases hbody.spells_or_unknown with ⟨bytes, hspells⟩ | ⟨b, hbad⟩
  · rw [hspells.unescape_eq]
    constructor <;> intro hbad <;> cases hbad
  · rw [hbad]
    constructor <;> intro hother <;> cases hother

/-- **What is written is read back** as one token. -/
theorem tokens_write {bytes : Text} (h : Utf8.isValid bytes = true) (file : Text) :
    tokens file (Literal.write q bytes) = .ok [⟨if q = '"' then .string else .cstring,
      Literal.write q bytes, Position.start.inFile file⟩] ∧
    Literal.unquote (Literal.write q bytes) = .ok bytes := by
  obtain ⟨body, hbody, hspells⟩ := Literal.exists_spells hq (Utf8.decode bytes)
  rw [Utf8.ofChars_decode h] at hbody hspells
  have hwrite : Literal.write q bytes = Text.ofChars (q :: (body ++ [q])) := by
    rw [Literal.ofChars_quoted hq, hbody]
    rfl
  have hspan := (spans_quote_iff hq).2 ⟨body, [], rfl, hspells.enclosed, rfl⟩
  have hall : (q :: (body ++ [q])).length = body.length + 2 := by simp
  have hkind : classify ((q :: (body ++ [q])).take (body.length + 2))
      = .ok (if q = '"' then .string else .cstring, Text.ofChars (q :: (body ++ [q]))) := by
    rw [← hall, List.take_length, classify_quoted hq, unquote_spells hq hspells]
    rfl
  rw [hwrite]
  refine ⟨?_, unquote_spells hq hspells⟩
  rw [tokens, Utf8.decode_ofChars, scan_token (beginsToken_quote hq _) hspan hkind, ← hall,
    List.drop_length]
  rfl

end

/-- **Quoted literals are recognised and decoded exactly.** Let a text start with a quote `q` where
a token begins. A token is accepted there if and only if characters and allowed escapes on one line,
up to a quote `q`, follow; there is one way to read them so, the token is what is read, and its bytes
are those that are spelled. A literal that is closed is never refused for its length or for a
backslash at its end. Consequently well-formed bytes, written with escapes between quotes, are read
as one token and decoded again. -/
theorem quoted_literals_exact {q : Char} (hq : q = '"' ∨ q = '\'') :
    (∀ (file : Text) (pos : Position) (cs : List Char),
      ((∃ r, Lexer.token file pos (q :: cs) = .ok r) ↔
        ∃ body bytes, Spells q body bytes ∧ body ++ [q] <+: cs) ∧
      ∀ body bytes, Spells q body bytes → body ++ [q] <+: cs →
        Lexer.token file pos (q :: cs) = .ok (⟨if q = '"' then .string else .cstring,
          Text.ofChars (q :: (body ++ [q])), pos.inFile file⟩, body.length + 1) ∧
        Literal.unquote (Text.ofChars (q :: (body ++ [q]))) = .ok bytes ∧
        ∀ body' bytes', Spells q body' bytes' → body' ++ [q] <+: cs → body' = body) ∧
    (∀ (cs : List Char) (n : Nat), quotedExtent q false cs = ⟨n, true⟩ → ∀ lit,
      Literal.unquote (Text.ofChars (q :: cs.take n)) ≠ .error (.danglingEscape lit) ∧
      Literal.unquote (Text.ofChars (q :: cs.take n)) ≠ .error (.malformed lit)) ∧
    ∀ file bytes : Text, Utf8.isValid bytes = true →
      tokens file (Literal.write q bytes) = .ok [⟨if q = '"' then .string else .cstring,
        Literal.write q bytes, Position.start.inFile file⟩] ∧
      Literal.unquote (Literal.write q bytes) = .ok bytes := by
  refine ⟨fun file pos cs => ⟨⟨?_, ?_⟩, fun body bytes h hp => ?_⟩,
    fun cs n h lit => unquote_closed hq h lit, fun file bytes h => tokens_write hq h file⟩
  · rintro ⟨r, hr⟩
    exact spells_of_token hq hr
  · rintro ⟨body, bytes, h, hp⟩
    exact ⟨_, token_spells hq h hp file pos⟩
  · exact ⟨token_spells hq h hp file pos, unquote_spells hq h, fun body' bytes' h' hp' =>
      enclosed_unique hq h'.enclosed h.enclosed hp' hp⟩

/-- A literal with an escaped quote, a character of two bytes and a backslash at its end. -/
def doubtful : List Char := ['\\', '"', 'é', '\\', '\\', '"', ' ', '"']

theorem quoted_literals_exact_doubtful :
    Lexer.token "a" ⟨2, 5⟩ ('"' :: doubtful)
      = .ok (⟨.string, "\"\\\"é\\\\\"", ⟨"a", 2, 5⟩⟩, 6) ∧
    Literal.unquote "\"\\\"é\\\\\"" = .ok [34, 0xC3, 0xA9, 92] ∧
    Literal.write '\'' [10, 39, 0, 0xC3, 0xA9] = "'\\n\\'\\0é'" ∧
    tokens "a" "'\\n\\'\\0é'" = .ok [⟨.cstring, "'\\n\\'\\0é'", ⟨"a", 1, 1⟩⟩] := by
  have hspells : Spells '"' ['\\', '"', 'é', '\\', '\\'] [34, 0xC3, 0xA9, 92] :=
    .escape (by decide) (.plain (by decide) (by decide) (by decide) (.escape (by decide) .nil))
  obtain ⟨htoken, hbytes, -⟩ := ((quoted_literals_exact (.inl rfl)).1 "a" ⟨2, 5⟩ doubtful).2
    _ _ hspells ⟨[' ', '"'], rfl⟩
  have hwrite : Literal.write '\'' [10, 39, 0, 0xC3, 0xA9] = "'\\n\\'\\0é'" := by decide +kernel
  have hread := ((quoted_literals_exact (.inr rfl)).2.2 "a" [10, 39, 0, 0xC3, 0xA9]
    (by decide +kernel)).1
  rw [hwrite] at hread
  exact ⟨htoken, hbytes, hwrite, hread⟩

end Lexer

end StackLang
