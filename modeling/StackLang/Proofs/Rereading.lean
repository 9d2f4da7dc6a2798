import Mathlib.Data.List.Basic
import StackLang.Proofs.FrontEnd

/-!
# Reading tokens again

The text of a token is normalised: words are in upper case, signs are named and truth values are
numbers. It is itself a way to write the token: read again, it gives one token with this text, and
so do the texts of several tokens with blanks between them.

- `classify_upper`: a word keeps its kind in upper case.
- `Token.Rereads`, `delivers_rereads`: every token of a source can be read again.
- `tokens_texts`: tokens are read again from their texts, and `tokens_fixed`: those of a source are.
-/

set_option autoImplicit false

namespace StackLang.Lexer

open CharClass (isSpace isCaseless toUpper)

/-! ## Kinds -/

theorem isBetween_iff {quote : Char} (hq : quote.toNat < 0x80) (cs : List Char) :
    isBetween quote (Text.ofChars cs) = true ↔
      2 ≤ cs.length ∧ cs.head? = some quote ∧ cs.getLast? = some quote := by
  simp only [isBetween, Bool.and_eq_true, decide_eq_true_eq, Text.head?_ofChars hq,
    Text.getLast?_ofChars hq, and_assoc]
  refine ⟨fun ⟨hlen, hh, hl⟩ => ⟨?_, hh, hl⟩,
    fun ⟨hlen, hh, hl⟩ => ⟨Nat.le_trans hlen (Text.length_le_ofChars cs), hh, hl⟩⟩
  cases cs with
  | nil => cases hh
  | cons c cs =>
    cases cs with
    | nil =>
      obtain rfl := Option.some.inj hh
      simp [Text.encode_ascii hq] at hlen
    | cons d cs => simp

theorem isBetween_upper {quote : Char} (hq : quote.toNat < 0x80) (hc : isCaseless quote = true)
    (cs : List Char) :
    isBetween quote (Text.ofChars (cs.map toUpper)) = isBetween quote (Text.ofChars cs) := by
  rw [Bool.eq_iff_iff, isBetween_iff hq, isBetween_iff hq, List.length_map, List.head?_map,
    List.getLast?_map]
  simp [CharClass.toUpper_eq_iff hc]

theorem getLast?_upper {x : Char} (hx : x.toNat < 0x80) (hc : isCaseless x = true)
    (cs : List Char) : (Text.ofChars (cs.map toUpper)).getLast? = some (Text.byte x) ↔
      (Text.ofChars cs).getLast? = some (Text.byte x) := by
  rw [Text.getLast?_ofChars hx, Text.getLast?_ofChars hx, List.getLast?_map]
  simp [CharClass.toUpper_eq_iff hc]

/-- Upper case that is written without letters was there before. -/
theorem map_toUpper_of_caseless {cs : List Char}
    (h : ∀ b ∈ Text.ofChars (cs.map toUpper),
      b.toNat < 0x80 ∧ isCaseless (Char.ofNat b.toNat) = true) : cs.map toUpper = cs := by
  refine (List.map_congr_left fun c hc => ?_).trans (List.map_id cs)
  obtain ⟨b, hb⟩ := List.exists_mem_of_ne_nil _ (Utf8.encode_ne_nil (toUpper c))
  obtain ⟨hlow, hcase⟩ := h b (List.mem_flatMap.2 ⟨_, List.mem_map_of_mem hc, hb⟩)
  rw [← Utf8.eq_of_mem_encode hb hlow] at hcase
  exact ((CharClass.toUpper_eq_iff hcase c).1 rfl).symm

theorem isInteger_upper {cs : List Char} (h : isInteger (Text.ofChars (cs.map toUpper)) = true) :
    cs.map toUpper = cs := by
  have hdigit : ∀ b : UInt8, isDigitByte b = true →
      b.toNat < 0x80 ∧ isCaseless (Char.ofNat b.toNat) = true := by
    intro b hb
    simp only [isDigitByte, Bool.and_eq_true, decide_eq_true_eq, UInt8.le_iff_toNat_le] at hb
    have hle : b.toNat ≤ 0x39 := hb.2
    exact ⟨by omega, CharClass.isCaseless_ofNat (by omega)⟩
  refine map_toUpper_of_caseless fun b hb => ?_
  generalize Text.ofChars (cs.map toUpper) = t at h hb
  simp only [isInteger, Bool.and_eq_true, List.all_eq_true] at h
  split at h
  · rename_i hhead
    cases t with
    | nil => cases hb
    | cons a t =>
      obtain rfl := Option.some.inj hhead
      rcases List.mem_cons.1 hb with rfl | hb
      · decide
      · exact hdigit b (h.2 b hb)
  · exact hdigit b (h.2 b hb)

theorem lookup_upper {cs : List Char} {p : Primitive}
    (h : operators.lookup (Text.ofChars (cs.map toUpper)) = some p) : cs.map toUpper = cs := by
  have hsigns : ∀ o ∈ operators, ∀ b ∈ o.1,
      b.toNat < 0x80 ∧ isCaseless (Char.ofNat b.toNat) = true := by decide
  refine map_toUpper_of_caseless fun b hb => ?_
  obtain ⟨before, after, hops, -⟩ := List.lookup_eq_some_iff.1 h
  exact hsigns _ (hops ▸ List.mem_append_right before List.mem_cons_self) b hb

theorem map_toUpper_toUpper (cs : List Char) :
    (cs.map toUpper).map toUpper = cs.map toUpper := by
  rw [List.map_map]
  exact List.map_congr_left fun c _ => CharClass.toUpper_toUpper c

/-- A word that is neither a keyword nor a literal nor a sign is so in upper case. -/
theorem classify_upper {cs : List Char}
    (hk : isKeyword (Text.ofChars (cs.map toUpper)) = false)
    (ha : ¬(Text.ofString "ARRAY(" <+: Text.ofChars (cs.map toUpper) ∧
      (Text.ofChars cs).getLast? = some (Text.byte ')')))
    (ht : Text.ofChars (cs.map toUpper) ≠ "TRUE") (hf : Text.ofChars (cs.map toUpper) ≠ "FALSE")
    (hb : ¬(isBetween '"' (Text.ofChars cs) = true ∨ isBetween '\'' (Text.ofChars cs) = true))
    (hi : isInteger (Text.ofChars cs) = false) (ho : operators.lookup (Text.ofChars cs) = none) :
    classify (cs.map toUpper) = .ok (.word, Text.ofChars (cs.map toUpper)) := by
  have hi' : isInteger (Text.ofChars (cs.map toUpper)) = false := by
    refine Bool.eq_false_iff.2 fun h => ?_
    rw [isInteger_upper h, hi] at h
    cases h
  have ho' : operators.lookup (Text.ofChars (cs.map toUpper)) = none := by
    cases h : operators.lookup (Text.ofChars (cs.map toUpper)) with
    | none => rfl
    | some p =>
      rw [lookup_upper h, ho] at h
      cases h
  rw [← getLast?_upper (by decide) (by decide)] at ha
  rw [← isBetween_upper (by decide) (by decide) cs,
    ← isBetween_upper (by decide) (by decide) cs] at hb
  unfold classify
  simp only [map_toUpper_toUpper, hk, ha, ht, hf, hb, hi', ho', if_false, Bool.false_eq_true]

/-! ## Reading again -/

/-- Characters that make up one token. -/
def Stands : List Char → Prop
  | [] => False
  | c :: cs => isSpace c = false ∧ atComment (c :: cs) = false ∧
    tokenExtent [] Position.start (c :: cs) = .ok (cs.length + 1)

instance (cs : List Char) : Decidable (Stands cs) :=
  match cs with
  | [] => isFalse id
  | _ :: _ => inferInstanceAs (Decidable (_ ∧ _ ∧ _))

theorem stands_cons {c : Char} {cs : List Char} : Stands (c :: cs) ↔
    isSpace c = false ∧ atComment (c :: cs) = false ∧ Spans (c :: cs) (cs.length + 1) := by
  rw [Stands, tokenExtent_eq_ok_iff]

theorem Stands.upper {cs : List Char} (h : Stands cs) : Stands (cs.map toUpper) := by
  cases cs with
  | nil => exact h
  | cons c cs =>
    obtain ⟨hc, hat, hspan⟩ := stands_cons.1 h
    rw [← CharClass.isSpace_toUpper] at hc
    rw [← atComment_upper] at hat
    refine stands_cons.2 ⟨hc, hat, ?_⟩
    rw [List.length_map]
    exact hspan.upper

theorem Spans.stands {c : Char} {cs : List Char} {n : Nat} (h : Spans (c :: cs) n)
    (hc : isSpace c = false) (hat : atComment (c :: cs) = false) : Stands ((c :: cs).take n) := by
  have hn : 0 < n := h.pos ⟨hc, hat⟩
  have hagain : Spans ((c :: cs).take n) n := by
    have := h.append hn (.inl rfl)
    rwa [List.append_nil] at this
  have hlen : ((c :: cs).take n).length = n := List.length_take_of_le h.le_length
  obtain ⟨m, rfl⟩ : ∃ m, n = m + 1 := ⟨n - 1, by omega⟩
  rw [List.take_succ_cons] at hagain hlen ⊢
  refine stands_cons.2 ⟨hc, ?_, ?_⟩
  · refine Bool.eq_false_iff.2 fun h => Bool.eq_false_iff.1 hat ?_
    rw [atComment_iff] at h ⊢
    exact h.trans ((List.prefix_cons_inj c).2 (List.take_prefix m cs))
  · rwa [Nat.succ.inj hlen]

end StackLang.Lexer

namespace StackLang

open CharClass (isSpace toUpper)

/-- The kind that a token has when it is read again: truth values are numbers then. -/
def TokenKind.reread : TokenKind → TokenKind
  | .boolean => .integer
  | kind => kind

theorem TokenKind.reread_reread (kind : TokenKind) : kind.reread.reread = kind.reread := by
  cases kind <;> rfl

/-- The text of the token is read as one token of its kind. -/
def Token.Rereads (t : Token) : Prop :=
  ∃ cs, Lexer.Stands cs ∧ Text.ofChars cs = t.text ∧
    Lexer.classify cs = .ok (t.kind.reread, t.text)

/-- A token without its place, as it is read again. -/
def Token.bare (t : Token) : Token := ⟨t.kind.reread, t.text, ⟨[], 0, 0⟩⟩

namespace Lexer

/-- The name of an operator is a word. -/
theorem stands_operator : ∀ o ∈ operators, Stands (Utf8.decode o.2.name) ∧
    Text.ofChars (Utf8.decode o.2.name) = o.2.name ∧
    classify (Utf8.decode o.2.name) = .ok (.word, o.2.name) := by decide +kernel

theorem rereads_of_classify {cs : List Char} (hs : Stands cs) {kind : TokenKind} {text : Text}
    (h : classify cs = .ok (kind, text)) (loc : Location) : Token.Rereads ⟨kind, text, loc⟩ := by
  have hc := h
  unfold classify at h
  dsimp only at h
  split at h
  · rename_i hk
    cases h
    refine ⟨cs.map toUpper, hs.upper, rfl, ?_⟩
    simp only [classify, map_toUpper_toUpper, hk, if_true]
    rfl
  rename_i hk
  split at h
  · split at h
    · cases h
      exact ⟨cs, hs, rfl, hc⟩
    · cases h
  rename_i ha
  split at h
  · cases h
    exact ⟨['1'], by decide, rfl, (by decide : classify ['1'] = .ok (.integer, "1"))⟩
  rename_i ht
  split at h
  · cases h
    exact ⟨['0'], by decide, rfl, (by decide : classify ['0'] = .ok (.integer, "0"))⟩
  rename_i hf
  split at h
  · split at h
    · cases h
      refine ⟨cs, hs, rfl, hc.trans ?_⟩
      split <;> rfl
    · cases h
  rename_i hb
  split at h
  · split at h
    · cases h
      exact ⟨cs, hs, rfl, hc⟩
    · cases h
  rename_i hi
  split at h
  · rename_i p hp
    cases h
    obtain ⟨before, after, hops, -⟩ := List.lookup_eq_some_iff.1 hp
    exact ⟨_, stands_operator _ (hops ▸ List.mem_append_right before List.mem_cons_self)⟩
  · rename_i ho
    cases h
    exact ⟨cs.map toUpper, hs.upper, rfl, classify_upper (Bool.eq_false_iff.2 hk) ha ht hf hb
      (Bool.eq_false_iff.2 hi) ho⟩

theorem rereads_of_token {file : Text} {pos : Position} {c : Char} {cs : List Char} {t : Token}
    {more : Nat} (hc : isSpace c = false) (hat : atComment (c :: cs) = false)
    (h : token file pos (c :: cs) = .ok (t, more)) : t.Rereads := by
  obtain ⟨n, kind, text, hn, hk, rfl, -⟩ := token_ok h
  exact rereads_of_classify ((tokenExtent_eq_ok_iff.1 hn).stands hc hat) hk _

/-- The tokens of a source can be read again. -/
theorem delivers_rereads (file source : Text) :
    Delivers (TokensIn Token.Rereads) (tokens file source) :=
  delivers_tokens source fun _ _ _ _ _ hc hat h => rereads_of_token hc hat h

/-- Characters that make up one token are read as it when it ends there. -/
theorem scan_stands {cs : List Char} (hs : Stands cs) {kind : TokenKind} {text : Text}
    (hk : classify cs = .ok (kind, text)) (file : Text) (pos : Position) {rest : List Char}
    (hr : Separates rest) : scan file 0 pos (cs ++ rest)
      = (scan file 0 (pos.after cs) rest).map (⟨kind, text, pos.inFile file⟩ :: ·) := by
  cases cs with
  | nil => exact hs.elim
  | cons c cs =>
    obtain ⟨hc, hat, hspan⟩ := stands_cons.1 hs
    have hagain : Spans (c :: (cs ++ rest)) (cs.length + 1) := by
      have := hspan.append (Nat.succ_pos _) hr
      rwa [List.take_succ_cons, List.take_length] at this
    have htake : (c :: (cs ++ rest)).take (cs.length + 1) = c :: cs := by simp
    have hdrop : (c :: (cs ++ rest)).drop (cs.length + 1) = rest := by simp
    have hb : BeginsToken (c :: (cs ++ rest)) := ⟨hc, atComment_append hat hr⟩
    have hscan := scan_token hb hagain (by rwa [htake]) file pos
    rwa [htake, hdrop] at hscan

/-- **Tokens are read again from their texts**, set apart by blanks. -/
theorem tokens_texts {ts : List Token} (h : TokensIn Token.Rereads ts) (file : Text) :
    ∃ ts', tokens file (Text.join " " (ts.map (·.text))) = .ok ts' ∧
      ts'.map (fun t => (t.kind, t.text)) = ts.map fun t => (t.kind.reread, t.text) := by
  suffices ∀ pos, ∃ ts', scan file 0 pos (Utf8.decode (Text.join " " (ts.map (·.text)))) = .ok ts' ∧
      ts'.map (fun t => (t.kind, t.text)) = ts.map fun t => (t.kind.reread, t.text) from this _
  induction ts with
  | nil => exact fun pos => ⟨[], rfl, rfl⟩
  | cons t ts ih =>
    intro pos
    obtain ⟨cs, hs, htext, hk⟩ := h.head
    cases ts with
    | nil =>
      have hchars : Utf8.decode (Text.join " " [t.text]) = cs ++ [] := by
        rw [Text.join_singleton, ← htext, Utf8.decode_ofChars, List.append_nil]
      refine ⟨[⟨t.kind.reread, t.text, pos.inFile file⟩], ?_, rfl⟩
      rw [List.map_cons, List.map_nil, hchars, scan_stands hs hk file pos (.inl rfl)]
      rfl
    | cons u ts =>
      obtain ⟨ts', hts', hpairs⟩ := ih h.tail ((pos.after cs).step ' ')
      have hchars : Utf8.decode (Text.join " " (t.text :: u.text :: ts.map (·.text)))
          = cs ++ ' ' :: Utf8.decode (Text.join " " (u.text :: ts.map (·.text))) := by
        rw [Text.join_cons_cons, ← htext, Utf8.decode_append]
        exact congrArg (cs ++ ·) (Utf8.decode_append [' '] _)
      refine ⟨⟨t.kind.reread, t.text, pos.inFile file⟩ :: ts', ?_, ?_⟩
      · rw [List.map_cons, List.map_cons, hchars, scan_stands hs hk file pos (.inr ⟨_, rfl⟩), scan,
          if_pos (by decide)]
        exact congrArg (Except.map _) hts'
      · exact congrArg ((t.kind.reread, t.text) :: ·) hpairs

/-- Apart from their places, the tokens that are read again stand for the same. -/
theorem tokens_join {ts : List Token} (h : TokensIn Token.Rereads ts) (file : Text) :
    ∃ ts', tokens file (Text.join " " (ts.map (·.text))) = .ok ts' ∧
      ts'.map Token.bare = ts.map Token.bare := by
  obtain ⟨ts', hts', hpairs⟩ := tokens_texts h file
  have hbare := congrArg (List.map fun p => (⟨p.1.reread, p.2, ⟨[], 0, 0⟩⟩ : Token)) hpairs
  simp only [List.map_map, Function.comp_def, TokenKind.reread_reread] at hbare
  exact ⟨ts', hts', hbare⟩

/-- **Normalised text is a fixed point**: joined by single blanks, the texts of the tokens of a
source are read as the same kinds and texts, with numbers for truth values. -/
theorem tokens_fixed {file source : Text} {ts : List Token} (h : tokens file source = .ok ts)
    (file' : Text) :
    ∃ ts', tokens file' (Text.join " " (ts.map (·.text))) = .ok ts' ∧
      ts'.map (fun t => (t.kind, t.text)) = ts.map fun t => (t.kind.reread, t.text) :=
  tokens_texts ((delivers_rereads file source).of_ok h) file'

/-- A source with a truth value, a sign, a long s in a keyword and quotes around other signs. -/
def unkempt : Text := "true == elſe// x\n'//' array(\"a)\",\n-1) dup"

def unkemptTokens : List Token :=
  [⟨.boolean, "1", ⟨"a", 1, 1⟩⟩, ⟨.word, "EQ", ⟨"a", 1, 6⟩⟩, ⟨.keyword, "ELSE", ⟨"a", 1, 9⟩⟩,
   ⟨.cstring, "'//'", ⟨"a", 2, 1⟩⟩, ⟨.array, "array(\"a)\",\n-1)", ⟨"a", 2, 6⟩⟩,
   ⟨.word, "DUP", ⟨"a", 3, 5⟩⟩]

theorem tokens_fixed_unkempt :
    tokens "a" unkempt = .ok unkemptTokens ∧
    ∃ ts, tokens "b" (Text.join " " (unkemptTokens.map (·.text))) = .ok ts ∧
      ts.map (fun t => (t.kind, t.text)) = unkemptTokens.map fun t => (t.kind.reread, t.text) := by
  have htokens : tokens "a" unkempt = .ok unkemptTokens := by decide +kernel
  exact ⟨htokens, tokens_fixed htokens "b"⟩

end Lexer

end StackLang
