import StackLang.Proofs.QuotedLiterals

/-!
# Tokens partition a source

The tokens of a source stand for stretches of its characters, in order and without overlap. Between
them are white space and comments only, and the place of a token is counted in the characters before
it. A word goes as far as it can.

- `Lexer.Gap`: characters between tokens. `Lexer.Spaced`: stretches with gaps between them.
- `Lexer.TokenAt`: a token and the stretch it stands for.
- `Lexer.spaced_of_reads`: the tokens that are read step by step are at such stretches.
- `Lexer.tokens_partition`: so are those of every source that has any; reading always ends.
-/

set_option autoImplicit false

namespace StackLang

namespace CharClass

theorem toUpper_asciiLower (c : Char) : toUpper (asciiLower c) = toUpper c := by
  unfold asciiLower
  split
  · rename_i h
    have hpoints : ∀ k : Fin 26, toUpper (Char.ofNat (0x41 + k.val + 32))
        = toUpper (Char.ofNat (0x41 + k.val)) := by decide +kernel
    have hlow : 0x41 ≤ c.toNat := h.1
    have hhigh : c.toNat ≤ 0x5A := h.2
    have hc : 0x41 + (c.toNat - 0x41) = c.toNat := by omega
    have hpoint := hpoints ⟨c.toNat - 0x41, by omega⟩
    simp only [hc, Char.ofNat_toNat] at hpoint
    exact hpoint
  · rfl

end CharClass

namespace Lexer

open CharClass (isSpace toUpper)

/-! ## Kinds of tokens by how they start -/

theorem getLast?_of_arrayExtent {skip : Nat} {cs : List Char} {n : Nat}
    (h : arrayExtent skip cs = .closed n) : (cs.take n).getLast? = some ')' := by
  have hcons : ∀ {c : Char} {l : List Char}, l.getLast? = some ')' →
      (c :: l).getLast? = some ')' := by
    intro c l hl
    rw [List.getLast?_cons, hl]
    rfl
  fun_induction arrayExtent skip cs generalizing n with
  | case1 | case4 => cases h
  | case5 =>
    cases h
    rfl
  | case2 skip c cs ih | case6 c cs hq hc ih =>
    obtain ⟨m, rfl, hm⟩ := ArrayExtent.succ_eq_closed.1 h
    exact hcons (ih hm)
  | case3 c cs hq q hc =>
    rename_i ih
    obtain ⟨m, rfl, hm⟩ := ArrayExtent.succ_eq_closed.1 h
    exact hcons (ih hm)

/-- The word of an array in upper case. -/
theorem map_toUpper_head {head : List Char} (h : head.map CharClass.asciiLower = arrayStart) :
    head.map toUpper = "ARRAY(".toList := by
  have hupper := congrArg (List.map toUpper) h
  rw [List.map_map] at hupper
  rw [← (by decide : arrayStart.map toUpper = "ARRAY(".toList), ← hupper]
  exact List.map_congr_left fun c _ => (CharClass.toUpper_asciiLower c).symm

/-- An array is one when its elements can be told apart, and nothing else when they cannot. -/
theorem classify_array {cs : List Char} {n : Nat}
    (hat : atArray (cs.take arrayStart.length) = true)
    (h : arrayExtent 0 (cs.drop arrayStart.length) = .closed n) :
    classify (cs.take (arrayStart.length + n))
      = ((Literal.elements (Text.ofChars (cs.take (arrayStart.length + n)))).map fun _ =>
        (.array, Text.ofChars (cs.take (arrayStart.length + n)))).mapError Cause.badLiteral := by
  have hstart := map_toUpper_head (atArray_take.1 hat)
  have harray : Text.ofString "ARRAY("
      <+: Text.ofChars ((cs.take (arrayStart.length + n)).map toUpper) := by
    rw [List.take_add, List.map_append, hstart, Text.ofChars_append]
    exact List.prefix_append _ _
  have hlast : (Text.ofChars (cs.take (arrayStart.length + n))).getLast?
      = some (Text.byte ')') := by
    rw [Text.getLast?_ofChars (by decide), List.take_add, List.getLast?_append,
      getLast?_of_arrayExtent h]
    rfl
  have hkeyword : isKeyword (Text.ofChars ((cs.take (arrayStart.length + n)).map toUpper))
      = false := by
    have hno : ∀ k ∈ Keyword.all.map Keyword.name ++ directives,
        ¬Text.ofString "ARRAY(" <+: k := by decide
    exact Bool.eq_false_iff.2 fun hk => hno _ (mem_of_isKeyword hk) harray
  unfold classify
  simp only [hkeyword, harray, hlast, Bool.false_eq_true, if_false, true_and, if_true]
  cases Literal.elements _ <;> rfl

/-- A word ends here: at white space, at a comment or with the text. -/
def endsWord : List Char → Bool
  | [] => true
  | c :: cs => isSpace c || atComment (c :: cs)

/-- **A word goes as far as it can.** -/
theorem endsWord_wordExtent (cs : List Char) : endsWord (cs.drop (wordExtent cs)) = true ∧
    ∀ i < wordExtent cs, endsWord (cs.drop i) = false := by
  induction cs with
  | nil => exact ⟨rfl, fun i hi => absurd hi (Nat.not_lt_zero i)⟩
  | cons c cs ih =>
    rw [wordExtent]
    split
    · rename_i h
      exact ⟨h, fun i hi => absurd hi (Nat.not_lt_zero i)⟩
    · rename_i h
      refine ⟨ih.1, fun i hi => ?_⟩
      cases i with
      | zero => exact Bool.eq_false_iff.2 h
      | succ i => exact ih.2 i (Nat.lt_of_succ_lt_succ hi)

/-- The kinds of tokens with marks at both ends. -/
def literalKinds : List TokenKind := [.string, .cstring, .array]

/-- Text that is read as anything but a literal is a word. -/
theorem Spans.eq_wordExtent {cs : List Char} {n : Nat} (h : Spans cs n) {kind : TokenKind}
    {text : Text} (hk : classify (cs.take n) = .ok (kind, text)) (hkind : kind ∉ literalKinds) :
    n = wordExtent cs := by
  have hliteral : ∀ {α : Type} {x : Except Literal.Fault α} {k : TokenKind} {t : Text},
      k ∈ literalKinds →
      (x.map fun _ => (k, t)).mapError Cause.badLiteral ≠ .ok (kind, text) := by
    intro α x k t hmem heq
    cases x with
    | error fault => cases heq
    | ok a =>
      cases heq
      exact hkind hmem
  cases h with
  | array hat h =>
    rw [classify_array hat h] at hk
    exact absurd hk (hliteral (by decide))
  | @quoted c cs n hc h =>
    obtain ⟨body, rest, rfl, -, rfl⟩ := (quotedExtent_eq_closed_iff hc).1 h
    rw [List.take_succ_cons, take_closed, classify_quoted hc] at hk
    refine absurd hk (hliteral ?_)
    split <;> decide
  | word hat hc => rfl

/-! ## Gaps -/

/-- White space and comments, where `rest` follows. A comment goes up to a line break or the end of
the text. -/
inductive Gap : List Char → List Char → Prop
  | nil {rest : List Char} : Gap [] rest
  | space {c : Char} {gap rest : List Char} (hc : isSpace c = true) (h : Gap gap rest) :
    Gap (c :: gap) rest
  | comment {text gap rest : List Char} (ht : '\n' ∉ text)
    (he : gap ++ rest = [] ∨ (gap ++ rest).head? = some '\n') (h : Gap gap rest) :
    Gap ('/' :: '/' :: text ++ gap) rest

theorem Gap.after_comment {gap rest text : List Char} (h : Gap gap rest)
    (hat : atComment text = true) (hend : text.dropWhile (· ≠ '\n') = gap ++ rest) :
    Gap (text.takeWhile (· ≠ '\n') ++ gap) rest := by
  obtain ⟨more, rfl⟩ := atComment_iff.1 hat
  have htext : (['/', '/'] ++ more).takeWhile (· ≠ '\n')
      = '/' :: '/' :: more.takeWhile (· ≠ '\n') := by simp
  rw [htext]
  refine .comment (fun hm => ?_) ?_ h
  · simpa using List.all_eq_true.1 List.all_takeWhile _ hm
  · rw [← hend]
    cases hd : (['/', '/'] ++ more).dropWhile (· ≠ '\n') with
    | nil => exact .inl rfl
    | cons c cs =>
      have hc := List.head?_dropWhile_not (· ≠ '\n') (['/', '/'] ++ more)
      rw [hd] at hc
      refine .inr ?_
      simpa using hc

/-- From the offset `i` on, stretches of the characters `s` with gaps before and between them, and a
gap after the last one. -/
def Spaced (s : List Char) : Nat → List (Nat × Nat) → Prop
  | i, [] => Gap (s.drop i) []
  | i, (first, past) :: spans =>
    i ≤ first ∧ Gap ((s.drop i).take (first - i)) (s.drop first) ∧ Spaced s past spans

/-- A gap grows at its start. -/
theorem Spaced.grow {s read text after : List Char} {spans : List (Nat × Nat)}
    (hs : s = read ++ (text ++ after)) (h : Spaced s (read.length + text.length) spans)
    (hgap : ∀ gap rest, after = gap ++ rest → Gap gap rest → Gap (text ++ gap) rest) :
    Spaced s read.length spans := by
  have hread : s.drop read.length = text ++ after := by rw [hs, List.drop_left]
  have htext : s.drop (read.length + text.length) = after := by
    rw [← List.drop_drop, hread, List.drop_left]
  cases spans with
  | nil =>
    rw [Spaced, htext] at h
    rw [Spaced, hread]
    exact hgap after [] (List.append_nil _).symm h
  | cons span spans =>
    obtain ⟨first, past⟩ := span
    obtain ⟨hle, hg, hspans⟩ := h
    obtain ⟨k, rfl⟩ := Nat.exists_eq_add_of_le hle
    have hrest : s.drop (read.length + text.length + k) = after.drop k := by
      rw [← List.drop_drop, htext]
    rw [Nat.add_sub_cancel_left, htext, hrest] at hg
    refine ⟨by omega, ?_, hspans⟩
    rw [hread, hrest, Nat.add_assoc, Nat.add_sub_cancel_left, List.take_length_add_append]
    exact hgap _ _ (List.take_append_drop k after).symm hg

/-! ## Tokens and their stretches -/

/-- A token of a file with the characters `s`, and the stretch of these that it stands for. -/
structure TokenAt (file : Text) (s : List Char) (t : Token) (span : Nat × Nat) : Prop where
  nonempty : span.1 < span.2
  within : span.2 ≤ s.length
  reads : classify ((s.take span.2).drop span.1) = .ok (t.kind, t.text)
  /-- The row counts line breaks, the column the characters since the last one. -/
  place : t.loc = ⟨file, (s.take span.1).count '\n' + 1, sinceBreak (s.take span.1) + 1⟩
  /-- A word does not end before its stretch does, but there. -/
  word : t.kind ∉ literalKinds → endsWord (s.drop span.2) = true ∧
    ∀ i, span.1 ≤ i → i < span.2 → endsWord (s.drop i) = false

theorem tokenAt_of_spans {file : Text} {read rest : List Char} {n : Nat} {kind : TokenKind}
    {text : Text} (hb : BeginsToken rest) (hn : Spans rest n)
    (hk : classify (rest.take n) = .ok (kind, text)) :
    TokenAt file (read ++ rest) ⟨kind, text, placeAfter file read⟩
      (read.length, read.length + n) := by
  have hdrop : ∀ i, (read ++ rest).drop (read.length + i) = rest.drop i := fun i => by simp
  refine ⟨?_, ?_, ?_, ?_, fun hkind => ?_⟩
  · cases rest with
    | nil => exact hb.elim
    | cons c cs => exact Nat.lt_add_of_pos_right (hn.pos hb)
  · rw [List.length_append]
    exact Nat.add_le_add_left hn.le_length _
  · rw [List.take_length_add_append, List.drop_left]
    exact hk
  · rw [List.take_left, placeAfter_eq]
    rfl
  · obtain rfl := hn.eq_wordExtent hk hkind
    obtain ⟨hend, hbefore⟩ := endsWord_wordExtent rest
    refine ⟨by rwa [hdrop], fun i hlow hhigh => ?_⟩
    obtain ⟨j, rfl⟩ := Nat.exists_eq_add_of_le hlow
    rw [hdrop]
    exact hbefore j (by omega)

/-- **What is read step by step are tokens at stretches of the text**, with gaps between them. -/
theorem spaced_of_reads {file : Text} {rest : List Char} {pos : Position}
    {r : Except Failure (List Token)} (h : Reads file pos rest r) (read : List Char)
    (hpos : pos = Position.start.after read) {ts : List Token} (hr : r = .ok ts) :
    ∃ spans, List.Forall₂ (TokenAt file (read ++ rest)) ts spans ∧
      Spaced (read ++ rest) read.length spans := by
  induction h generalizing read ts with
  | done =>
    cases hr
    exact ⟨[], .nil, by simpa [Spaced] using Gap.nil⟩
  | @space pos c rest r hc h ih =>
    obtain ⟨spans, htokens, hspaced⟩ := ih (read ++ [c])
      (by rw [hpos, Position.after_append]; rfl) hr
    rw [← List.append_cons, List.length_append] at hspaced
    rw [← List.append_cons] at htokens
    exact ⟨spans, htokens, hspaced.grow rfl fun gap after _ hgap => .space hc hgap⟩
  | @comment pos rest r hat h ih =>
    obtain ⟨spans, htokens, hspaced⟩ := ih (read ++ rest.takeWhile (· ≠ '\n'))
      (by rw [hpos, Position.after_append]) hr
    rw [List.append_assoc, List.takeWhile_append_dropWhile] at htokens hspaced
    rw [List.length_append] at hspaced
    have hsplit : read ++ rest
        = read ++ (rest.takeWhile (· ≠ '\n') ++ rest.dropWhile (· ≠ '\n')) := by
      rw [List.takeWhile_append_dropWhile]
    exact ⟨spans, htokens, hspaced.grow hsplit fun gap after hafter hgap =>
      hgap.after_comment hat hafter⟩
  | @token pos rest n kind text r hb hn hk h ih =>
    obtain ⟨ts, hts, rfl⟩ := Failure.of_map_ok hr
    obtain ⟨spans, htokens, hspaced⟩ := ih (read ++ rest.take n)
      (by rw [hpos, Position.after_append]) hts
    rw [List.append_assoc, List.take_append_drop] at htokens hspaced
    rw [List.length_append, List.length_take_of_le hn.le_length] at hspaced
    refine ⟨(read.length, read.length + n) :: spans, .cons ?_ htokens, Nat.le_refl _, ?_, hspaced⟩
    · rw [hpos]
      exact tokenAt_of_spans hb hn hk
    · rw [Nat.sub_self, List.take_zero]
      exact .nil
  | refused hb hf => cases hr

/-- **The tokens of a source partition it.** Reading ends on every source, by a token that is
refused or at the end of the text. In the second case each token stands for a stretch of the
characters that is not empty: its kind and text are those of the stretch, its row and column are
counted in the characters before it, and unless it is a literal it goes up to white space, a comment
or the end. The stretches follow one another, and what is before, between and after them is white
space and comments that go up to a line break or the end. -/
theorem tokens_partition (file source : Text) :
    Reads file Position.start (Utf8.decode source) (tokens file source) ∧
    ∀ ts, tokens file source = .ok ts → ∃ spans : List (Nat × Nat),
      List.Forall₂ (TokenAt file (Utf8.decode source)) ts spans ∧
      Spaced (Utf8.decode source) 0 spans := by
  have hreads := reads_scan file Position.start (Utf8.decode source)
  exact ⟨hreads, fun ts hts => spaced_of_reads hreads [] rfl hts⟩

/-- A source with two comments and an array on two lines, which has the sign of one in quotes. -/
def spread : Text := "1 // x\n array(\"//\",\n 2) dup// end"

def spreadTokens : List Token :=
  [⟨.integer, "1", ⟨"a", 1, 1⟩⟩, ⟨.array, "array(\"//\",\n 2)", ⟨"a", 2, 2⟩⟩,
   ⟨.word, "DUP", ⟨"a", 3, 5⟩⟩]

theorem tokens_partition_spread :
    tokens "a" spread = .ok spreadTokens ∧
    ∃ spans : List (Nat × Nat),
      List.Forall₂ (TokenAt "a" (Utf8.decode spread)) spreadTokens spans ∧
      Spaced (Utf8.decode spread) 0 spans := by
  have htokens : tokens "a" spread = .ok spreadTokens := by decide +kernel
  exact ⟨htokens, (tokens_partition "a" spread).2 spreadTokens htokens⟩

end Lexer

end StackLang
