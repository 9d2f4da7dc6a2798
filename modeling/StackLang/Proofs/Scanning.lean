import Mathlib.Data.List.Induction
import StackLang.Proofs.TokenExtents

/-!
# Where the lexer stands

The lexer reads a text from its start: white space, comments and tokens, one after the other. When
it makes a token, it notes the place where the token begins; when it fails, it blames the place
where the token begins, or a quote in an array that opens text which is never closed.

- `Ends`: the results and the failures of a stage.
- `Position.start_after`: rows and columns, counted in the text before a place.
- `Lexer.Scanned`: how far a text is read. `Lexer.Marked`: the places that are told.
- `Lexer.Reads`, `Lexer.reads_scan`: the steps of the lexer, and that they come to an end.
- `Lexer.ends_scan`: what holds of a token wherever it begins holds of all of them.
- `Lexer.ends_tokens`: tokens and failures are at marked places.
-/

set_option autoImplicit false

namespace StackLang

/-! ## Outcomes of a stage -/

/-- A stage ends in a result in `P` or in a failure in `E`. -/
def Ends {α : Type} (E : Failure → Prop) (P : α → Prop) : Except Failure α → Prop
  | .ok a => P a
  | .error f => E f

/-- An error of one of the kinds, at a place. -/
def Failure.Blames (kinds : List ErrorKind) (loc : Location) (f : Failure) : Prop :=
  ∃ c : Cause, f = c.at loc ∧ c.kind ∈ kinds

section
variable {α β : Type} {E E' : Failure → Prop} {P P' : α → Prop} {Q : β → Prop}

theorem Ends.of_ok {x : Except Failure α} {a : α} (h : Ends E P x) (hx : x = .ok a) : P a := by
  subst hx
  exact h

theorem Ends.of_error {x : Except Failure α} {f : Failure} (h : Ends E P x)
    (hx : x = .error f) : E f := by
  subst hx
  exact h

theorem Ends.map {x : Except Failure α} {f : α → β} (h : Ends E P x)
    (hf : ∀ a, P a → Q (f a)) : Ends E Q (x.map f) := by
  cases x with
  | error e => exact h
  | ok a => exact hf a h

theorem Ends.mono {x : Except Failure α} (h : Ends E P x) (hp : ∀ a, P a → P' a) :
    Ends E P' x := by
  cases x with
  | error e => exact h
  | ok a => exact hp a h

theorem Ends.weaken {x : Except Failure α} (h : Ends E P x) (he : ∀ f, E f → E' f) :
    Ends E' P x := by
  cases x with
  | error e => exact he e h
  | ok a => exact h

theorem ends_error {kinds : List ErrorKind} {c : Cause} {loc : Location} (h : c.kind ∈ kinds) :
    Ends (Failure.Blames kinds loc) P (.error (c.at loc)) := ⟨c, rfl, h⟩

end

/-- Tokens that all have a property. -/
def TokensIn (P : Token → Prop) (ts : List Token) : Prop := ∀ t ∈ ts, P t

section
variable {P Q : Token → Prop} {t : Token} {ts : List Token}

theorem TokensIn.nil : TokensIn P [] := List.forall_mem_nil P

theorem TokensIn.cons (h : P t) (hs : TokensIn P ts) : TokensIn P (t :: ts) :=
  List.forall_mem_cons.2 ⟨h, hs⟩

theorem TokensIn.head (h : TokensIn P (t :: ts)) : P t := (List.forall_mem_cons.1 h).1

theorem TokensIn.tail (h : TokensIn P (t :: ts)) : TokensIn P ts := (List.forall_mem_cons.1 h).2

theorem TokensIn.mono (h : TokensIn P ts) (hq : ∀ t, P t → Q t) : TokensIn Q ts :=
  fun t ht => hq t (h t ht)

end

/-! ## Rows and columns -/

/-- How many characters come after the last line break. -/
def sinceBreak (cs : List Char) : Nat := (cs.reverse.takeWhile (· ≠ '\n')).length

/-- **The row counts the line breaks before a place, the column the characters since the last.** -/
theorem Position.start_after (cs : List Char) :
    start.after cs = ⟨cs.count '\n' + 1, sinceBreak cs + 1⟩ := by
  induction cs using List.reverseRecOn with
  | nil => rfl
  | append_singleton cs c ih =>
    rw [after_append, ih, after_cons, after_nil, step]
    by_cases hc : c = '\n' <;> simp [sinceBreak, hc, List.count_append]

namespace Lexer

open CharClass (isSpace)

/-! ## How far a text is read -/

/-- A token begins here: this is neither the end nor white space nor a comment. -/
def BeginsToken : List Char → Prop
  | [] => False
  | c :: cs => isSpace c = false ∧ atComment (c :: cs) = false

/-- Of the characters `cs` the first ones are read, as white space, comments and tokens, and the
others are left. -/
inductive Scanned (cs : List Char) : List Char → List Char → Prop
  | start : Scanned cs [] cs
  | space {before rest : List Char} {c : Char} (h : Scanned cs before (c :: rest))
    (hc : isSpace c = true) : Scanned cs (before ++ [c]) rest
  | comment {before rest : List Char} (h : Scanned cs before rest) (hat : atComment rest = true) :
    Scanned cs (before ++ rest.takeWhile (· ≠ '\n')) (rest.dropWhile (· ≠ '\n'))
  | token {before rest : List Char} {n : Nat} (h : Scanned cs before rest) (hb : BeginsToken rest)
    (hn : Spans rest n) : Scanned cs (before ++ rest.take n) (rest.drop n)

/-- Of the characters `body` behind the parenthesis of an array the first ones are read, as quoted
text and other characters, and the others are left. -/
inductive Inside (body : List Char) : List Char → List Char → Prop
  | start : Inside body [] body
  | plain {before rest : List Char} {c : Char} (h : Inside body before (c :: rest))
    (hc : ¬(c = '"' ∨ c = '\'')) (hp : c ≠ ')') : Inside body (before ++ [c]) rest
  | quoted {before rest : List Char} {c : Char} {n : Nat} (h : Inside body before (c :: rest))
    (hc : c = '"' ∨ c = '\'') (hn : quotedExtent c false rest = ⟨n, true⟩) :
    Inside body (before ++ c :: rest.take n) (rest.drop n)

/-- A place in a text that is told: where a token begins, or a quote that opens text in an array. -/
inductive Marked (cs : List Char) : List Char → List Char → Prop
  | token {before rest : List Char} (h : Scanned cs before rest) (hb : BeginsToken rest) :
    Marked cs before rest
  | quote {before rest inside more : List Char} {c : Char} (h : Scanned cs before rest)
    (hb : BeginsToken rest) (hat : atArray (rest.take arrayStart.length) = true)
    (hin : Inside (rest.drop arrayStart.length) inside (c :: more)) (hc : c = '"' ∨ c = '\'') :
    Marked cs (before ++ (rest.take arrayStart.length ++ inside)) (c :: more)

theorem Scanned.append_eq {cs before rest : List Char} (h : Scanned cs before rest) :
    before ++ rest = cs := by
  induction h with
  | start => rfl
  | space h hc ih => rw [List.append_assoc, ← ih]; rfl
  | comment h hat ih => rw [List.append_assoc, List.takeWhile_append_dropWhile, ih]
  | token h hb hn ih => rw [List.append_assoc, List.take_append_drop, ih]

theorem Inside.append_eq {body before rest : List Char} (h : Inside body before rest) :
    before ++ rest = body := by
  induction h with
  | start => rfl
  | plain h hc hp ih => rw [List.append_assoc, ← ih]; rfl
  | quoted h hc hn ih => rw [List.append_assoc, List.cons_append, List.take_append_drop, ih]

/-- A marked place is that of a character of the text. -/
theorem Marked.append_eq {cs before rest : List Char} (h : Marked cs before rest) :
    before ++ rest = cs ∧ rest ≠ [] := by
  cases h with
  | token h hb =>
    refine ⟨h.append_eq, ?_⟩
    rintro rfl
    exact hb
  | quote h hb hat hin hc =>
    refine ⟨?_, List.cons_ne_nil _ _⟩
    rw [List.append_assoc, List.append_assoc, hin.append_eq, List.take_append_drop, h.append_eq]

theorem Inside.start' (body : List Char) : Inside body ([] ++ body.take 0) (body.drop 0) := .start

theorem ArrayExtent.succ_eq_openQuote {x : ArrayExtent} {offset n : Nat} :
    x.succ = .openQuote offset n ↔ ∃ m, offset = m + 1 ∧ x = .openQuote m n := by
  cases x <;> simp [succ]
  grind

/-- Quoted text in an array that is not closed begins with a quote inside of the array. -/
theorem inside_of_openQuote {body read cs : List Char} {skip offset n : Nat}
    (h : arrayExtent skip cs = .openQuote offset n)
    (hin : Inside body (read ++ cs.take skip) (cs.drop skip)) :
    ∃ c more, (c = '"' ∨ c = '\'') ∧ Inside body (read ++ cs.take offset) (c :: more) := by
  fun_induction arrayExtent skip cs generalizing read offset n with
  | case1 => cases h
  | case2 skip c cs ih =>
    obtain ⟨m, rfl, hm⟩ := ArrayExtent.succ_eq_openQuote.1 h
    rw [List.take_succ_cons, List.append_cons] at hin
    obtain ⟨q, more, hq, hq'⟩ := ih hm hin
    exact ⟨q, more, hq, by rwa [List.take_succ_cons, List.append_cons]⟩
  | case3 c cs hq q hc =>
    rename_i ih
    obtain ⟨m, rfl, hm⟩ := ArrayExtent.succ_eq_openQuote.1 h
    have hclosed : quotedExtent c false cs = ⟨q.length, true⟩ := by rw [← hc]
    rw [List.take_zero, List.append_nil, List.drop_zero] at hin
    have hnext := hin.quoted hq hclosed
    rw [List.append_cons] at hnext
    obtain ⟨q', more, hq', hin'⟩ := ih hm hnext
    exact ⟨q', more, hq', by rwa [List.take_succ_cons, List.append_cons]⟩
  | case4 c cs hq hc =>
    cases h
    exact ⟨c, cs, hq, hin⟩
  | case5 cs hq => cases h
  | case6 c cs hq hc ih =>
    obtain ⟨m, rfl, hm⟩ := ArrayExtent.succ_eq_openQuote.1 h
    rw [List.take_zero, List.append_nil, List.drop_zero] at hin
    have hnext := hin.plain hq hc
    obtain ⟨q, more, hq', hin'⟩ := ih hm (by rwa [List.take_zero, List.append_nil, List.drop_zero])
    exact ⟨q, more, hq', by rwa [List.take_succ_cons, List.append_cons]⟩

/-! ## Tokens and failures -/

/-- The place where the characters `before` of a file end. -/
def placeAfter (file : Text) (before : List Char) : Location :=
  (Position.start.after before).inFile file

theorem placeAfter_eq (file : Text) (before : List Char) :
    placeAfter file before
      = ⟨file, (before.count '\n' + 1 : Nat), (sinceBreak before + 1 : Nat)⟩ := by
  rw [placeAfter, Position.start_after, Position.inFile]

/-- A failure that blames a marked place of a file with the characters `cs`. -/
def Refuses (file : Text) (cs : List Char) (f : Failure) : Prop :=
  ∃ before rest, Marked cs before rest ∧ f.Blames [.invalidLiteral] (placeAfter file before)

section
variable {file : Text} {all before rest : List Char}

/-- Only literals and numbers are refused. -/
theorem kind_of_classify {chars : List Char} {c : Cause} (h : classify chars = .error c) :
    c.kind = .invalidLiteral := by
  unfold classify at h
  dsimp only at h
  split at h
  · cases h
  split at h
  · split at h <;> cases h
    rfl
  split at h
  · cases h
  split at h
  · cases h
  split at h
  · split at h <;> cases h
    rfl
  split at h
  · split at h <;> cases h
    rfl
  split at h <;> cases h

theorem token_ok {pos : Position} {t : Token} {more : Nat}
    (h : Lexer.token file pos rest = .ok (t, more)) :
    ∃ n kind text, tokenExtent file pos rest = .ok n ∧
      classify (rest.take n) = .ok (kind, text) ∧ t = ⟨kind, text, pos.inFile file⟩ ∧
      more = n - 1 := by
  unfold Lexer.token at h
  split at h
  · cases h
  rename_i n hn
  split at h
  · cases h
  rename_i kind text hk
  cases h
  exact ⟨n, kind, text, hn, hk, rfl, rfl⟩

variable (h : Scanned all before rest) (hb : BeginsToken rest)
include h hb

theorem refuses_tokenExtent {f : Failure}
    (hf : tokenExtent file (Position.start.after before) rest = .error f) :
    Refuses file all f := by
  unfold tokenExtent at hf
  split at hf
  · rename_i hat
    split at hf
    · cases hf
    · rename_i offset n hq
      cases hf
      obtain ⟨c, more, hc, hin⟩ := inside_of_openQuote hq (.start' _)
      have hplace : placeAfter file (before ++ (rest.take arrayStart.length
          ++ ([] ++ (rest.drop arrayStart.length).take offset)))
          = ((Position.start.after before).after
            (rest.take (arrayStart.length + offset))).inFile file := by
        rw [placeAfter, Position.after_append, List.nil_append, ← List.take_add]
      exact ⟨_, _, .quote h hb hat hin hc, _, congrArg (Cause.at _) hplace.symm,
        by simp [Cause.kind]⟩
    · cases hf
      exact ⟨before, rest, .token h hb, _, rfl, by simp [Cause.kind]⟩
  · split at hf
    · cases hf
    dsimp only at hf
    split at hf
    · split at hf
      · cases hf
      · cases hf
        exact ⟨before, _, .token h hb, _, rfl, by simp [Cause.kind]⟩
    · cases hf

/-- A token that is refused is so at a marked place. -/
theorem refuses_token {f : Failure}
    (hf : Lexer.token file (Position.start.after before) rest = .error f) :
    Refuses file all f := by
  unfold Lexer.token at hf
  split at hf
  · rename_i e he
    cases hf
    exact refuses_tokenExtent h hb he
  split at hf
  · rename_i c hc
    cases hf
    exact ⟨before, rest, .token h hb, c, rfl, by simp [kind_of_classify hc]⟩
  · cases hf

end

theorem Spans.pos {c : Char} {cs : List Char} {n : Nat} (h : Spans (c :: cs) n)
    (hb : BeginsToken (c :: cs)) : 0 < n := by
  cases h with
  | array hat h => exact Nat.lt_of_lt_of_le (by decide) (Nat.le_add_right _ _)
  | quoted hq h => exact Nat.succ_pos _
  | word ha hq =>
    rw [wordExtent, hb.1, hb.2]
    exact Nat.succ_pos _

/-- A comment ends where the line does. -/
theorem split_commentExtent (cs : List Char) :
    cs.take (commentExtent cs) = cs.takeWhile (· ≠ '\n') ∧
      cs.drop (commentExtent cs) = cs.dropWhile (· ≠ '\n') := by
  induction cs with
  | nil => exact ⟨rfl, rfl⟩
  | cons c cs ih =>
    rw [commentExtent]
    by_cases hc : c = '\n'
    · simp [hc]
    · rw [if_neg hc, List.take_succ_cons, List.drop_succ_cons, ih.1, ih.2]
      simp [hc]

theorem commentExtent_le (cs : List Char) : commentExtent cs ≤ cs.length := by
  induction cs with
  | nil => exact Nat.le_refl 0
  | cons c cs ih =>
    rw [commentExtent]
    split
    · exact Nat.zero_le _
    · exact Nat.succ_le_succ ih

/-! ## The lexer in steps -/

theorem scan_length (file : Text) (pos : Position) (cs rest : List Char) :
    scan file cs.length pos (cs ++ rest) = scan file 0 (pos.after cs) rest := by
  induction cs generalizing pos with
  | nil => rfl
  | cons c cs ih => exact ih (pos.step c)

/-- Characters that belong together are passed over at once. -/
theorem scan_pass {c : Char} {cs : List Char} {n : Nat} (hn : n ≤ cs.length) (file : Text)
    (pos : Position) : scan file n (pos.step c) cs
      = scan file 0 (pos.after ((c :: cs).take (n + 1))) ((c :: cs).drop (n + 1)) := by
  have hpass := scan_length file (pos.step c) (cs.take n) (cs.drop n)
  rwa [List.take_append_drop, List.length_take_of_le hn] at hpass

theorem scan_comment {rest : List Char} (hat : atComment rest = true) (file : Text)
    (pos : Position) : scan file 0 pos rest
      = scan file 0 (pos.after (rest.takeWhile (· ≠ '\n'))) (rest.dropWhile (· ≠ '\n')) := by
  obtain ⟨more, rfl⟩ := atComment_iff.1 hat
  obtain ⟨htake, hdrop⟩ := split_commentExtent (['/', '/'] ++ more)
  rw [← htake, ← hdrop]
  exact scan_pass (commentExtent_le ('/' :: more)) file pos

theorem token_of_spans {rest : List Char} {n : Nat} {kind : TokenKind} {text : Text}
    (hb : BeginsToken rest) (hn : Spans rest n) (hk : classify (rest.take n) = .ok (kind, text))
    (file : Text) (pos : Position) :
    Lexer.token file pos rest = .ok (⟨kind, text, pos.inFile file⟩, n - 1) := by
  cases rest with
  | nil => exact hb.elim
  | cons c cs => simp only [Lexer.token, tokenExtent_eq_ok_iff.2 hn, hk]

theorem scan_token {rest : List Char} {n : Nat} {kind : TokenKind} {text : Text}
    (hb : BeginsToken rest) (hn : Spans rest n) (hk : classify (rest.take n) = .ok (kind, text))
    (file : Text) (pos : Position) : scan file 0 pos rest
      = (scan file 0 (pos.after (rest.take n)) (rest.drop n)).map
        (⟨kind, text, pos.inFile file⟩ :: ·) := by
  have htoken := token_of_spans hb hn hk file pos
  cases rest with
  | nil => exact hb.elim
  | cons c cs =>
    obtain ⟨m, rfl⟩ : ∃ m, n = m + 1 := ⟨n - 1, by have := hn.pos hb; omega⟩
    rw [scan, if_neg (by simp [hb.1]), if_neg (by simp [hb.2]), htoken]
    exact congrArg (Except.map _) (scan_pass (Nat.le_of_succ_le_succ hn.le_length) file pos)

/-- The steps by which a text is read from a place on, up to its end or a token that is refused. A
token takes as many characters as it spans. -/
inductive Reads (file : Text) : Position → List Char → Except Failure (List Token) → Prop
  | done {pos : Position} : Reads file pos [] (.ok [])
  | space {pos : Position} {c : Char} {rest : List Char} {r : Except Failure (List Token)}
    (hc : isSpace c = true) (h : Reads file (pos.step c) rest r) : Reads file pos (c :: rest) r
  | comment {pos : Position} {rest : List Char} {r : Except Failure (List Token)}
    (hat : atComment rest = true)
    (h : Reads file (pos.after (rest.takeWhile (· ≠ '\n'))) (rest.dropWhile (· ≠ '\n')) r) :
    Reads file pos rest r
  | token {pos : Position} {rest : List Char} {n : Nat} {kind : TokenKind} {text : Text}
    {r : Except Failure (List Token)} (hb : BeginsToken rest) (hn : Spans rest n)
    (hk : classify (rest.take n) = .ok (kind, text))
    (h : Reads file (pos.after (rest.take n)) (rest.drop n) r) :
    Reads file pos rest (r.map (⟨kind, text, pos.inFile file⟩ :: ·))
  | refused {pos : Position} {rest : List Char} {f : Failure} (hb : BeginsToken rest)
    (hf : Lexer.token file pos rest = .error f) : Reads file pos rest (.error f)

/-- **Reading ends**: each step takes a character at least, so finitely many read every text. -/
theorem reads_scan (file : Text) (pos : Position) (cs : List Char) :
    Reads file pos cs (scan file 0 pos cs) := by
  induction hlen : cs.length using Nat.strongRecOn generalizing pos cs with
  | _ len ih =>
    subst hlen
    cases cs with
    | nil => exact .done
    | cons c cs =>
      by_cases hc : isSpace c = true
      · rw [scan, if_pos hc]
        exact .space hc (ih cs.length (Nat.lt_succ_self _) _ cs rfl)
      by_cases hat : atComment (c :: cs) = true
      · have hshort : ((c :: cs).dropWhile (· ≠ '\n')).length < (c :: cs).length := by
          obtain ⟨more, hmore⟩ := atComment_iff.1 hat
          obtain ⟨rfl, -⟩ := List.cons.inj hmore
          rw [List.dropWhile_cons_of_pos (by decide)]
          exact Nat.lt_succ_of_le (List.dropWhile_sublist _).length_le
        rw [scan_comment hat]
        exact .comment hat (ih _ hshort _ _ rfl)
      have hb : BeginsToken (c :: cs) := ⟨Bool.eq_false_iff.2 hc, Bool.eq_false_iff.2 hat⟩
      cases ht : Lexer.token file pos (c :: cs) with
      | error f =>
        rw [scan, if_neg hc, if_neg hat, ht]
        exact .refused hb ht
      | ok r =>
        obtain ⟨n, kind, text, hn, hk, -, -⟩ := token_ok ht
        have hspan := tokenExtent_eq_ok_iff.1 hn
        have hpos := hspan.pos hb
        have hshort : ((c :: cs).drop n).length < (c :: cs).length := by
          rw [List.length_drop, List.length_cons]
          omega
        rw [scan_token hb hspan hk]
        exact .token hb hspan hk (ih _ hshort _ _ rfl)

section
variable {file : Text} {all : List Char} {E : Failure → Prop} {P : Token → Prop}

/-- **What holds of a token wherever it begins holds of all of them.** -/
theorem ends_scan (htok : ∀ before rest, Scanned all before rest → BeginsToken rest →
      Ends E (fun r => P r.1) (Lexer.token file (Position.start.after before) rest))
    {read rest : List Char} (h : Scanned all read rest) :
    Ends E (TokensIn P) (scan file 0 (Position.start.after read) rest) := by
  have hreads := reads_scan file (Position.start.after read) rest
  generalize scan file 0 (Position.start.after read) rest = r at hreads ⊢
  generalize hpos : Position.start.after read = pos at hreads
  induction hreads generalizing read with
  | done => exact TokensIn.nil
  | space hc _ ih =>
    refine ih (h.space hc) ?_
    rw [Position.after_append, hpos]
    rfl
  | comment hat _ ih =>
    refine ih (h.comment hat) ?_
    rw [Position.after_append, hpos]
  | token hb hn hk _ ih =>
    have hends := htok read _ h hb
    rw [hpos, token_of_spans hb hn hk] at hends
    refine Ends.map (ih (h.token hb hn) ?_) fun ts hts => TokensIn.cons hends hts
    rw [Position.after_append, hpos]
  | refused hb hf =>
    have hends := htok read _ h hb
    rw [hpos] at hends
    exact hends.of_error hf

end

/-- **Tokens and failures of a file are at marked places.** -/
theorem ends_tokens (file source : Text) :
    Ends (Refuses file (Utf8.decode source)) (TokensIn fun t => ∃ before rest,
        Scanned (Utf8.decode source) before rest ∧ BeginsToken rest ∧
        t.loc = placeAfter file before)
      (tokens file source) := by
  refine ends_scan (fun before rest h hb => ?_) .start
  cases ht : Lexer.token file (Position.start.after before) rest with
  | error f => exact refuses_token h hb ht
  | ok r =>
    obtain ⟨n, kind, text, -, -, hr, -⟩ := token_ok ht
    exact ⟨before, rest, h, hb, congrArg Token.loc hr⟩

end Lexer

end StackLang
