import Mathlib.Data.List.DropRight
import Mathlib.Data.List.Forall2
import StackLang.Proofs.Identifiers
import StackLang.Proofs.TokenPositions

/-!
# The parts of an array literal

The closing parenthesis of an array is looked for among the characters, and quoted text is passed over.
Its parts are then cut at commas among the bytes, by another reading of the quotes. The two agree on
what is quoted, so the parts are lists of characters.

- `Literal.Parted`: characters between the parentheses, and the parts between commas outside quotes.
- `Lexer.arrayExtent_parted`, `Lexer.exists_parted`: these are the characters that the lexer takes.
- `Literal.commaParts_parted`: the bytes are cut into the same parts.
- `Literal.Parted.trim_quoted`: a part that starts with a quote starts with quoted text.
- `Literal.elements_array`: the elements are those of the trimmed parts.
-/

set_option autoImplicit false

namespace StackLang

open CharClass (isSpace)

namespace Literal

open Text (ofChars byte)

/-- Characters between the parentheses of an array, cut at the commas outside quotes. -/
inductive Parted : List Char → List (List Char) → Prop
  | nil : Parted [] [[]]
  | comma {cs : List Char} {ps : List (List Char)} (h : Parted cs ps) : Parted (',' :: cs) ([] :: ps)
  | plain {c : Char} {cs p : List Char} {ps : List (List Char)} (hq : ¬(c = '"' ∨ c = '\''))
    (hc : c ≠ ',') (hp : c ≠ ')') (h : Parted cs (p :: ps)) : Parted (c :: cs) ((c :: p) :: ps)
  | quoted {q : Char} {body cs p : List Char} {ps : List (List Char)} (hq : q = '"' ∨ q = '\'')
    (hb : Enclosed q body) (h : Parted cs (p :: ps)) :
    Parted (q :: (body ++ q :: cs)) ((q :: (body ++ q :: p)) :: ps)

theorem Parted.exists_cons {cs : List Char} {parts : List (List Char)} (h : Parted cs parts) :
    ∃ p ps, parts = p :: ps := by
  cases h <;> exact ⟨_, _, rfl⟩

/-- A part holds no comma outside quotes. -/
theorem Parted.part {cs : List Char} {parts : List (List Char)} (h : Parted cs parts) :
    ∀ p ∈ parts, Parted p [p] := by
  induction h with
  | nil => simpa using Parted.nil
  | comma h ih => exact List.forall_mem_cons.2 ⟨.nil, ih⟩
  | plain hq hc hp h ih =>
    obtain ⟨hfirst, hrest⟩ := List.forall_mem_cons.1 ih
    exact List.forall_mem_cons.2 ⟨.plain hq hc hp hfirst, hrest⟩
  | quoted hq hb h ih =>
    obtain ⟨hfirst, hrest⟩ := List.forall_mem_cons.1 ih
    exact List.forall_mem_cons.2 ⟨.quoted hq hb hfirst, hrest⟩

/-- A part in front of others. -/
theorem Parted.append {cs ds p : List Char} {parts : List (List Char)} (h : Parted cs [p])
    (hs : Parted ds parts) : Parted (cs ++ ',' :: ds) (p :: parts) := by
  generalize hone : [p] = one at h
  induction h generalizing p with
  | nil =>
    obtain rfl := List.singleton_inj.1 hone
    exact .comma hs
  | comma h ih =>
    obtain ⟨_, _, rfl⟩ := h.exists_cons
    cases hone
  | plain hq hc hp h ih =>
    obtain ⟨rfl, rfl⟩ := List.cons.inj hone
    exact .plain hq hc hp (ih rfl)
  | quoted hq hb h ih =>
    obtain ⟨rfl, rfl⟩ := List.cons.inj hone
    rw [List.cons_append, List.append_assoc, List.cons_append]
    exact .quoted hq hb (ih rfl)

/-! ## Cutting the bytes -/

theorem ne_byte_of_mem_encode {c x : Char} {b : UInt8} (hmem : b ∈ String.utf8EncodeChar c)
    (hx : x.toNat < 0x80) (hne : c ≠ x) : b ≠ byte x := by
  rintro rfl
  exact hne ((Text.byte_mem_encode hx).1 hmem)

theorem foldr_consFirst (bytes p : Text) (ps : List Text) :
    bytes.foldr consFirst (p :: ps) = (bytes ++ p) :: ps := by
  induction bytes with
  | nil => rfl
  | cons b bytes ih =>
    rw [List.foldr_cons, ih]
    rfl

theorem commaParts_outside {bytes : Text} (h : ∀ b ∈ bytes, isQuote b = false ∧ b ≠ byte ',')
    (t : Text) : commaParts none false (bytes ++ t) = bytes.foldr consFirst (commaParts none false t) := by
  induction bytes with
  | nil => rfl
  | cons b bytes ih =>
    obtain ⟨⟨hquote, hcomma⟩, hrest⟩ := List.forall_mem_cons.1 h
    rw [List.cons_append, commaParts, List.foldr_cons, ← ih hrest]
    simp only [hquote, hcomma, Bool.false_eq_true, if_false]

theorem commaParts_inside {q : UInt8} {bytes : Text} (h : ∀ b ∈ bytes, b ≠ byte '\\' ∧ b ≠ q)
    (t : Text) :
    commaParts (some q) false (bytes ++ t) = bytes.foldr consFirst (commaParts (some q) false t) := by
  induction bytes with
  | nil => rfl
  | cons b bytes ih =>
    obtain ⟨⟨hback, hquote⟩, hrest⟩ := List.forall_mem_cons.1 h
    rw [List.cons_append, commaParts, List.foldr_cons, ← ih hrest]
    simp only [hback, hquote, Bool.false_eq_true, if_false]

section
variable {q : Char} (hq : q = '"' ∨ q = '\'')
include hq

theorem ascii_quote : q.toNat < 0x80 := by
  rcases hq with rfl | rfl <;> decide

theorem isQuote_quote : isQuote (byte q) = true := by
  rcases hq with rfl | rfl <;> rfl

theorem isSpace_quote : isSpace q = false := by
  rcases hq with rfl | rfl <;> rfl

theorem ofChars_opened (body rest : List Char) : ofChars (q :: (body ++ q :: rest))
    = byte q :: (ofChars body ++ byte q :: ofChars rest) := by
  simp [Text.encode_ascii (ascii_quote hq)]

/-- Quoted text belongs to one part. -/
theorem commaParts_enclosed {body : List Char} (h : Enclosed q body) (t : Text) :
    commaParts (some (byte q)) false (ofChars body ++ byte q :: t)
      = (ofChars body ++ [byte q]).foldr consFirst (commaParts none false t) := by
  induction h with
  | nil =>
    have hback : byte q ≠ byte '\\' := by rcases hq with rfl | rfl <;> decide
    rw [Text.ofChars_nil, List.nil_append, commaParts]
    simp only [hback, Bool.false_eq_true, if_false, if_true]
    rfl
  | @plain c cs hne hb hn h ih =>
    have hbytes : ∀ b ∈ String.utf8EncodeChar c, b ≠ byte '\\' ∧ b ≠ byte q := fun b hmem =>
      ⟨ne_byte_of_mem_encode hmem (by decide) hb, ne_byte_of_mem_encode hmem (ascii_quote hq) hne⟩
    rw [Text.ofChars_cons, List.append_assoc, commaParts_inside hbytes, ih]
    simp only [List.append_assoc, List.foldr_append]
  | @escape c cs hn h ih =>
    -- The first byte after the backslash is passed over, and those that follow it are no ASCII.
    obtain ⟨b, more, hc⟩ := List.exists_cons_of_ne_nil (Utf8.encode_ne_nil c)
    have hmore : ∀ x : Char, x.toNat < 0x80 → ∀ b ∈ more, b ≠ byte x := by
      rintro x hx _ hmem rfl
      obtain rfl : c = x := (Text.byte_mem_encode hx).1 (hc ▸ List.mem_cons_of_mem b hmem)
      rw [Text.encode_ascii hx] at hc
      obtain ⟨-, rfl⟩ := List.cons.inj hc
      cases hmem
    have hbytes : ∀ b ∈ more, b ≠ byte '\\' ∧ b ≠ byte q := fun b hmem =>
      ⟨hmore _ (by decide) b hmem, hmore _ (ascii_quote hq) b hmem⟩
    rw [ofChars_escape, hc, List.cons_append, List.cons_append, List.cons_append, List.append_assoc,
      commaParts]
    simp only [Bool.false_eq_true, if_false, if_true]
    rw [commaParts]
    simp only [if_true]
    rw [commaParts_inside hbytes, ih]
    simp only [List.cons_append, List.append_assoc, List.foldr_cons, List.foldr_append]

end

/-- **The bytes are cut where the characters are.** -/
theorem commaParts_parted {cs : List Char} {parts : List (List Char)} (h : Parted cs parts) :
    commaParts none false (ofChars cs) = parts.map ofChars := by
  induction h with
  | nil => rfl
  | comma h ih =>
    rw [Text.ofChars_cons, Text.encode_ascii (by decide), List.singleton_append, commaParts,
      if_neg (by decide), if_pos rfl, ih]
    rfl
  | @plain c cs p ps hq hc hp h ih =>
    have hbytes : ∀ b ∈ String.utf8EncodeChar c, isQuote b = false ∧ b ≠ byte ',' := by
      intro b hmem
      have hdouble := ne_byte_of_mem_encode hmem (by decide) fun h => hq (.inl h)
      have hsingle := ne_byte_of_mem_encode hmem (by decide) fun h => hq (.inr h)
      refine ⟨?_, ne_byte_of_mem_encode hmem (by decide) hc⟩
      simp only [isQuote, hdouble, hsingle, decide_false, Bool.or_self]
    rw [Text.ofChars_cons, commaParts_outside hbytes, ih, List.map_cons, foldr_consFirst,
      List.map_cons, Text.ofChars_cons]
  | @quoted q body cs p ps hq hb h ih =>
    rw [ofChars_opened hq, commaParts]
    simp only [isQuote_quote hq, if_true]
    rw [commaParts_enclosed hq hb, ih, List.map_cons, foldr_consFirst, List.map_cons, ofChars_opened hq,
      List.append_assoc]
    rfl

end Literal

/-! ## Where an array ends -/

namespace Lexer

open Literal (Parted)

theorem arrayExtent_skip {cs : List Char} {n : Nat} (h : arrayExtent 0 cs = .closed n)
    (before : List Char) : arrayExtent before.length (before ++ cs) = .closed (before.length + n) := by
  induction before with
  | nil => rw [List.length_nil, List.nil_append, Nat.zero_add, h]
  | cons c before ih =>
    rw [List.length_cons, List.cons_append, arrayExtent, ih, Nat.succ_add]
    rfl

/-- **An array ends behind its parts.** -/
theorem arrayExtent_parted {inside : List Char} {parts : List (List Char)} (h : Parted inside parts)
    (rest : List Char) : arrayExtent 0 (inside ++ ')' :: rest) = .closed (inside.length + 1) := by
  induction h with
  | nil => rfl
  | comma h ih =>
    rw [List.cons_append, arrayExtent, if_neg (by decide), if_neg (by decide), ih]
    rfl
  | plain hq hc hp h ih =>
    rw [List.cons_append, arrayExtent, if_neg hq, if_neg hp, ih]
    rfl
  | @quoted q body cs p ps hq hb h ih =>
    have hskip := arrayExtent_skip ih (body ++ [q])
    have hlen : (body ++ [q]).length = body.length + 1 := by simp
    rw [List.append_assoc, List.singleton_append, hlen] at hskip
    rw [List.cons_append, List.append_assoc, List.cons_append, arrayExtent, if_pos hq]
    simp only [quotedExtent_enclosed hq hb, if_true, hskip, ArrayExtent.succ, List.length_cons,
      List.length_append]
    congr 1
    omega

/-- **What the lexer takes for an array has parts.** -/
theorem exists_parted {skip : Nat} {cs : List Char} {n : Nat} (h : arrayExtent skip cs = .closed n) :
    ∃ inside parts rest, cs.drop skip = inside ++ ')' :: rest ∧ n = skip + inside.length + 1 ∧
      Parted inside parts := by
  fun_induction arrayExtent skip cs generalizing n with
  | case1 | case4 => cases h
  | case2 skip c cs ih =>
    obtain ⟨m, rfl, hm⟩ := ArrayExtent.succ_eq_closed.1 h
    obtain ⟨inside, parts, rest, hcs, rfl, hparts⟩ := ih hm
    exact ⟨inside, parts, rest, hcs, by omega, hparts⟩
  | case3 c cs hq e hc =>
    rename_i ih
    obtain ⟨m, rfl, hm⟩ := ArrayExtent.succ_eq_closed.1 h
    obtain ⟨inside, parts, rest, hcs, rfl, hparts⟩ := ih hm
    have hclosed : quotedExtent c false cs = ⟨e.length, true⟩ := by rw [← hc]
    obtain ⟨body, more, rfl, hbody, hlen⟩ := (quotedExtent_eq_closed_iff hq).1 hclosed
    obtain ⟨p, ps, rfl⟩ := hparts.exists_cons
    rw [hlen, List.append_cons, List.drop_left' (by simp)] at hcs
    subst hcs
    refine ⟨c :: (body ++ c :: inside), _, rest, by simp, ?_, .quoted hq hbody hparts⟩
    simp only [List.length_cons, List.length_append]
    omega
  | case5 cs hq =>
    cases h
    exact ⟨[], [[]], cs, rfl, rfl, .nil⟩
  | case6 c cs hq hc ih =>
    obtain ⟨m, rfl, hm⟩ := ArrayExtent.succ_eq_closed.1 h
    obtain ⟨inside, parts, rest, rfl, rfl, hparts⟩ := ih hm
    by_cases hcomma : c = ','
    · subst hcomma
      exact ⟨',' :: inside, [] :: parts, rest, rfl, by simp, .comma hparts⟩
    · obtain ⟨p, ps, rfl⟩ := hparts.exists_cons
      exact ⟨c :: inside, _, rest, rfl, by simp, .plain hq hcomma hc hparts⟩

end Lexer

/-! ## White space around parts -/

namespace Text

variable {α : Type} {p : α → Bool}

theorem trimBy_eq_rdropWhile (l : List α) : trimBy p l = (l.dropWhile p).rdropWhile p := rfl

theorem rdropWhile_append_cons {a : α} (ha : ¬p a = true) (xs ys : List α) :
    (xs ++ a :: ys).rdropWhile p = xs ++ a :: ys.rdropWhile p := by
  induction ys using List.reverseRecOn with
  | nil => rw [List.rdropWhile_nil, List.rdropWhile_concat_neg _ _ _ ha]
  | append_singleton ys y ih =>
    rw [← List.cons_append, ← List.append_assoc, List.rdropWhile_concat, List.rdropWhile_concat, ih]
    split
    · rfl
    · rw [List.append_assoc, List.cons_append]

theorem isBlank_ofChars (cs : List Char) : isBlank (ofChars cs) = cs.all isSpace := by
  rw [isBlank, Utf8.pieces_ofChars, List.all_map]
  rfl

end Text

namespace Literal

open Text (ofChars byte trimBy)

/-- A part without its first character, which opens no quote. -/
theorem Parted.tail {c : Char} {cs : List Char} (h : Parted (c :: cs) [c :: cs])
    (hc : ¬(c = '"' ∨ c = '\'')) : Parted cs [cs] := by
  generalize hone : [c :: cs] = one at h
  cases h with
  | comma h => cases hone
  | plain hq hc hp h =>
    obtain ⟨heq, rfl⟩ := List.cons.inj hone
    obtain ⟨-, rfl⟩ := List.cons.inj heq
    exact h
  | quoted hq hb h => exact absurd hq hc

/-- A part that starts with a quote starts with quoted text. -/
theorem Parted.exists_enclosed {q : Char} {cs : List Char} (h : Parted (q :: cs) [q :: cs])
    (hq : q = '"' ∨ q = '\'') : ∃ body rest, Enclosed q body ∧ cs = body ++ q :: rest := by
  generalize [q :: cs] = one at h
  cases h with
  | comma h => exact absurd hq (by decide)
  | plain hn hc hp h => exact absurd hq hn
  | quoted hq hb h => exact ⟨_, _, hb, rfl⟩

theorem Parted.dropWhile {part : List Char} (h : Parted part [part]) :
    Parted (part.dropWhile isSpace) [part.dropWhile isSpace] := by
  induction part with
  | nil => exact h
  | cons c cs ih =>
    by_cases hc : isSpace c = true
    · rw [List.dropWhile_cons_of_pos hc]
      refine ih (h.tail fun hq => ?_)
      rw [isSpace_quote hq] at hc
      cases hc
    · rwa [List.dropWhile_cons_of_neg hc]

/-- So it is when white space is dropped at its ends. -/
theorem Parted.trim_quoted {part : List Char} (h : Parted part [part]) {q : Char} {cs : List Char}
    (hq : q = '"' ∨ q = '\'') (ht : trimBy isSpace part = q :: cs) :
    ∃ body more, Enclosed q body ∧ cs = body ++ q :: more := by
  have hd := h.dropWhile
  rw [Text.trimBy_eq_rdropWhile] at ht
  generalize part.dropWhile isSpace = d at ht hd
  obtain ⟨rest, hrest⟩ : q :: cs <+: d := ht ▸ List.rdropWhile_prefix isSpace d
  rw [← hrest, List.cons_append] at hd ht
  obtain ⟨body, rest, hb, hcs⟩ := hd.exists_enclosed hq
  have hspace : ¬isSpace q = true := by rw [isSpace_quote hq]; exact Bool.false_ne_true
  rw [hcs, ← List.cons_append, Text.rdropWhile_append_cons hspace] at ht
  exact ⟨body, _, hb, (List.cons.inj ht).2.symm⟩

/-- Quoted text is what is left of it with white space around. -/
theorem trimBy_padded {q : Char} (hq : q = '"' ∨ q = '\'') {before after : List Char}
    (hb : before.all isSpace = true) (ha : after.all isSpace = true) (body : List Char) :
    trimBy isSpace (before ++ q :: (body ++ q :: after)) = q :: (body ++ [q]) := by
  have hspace : ¬isSpace q = true := by rw [isSpace_quote hq]; exact Bool.false_ne_true
  have hafter : after.rdropWhile isSpace = [] :=
    List.rdropWhile_eq_nil_iff.2 (List.all_eq_true.1 ha)
  rw [Text.trimBy_eq_rdropWhile, List.dropWhile_append_of_pos (List.all_eq_true.1 hb),
    List.dropWhile_cons_of_neg hspace, ← List.cons_append, Text.rdropWhile_append_cons hspace, hafter]
  rfl

/-! ## Elements -/

/-- The word of an array ends with its only parenthesis. -/
theorem exists_letters {head : List Char} (h : head.map CharClass.asciiLower = Lexer.arrayStart) :
    ∃ letters, head = letters ++ ['('] ∧ '(' ∉ letters := by
  have hsplit : Lexer.arrayStart = ['a', 'r', 'r', 'a', 'y'] ++ ['('] := rfl
  rw [hsplit] at h
  obtain ⟨letters, last, rfl, hletters, hlast⟩ := List.map_eq_append_iff.1 h
  obtain ⟨c, rfl, hc⟩ := List.map_eq_singleton_iff.1 hlast
  have hparen : c = '(' := by
    rw [← CharClass.toUpper_eq_iff (by decide), ← CharClass.toUpper_asciiLower, hc]
    rfl
  subst hparen
  refine ⟨letters, rfl, fun hmem => ?_⟩
  have hmap := List.mem_map_of_mem (f := CharClass.asciiLower) hmem
  rw [hletters] at hmap
  revert hmap
  decide

/-- The text between the parentheses. -/
theorem inner?_array {head : List Char} (h : head.map CharClass.asciiLower = Lexer.arrayStart)
    (inside : List Char) : inner? (ofChars (head ++ (inside ++ [')']))) = some (ofChars inside) := by
  obtain ⟨letters, rfl, hletters⟩ := exists_letters h
  have hopen : byte '(' ∉ ofChars letters := by
    intro hmem
    obtain ⟨c, hc, hb⟩ := List.mem_flatMap.1 hmem
    obtain rfl := (Text.byte_mem_encode (by decide)).1 hb
    exact hletters hc
  have htext : ofChars (letters ++ ['('] ++ (inside ++ [')']))
      = ofChars letters ++ byte '(' :: (ofChars inside ++ [byte ')']) := by
    simp [Text.encode_ascii (x := '(') (by decide), Text.encode_ascii (x := ')') (by decide)]
  have hclose : (letters ++ ['('] ++ (inside ++ [')'])).getLast? = some ')' := by
    rw [← List.append_assoc, List.getLast?_concat]
  rw [inner?, if_pos ((Text.getLast?_ofChars (by decide) _).2 hclose), htext, Text.cut?_append hopen,
    Option.map_some, List.dropLast_concat]

/-- **The elements of an array** are those of its trimmed parts. -/
theorem elements_array {head inside : List Char} {parts : List (List Char)}
    (hhead : head.map CharClass.asciiLower = Lexer.arrayStart) (h : Parted inside parts) :
    elements (ofChars (head ++ (inside ++ [')']))) = if inside.all isSpace = true then .ok [] else
      parts.mapM fun p => element (ofChars (head ++ (inside ++ [')']))) (ofChars (trimBy isSpace p)) := by
  rw [elements, inner?_array hhead]
  simp only [Text.isBlank_ofChars, commaParts_parted h, List.mapM_map, Text.trim_ofChars,
    Function.comp_def]

theorem mapM_eq_ok_iff {α β ε : Type} {f : α → Except ε β} {l : List α} {bs : List β} :
    l.mapM f = .ok bs ↔ List.Forall₂ (fun a b => f a = .ok b) l bs := by
  induction l generalizing bs with
  | nil =>
    rw [List.mapM_nil, List.forall₂_nil_left_iff]
    exact ⟨fun h => (Except.ok.inj h).symm, fun h => congrArg _ h.symm⟩
  | cons a l ih =>
    rw [List.mapM_cons, List.forall₂_cons_left_iff]
    cases ha : f a with
    | error e =>
      refine ⟨nofun, ?_⟩
      rintro ⟨b, bs, hb, -⟩
      cases hb
    | ok b =>
      cases hl : l.mapM f with
      | error e =>
        refine ⟨nofun, ?_⟩
        rintro ⟨b', bs', -, hbs, rfl⟩
        rw [← ih, hl] at hbs
        cases hbs
      | ok bs' =>
        refine ⟨fun h => ?_, ?_⟩
        · obtain rfl := Except.ok.inj h
          exact ⟨b, bs', rfl, ih.1 hl, rfl⟩
        · rintro ⟨_, _, hb, hbs, rfl⟩
          rw [← ih, hl] at hbs
          obtain rfl := Except.ok.inj hb
          obtain rfl := Except.ok.inj hbs
          rfl

end Literal

end StackLang
