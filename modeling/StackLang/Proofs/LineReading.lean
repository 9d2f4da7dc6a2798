import StackLang.Assembly.Verify
import StackLang.Proofs.Identifiers

/-!
# Reading a written line

A statement is a mnemonic and operands with commas between them. The verifier finds the same parts
again, whether the statement is indented or stands behind a label, as long as no operand has a comma,
a colon or a semicolon outside quotes. Labels and operands may be in any script.

- `outside`: the bytes of a line that are not quoted.
- `Neat`, `NeatOperand`: what a line and an operand may look like.
- `Tidy`, `IsOperand`: the same for text of ASCII bytes.
- `parse_statement`, `parse_labelled`, `parse_label`, `parse_comment`: what the lines are read as.
-/

set_option autoImplicit false

namespace StackLang.Assembly.Verify

open Text Utf8

/-! ## Quotes -/

/-- The bytes that stand outside quotes, the quotes not counted. -/
def outside (quote : Option UInt8) : Text → Text
  | [] => []
  | c :: t =>
    if quote.isNone && !isQuote c then c :: outside (quoteAfter quote c) t
    else outside (quoteAfter quote c) t

theorem outside_append (quote : Option UInt8) (t u : Text) :
    outside quote (t ++ u) = outside quote t ++ outside (t.foldl quoteAfter quote) u := by
  induction t generalizing quote with
  | nil => rfl
  | cons c t ih =>
    simp only [List.cons_append, outside, List.foldl_cons, ih]
    split <;> rfl

section
variable {b : UInt8} {quote : Option UInt8} {t : Text}

theorem indexUnquoted?_append (hb : b ∉ outside quote t) (i : Nat) (u : Text) :
    indexUnquoted? b quote i (t ++ u)
      = indexUnquoted? b (t.foldl quoteAfter quote) (i + t.length) u := by
  induction t generalizing quote i with
  | nil => rfl
  | cons c t ih =>
    simp only [outside] at hb
    simp only [List.cons_append, indexUnquoted?, List.foldl_cons, List.length_cons]
    split at hb
    · rename_i hq
      have hc : c ≠ b := fun h => hb (by simp [h])
      have hrest := ih (fun h => hb (List.mem_cons_of_mem _ h)) (i + 1)
      rw [if_neg (by simp [hc]), hrest]
      congr 1
      omega
    · rename_i hq
      rw [if_neg (by simp_all), ih hb (i + 1)]
      congr 1
      omega

theorem indexUnquoted?_eq_none (hb : b ∉ outside quote t) (i : Nat) :
    indexUnquoted? b quote i t = none := by
  have h := indexUnquoted?_append hb i []
  rwa [List.append_nil] at h

theorem splitUnquoted_append (hb : b ∉ outside quote t) (part u : Text) :
    splitUnquoted b quote part (t ++ u)
      = splitUnquoted b (t.foldl quoteAfter quote) (t.reverse ++ part) u := by
  induction t generalizing quote part with
  | nil => rfl
  | cons c t ih =>
    simp only [outside] at hb
    simp only [List.cons_append, splitUnquoted, List.foldl_cons, List.reverse_cons,
      List.append_assoc]
    split at hb
    · have hc : c ≠ b := fun h => hb (by simp [h])
      rw [if_neg (by simp [hc]), ih (fun h => hb (List.mem_cons_of_mem _ h))]
      rfl
    · rw [if_neg (by simp_all), ih hb]
      rfl

end

/-- A text without quotes. -/
def Bare (t : Text) : Prop := ∀ b ∈ t, isQuote b = false

theorem Bare.append {t u : Text} (ht : Bare t) (hu : Bare u) : Bare (t ++ u) :=
  List.forall_mem_append.2 ⟨ht, hu⟩

instance (t : Text) : Decidable (Bare t) := inferInstanceAs (Decidable (∀ b ∈ t, isQuote b = false))

section
variable {t : Text} (h : Bare t)
include h

theorem outside_bare : outside none t = t := by
  induction t with
  | nil => rfl
  | cons c t ih =>
    have hc := h c (by simp)
    simp [outside, quoteAfter, hc, ih fun b hb => h b (by simp [hb])]

theorem quoteAfter_bare : t.foldl quoteAfter none = none := by
  induction t with
  | nil => rfl
  | cons c t ih =>
    have hc := h c (by simp)
    simp [quoteAfter, hc, ih fun b hb => h b (by simp [hb])]

theorem blankOut_bare (done : Text) :
    blankOut none done t = done.reverse ++ t.map fun c => if isSign c then byte ' ' else c := by
  induction t generalizing done with
  | nil => simp [blankOut]
  | cons c t ih =>
    have hc := h c (by simp)
    have hn : quoteAfter none c = none := by simp [quoteAfter, hc]
    simp only [blankOut, hn, ih fun b hb => h b (by simp [hb])]
    simp

end

/-- Bytes in the quotes `q`. -/
def enclosed (q : UInt8) (t : Text) : Text := q :: (t ++ [q])

section
variable {q : UInt8} {t : Text} (ht : q ∉ t)
include ht

theorem quoteAfter_within (u : Text) :
    (t ++ u).foldl quoteAfter (some q) = u.foldl quoteAfter (some q) := by
  induction t with
  | nil => rfl
  | cons c t ih =>
    have hc : c ≠ q := fun h => ht (by simp [h])
    simp only [List.cons_append, List.foldl_cons, quoteAfter, if_neg hc]
    exact ih fun h => ht (List.mem_cons_of_mem _ h)

theorem outside_within : outside (some q) (t ++ [q]) = [] := by
  induction t with
  | nil => simp [outside]
  | cons c t ih =>
    have hc : c ≠ q := fun h => ht (by simp [h])
    simp only [List.cons_append, outside, quoteAfter, if_neg hc]
    exact ih fun h => ht (List.mem_cons_of_mem _ h)

theorem blankOut_within (done : Text) :
    blankOut (some q) done (t ++ [q])
      = done.reverse ++ List.replicate (t.length + 1) (byte ' ') := by
  induction t generalizing done with
  | nil => simp [blankOut, quoteAfter]
  | cons c t ih =>
    have hc : c ≠ q := fun h => ht (by simp [h])
    simp only [List.cons_append, blankOut, quoteAfter, if_neg hc,
      ih fun h => ht (List.mem_cons_of_mem _ h)]
    simp [List.replicate_succ]

theorem quoteAfter_enclosed (hq : isQuote q = true) :
    (enclosed q t).foldl quoteAfter none = none := by
  have hopen : quoteAfter none q = some q := by simp [quoteAfter, hq]
  have hclose : quoteAfter (some q) q = none := by simp [quoteAfter]
  rw [enclosed, List.foldl_cons, hopen, quoteAfter_within ht]
  exact hclose

theorem outside_enclosed (hq : isQuote q = true) : outside none (enclosed q t) = [] := by
  simp [enclosed, outside, hq, quoteAfter, outside_within ht]

end

/-! ## Neat texts -/

/-- Part of a line that neither ends it nor hides what follows: it has no comment, no label, and no
white space at its ends. -/
structure Neat (t : Text) : Prop where
  snug : Snug t
  closed : t.foldl quoteAfter none = none
  plain : ∀ b ∈ outside none t, b ≠ byte ':' ∧ b ≠ byte ';'
  oneLine : byte '\n' ∉ t

/-- A neat text that may stand between commas. -/
structure NeatOperand (t : Text) : Prop extends Neat t where
  single : byte ',' ∉ outside none t

/-- What separates two neat texts: it has no quotes and none of the bytes that matter. -/
def IsGlue (t : Text) : Prop :=
  ∀ b ∈ t, b.toNat < 0x80 ∧ isQuote b = false ∧ b ≠ byte ':' ∧ b ≠ byte ';' ∧ b ≠ byte '\n'

instance (t : Text) : Decidable (IsGlue t) := inferInstanceAs (Decidable (∀ b ∈ t, _ ∧ _))

theorem IsGlue.ascii {t : Text} (h : IsGlue t) : Ascii t := fun b hb => (h b hb).1

theorem Neat.join_glue {t glue u : Text} (ht : Neat t) (hg : IsGlue glue) (hu : Neat u) :
    Neat (t ++ (glue ++ u)) := by
  have hbare : Bare glue := fun b hb => (hg b hb).2.1
  refine ⟨ht.snug.between (spelled_ascii hg.ascii) hu.snug, ?_, ?_, ?_⟩
  · rw [List.foldl_append, ht.closed, List.foldl_append, quoteAfter_bare hbare, hu.closed]
  · rw [outside_append, ht.closed, outside_append, quoteAfter_bare hbare, outside_bare hbare]
    refine List.forall_mem_append.2 ⟨ht.plain, List.forall_mem_append.2 ⟨fun b hb => ?_, hu.plain⟩⟩
    exact ⟨(hg b hb).2.2.1, (hg b hb).2.2.2.1⟩
  · simp only [List.mem_append, not_or]
    exact ⟨ht.oneLine, fun h => (hg _ h).2.2.2.2 rfl, hu.oneLine⟩

/-- A word without bytes that mean something to the reader of a line. -/
theorem neatOperand_of_word {t : Text} (hw : IsWord t) (hbare : Bare t)
    (h : ∀ b ∈ t, b ≠ byte ',' ∧ b ≠ byte ':' ∧ b ≠ byte ';' ∧ b ≠ byte '\n') :
    NeatOperand t := by
  have hout := outside_bare hbare
  refine ⟨⟨hw.snug, quoteAfter_bare hbare, ?_, fun hm => (h _ hm).2.2.2 rfl⟩, ?_⟩
  · rw [hout]
    exact fun b hb => ⟨(h b hb).2.1, (h b hb).2.2.1⟩
  · rw [hout]
    exact fun hm => (h _ hm).1 rfl

/-! ### Text of ASCII bytes -/

/-- A neat text of ASCII bytes, told from its bytes. -/
structure Tidy (t : Text) : Prop where
  ascii : Ascii t
  closed : t.foldl quoteAfter none = none
  plain : ∀ b ∈ outside none t, b ≠ byte ':' ∧ b ≠ byte ';'
  starts : ∃ b, t.head? = some b ∧ isSpaceByte b = false
  ends : ∃ b, t.getLast? = some b ∧ isSpaceByte b = false
  oneLine : byte '\n' ∉ t

/-- What may stand between commas. -/
structure IsOperand (t : Text) : Prop extends Tidy t where
  single : byte ',' ∉ outside none t

theorem Tidy.neat {t : Text} (h : Tidy t) : Neat t := by
  obtain ⟨b, hb, hs⟩ := h.starts
  obtain ⟨e, he, hl⟩ := h.ends
  exact ⟨snug_ascii h.ascii hb hs he hl, h.closed, h.plain, h.oneLine⟩

theorem IsOperand.neat {t : Text} (h : IsOperand t) : NeatOperand t := ⟨h.toTidy.neat, h.single⟩

theorem Tidy.join_glue {t glue u : Text} (ht : Tidy t) (hg : IsGlue glue) (hu : Tidy u) :
    Tidy (t ++ (glue ++ u)) := by
  have hneat := ht.neat.join_glue hg hu.neat
  obtain ⟨b, hb, hs⟩ := ht.starts
  obtain ⟨e, he, hl⟩ := hu.ends
  refine ⟨ht.ascii.append (hg.ascii.append hu.ascii), hneat.closed, hneat.plain, ⟨b, ?_, hs⟩,
    ⟨e, ?_, hl⟩, hneat.oneLine⟩
  · rw [List.head?_append, hb]
    rfl
  · rw [List.getLast?_append, List.getLast?_append, he]
    rfl

/-- Bytes that mean nothing to the reader of a line. -/
def isPlainByte (b : UInt8) : Bool :=
  !isQuote b && !isSpaceByte b && b ≠ byte ',' && b ≠ byte ':' && b ≠ byte ';'

theorem isOperand_of_plain {t : Text} (ha : Ascii t) (hne : t ≠ [])
    (h : ∀ b ∈ t, isPlainByte b = true) : IsOperand t := by
  simp only [isPlainByte, Bool.and_eq_true, Bool.not_eq_true', decide_eq_true_eq] at h
  have hbare : Bare t := fun b hb => (h b hb).1.1.1.1
  have hout := outside_bare hbare
  refine ⟨⟨ha, quoteAfter_bare hbare, ?_, ?_, ?_, fun hm => ?_⟩, ?_⟩
  · rw [hout]
    exact fun b hb => ⟨(h b hb).1.2, (h b hb).2⟩
  · obtain ⟨b, hb⟩ := Option.ne_none_iff_exists'.1 (mt List.head?_eq_none_iff.1 hne)
    exact ⟨b, hb, (h b (List.mem_of_mem_head? hb)).1.1.1.2⟩
  · obtain ⟨b, hb⟩ := Option.ne_none_iff_exists'.1 (mt List.getLast?_eq_none_iff.1 hne)
    exact ⟨b, hb, (h b (List.mem_of_getLast? hb)).1.1.1.2⟩
  · have hspace : isSpaceByte (byte '\n') = true := by decide
    exact absurd (h _ hm).1.1.1.2 (by simp [hspace])
  · rw [hout]
    exact fun hm => (h _ hm).1.1.2 rfl

theorem IsOperand.join_glue {t glue u : Text} (ht : IsOperand t) (hg : IsGlue glue)
    (hc : byte ',' ∉ glue) (hu : IsOperand u) : IsOperand (t ++ (glue ++ u)) := by
  have hbare : Bare glue := fun b hb => (hg b hb).2.1
  refine ⟨ht.toTidy.join_glue hg hu.toTidy, ?_⟩
  rw [outside_append, ht.closed, outside_append, quoteAfter_bare hbare, outside_bare hbare]
  simp only [List.mem_append, not_or]
  exact ⟨ht.single, hc, hu.single⟩

theorem neat_join {ops : List Text} (hne : ops ≠ []) (h : ∀ o ∈ ops, NeatOperand o) :
    Neat (Text.join ", " ops) := by
  induction ops with
  | nil => exact absurd rfl hne
  | cons o ops ih =>
    cases ops with
    | nil =>
      rw [join_singleton]
      exact (h o (by simp)).toNeat
    | cons o' ops =>
      rw [join_cons_cons]
      refine (h o (by simp)).toNeat.join_glue (by decide) (ih (by simp) ?_)
      exact fun p hp => h p (List.mem_cons_of_mem _ hp)

theorem operands_join {ops : List Text} (hne : ops ≠ []) (h : ∀ o ∈ ops, NeatOperand o) :
    operands (Text.join ", " ops) = ops := by
  -- after the first operand the comma's blank stands in front of the next part
  have key : ∀ (ops : List Text) (gap : Text), (gap = [] ∨ gap = [byte ' ']) → ops ≠ [] →
      (∀ o ∈ ops, NeatOperand o) →
      (splitUnquoted (byte ',') none gap.reverse (Text.join ", " ops)).map trim = ops := by
    intro ops
    induction ops with
    | nil =>
      intro gap _ hne
      exact absurd rfl hne
    | cons o ops ih =>
      intro gap hgap _ h
      have ho := h o (by simp)
      have htrim : trim (gap ++ o) = o := by
        rcases hgap with rfl | rfl
        · exact ho.snug.trim_eq
        · exact ho.snug.trim_blank
      cases ops with
      | nil =>
        have hsplit := splitUnquoted_append ho.single gap.reverse []
        rw [List.append_nil, ho.closed] at hsplit
        rw [join_singleton, hsplit]
        simp [splitUnquoted, htrim]
      | cons o' ops =>
        have hrest := ih [byte ' '] (.inr rfl) (by simp)
          fun p hp => h p (List.mem_cons_of_mem _ hp)
        rw [join_cons_cons, splitUnquoted_append ho.single, ho.closed]
        change (splitUnquoted (byte ',') none (o.reverse ++ gap.reverse)
          (byte ',' :: byte ' ' :: Text.join ", " (o' :: ops))).map trim = _
        have hcomma : isQuote (byte ',') = false := by decide
        have hblank : isQuote (byte ' ') = false := by decide
        have hne : byte ' ' ≠ byte ',' := by decide
        simp only [splitUnquoted, hcomma, hblank, hne, quoteAfter]
        simpa [htrim] using hrest
  exact key ops [] (.inl rfl) hne h

/-! ## Statements -/

/-- A mnemonic with its operands. -/
def statement (m : Text) (ops : List Text) : Text :=
  if ops = [] then m else m ++ (" " ++ Text.join ", " ops)

/-- Small letters. -/
def IsMnemonic (m : Text) : Prop := m ≠ [] ∧ ∀ b ∈ m, 0x61 ≤ b ∧ b ≤ 0x7A

instance (m : Text) : Decidable (IsMnemonic m) := inferInstanceAs (Decidable (_ ∧ _))

/-- What holds of small letters. -/
theorem IsMnemonic.forall {m : Text} (h : IsMnemonic m) {p : UInt8 → Prop}
    (hp : ∀ n : Fin 128, 0x61 ≤ UInt8.ofNat n.val ∧ UInt8.ofNat n.val ≤ 0x7A →
      p (UInt8.ofNat n.val)) : ∀ b ∈ m, p b := by
  intro b hb
  have hlt : b.toNat < 0x80 := by
    have hle := UInt8.le_iff_toNat_le.1 (h.2 b hb).2
    exact Nat.lt_of_le_of_lt hle (by decide)
  exact forall_ascii (p := fun b => 0x61 ≤ b ∧ b ≤ 0x7A → p b) hp hlt (h.2 b hb)

theorem IsMnemonic.ascii {m : Text} (h : IsMnemonic m) : Ascii m :=
  h.forall (p := fun b => b.toNat < 0x80) (by decide)

theorem IsMnemonic.isOperand {m : Text} (h : IsMnemonic m) : IsOperand m :=
  isOperand_of_plain h.ascii h.1 (h.forall (p := fun b => isPlainByte b = true) (by decide))

theorem IsMnemonic.isIdentifier {m : Text} (h : IsMnemonic m) : m.isIdentifier = true := by
  have hstart := h.forall (p := fun b => startsName b = true ∧ continuesName b = true)
    (by decide)
  rw [isIdentifier_ascii h.ascii]
  cases m with
  | nil => exact absurd rfl h.1
  | cons b m =>
    exact ⟨b, m, rfl, (hstart b (by simp)).1, fun c hc => (hstart c (by simp [hc])).2⟩

theorem IsMnemonic.isWord {m : Text} (h : IsMnemonic m) : IsWord m :=
  isWord_ascii h.ascii h.1 (h.forall (p := fun b => isSpaceByte b = false) (by decide))

theorem neat_statement {m : Text} {ops : List Text} (hm : IsMnemonic m)
    (h : ∀ o ∈ ops, NeatOperand o) : Neat (statement m ops) := by
  unfold statement
  split
  · exact hm.isOperand.toTidy.neat
  · rename_i hne
    exact hm.isOperand.toTidy.neat.join_glue (by decide) (neat_join hne h)

theorem instruction_statement {m : Text} {ops : List Text} (hm : IsMnemonic m)
    (h : ∀ o ∈ ops, NeatOperand o) (n : Nat) (labels : List Text) :
    instruction n labels (statement m ops) = .ok ⟨labels, upper m, ops⟩ := by
  have hgap := hm.forall (p := fun b => (!isGap b) = true) (by decide)
  have hid : m.isIdentifier = true := hm.isIdentifier
  unfold instruction statement
  by_cases hne : ops = []
  · have htake : (m ++ []).takeWhile (!isGap ·) = m ++ [] := List.takeWhile_append_of_pos hgap
    have hdrop : (m ++ []).dropWhile (!isGap ·) = [] := List.dropWhile_append_of_pos hgap
    have htrim : trim [] = [] := rfl
    rw [List.append_nil] at htake hdrop
    subst hne
    simp only [↓reduceIte, htake, hdrop, hid, List.drop_nil, htrim]
    rfl
  · have hjoin := (neat_join hne h).snug
    have htake : (m ++ (" " ++ Text.join ", " ops)).takeWhile (!isGap ·) = m := by
      rw [List.takeWhile_append_of_pos hgap]
      change m ++ (byte ' ' :: Text.join ", " ops).takeWhile (!isGap ·) = m
      rw [List.takeWhile_cons_of_neg (by decide), List.append_nil]
    have hdrop : ((m ++ (" " ++ Text.join ", " ops)).dropWhile (!isGap ·)).drop 1
        = Text.join ", " ops := by
      rw [List.dropWhile_append_of_pos hgap]
      change ((byte ' ' :: Text.join ", " ops).dropWhile (!isGap ·)).drop 1 = _
      rw [List.dropWhile_cons_of_neg (by decide), List.drop_one, List.tail_cons]
    simp only [if_neg hne, htake, hdrop, hjoin.trim_eq, hid, operands_join hne h]
    simp [hjoin.ne_nil]

theorem labelled_neat {t : Text} (h : Neat t) (n : Nat) (labels : List Text) :
    labelled n labels t = instruction n labels t := by
  have hno : byte ':' ∉ outside none t := fun hm => (h.plain _ hm).1 rfl
  have hnone : leadingLabel? t = none := by
    rw [leadingLabel?, indexUnquoted?_eq_none hno]
  unfold labelled
  split
  · rfl
  · rename_i hs
    rw [hnone] at hs
    cases hs

theorem stripComment_eq_self {t : Text} (h : byte ';' ∉ outside none t) : stripComment t = t := by
  rw [stripComment, indexUnquoted?_eq_none h]

theorem parse_of_first {raw line first : Text} {rest : List Text} (hl : trim (stripComment raw) = line)
    (hf : fields line = first :: rest) (hd : directives.contains (upper first) = false) (n : Nat) :
    parse raw n = labelled n [] line := by
  unfold parse
  simp only [hl, hf, hd]
  rfl

/-- The blanks in front of an instruction. -/
def indent : Text := "    "

theorem outside_indent (t : Text) : outside none (indent ++ t) = indent ++ outside none t := by
  have hbare : Bare indent := by decide
  rw [outside_append, outside_bare hbare, quoteAfter_bare hbare]

theorem trim_indent {t : Text} (h : Snug t) : trim (indent ++ t) = t := by
  have htrim := h.trim_eq
  obtain ⟨cs, rfl, -⟩ := h
  have hblank : CharClass.isSpace ' ' = true := by decide
  have hindent : indent ++ ofChars cs = ofChars (' ' :: ' ' :: ' ' :: ' ' :: cs) := rfl
  rw [hindent, trim_ofChars]
  simp only [trimBy_cons hblank]
  rw [← trim_ofChars, htrim]

/-- **An indented statement** is read as it was written. -/
theorem parse_statement {m : Text} {ops : List Text} (hm : IsMnemonic m)
    (hd : directives.contains (upper m) = false) (h : ∀ o ∈ ops, NeatOperand o) (n : Nat) :
    parse (indent ++ statement m ops) n = .ok ⟨[], upper m, ops⟩ := by
  have ht := neat_statement hm h
  have hsemi : byte ';' ∉ outside none (indent ++ statement m ops) := by
    rw [outside_indent, List.mem_append, not_or]
    exact ⟨by decide, fun hmem => (ht.plain _ hmem).2 rfl⟩
  obtain ⟨rest, hf⟩ : ∃ rest, fields (statement m ops) = m :: rest := by
    unfold statement
    split
    · exact ⟨[], fields_isWord hm.isWord⟩
    · rename_i hne
      exact ⟨_, fields_word hm.isWord (neat_join hne h).snug.spelled⟩
  rw [parse_of_first (by rw [stripComment_eq_self hsemi, trim_indent ht.snug]) hf hd n,
    labelled_neat ht, instruction_statement hm h]

/-- A comment is read as nothing, whatever it says. -/
theorem parse_comment (t : Text) (n : Nat) : parse (indent ++ ("; " ++ t)) n = .ok {} := by
  have hindex : indexUnquoted? (byte ';') none 0 (indent ++ ("; " ++ t)) = some 4 := by
    rw [indexUnquoted?_append (by decide)]
    rfl
  have hstrip : stripComment (indent ++ ("; " ++ t)) = indent := by
    rw [stripComment, hindex]
    rfl
  have hfields : fields (trim indent) = [] := by decide
  unfold parse
  simp only [hstrip, hfields]

/-! ## Names -/

/-- A name that operands may refer to: neither a register nor the word for a width. -/
structure IsName (t : Text) : Prop where
  ascii : Ascii t
  label : isLabel t = true
  notRegister : lower t ∉ registers
  notSize : lower t ∉ sizeWords

instance (t : Text) : Decidable (IsName t) :=
  decidable_of_iff (Ascii t ∧ isLabel t = true ∧ lower t ∉ registers ∧ lower t ∉ sizeWords)
    ⟨fun ⟨a, l, r, s⟩ => ⟨a, l, r, s⟩, fun h => ⟨h.ascii, h.label, h.notRegister, h.notSize⟩⟩

theorem dropStart?_dot_of_ne {b : UInt8} (hb : b ≠ byte '.') (t : Text) :
    dropStart? "." (b :: t) = none := by
  have hne : (byte '.' == b) = false := by simpa using Ne.symm hb
  change (if (byte '.' == b && List.isPrefixOf [] t) = true then _ else none) = none
  rw [hne]
  rfl

/-- A label is an identifier, perhaps with a dot in front. -/
theorem isLabel_cases {l : Text} (h : isLabel l = true) :
    l.isIdentifier = true ∨ ∃ u : Text, l = byte '.' :: u ∧ u.isIdentifier = true := by
  cases l with
  | nil => cases h
  | cons b u =>
    by_cases hb : b = byte '.'
    · subst hb
      have hdrop : dropStart? "." (byte '.' :: u) = some u := rfl
      rw [isLabel, hdrop] at h
      exact .inr ⟨u, rfl, h⟩
    · rw [isLabel, dropStart?_dot_of_ne hb] at h
      exact .inl h

theorem dot_notMem_of_isIdentifier {t : Text} (h : t.isIdentifier = true) : byte '.' ∉ t :=
  fun hm => forall_of_isIdentifier h (p := fun b => b ≠ byte '.') (by decide +kernel) _ hm rfl

theorem isLabel_of_isIdentifier {t : Text} (h : t.isIdentifier = true) : isLabel t = true := by
  cases t with
  | nil => exact absurd rfl (ne_nil_of_isIdentifier h)
  | cons b u =>
    have hb : b ≠ byte '.' := by
      rintro rfl
      exact dot_notMem_of_isIdentifier h List.mem_cons_self
    rw [isLabel, dropStart?_dot_of_ne hb]
    exact h

/-- Whether a byte may stand in a label. -/
def isLabelByte (b : UInt8) : Bool := isIdentifierByte b || b = byte '.'

theorem isWord_of_isLabel {l : Text} (h : isLabel l = true) : IsWord l := by
  rcases isLabel_cases h with h | ⟨u, rfl, hu⟩
  · exact isWord_of_isIdentifier h
  · exact (isWord_ascii (t := [byte '.']) (by decide) (by simp) (by decide)).append
      (isWord_of_isIdentifier hu)

/-- What holds of the bytes that may stand in a label. -/
theorem forall_of_isLabel {l : Text} (h : isLabel l = true) {p : UInt8 → Prop}
    (hp : ∀ n : Fin 256, isLabelByte (UInt8.ofNat n.val) = true → p (UInt8.ofNat n.val)) :
    ∀ b ∈ l, p b := by
  have hbyte {b : UInt8} (hb : isLabelByte b = true) : p b :=
    forall_byte (p := fun b => isLabelByte b = true → p b) hp b hb
  have hid {t : Text} (ht : t.isIdentifier = true) : ∀ b ∈ t, p b := fun b hb =>
    hbyte (by simp [isLabelByte, isIdentifierByte_of_mem ht hb])
  rcases isLabel_cases h with h | ⟨u, rfl, hu⟩
  · exact hid h
  · exact List.forall_mem_cons.2 ⟨hbyte (by decide), hid hu⟩

section
variable {l : Text} (h : isLabel l = true)
include h

theorem bare_of_isLabel : Bare l :=
  forall_of_isLabel h (p := fun b => isQuote b = false) (by decide +kernel)

theorem neatOperand_of_isLabel : NeatOperand l :=
  neatOperand_of_word (isWord_of_isLabel h) (bare_of_isLabel h)
    (forall_of_isLabel h (p := fun b => b ≠ byte ',' ∧ b ≠ byte ':' ∧ b ≠ byte ';' ∧ b ≠ byte '\n')
      (by decide +kernel))

/-- What stands behind the colon of a label is left over. -/
theorem leadingLabel?_label (t : Text) :
    leadingLabel? (l ++ (byte ':' :: t)) = some (l, trim t) := by
  have hneat := neatOperand_of_isLabel h
  have hcolon : byte ':' ∉ outside none l := fun hm => (hneat.plain _ hm).1 rfl
  have hindex : indexUnquoted? (byte ':') none 0 (l ++ (byte ':' :: t)) = some l.length := by
    have hq : isQuote (byte ':') = false := by decide
    rw [indexUnquoted?_append hcolon, quoteAfter_bare (bare_of_isLabel h)]
    simp [indexUnquoted?, hq]
  have hgap : l.any isGap = false := by
    rw [List.any_eq_false]
    exact forall_of_isLabel h (p := fun b => ¬ isGap b = true) (by decide +kernel)
  obtain ⟨k, hk⟩ := Nat.exists_eq_add_one_of_ne_zero (mt List.length_eq_zero_iff.1 hneat.snug.ne_nil)
  have htake : (l ++ (byte ':' :: t)).take (k + 1) = l := by rw [← hk, List.take_left]
  have hdrop : (l ++ (byte ':' :: t)).drop (k + 2) = t := by
    rw [show k + 2 = l.length + 1 by omega, ← List.drop_drop, List.drop_left]
    rfl
  unfold leadingLabel?
  rw [hindex, hk]
  simp only [htake, hdrop, hneat.snug.trim_eq, hgap]
  rfl

theorem labelled_label {t : Text} (n : Nat) (labels : List Text) :
    labelled n labels (l ++ (byte ':' :: t)) =
      if (trim t).isEmpty then .ok ⟨labels ++ [l], [], []⟩
      else labelled n (labels ++ [l]) (trim t) := by
  have hlead := leadingLabel?_label h t
  rw [labelled]
  split
  · rename_i hnone
    rw [hlead] at hnone
    cases hnone
  · rename_i label rest hsome
    rw [hlead] at hsome
    cases hsome
    simp [h]

/-- A label with its colon is one word. -/
theorem isWord_labelColon : IsWord (l ++ [byte ':']) :=
  (isWord_of_isLabel h).append (isWord_ascii (by decide) (by simp) (by decide))

/-- A word with a colon at its end is no directive. -/
theorem notDirective_labelColon : directives.contains (upper (l ++ [byte ':'])) = false := by
  have hmem : byte ':' ∈ upper (l ++ [byte ':']) := by
    obtain ⟨cs, rfl, -⟩ := isWord_of_isLabel h
    have hjoin : ofChars cs ++ [byte ':'] = ofChars (cs ++ [':']) := (ofChars_append cs [':']).symm
    rw [hjoin, upper_ofChars, List.map_append, ofChars_append]
    exact List.mem_append_right _ (by decide)
  have hno : ∀ d ∈ directives, byte ':' ∉ d := by decide
  rw [List.contains_eq_mem]
  exact decide_eq_false fun hd => hno _ hd hmem

/-- **A line with a label and nothing else.** -/
theorem parse_label (n : Nat) : parse (l ++ [byte ':']) n = .ok ⟨[l], [], []⟩ := by
  have hcolon : Bare [byte ':'] := by decide
  have hbare := bare_of_isLabel h
  have hword := isWord_labelColon h
  have hsemi : byte ';' ∉ outside none (l ++ [byte ':']) := by
    rw [outside_append, quoteAfter_bare hbare, outside_bare hcolon, List.mem_append, not_or]
    exact ⟨fun hm => ((neatOperand_of_isLabel h).plain _ hm).2 rfl, by decide⟩
  rw [parse_of_first (by rw [stripComment_eq_self hsemi, hword.snug.trim_eq]) (fields_isWord hword)
    (notDirective_labelColon h) n, labelled_label h]
  rfl

/-- **A statement behind a label** is read as both. -/
theorem parse_labelled {m : Text} {ops : List Text} (hm : IsMnemonic m)
    (hops : ∀ o ∈ ops, NeatOperand o) (n : Nat) :
    parse (l ++ (": " ++ statement m ops)) n = .ok ⟨[l], upper m, ops⟩ := by
  have ht := neat_statement hm hops
  have hglue : Bare (": " : Text) := by decide
  have hbare := bare_of_isLabel h
  have hneat := neatOperand_of_isLabel h
  have hsemi : byte ';' ∉ outside none (l ++ (": " ++ statement m ops)) := by
    rw [outside_append, quoteAfter_bare hbare, outside_append, outside_bare hglue,
      quoteAfter_bare hglue]
    simp only [List.mem_append, not_or]
    exact ⟨fun hx => (hneat.plain _ hx).2 rfl, by decide, fun hx => (ht.plain _ hx).2 rfl⟩
  have htrim : trim (stripComment (l ++ (": " ++ statement m ops)))
      = l ++ (": " ++ statement m ops) := by
    rw [stripComment_eq_self hsemi]
    exact (hneat.snug.between (spelled_ascii (by decide)) ht.snug).trim_eq
  have hfields : fields (l ++ (": " ++ statement m ops))
      = (l ++ [byte ':']) :: fields (statement m ops) := by
    rw [← fields_word (isWord_labelColon h) ht.snug.spelled, List.append_assoc]
    rfl
  rw [parse_of_first htrim hfields (notDirective_labelColon h) n]
  change labelled n [] (l ++ (byte ':' :: byte ' ' :: statement m ops)) = _
  rw [labelled_label h, ht.snug.trim_blank, if_neg (by simpa using ht.snug.ne_nil),
    labelled_neat ht, instruction_statement hm hops]
  rfl

end

/-! ### Names of ASCII bytes -/

/-- Whether a byte may stand in the name of a label. -/
def isNameByte (b : UInt8) : Bool := continuesName b || b = byte '.'

theorem nameBytes_of_identifier {t : Text} (ha : Ascii t) (h : t.isIdentifier = true) :
    t ≠ [] ∧ ∀ b ∈ t, isNameByte b = true := by
  obtain ⟨b, t, rfl, hb, ht⟩ := (isIdentifier_ascii ha).1 h
  refine ⟨by simp, List.forall_mem_cons.2 ⟨?_, fun c hc => ?_⟩⟩
  · simp [isNameByte, continuesName, hb]
  · simp [isNameByte, ht c hc]

theorem IsName.bytes {t : Text} (h : IsName t) : t ≠ [] ∧ ∀ b ∈ t, isNameByte b = true := by
  rcases isLabel_cases h.label with hid | ⟨u, rfl, hu⟩
  · exact nameBytes_of_identifier h.ascii hid
  · have hbytes := (nameBytes_of_identifier h.ascii.of_cons.2 hu).2
    exact ⟨by simp, List.forall_mem_cons.2 ⟨by decide, hbytes⟩⟩

theorem IsName.forall {t : Text} (h : IsName t) {p : UInt8 → Prop}
    (hp : ∀ n : Fin 128, isNameByte (UInt8.ofNat n.val) = true → p (UInt8.ofNat n.val)) :
    ∀ b ∈ t, p b := fun b hb =>
  forall_ascii (p := fun b => isNameByte b = true → p b) hp (h.ascii b hb) (h.bytes.2 b hb)

theorem IsName.plain {l : Text} (h : IsName l) : ∀ b ∈ l, isPlainByte b = true :=
  h.forall (p := fun b => isPlainByte b = true) (by decide)

theorem IsName.isOperand {l : Text} (h : IsName l) : IsOperand l :=
  isOperand_of_plain h.ascii h.bytes.1 h.plain

end StackLang.Assembly.Verify
