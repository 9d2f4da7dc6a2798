import StackLang.Assembly.Artifact
import StackLang.Proofs.LineReading

/-!
# Reading an artifact

The text of an artifact is read line by line as what was put into it: every line has the labels, the
mnemonic and the operands that it was made from, and the symbols found in an operand are those that
the operand names.

- `Operand.symbols`, `Instruction.operands`: what an instruction names.
- `Line.Sound`, `DataLine.Sound`: names are names, and no line is broken.
- `Operand.references_render`: the symbols of an operand are found in its text.
- `Line.parse_text`, `DataLine.parse_text`: a line is read as it was written. For lines of data it is
  enough that their names are labels, in any script.
-/

set_option autoImplicit false

namespace StackLang.Assembly

open Text Utf8 Verify

/-! ## Symbols in an operand -/

namespace Verify

/-- Whether a byte separates the words of an operand. -/
def isBreak (b : UInt8) : Bool := isSpaceByte b || isSign b

/-- The bytes that separate words in operands. -/
def breaks : List UInt8 := [byte ' ', byte '[', byte ']', byte '+', byte '-']

theorem isBreak_of_mem : ∀ c ∈ breaks, isBreak c = true ∧ isQuote c = false ∧ c.toNat < 0x80 := by
  decide

/-- Whether a word of an operand is a symbol. -/
def isSymbolWord (w : Text) : Bool :=
  !registers.contains (lower w) && !sizeWords.contains (lower w) && isLabel w

theorem references_bare {t : Text} (hb : Bare t) (ha : Ascii t) :
    references t = (runsOutside isBreak [] t).filter isSymbolWord := by
  have hblank : Ascii (t.map fun c => if isSign c then byte ' ' else c) := by
    intro c hc
    obtain ⟨d, hd, rfl⟩ := List.mem_map.1 hc
    split
    · decide
    · exact ha d hd
  have hbreak : (isSpaceByte ∘ fun c => if isSign c then byte ' ' else c) = isBreak := by
    funext c
    have hspace : isSpaceByte (byte ' ') = true := by decide
    by_cases hc : isSign c = true <;> simp [isBreak, hc, hspace]
  have hwords : runsOutside isSpaceByte [] (t.map fun c => if isSign c then byte ' ' else c)
      = runsOutside isBreak [] t := by
    have hmap := runsOutside_map isSpaceByte (fun c => if isSign c then byte ' ' else c) [] t
    rw [List.map_nil, hbreak] at hmap
    rw [hmap]
    refine (List.map_congr_left fun w hw => ?_).trans (List.map_id _)
    refine (List.map_congr_left fun c hc => ?_).trans (List.map_id _)
    have hout := outside_of_mem_runsOutside (by simp) hw c hc
    simp only [isBreak, Bool.or_eq_false_iff] at hout
    simp [hout.2]
  rw [references, blankOut_bare hb, List.reverse_nil, List.nil_append, fields_ascii hblank, hwords]
  rfl

section
variable {t u : Text}

theorem references_append {c : UInt8} (hc : c ∈ breaks) (ht : Bare t) (hta : Ascii t) (hu : Bare u)
    (hua : Ascii u) : references (t ++ c :: u) = references t ++ references u := by
  obtain ⟨hbreak, hq, hl⟩ := isBreak_of_mem c hc
  have hb : Bare (t ++ c :: u) := ht.append (List.forall_mem_cons.2 ⟨hq, hu⟩)
  have ha : Ascii (t ++ c :: u) := hta.append (Ascii.cons hl hua)
  rw [references_bare hb ha, runsOutside_append hbreak, List.filter_append, references_bare ht hta,
    references_bare hu hua]

theorem bare_of_plain (h : ∀ b ∈ t, isPlainByte b = true) : Bare t := by
  intro b hb
  have := h b hb
  simp only [isPlainByte, Bool.and_eq_true, Bool.not_eq_true'] at this
  exact this.1.1.1.1

theorem references_word (ha : Ascii t) (hne : t ≠ [])
    (h : ∀ b ∈ t, isPlainByte b = true ∧ isSign b = false) :
    references t = if isSymbolWord t then [t] else [] := by
  have hbare : Bare t := bare_of_plain fun b hb => (h b hb).1
  have hword : ∀ b ∈ t, isBreak b = false := fun b hb => by
    have := (h b hb).1
    simp only [isPlainByte, Bool.and_eq_true, Bool.not_eq_true'] at this
    simp [isBreak, this.1.1.1.2, (h b hb).2]
  rw [references_bare hbare ha, runsOutside_word hword hne, List.filter_cons, List.filter_nil]

/-- The symbol that a label names, in any script; the name of a register is none. -/
theorem references_label (h : isLabel t = true) :
    references t = if isSymbolWord t then [t] else [] := by
  have hsign := forall_of_isLabel h (p := fun b => isSign b = false) (by decide +kernel)
  have hid : t.map (fun c => if isSign c then byte ' ' else c) = t := by
    refine (List.map_congr_left fun c hc => ?_).trans (List.map_id t)
    simp [hsign c hc]
  rw [references, blankOut_bare (bare_of_isLabel h), List.reverse_nil, List.nil_append, hid,
    fields_isWord (isWord_of_isLabel h), List.filter_cons, List.filter_nil]
  rfl

theorem references_labels {ts : List Text} (h : ∀ t ∈ ts, isLabel t = true) :
    ts.flatMap references = ts.filter isSymbolWord := by
  induction ts with
  | nil => rfl
  | cons t ts ih =>
    obtain ⟨ht, hts⟩ := List.forall_mem_cons.1 h
    rw [List.flatMap_cons, references_label ht, ih hts, List.filter_cons]
    split <;> rfl

theorem references_name (h : IsName t) : references t = [t] := by
  have hsym : isSymbolWord t = true := by
    simp [isSymbolWord, h.label, h.notRegister, h.notSize]
  rw [references_label h.label, if_pos hsym]

theorem digit_plain {b : UInt8} (h : isDigitByte b = true) :
    isPlainByte b = true ∧ isSign b = false ∧ b ≠ byte '.' ∧ startsName b = false := by
  refine forall_ascii (p := fun b => isDigitByte b = true → isPlainByte b = true ∧
    isSign b = false ∧ b ≠ byte '.' ∧ startsName b = false) ?_ (isDigitByte_lt h) h
  decide

theorem references_ofNat (n : Nat) : references (ofNat n) = [] := by
  have hword : isSymbolWord (ofNat n) = false := by
    cases hd : ofNat n with
    | nil => exact absurd hd (ofNat_ne_nil n)
    | cons b bs =>
      have hb := digit_plain (digits_ofNat (n := n) (b := b) (by simp [hd]))
      have ha : Ascii (b :: bs) := hd ▸ ascii_ofNat n
      have hdot : Text.dropStart? "." (b :: bs) = none := dropStart?_dot_of_ne hb.2.2.1 bs
      have hid : Text.isIdentifier (b :: bs) = false := by
        rw [Bool.eq_false_iff, ne_eq, isIdentifier_ascii ha]
        rintro ⟨_, _, he, hs, -⟩
        cases he
        simp [hb.2.2.2] at hs
      simp [isSymbolWord, isLabel, hdot, hid]
  rw [references_word (ascii_ofNat n) (ofNat_ne_nil n) fun b hb => ?_, hword]
  · rfl
  · have := digit_plain (digits_ofNat hb)
    exact ⟨this.1, this.2.1⟩

theorem isOperand_ofNat (n : Nat) : IsOperand (ofNat n) :=
  isOperand_of_plain (ascii_ofNat n) (ofNat_ne_nil n) fun _ hb => (digit_plain (digits_ofNat hb)).1

theorem plain_ofNat (n : Nat) : ∀ b ∈ ofNat n, isPlainByte b = true :=
  fun _ hb => (digit_plain (digits_ofNat hb)).1

theorem bare_ofNat (n : Nat) : Bare (ofNat n) := bare_of_plain (plain_ofNat n)

theorem isOperand_ofInt (v : Int) : IsOperand (ofInt v) := by
  unfold ofInt
  split
  · refine isOperand_of_plain (Ascii.append (by decide) (ascii_ofNat _)) ?_ ?_
    · exact List.append_ne_nil_of_right_ne_nil _ (ofNat_ne_nil _)
    · exact List.forall_mem_append.2 ⟨by decide, plain_ofNat _⟩
  · exact isOperand_ofNat _

theorem references_ofInt (v : Int) : references (ofInt v) = [] := by
  unfold ofInt
  split
  · have h := references_append (t := []) (c := byte '-') (by simp [breaks]) (by simp [Bare])
      (by simp [Ascii]) (bare_ofNat v.natAbs) (ascii_ofNat _)
    exact h.trans (references_ofNat _)
  · exact references_ofNat _

end

/-! ## Quoted operands -/

section
variable {q : UInt8} {t : Text}

theorem runsOutside_blanks (n : Nat) :
    runsOutside isSpaceByte [] (List.replicate n (byte ' ')) = [] := by
  induction n with
  | zero => rfl
  | succ n ih => rw [List.replicate_succ, runsOutside_cons_sep (by decide), ih]

theorem references_enclosed (hq : isQuote q = true) (ht : q ∉ t) :
    references (enclosed q t) = [] := by
  have hopen : quoteAfter none q = some q := by simp [quoteAfter, hq]
  have hblank : blankOut none [] (enclosed q t) = List.replicate (t.length + 2) (byte ' ') := by
    rw [enclosed, blankOut]
    simp only [hopen, Option.isSome_some, Bool.or_true, Bool.true_or, if_true]
    rw [blankOut_within ht]
    rfl
  have ha : Ascii (List.replicate (t.length + 2) (byte ' ')) := by
    intro b hb
    rw [List.eq_of_mem_replicate hb]
    decide
  rw [references, hblank, fields_ascii ha, runsOutside_blanks]
  rfl

theorem isOperand_enclosed (hq : isQuote q = true) (ha : q.toNat < 0x80) (ht : q ∉ t)
    (hta : Ascii t) (hline : byte '\n' ∉ t) : IsOperand (enclosed q t) := by
  have hplain : isSpaceByte q = false ∧ q ≠ byte '\n' :=
    forall_ascii (p := fun q => isQuote q = true → isSpaceByte q = false ∧ q ≠ byte '\n')
      (by decide) ha hq
  have hout := outside_enclosed ht hq
  refine ⟨⟨?_, quoteAfter_enclosed ht hq, by simp [hout], ⟨q, rfl, hplain.1⟩, ⟨q, ?_, hplain.1⟩, ?_⟩,
    by simp [hout]⟩
  · exact Ascii.cons ha (hta.append (Ascii.cons ha (by simp [Ascii])))
  · rw [enclosed, ← List.cons_append, List.getLast?_append]
    rfl
  · simp [enclosed, hline, Ne.symm hplain.2]

end

end Verify

/-! ## Operands -/

/-- The symbols that an address names. -/
def Address.symbols : Address → List Text
  | .symbol s => [s]
  | .offset _ _ | .indexed _ _ => []

/-- The symbols that an operand names. -/
def Operand.symbols : Operand → List Text
  | .symbol s => [s]
  | .memory _ a => a.symbols
  | .reg _ _ | .imm _ | .char _ => []

/-- What an operand has between quotes. -/
def Operand.quoted : Operand → Text
  | .char c => String.utf8EncodeChar c
  | _ => []

/-- An operand that is read as it is meant. -/
def Operand.Sound (o : Operand) : Prop :=
  (∀ s ∈ o.symbols, IsName s) ∧ byte '\'' ∉ o.quoted ∧ Ascii o.quoted ∧ byte '\n' ∉ o.quoted

instance (o : Operand) : Decidable o.Sound := inferInstanceAs (Decidable (_ ∧ _))

/-- The registers. -/
def Register.all : List Register := [.rax, .rbx, .rcx, .rdx, .rsi, .rdi, .rsp, .r8, .r9, .r10]

/-- The widths. -/
def Width.all : List Width := [.byte, .dword, .qword]

theorem Register.mem_all (r : Register) : r ∈ Register.all := by cases r <;> simp [Register.all]

theorem Width.mem_all (w : Width) : w ∈ Width.all := by cases w <;> simp [Width.all]

theorem Register.plain_name (r : Register) (w : Width) :
    r.name w ≠ [] ∧ Ascii (r.name w) ∧ ∀ b ∈ r.name w, isPlainByte b = true := by
  have h : ∀ r ∈ Register.all, ∀ w ∈ Width.all,
      r.name w ≠ [] ∧ Ascii (r.name w) ∧ ∀ b ∈ r.name w, isPlainByte b = true := by decide +kernel
  exact h r r.mem_all w w.mem_all

theorem Register.references_name (r : Register) (w : Width) : references (r.name w) = [] := by
  have h : ∀ r ∈ Register.all, ∀ w ∈ Width.all, references (r.name w) = [] := by decide +kernel
  exact h r r.mem_all w w.mem_all

theorem Width.isMnemonic_name (w : Width) : IsMnemonic w.name := by
  have h : ∀ w ∈ Width.all, IsMnemonic w.name := by decide
  exact h w w.mem_all

theorem Width.references_name (w : Width) : references w.name = [] := by
  have h : ∀ w ∈ Width.all, references w.name = [] := by decide
  exact h w w.mem_all

section
variable {t u : Text} (ht : Ascii t) (hb : ∀ b ∈ t, isPlainByte b = true)
include ht hb

theorem references_bracketed : references ("[" ++ (t ++ "]")) = references t := by
  have hbare := bare_of_plain hb
  have hclose : references (t ++ byte ']' :: []) = references t ++ references [] :=
    references_append (by simp [breaks]) hbare ht (by simp [Bare]) (by simp [Ascii])
  have hopen : references ([] ++ byte '[' :: (t ++ [byte ']']))
      = references [] ++ references (t ++ [byte ']']) :=
    references_append (by simp [breaks]) (by simp [Bare]) (by simp [Ascii])
      (hbare.append (by decide)) (ht.append (by decide))
  have hnil : references [] = [] := by decide
  change references ([] ++ byte '[' :: (t ++ [byte ']'])) = _
  rw [hopen, hclose, hnil, List.append_nil, List.nil_append]

theorem references_sum (hu : Ascii u) (hbu : ∀ b ∈ u, isPlainByte b = true) :
    references (t ++ ("+" ++ u)) = references t ++ references u :=
  references_append (c := byte '+') (by simp [breaks]) (bare_of_plain hb) ht (bare_of_plain hbu) hu

theorem plain_sum (hu : Ascii u) (hbu : ∀ b ∈ u, isPlainByte b = true) :
    Ascii (t ++ ("+" ++ u)) ∧ ∀ b ∈ t ++ ("+" ++ u), isPlainByte b = true :=
  ⟨ht.append (Ascii.append (by decide) hu),
    List.forall_mem_append.2 ⟨hb, List.forall_mem_append.2 ⟨by decide, hbu⟩⟩⟩

end

/-- What stands between the brackets of an address. -/
def Address.inner : Address → Text
  | .offset base distance =>
    if distance = 0 then base.name .qword else base.name .qword ++ ("+" ++ ofNat distance)
  | .indexed base index => base.name .qword ++ ("+" ++ (index.name .qword ++ "*8"))
  | .symbol s => s

theorem Address.render_eq (a : Address) : a.render = "[" ++ (a.inner ++ "]") := by
  cases a with
  | offset base distance =>
    rw [Address.render, Address.inner]
    split <;> simp only [List.append_assoc]
  | indexed base index =>
    simp only [Address.render, Address.inner, List.append_assoc]
    rfl
  | symbol s => simp only [Address.render, Address.inner, List.append_assoc]

theorem Address.plain_inner {a : Address} (h : ∀ s ∈ a.symbols, IsName s) :
    Ascii a.inner ∧ ∀ b ∈ a.inner, isPlainByte b = true := by
  cases a with
  | offset base distance =>
    obtain ⟨-, ha, hp⟩ := base.plain_name .qword
    rw [Address.inner]
    split
    · exact ⟨ha, hp⟩
    · exact plain_sum ha hp (ascii_ofNat _) (plain_ofNat _)
  | indexed base index =>
    obtain ⟨-, ha, hp⟩ := base.plain_name .qword
    obtain ⟨-, ha', hp'⟩ := index.plain_name .qword
    exact plain_sum ha hp (ha'.append (by decide))
      (List.forall_mem_append.2 ⟨hp', by decide⟩)
  | symbol s =>
    have hs : IsName s := h s (by simp [Address.symbols])
    exact ⟨hs.ascii, hs.plain⟩

theorem Address.references_render {a : Address} (h : ∀ s ∈ a.symbols, IsName s) :
    references a.render = a.symbols := by
  obtain ⟨ha, hp⟩ := Address.plain_inner h
  rw [a.render_eq, references_bracketed ha hp]
  cases a with
  | offset base distance =>
    obtain ⟨-, ha, hp⟩ := base.plain_name .qword
    rw [Address.inner]
    split
    · exact base.references_name .qword
    · rw [references_sum ha hp (ascii_ofNat _) (plain_ofNat _), base.references_name,
        references_ofNat]
      rfl
  | indexed base index =>
    obtain ⟨-, ha, hp⟩ := base.plain_name .qword
    obtain ⟨-, ha', hp'⟩ := index.plain_name .qword
    have hscaled : references (index.name .qword ++ "*8") = [] := by
      have h : ∀ r ∈ Register.all, references (r.name .qword ++ "*8") = [] := by decide +kernel
      exact h index index.mem_all
    rw [Address.inner, references_sum ha hp (ha'.append (by decide))
      (List.forall_mem_append.2 ⟨hp', by decide⟩), base.references_name, hscaled]
    rfl
  | symbol s => exact Verify.references_name (h s (by simp [Address.symbols]))

theorem Address.isOperand_render {a : Address} (h : ∀ s ∈ a.symbols, IsName s) :
    IsOperand a.render := by
  obtain ⟨ha, hp⟩ := Address.plain_inner h
  rw [a.render_eq]
  refine isOperand_of_plain (Ascii.append (by decide) (ha.append (by decide))) ?_ ?_
  · exact List.append_ne_nil_of_left_ne_nil (by decide) _
  · exact List.forall_mem_append.2
      ⟨by decide, List.forall_mem_append.2 ⟨hp, by decide⟩⟩

theorem Operand.isOperand_render {o : Operand} (h : o.Sound) : IsOperand o.render := by
  cases o with
  | reg r w =>
    obtain ⟨hne, ha, hp⟩ := r.plain_name w
    exact isOperand_of_plain ha hne hp
  | imm v => exact isOperand_ofInt v
  | char c =>
    obtain ⟨-, hq, ha, hl⟩ := h
    exact isOperand_enclosed (q := byte '\'') (by decide) (by decide) hq ha hl
  | symbol s => exact (h.1 s (by simp [Operand.symbols])).isOperand
  | memory w a =>
    have ha : IsOperand a.render := Address.isOperand_render h.1
    cases w with
    | none => exact ha
    | some w =>
      have hw : IsOperand (w.name ++ (" " ++ a.render)) :=
        w.isMnemonic_name.isOperand.join_glue (by decide) (by decide) ha
      simpa [Operand.render] using hw

/-- **The symbols of an operand** are found in its text. -/
theorem Operand.references_render {o : Operand} (h : o.Sound) :
    references o.render = o.symbols := by
  cases o with
  | reg r w => exact r.references_name w
  | imm v => exact references_ofInt v
  | char c =>
    exact references_enclosed (q := byte '\'') (by decide) h.2.1
  | symbol s => exact Verify.references_name (h.1 s (by simp [Operand.symbols]))
  | memory w a =>
    have href : references a.render = a.symbols := Address.references_render h.1
    cases w with
    | none => exact href
    | some w =>
      have hmn := w.isMnemonic_name
      have hplain := hmn.forall (p := fun b => isPlainByte b = true) (by decide)
      obtain ⟨hai, hpi⟩ := Address.plain_inner h.1
      have hra : Ascii a.render := (Address.isOperand_render h.1).ascii
      have hrb : Bare a.render := by
        rw [a.render_eq]
        refine bare_of_plain (List.forall_mem_append.2 ⟨by decide, ?_⟩)
        exact List.forall_mem_append.2 ⟨hpi, by decide⟩
      have happ : references (w.name ++ byte ' ' :: a.render)
          = references w.name ++ references a.render :=
        references_append (by simp [breaks]) (bare_of_plain hplain) hmn.ascii hrb hra
      rw [w.references_name, List.nil_append, href] at happ
      refine Eq.trans ?_ happ
      simp only [Operand.render, List.append_assoc]
      rfl

/-! ## Lines of code -/

/-- The mnemonic of an instruction. -/
def Instruction.mnemonic : Instruction → Text
  | .binary op _ _ => op.name
  | .unary op _ => op.name
  | .bare op => op.name
  | .set c _ => "set" ++ c.name
  | .jump _ => "jmp"
  | .jumpIf c _ => "j" ++ c.name
  | .call _ => "call"

/-- The operands of an instruction; a jump has its target. -/
def Instruction.operands : Instruction → List Operand
  | .binary _ dst src => [dst, src]
  | .unary _ operand => [operand]
  | .bare _ => []
  | .set _ dst => [dst]
  | .jump target | .jumpIf _ target | .call target => [.symbol target]

theorem Instruction.render_eq (i : Instruction) :
    i.render = statement i.mnemonic (i.operands.map Operand.render) := by
  cases i <;>
    simp [Instruction.render, Instruction.mnemonic, Instruction.operands, statement, Operand.render]
  all_goals rfl

/-- The mnemonics of all instructions. -/
def mnemonics : List Text := List.map Text.ofString
  ["mov", "lea", "add", "sub", "imul", "and", "or", "xor", "test", "cmp", "push", "pop", "neg",
   "inc", "dec", "div", "idiv", "cqo", "ret", "syscall", "sete", "setne", "setg", "setge", "setl",
   "setle", "setz", "setnz", "setns", "jmp", "je", "jne", "jg", "jge", "jl", "jle", "jz", "jnz",
   "jns", "call"]

theorem Instruction.mem_mnemonics (i : Instruction) : i.mnemonic ∈ mnemonics := by
  cases i with
  | binary op dst src => cases op <;> simp [Instruction.mnemonic, mnemonics, BinaryOp.name]
  | unary op operand => cases op <;> simp [Instruction.mnemonic, mnemonics, UnaryOp.name]
  | bare op => cases op <;> simp [Instruction.mnemonic, mnemonics, BareOp.name]
  | set c dst =>
    cases c <;> simp [Instruction.mnemonic, mnemonics, Condition.name, ← Text.ofString_append]
  | jump target => simp [Instruction.mnemonic, mnemonics]
  | jumpIf c target =>
    cases c <;> simp [Instruction.mnemonic, mnemonics, Condition.name, ← Text.ofString_append]
  | call target => simp [Instruction.mnemonic, mnemonics]

theorem isMnemonic_of_mem : ∀ m ∈ mnemonics,
    IsMnemonic m ∧ directives.contains (upper m) = false := by decide +kernel

theorem Instruction.isMnemonic (i : Instruction) :
    IsMnemonic i.mnemonic ∧ directives.contains (upper i.mnemonic) = false :=
  isMnemonic_of_mem _ i.mem_mnemonics

/-- A line without its line break. -/
def Line.text : Line → Text
  | .label name => name ++ [byte ':']
  | .instruction i => indent ++ i.render
  | .verbatim t => indent ++ t
  | .comment t => indent ++ ("; " ++ t)
  | .exported sym => "global " ++ sym
  | .blank => []

theorem Line.render_eq (l : Line) : l.render = l.text ++ [byte '\n'] := by
  cases l <;> simp [Line.render, Line.text]
  all_goals rfl

/-- A line that is read as it is meant. -/
def Line.Sound : Line → Prop
  | .label name => IsName name
  | .instruction i => ∀ o ∈ i.operands, o.Sound
  | .verbatim _ => False
  | .comment t => byte '\n' ∉ t
  | .exported sym => IsName sym
  | .blank => True

instance : ∀ l : Line, Decidable l.Sound
  | .label name => inferInstanceAs (Decidable (IsName name))
  | .instruction i => inferInstanceAs (Decidable (∀ o ∈ i.operands, o.Sound))
  | .verbatim _ => inferInstanceAs (Decidable False)
  | .comment t => inferInstanceAs (Decidable (byte '\n' ∉ t))
  | .exported sym => inferInstanceAs (Decidable (IsName sym))
  | .blank => inferInstanceAs (Decidable True)

/-- What a line is read as. -/
def Line.parsed : Line → ParsedLine
  | .label name => ⟨[name], [], []⟩
  | .instruction i => ⟨[], upper i.mnemonic, i.operands.map Operand.render⟩
  | .exported sym => ⟨[], "GLOBAL", [sym]⟩
  | .verbatim _ | .comment _ | .blank => {}

theorem parse_exported {sym : Text} (h : isLabel sym = true) (n : Nat) :
    parse ("global " ++ sym) n = .ok ⟨[], "GLOBAL", [sym]⟩ := by
  have hm : IsMnemonic "global" := by decide
  have hword := isWord_of_isLabel h
  have hneat : Neat ("global" ++ (" " ++ sym)) :=
    hm.isOperand.toTidy.neat.join_glue (by decide) (neatOperand_of_isLabel h).toNeat
  have hsemi : byte ';' ∉ outside none ("global" ++ (" " ++ sym)) :=
    fun hx => (hneat.plain _ hx).2 rfl
  have hfields : fields ("global" ++ (" " ++ sym)) = [("global" : Text), sym] := by
    rw [← fields_isWord hword]
    exact fields_word hm.isWord hword.snug.spelled
  have hup : upper "global" = "GLOBAL" := by decide
  have hdir : directives.contains ("GLOBAL" : Text) = true := by decide
  change parse ("global" ++ (" " ++ sym)) n = _
  unfold parse
  simp only [stripComment_eq_self hsemi, hneat.snug.trim_eq, hfields, hup, hdir, if_true]

theorem Instruction.neat_operands {i : Instruction} (h : ∀ o ∈ i.operands, o.Sound) :
    ∀ t ∈ i.operands.map Operand.render, NeatOperand t := by
  intro t ht
  obtain ⟨o, ho, rfl⟩ := List.mem_map.1 ht
  exact (Operand.isOperand_render (h o ho)).neat

/-- **A line of code** is read as it was written. -/
theorem Line.parse_text {l : Line} (h : l.Sound) (n : Nat) : parse l.text n = .ok l.parsed := by
  cases l with
  | label name => exact parse_label (IsName.label h) n
  | instruction i =>
    obtain ⟨hm, hd⟩ := i.isMnemonic
    change parse (indent ++ i.render) n = _
    rw [i.render_eq]
    exact parse_statement hm hd (Instruction.neat_operands h) n
  | verbatim t => exact h.elim
  | comment t => exact parse_comment t n
  | exported sym => exact parse_exported (IsName.label h) n
  | blank => rfl

theorem Line.oneLine {l : Line} (h : l.Sound) : byte '\n' ∉ l.text := by
  have hindent : byte '\n' ∉ indent := by decide
  cases l with
  | label name =>
    have hn : byte '\n' ∉ name := (IsName.isOperand h).oneLine
    have hc : byte '\n' ∉ [byte ':'] := by decide
    simpa only [Line.text, List.mem_append, not_or] using And.intro hn hc
  | instruction i =>
    have ht := (neat_statement i.isMnemonic.1 (Instruction.neat_operands h)).oneLine
    rw [← i.render_eq] at ht
    simpa only [Line.text, List.mem_append, not_or] using And.intro hindent ht
  | verbatim t => exact h.elim
  | comment t =>
    have hs : byte '\n' ∉ ("; " : Text) := by decide
    have ht : byte '\n' ∉ t := h
    simpa only [Line.text, List.mem_append, not_or] using And.intro hindent (And.intro hs ht)
  | exported sym =>
    have hg : byte '\n' ∉ ("global " : Text) := by decide
    have hn : byte '\n' ∉ sym := (IsName.isOperand h).oneLine
    simpa only [Line.text, List.mem_append, not_or] using And.intro hg hn
  | blank => simp [Line.text]

/-! ## Lines of data -/

/-- The operands of a line of data. -/
def DataLine.operands : DataLine → List Text
  | .bytes _ data =>
    if data.isEmpty then [("0" : Text)] else (DataOperand.ofBytes data).map DataOperand.render
  | .pointers _ targets => targets ++ [("0" : Text)]

/-- The symbol of a line of data. -/
def DataLine.sym : DataLine → Text
  | .bytes s _ | .pointers s _ => s

/-- The symbols that a line of data names. -/
def DataLine.targets : DataLine → List Text
  | .bytes _ _ => []
  | .pointers _ targets => targets

/-- The directive of a line of data. -/
def DataLine.mnemonic : DataLine → Text
  | .bytes _ _ => "db"
  | .pointers _ _ => "dq"

/-- A line without its line break. -/
def DataLine.text (l : DataLine) : Text := l.sym ++ (": " ++ statement l.mnemonic l.operands)

/-- A line of data that is read as it is meant. -/
def DataLine.Sound (l : DataLine) : Prop := IsName l.sym ∧ ∀ s ∈ l.targets, IsName s

/-- A line of data that can be read. -/
def DataLine.Legible (l : DataLine) : Prop :=
  isLabel l.sym = true ∧ ∀ s ∈ l.targets, isLabel s = true

theorem DataLine.Sound.legible {l : DataLine} (h : l.Sound) : l.Legible :=
  ⟨h.1.label, fun s hs => (h.2 s hs).label⟩

theorem DataLine.operands_ne_nil (l : DataLine) : l.operands ≠ [] := by
  cases l with
  | bytes sym data =>
    cases data with
    | nil => simp [DataLine.operands]
    | cons b data =>
      -- putting a byte in front leaves at least one operand
      have hcons : ∀ ops, DataOperand.cons b ops ≠ [] := by
        intro ops
        unfold DataOperand.cons
        split
        · split <;> simp
        · simp
      simpa [DataLine.operands, DataOperand.ofBytes] using hcons _
  | pointers sym targets => simp [DataLine.operands]

theorem formatBytes_eq (sym data : Text) :
    formatBytes data = Text.join ", " (DataLine.bytes sym data).operands := by
  unfold formatBytes DataLine.operands
  dsimp only
  split
  · exact (join_singleton ..).symm
  · rfl

theorem DataLine.render_eq (l : DataLine) : l.render = l.text ++ [byte '\n'] := by
  have hne := l.operands_ne_nil
  rw [DataLine.text, statement, if_neg hne]
  cases l with
  | bytes sym data =>
    simp only [DataLine.render, formatBytes_eq sym data, DataLine.sym, DataLine.mnemonic,
      List.append_assoc]
    rfl
  | pointers sym targets =>
    simp only [DataLine.render, DataLine.operands, DataLine.sym, DataLine.mnemonic,
      List.append_assoc]
    rfl

/-- What a run of characters in the operands of bytes holds. -/
def DataOperand.Plain : DataOperand → Prop
  | .run chars => ∀ b ∈ chars, DataOperand.isPlain b = true
  | .number _ => True

theorem DataOperand.plain_ofBytes (data : Text) : ∀ o ∈ DataOperand.ofBytes data, o.Plain := by
  induction data with
  | nil => simp [DataOperand.ofBytes]
  | cons b data ih =>
    change ∀ o ∈ DataOperand.cons b (DataOperand.ofBytes data), o.Plain
    unfold DataOperand.cons
    split
    · rename_i hb
      split
      · rename_i r rest hops
        rw [hops] at ih
        have hrun := List.forall_mem_cons.1 ih
        exact List.forall_mem_cons.2 ⟨List.forall_mem_cons.2 ⟨hb, hrun.1⟩, hrun.2⟩
      · exact List.forall_mem_cons.2 ⟨by simp [DataOperand.Plain, hb], ih⟩
    · exact List.forall_mem_cons.2 ⟨trivial, ih⟩

theorem DataOperand.of_isPlain {b : UInt8} (h : DataOperand.isPlain b = true) :
    b.toNat < 0x80 ∧ b ≠ byte '"' ∧ b ≠ byte '\n' := by
  have hlt : b.toNat < 0x80 := by
    simp only [DataOperand.isPlain, Bool.and_eq_true, decide_eq_true_eq] at h
    have hlt := UInt8.lt_iff_toNat_lt.1 h.1.2
    exact Nat.lt_trans hlt (by decide)
  refine ⟨hlt, ?_⟩
  exact forall_ascii (p := fun b => DataOperand.isPlain b = true → b ≠ byte '"' ∧ b ≠ byte '\n')
    (by decide) hlt h

theorem DataOperand.read_render {o : DataOperand} (h : o.Plain) :
    IsOperand o.render ∧ references o.render = [] := by
  cases o with
  | run chars =>
    have hq : byte '"' ∉ chars := fun hm => (DataOperand.of_isPlain (h _ hm)).2.1 rfl
    have hl : byte '\n' ∉ chars := fun hm => (DataOperand.of_isPlain (h _ hm)).2.2 rfl
    have ha : Ascii chars := fun b hb => (DataOperand.of_isPlain (h b hb)).1
    exact ⟨isOperand_enclosed (q := byte '"') (by decide) (by decide) hq ha hl,
      references_enclosed (q := byte '"') (by decide) hq⟩
  | number b => exact ⟨isOperand_ofNat _, references_ofNat _⟩

theorem isOperand_zero : IsOperand ("0" : Text) := isOperand_of_plain (by decide) (by decide) (by decide)

theorem references_zero : references ("0" : Text) = [] := by decide

/-- The operands of bytes name no symbols, whatever the bytes are. -/
theorem DataLine.read_bytes (sym data : Text) :
    ∀ o ∈ (DataLine.bytes sym data).operands, IsOperand o ∧ references o = [] := by
  unfold DataLine.operands
  dsimp only
  split
  · simpa using ⟨isOperand_zero, references_zero⟩
  · intro t ht
    obtain ⟨o, ho, rfl⟩ := List.mem_map.1 ht
    exact DataOperand.read_render (DataOperand.plain_ofBytes data o ho)

theorem DataLine.read_operands {l : DataLine} (h : l.Legible) :
    (∀ o ∈ l.operands, NeatOperand o) ∧
      l.operands.flatMap references = l.targets.filter isSymbolWord := by
  cases l with
  | bytes sym data =>
    have hread := DataLine.read_bytes sym data
    refine ⟨fun o ho => (hread o ho).1.neat, ?_⟩
    rw [DataLine.targets, List.filter_nil, List.flatMap_eq_nil_iff]
    exact fun o ho => (hread o ho).2
  | pointers sym targets =>
    have hlabels : ∀ s ∈ targets, isLabel s = true := h.2
    constructor
    · refine List.forall_mem_append.2 ⟨fun s hs => neatOperand_of_isLabel (hlabels s hs), ?_⟩
      simpa using isOperand_zero.neat
    · rw [DataLine.operands, DataLine.targets, List.flatMap_append, references_labels hlabels]
      simp [references_zero]

/-- **The symbols of a line of data** are found in its text. -/
theorem DataLine.references_operands {l : DataLine} (h : l.Sound) :
    l.operands.flatMap references = l.targets := by
  have hsym : ∀ s ∈ l.targets, isSymbolWord s = true := fun s hs => by
    simp [isSymbolWord, (h.2 s hs).label, (h.2 s hs).notRegister, (h.2 s hs).notSize]
  rw [(DataLine.read_operands h.legible).2, List.filter_eq_self.2 hsym]

/-- What a line of data is read as. -/
def DataLine.parsed (l : DataLine) : ParsedLine := ⟨[l.sym], upper l.mnemonic, l.operands⟩

theorem DataLine.isMnemonic (l : DataLine) : IsMnemonic l.mnemonic := by
  cases l
  · change IsMnemonic "db"
    decide
  · change IsMnemonic "dq"
    decide

theorem DataLine.parse_text {l : DataLine} (h : l.Legible) (n : Nat) :
    parse l.text n = .ok l.parsed :=
  parse_labelled h.1 l.isMnemonic (DataLine.read_operands h).1 n

theorem DataLine.oneLine {l : DataLine} (h : l.Legible) : byte '\n' ∉ l.text := by
  have hname := (neatOperand_of_isLabel h.1).oneLine
  have hcolon : byte '\n' ∉ (": " : Text) := by decide
  have hrest := (neat_statement l.isMnemonic (DataLine.read_operands h).1).oneLine
  simpa only [DataLine.text, List.mem_append, not_or] using And.intro hname (And.intro hcolon hrest)

/-! ## Reservations -/

/-- A line without its line break. -/
def Reservation.text (r : Reservation) : Text := r.sym ++ (": " ++ statement "resb" [ofInt r.size])

theorem Reservation.render_eq (r : Reservation) : r.render = r.text ++ [byte '\n'] := by
  have hne : [ofInt r.size] ≠ [] := by simp
  simp only [Reservation.render, Reservation.text, statement, if_neg hne, join_singleton,
    List.append_assoc]
  rfl

/-- What a reservation is read as. -/
def Reservation.parsed (r : Reservation) : ParsedLine := ⟨[r.sym], upper "resb", [ofInt r.size]⟩

section
variable {r : Reservation} (h : isLabel r.sym = true)
include h

theorem Reservation.parse_text (n : Nat) : parse r.text n = .ok r.parsed :=
  parse_labelled h (by decide) (by simpa using (isOperand_ofInt r.size).neat) n

theorem Reservation.oneLine : byte '\n' ∉ r.text := by
  have hname := (neatOperand_of_isLabel h).oneLine
  have hcolon : byte '\n' ∉ (": " : Text) := by decide
  have hops : ∀ o ∈ [ofInt r.size], NeatOperand o := by simpa using (isOperand_ofInt r.size).neat
  have hrest := (neat_statement (m := "resb") (by decide) hops).oneLine
  simpa only [Reservation.text, List.mem_append, not_or] using
    And.intro hname (And.intro hcolon hrest)

end

end StackLang.Assembly
