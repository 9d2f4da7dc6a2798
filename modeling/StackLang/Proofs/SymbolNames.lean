import StackLang.Codegen
import StackLang.Proofs.LineReading

/-!
# The names of an assembly

The symbols and labels that the assembly of a program defines. A name consists of parts between
underscores, and the first part tells its sort, so that names of different sorts or with different
indices are different texts.

- `Name.text`: how a name is written.
- `Name.text_injective`: names are told apart by their texts.
- `Name.isName`: an operand may refer to every name.
-/

set_option autoImplicit false

namespace StackLang.Codegen

open Assembly Assembly.Verify Text

/-- The names of the frame around a program. -/
inductive FrameName where
  | argsPointer
  | start
  | printInt
  /-- The loop of the routine that prints a number. -/
  | digits
  /-- The end of the routine that prints a number. -/
  | write
  deriving DecidableEq

/-- What the name of an operation's data or place starts with. -/
inductive Stem where
  | string
  | cstring
  | array
  | input
  | mark (k : Keyword)
  deriving DecidableEq

/-- What an assembly names. -/
inductive Name where
  | frame (f : FrameName)
  | indexed (s : Stem) (i : Nat)
  /-- An element of the array of an operation. -/
  | element (i j : Nat)
  /-- The start or the end of the loop of an operation that raises to a power. -/
  | power (atEnd : Bool) (i : Nat)
  deriving DecidableEq

/-- The parts of a frame name between underscores. -/
def FrameName.parts : FrameName → Text × Text
  | argsPointer => ("args", "ptr")
  | start => ("", "start")
  | printInt => ("print", "int")
  | digits => ("print", "int.digits")
  | write => ("print", "int.write")

/-- The text of a stem. -/
def Stem.text : Stem → Text
  | string => "str"
  | cstring => "cstr"
  | array => "array"
  | input => "input"
  | mark k => k.name

namespace Name

/-- The parts of a name between underscores. -/
def parts : Name → List Text
  | frame f => [f.parts.1, f.parts.2]
  | indexed s i => [s.text, ofNat i]
  | element i j => [Stem.array.text, ofNat i, ofNat j]
  | power atEnd i => [("POW" : Text), ofNat i, if atEnd then "done" else "loop"]

/-- The full name as it is written. -/
def text (n : Name) : Text := join [byte '_'] n.parts

end Name

/-! ## Different names -/

/-- The frame names. -/
def FrameName.all : List FrameName := [.argsPointer, .start, .printInt, .digits, .write]

/-- The stems. -/
def Stem.all : List Stem := [.string, .cstring, .array, .input] ++ Keyword.all.map .mark

theorem FrameName.mem_all (f : FrameName) : f ∈ FrameName.all := by cases f <;> simp [FrameName.all]

theorem Stem.mem_all (s : Stem) : s ∈ Stem.all := by
  cases s with
  | mark k => cases k <;> simp [Stem.all, Keyword.all]
  | _ => simp [Stem.all]

theorem FrameName.parts_injective {f g : FrameName} (h : f.parts = g.parts) : f = g := by
  have hall : ∀ f ∈ FrameName.all, ∀ g ∈ FrameName.all, f.parts = g.parts → f = g := by decide
  exact hall f f.mem_all g g.mem_all h

theorem Stem.text_injective {s t : Stem} (h : s.text = t.text) : s = t := by
  have hall : ∀ s ∈ Stem.all, ∀ t ∈ Stem.all, s.text = t.text → s = t := by decide +kernel
  exact hall s s.mem_all t t.mem_all h

theorem FrameName.parts_ne_stem (f : FrameName) (s : Stem) : f.parts.1 ≠ s.text := by
  have hall : ∀ f ∈ FrameName.all, ∀ s ∈ Stem.all, f.parts.1 ≠ s.text := by decide +kernel
  exact hall f f.mem_all s s.mem_all

namespace Name

theorem underscore_notMem_ofNat (i : Nat) : byte '_' ∉ ofNat i := by
  intro h
  have hd := digits_ofNat h
  revert hd
  decide

theorem underscore_notMem_parts (n : Name) : ∀ p ∈ n.parts, byte '_' ∉ p := by
  cases n with
  | frame f =>
    have h : ∀ f ∈ FrameName.all, byte '_' ∉ f.parts.1 ∧ byte '_' ∉ f.parts.2 := by decide
    simpa [parts] using h f f.mem_all
  | indexed s i =>
    have h : ∀ s ∈ Stem.all, byte '_' ∉ s.text := by decide
    simpa [parts, underscore_notMem_ofNat] using h s s.mem_all
  | element i j =>
    have h : byte '_' ∉ Stem.array.text := by decide
    simpa [parts, underscore_notMem_ofNat] using h
  | power atEnd i =>
    have h : byte '_' ∉ ("POW" : Text) ∧
        ∀ b : Bool, byte '_' ∉ (if b then "done" else "loop" : Text) := by decide
    simpa [parts, underscore_notMem_ofNat] using ⟨h.1, h.2 atEnd⟩

theorem parts_of_text {n m : Name} (h : n.text = m.text) : n.parts = m.parts := by
  have hsplit (n : Name) : split (byte '_') n.text = n.parts :=
    split_join (by cases n <;> simp [parts]) n.underscore_notMem_parts
  rw [← hsplit n, h, hsplit m]

theorem pow_ne_array : ("POW" : Text) ≠ Stem.array.text := by decide

/-- **Names are told apart by their texts.** -/
theorem text_injective : Function.Injective Name.text := by
  intro n m h
  have hp := parts_of_text h
  cases n with
  | frame f =>
    cases m with
    | frame g =>
      simp only [parts, List.cons.injEq, and_true] at hp
      rw [FrameName.parts_injective (Prod.ext hp.1 hp.2)]
    | indexed s i =>
      simp only [parts, List.cons.injEq] at hp
      exact absurd hp.1 (f.parts_ne_stem s)
    | element i j => simp [parts] at hp
    | power atEnd i => simp [parts] at hp
  | indexed s i =>
    cases m with
    | frame g =>
      simp only [parts, List.cons.injEq] at hp
      exact absurd hp.1.symm (g.parts_ne_stem s)
    | indexed t j =>
      simp only [parts, List.cons.injEq, and_true] at hp
      rw [Stem.text_injective hp.1, ofNat_inj hp.2]
    | element j k => simp [parts] at hp
    | power atEnd j => simp [parts] at hp
  | element i j =>
    cases m with
    | frame g => simp [parts] at hp
    | indexed t k => simp [parts] at hp
    | element i' j' =>
      simp only [parts, List.cons.injEq, and_true, true_and] at hp
      rw [ofNat_inj hp.1, ofNat_inj hp.2]
    | power atEnd k =>
      simp only [parts, List.cons.injEq] at hp
      exact absurd hp.1.symm pow_ne_array
  | power atEnd i =>
    cases m with
    | frame g => simp [parts] at hp
    | indexed t k => simp [parts] at hp
    | element j k =>
      simp only [parts, List.cons.injEq] at hp
      exact absurd hp.1 pow_ne_array
    | power atEnd' j =>
      simp only [parts, List.cons.injEq, and_true, true_and] at hp
      obtain ⟨hi, hb⟩ := hp
      rw [ofNat_inj hi]
      cases atEnd <;> cases atEnd' <;> simp_all

end Name

/-! ## Names in operands -/

/-- What may follow in an identifier. -/
def Continues (t : Text) : Prop := ∀ b ∈ t, b.toNat < 0x80 ∧ continuesName b = true

instance (t : Text) : Decidable (Continues t) := inferInstanceAs (Decidable (∀ b ∈ t, _ ∧ _))

theorem Continues.append {t u : Text} (ht : Continues t) (hu : Continues u) : Continues (t ++ u) :=
  List.forall_mem_append.2 ⟨ht, hu⟩

theorem continues_ofNat (i : Nat) : Continues (ofNat i) := by
  intro b hb
  have hd := digits_ofNat hb
  refine ⟨isDigitByte_lt hd, ?_⟩
  exact forall_ascii (p := fun b => isDigitByte b = true → continuesName b = true) (by decide)
    (isDigitByte_lt hd) hd

theorem isIdentifier_append {t u : Text} (ht : t.isIdentifier = true) (hu : Continues u) :
    (t ++ u).isIdentifier = true := by
  obtain ⟨c, cs, rfl, hc, hcs⟩ := isIdentifier_iff.1 ht
  have hchars : ofChars (u.map Utf8.asciiChar) = u := by
    rw [← ofPieces_char, List.map_map]
    exact ofPieces_ascii fun b hb => (hu b hb).1
  refine isIdentifier_iff.2 ⟨c, cs ++ u.map Utf8.asciiChar, ?_, hc, ?_⟩
  · rw [← List.cons_append, ofChars_append, hchars]
  · refine List.forall_mem_append.2 ⟨hcs, fun d hd => ?_⟩
    obtain ⟨b, hb, rfl⟩ := List.mem_map.1 hd
    rw [continuesIdentifier_ascii (hu b hb).1]
    exact (hu b hb).2

/-- An identifier does not start with a dot. -/
theorem head_ne_dot {t : Text} (ha : Ascii t) (hid : t.isIdentifier = true) :
    t.head? ≠ some (byte '.') := by
  obtain ⟨b, t, rfl, hb, -⟩ := (isIdentifier_ascii ha).1 hid
  rintro h
  simp only [List.head?_cons, Option.some.injEq] at h
  subst h
  exact absurd hb (by decide)

/-- An identifier with an underscore is neither a register nor a width. -/
theorem isName_of_underscore {t : Text} (ha : Ascii t) (hid : t.isIdentifier = true)
    (hu : byte '_' ∈ t) : IsName t := by
  have hlower : byte '_' ∈ lower t := by
    rw [lower_ascii ha]
    exact List.mem_map.2 ⟨_, hu, by decide⟩
  have hregs : ∀ r ∈ registers, byte '_' ∉ r := by decide +kernel
  have hsizes : ∀ w ∈ sizeWords, byte '_' ∉ w := by decide
  have hdot : Text.dropStart? "." t = none := by
    have hhead := head_ne_dot ha hid
    refine if_neg fun hp => ?_
    obtain ⟨u, rfl⟩ := List.isPrefixOf_iff_prefix.1 hp
    exact hhead rfl
  refine ⟨ha, ?_, fun h => hregs _ h hlower, fun h => hsizes _ h hlower⟩
  rw [isLabel, hdot]
  exact hid

namespace Name

/-- A name that can be written on its own: not one within the scope of another. -/
def IsGlobal (n : Name) : Prop := n ≠ frame .digits ∧ n ≠ frame .write

instance (n : Name) : Decidable n.IsGlobal := inferInstanceAs (Decidable (_ ∧ _))

theorem continues_indexed (i : Nat) : Continues (byte '_' :: ofNat i) :=
  List.forall_mem_cons.2 ⟨by decide, continues_ofNat i⟩

theorem identifier {n : Name} (h : n.IsGlobal) :
    Ascii n.text ∧ n.text.isIdentifier = true ∧ byte '_' ∈ n.text := by
  -- a name is an identifier, an underscore, and what may follow
  have build : ∀ {stem tail : Text}, Ascii stem → stem.isIdentifier = true → Continues tail →
      n.text = stem ++ byte '_' :: tail →
      Ascii n.text ∧ n.text.isIdentifier = true ∧ byte '_' ∈ n.text := by
    intro stem tail ha hid ht he
    have hu : Continues (byte '_' :: tail) := List.forall_mem_cons.2 ⟨by decide, ht⟩
    rw [he]
    exact ⟨ha.append fun b hb => (hu b hb).1, isIdentifier_append hid hu, by simp⟩
  cases n with
  | frame f =>
    have hall : ∀ f ∈ FrameName.all, (frame f).IsGlobal → Ascii (frame f).text ∧
        (frame f).text.isIdentifier = true ∧ byte '_' ∈ (frame f).text := by decide +kernel
    exact hall f f.mem_all h
  | indexed s i =>
    have hall : ∀ s ∈ Stem.all, Ascii s.text ∧ s.text.isIdentifier = true := by decide +kernel
    obtain ⟨ha, hid⟩ := hall s s.mem_all
    exact build ha hid (continues_ofNat i) (by simp [text, parts])
  | element i j =>
    have hall : Ascii Stem.array.text ∧ Stem.array.text.isIdentifier = true := by decide
    exact build hall.1 hall.2 ((continues_ofNat i).append (continues_indexed j))
      (by simp [text, parts])
  | power atEnd i =>
    have hall : Ascii ("POW" : Text) ∧ ("POW" : Text).isIdentifier = true := by decide
    have hend : Continues (byte '_' :: (if atEnd then "done" else "loop" : Text)) := by
      cases atEnd <;> decide
    exact build hall.1 hall.2 ((continues_ofNat i).append hend) (by simp [text, parts])

theorem isName {n : Name} (h : n.IsGlobal) : IsName n.text :=
  isName_of_underscore (identifier h).1 (identifier h).2.1 (identifier h).2.2

/-- A global name means the same in every scope. -/
theorem qualify_text {n : Name} (h : n.IsGlobal) (scope : Text) :
    qualify n.text scope = n.text ∧ scopeAfter scope n.text = n.text := by
  obtain ⟨ha, hid, -⟩ := identifier h
  have hhead := head_ne_dot ha hid
  exact ⟨if_neg hhead, if_neg hhead⟩

/-! ## How names arise -/

theorem text_symbol (i : Nat) : (Symbol.string i).name = (indexed .string i).text ∧
    (Symbol.cstring i).name = (indexed .cstring i).text ∧
    (Symbol.array i).name = (indexed .array i).text ∧
    (Symbol.input i).name = (indexed .input i).text := by
  simp only [Symbol.name, ofInt_natCast, text, parts, join_cons_cons, join_singleton]
  exact ⟨rfl, rfl, rfl, rfl⟩

theorem text_element (i j : Nat) :
    Artifact.elementName (indexed .array i).text j = (element i j).text := by
  simp [Artifact.elementName, text, parts]
  rfl

theorem text_mark {op : Operation} {k : Keyword} {i : Nat} (ha : op.action = .keyword k)
    (hi : op.index = i) : op.label = (indexed (.mark k) i).text := by
  simp only [Operation.label, ha, hi, Action.kindName, ofInt_natCast, text, parts]
  simp [Stem.text]
  rfl

theorem text_power (i : Nat) :
    ("POW_" ++ ofInt i ++ "_loop" : Text) = (power false i).text ∧
      ("POW_" ++ ofInt i ++ "_done" : Text) = (power true i).text := by
  simp only [ofInt_natCast, text, parts]
  constructor <;> simp <;> rfl

theorem text_frame : argsPointer = (frame .argsPointer).text ∧
    ("_start" : Text) = (frame .start).text ∧ Codegen.printInt = (frame .printInt).text ∧
    Codegen.printInt ++ ".digits" = (frame .digits).text ∧
    Codegen.printInt ++ ".write" = (frame .write).text := by
  decide

end Name

end StackLang.Codegen
