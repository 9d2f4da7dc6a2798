import StackLang.Assembly.Fault
import StackLang.Assembly.Identifier
import StackLang.Text.Fold
import StackLang.Text.Space

/-!
# Checking an assembly text

A text is consistent when every line can be read, labels are defined once, every symbol that an
operand names is defined, and code names data only after its declaration. A label that starts with
a dot belongs to the last label before it that does not.

- `Verify.parse`: the labels, the mnemonic and the operands of a line.
- `Verifier.verify`: collects the labels of all lines, then looks up what the operands name. Labels
  stay with the verifier, also after a fault.
-/

set_option autoImplicit false

namespace StackLang.Assembly

namespace Verify

/-! ## Quotes -/

/-- Whether a byte quotes text in an assembly line. -/
def isQuote (b : UInt8) : Bool := b = Text.byte '"' || b = Text.byte '\'' || b = Text.byte '`'

/-- The quote that is open after a byte, given the one before it. -/
def quoteAfter (quote : Option UInt8) (b : UInt8) : Option UInt8 :=
  match quote with
  | some q => if b = q then none else some q
  | none => if isQuote b then some b else none

/-- Where the byte `b` first stands outside quotes, counted from `i`. -/
def indexUnquoted? (b : UInt8) (quote : Option UInt8) (i : Nat) : Text → Option Nat
  | [] => none
  | c :: t =>
    if quote.isNone && !isQuote c && c = b then some i
    else indexUnquoted? b (quoteAfter quote c) (i + 1) t

theorem lt_of_indexUnquoted? {b : UInt8} {t : Text} {quote : Option UInt8} {i j : Nat}
    (h : indexUnquoted? b quote i t = some j) : i ≤ j ∧ j < i + t.length := by
  induction t generalizing quote i with
  | nil => simp [indexUnquoted?] at h
  | cons c t ih =>
    unfold indexUnquoted? at h
    split at h
    · simp only [Option.some.injEq] at h
      simp only [List.length_cons]
      omega
    · have := ih h
      simp only [List.length_cons]
      omega

/-- The line up to a comment. -/
def stripComment (line : Text) : Text :=
  match indexUnquoted? (Text.byte ';') none 0 line with
  | some i => line.take i
  | none => line

/-- The parts between the bytes `b` outside quotes; `part` is being collected, last byte first. -/
def splitUnquoted (b : UInt8) (quote : Option UInt8) (part : Text) : Text → List Text
  | [] => [part.reverse]
  | c :: t =>
    if quote.isNone && !isQuote c && c = b then part.reverse :: splitUnquoted b none [] t
    else splitUnquoted b (quoteAfter quote c) (c :: part) t

/-- The operands between commas. -/
def operands (t : Text) : List Text :=
  (splitUnquoted (Text.byte ',') none [] t).map Text.trim

/-! ## Lines -/

/-- The mnemonics whose operands are separated by white space. -/
def directives : List Text := ["SECTION", "GLOBAL", "EXTERN", "DEFAULT", "BITS"]

/-- A line taken apart. The mnemonic is in upper case and empty when there is none. -/
structure ParsedLine where
  labels : List Text := []
  mnemonic : Text := []
  operands : List Text := []
  deriving DecidableEq, Repr

/-- Whether a byte is a blank or a tab. -/
def isGap (b : UInt8) : Bool := b = Text.byte ' ' || b = Text.byte '\t'

/-- Whether a text may name a label: an identifier, perhaps after a dot. -/
def isLabel (t : Text) : Bool := ((Text.dropStart? "." t).getD t).isIdentifier

/-- Splits off one label: the label, if the line has one, and the line after it. -/
def leadingLabel? (line : Text) : Option (Text × Text) :=
  match indexUnquoted? (Text.byte ':') none 0 line with
  | none | some 0 => none
  | some (i + 1) =>
    let before := Text.trim (line.take (i + 1))
    if before.any isGap then none else some (before, Text.trim (line.drop (i + 2)))

/-- The instruction on a trimmed line after its labels. -/
def instruction (lineNo : Nat) (labels : List Text) (line : Text) :
    Except VerifyFault ParsedLine :=
  let mnemonic := line.takeWhile (!isGap ·)
  let rest := Text.trim ((line.dropWhile (!isGap ·)).drop 1)
  if !Text.isIdentifier mnemonic then .error (.invalidInstruction mnemonic lineNo)
  else .ok ⟨labels, Text.upper mnemonic, if rest.isEmpty then [] else operands rest⟩

theorem length_of_leadingLabel? {line label rest : Text}
    (h : leadingLabel? line = some (label, rest)) : rest.length < line.length := by
  unfold leadingLabel? at h
  split at h
  · simp at h
  · simp at h
  · rename_i i hi
    dsimp only at h
    split at h
    · simp at h
    · simp only [Option.some.injEq, Prod.mk.injEq] at h
      have hlt := lt_of_indexUnquoted? hi
      have hle := Text.length_trim_le (line.drop (i + 2))
      rw [← h.2]
      simp only [List.length_drop] at hle
      omega

/-- A trimmed line that is not empty and no directive, where `labels` have been read. -/
def labelled (lineNo : Nat) (labels : List Text) (line : Text) : Except VerifyFault ParsedLine :=
  match _h : leadingLabel? line with
  | none => instruction lineNo labels line
  | some (label, rest) =>
    if !isLabel label then .error (.invalidLabel label lineNo)
    else if rest.isEmpty then .ok ⟨labels ++ [label], [], []⟩
    else labelled lineNo (labels ++ [label]) rest
termination_by line.length
decreasing_by exact length_of_leadingLabel? _h

/-- A line taken apart. -/
def parse (raw : Text) (lineNo : Nat) : Except VerifyFault ParsedLine :=
  let line := Text.trim (stripComment raw)
  match Text.fields line with
  | [] => .ok {}
  | first :: rest =>
    if directives.contains (Text.upper first) then .ok ⟨[], Text.upper first, rest⟩
    else labelled lineNo [] line

/-! ## Symbols -/

/-- The names of registers. -/
def registers : List Text := List.map Text.ofString
  ["rax", "rbx", "rcx", "rdx", "rsi", "rdi", "rbp", "rsp", "eax", "ebx", "ecx", "edx", "esi", "edi",
   "ebp", "esp", "ax", "bx", "cx", "dx", "si", "di", "bp", "sp", "al", "bl", "cl", "dl", "sil",
   "dil", "bpl", "spl", "ah", "bh", "ch", "dh", "r8", "r8d", "r8w", "r8b", "r9", "r9d", "r9w",
   "r9b", "r10", "r10d", "r10w", "r10b", "r11", "r11d", "r11w", "r11b", "r12", "r12d", "r12w",
   "r12b", "r13", "r13d", "r13w", "r13b", "r14", "r14d", "r14w", "r14b", "r15", "r15d", "r15w",
   "r15b"]

/-- The words that tell the width of an operand. -/
def sizeWords : List Text := ["byte", "word", "dword", "qword", "rel"]

/-- Whether a byte separates the names in an operand. -/
def isSign (b : UInt8) : Bool :=
  b = Text.byte '[' || b = Text.byte ']' || b = Text.byte '+' || b = Text.byte '-'
    || b = Text.byte '*'

/-- The operand with blanks for quoted text and signs; `done` is what precedes, last byte first. -/
def blankOut (quote : Option UInt8) (done : Text) : Text → Text
  | [] => done.reverse
  | c :: t =>
    let next := quoteAfter quote c
    let shown := if quote.isSome || next.isSome || isSign c then Text.byte ' ' else c
    blankOut next (shown :: done) t

/-- The symbols that an operand names. -/
def references (operand : Text) : List Text :=
  (Text.fields (blankOut none [] operand)).filter fun f =>
    let word := Text.lower f
    !registers.contains word && !sizeWords.contains word && isLabel f

/-- The full name of a label in the scope of another. -/
def qualify (label scope : Text) : Text :=
  if label.head? = some (Text.byte '.') then scope ++ label else label

/-- The scope after a label. -/
def scopeAfter (scope label : Text) : Text :=
  if label.head? = some (Text.byte '.') then scope else label

/-- The section that a directive opens. -/
def sectionOf (p : ParsedLine) (lineNo : Nat) : Except VerifyFault Section :=
  match p.operands with
  | [name] =>
    match Section.all.find? fun s => Text.foldsTo name s.name with
    | some s => .ok s
    | none => .error (.unknownSection name lineNo)
  | _ => .error (.sectionOperands lineNo)

end Verify

/-! ## Labels -/

/-- Where a label is defined. -/
structure LabelInfo where
  line : Nat
  home : Section
  deriving DecidableEq, Repr

/-- The labels that have been found, the last one first. -/
structure Verifier where
  labels : List (Text × LabelInfo) := []
  deriving DecidableEq, Repr

namespace Verifier

open Verify

/-- A verifier without labels. -/
def empty : Verifier := {}

/-- The place in a text: the section and the scope of labels. -/
structure Place where
  home : Section := .text
  scope : Text := []
  deriving DecidableEq, Repr

/-- Enters the labels of a line. -/
def define (v : Verifier) (place : Place) (lineNo : Nat) :
    List Text → Verifier × Except VerifyFault Place
  | [] => (v, .ok place)
  | l :: ls =>
    let key := qualify l place.scope
    match v.labels.lookup key with
    | some first => (v, .error (.duplicateLabel key lineNo first.line))
    | none =>
      define ⟨(key, ⟨lineNo, place.home⟩) :: v.labels⟩
        { place with scope := scopeAfter place.scope l } lineNo ls

/-- Enters the labels of the lines from number `lineNo` on. -/
def collect (v : Verifier) (place : Place) (lineNo : Nat) :
    List Text → Verifier × Option VerifyFault
  | [] => (v, none)
  | raw :: rest =>
    match parse raw lineNo with
    | .error fault => (v, some fault)
    | .ok p =>
      match v.define place lineNo p.labels with
      | (v, .error fault) => (v, some fault)
      | (v, .ok place) =>
        if p.mnemonic = "SECTION" then
          match sectionOf p lineNo with
          | .error fault => (v, some fault)
          | .ok home => collect v { place with home } (lineNo + 1) rest
        else collect v place (lineNo + 1) rest

/-- What is wrong with a symbol that is named at a place. -/
def checkReference (v : Verifier) (place : Place) (lineNo : Nat) (ref : Text) :
    Option VerifyFault :=
  let key := qualify ref place.scope
  match v.labels.lookup key with
  | none => some (.undefinedSymbol key lineNo)
  | some info =>
    if place.home = .text ∧ info.home ≠ .text ∧ lineNo < info.line then
      some (.declaredAfterUse key lineNo info.line)
    else none

/-- Looks up the symbols that the lines from number `lineNo` on name. -/
def lookUp (v : Verifier) (place : Place) (lineNo : Nat) : List Text → Option VerifyFault
  | [] => none
  | raw :: rest =>
    match parse raw lineNo with
    | .error fault => some fault
    | .ok p =>
      let place := { place with scope := p.labels.foldl scopeAfter place.scope }
      if p.mnemonic = "SECTION" then
        match sectionOf p lineNo with
        | .error _ => lookUp v { place with home := .text } (lineNo + 1) rest
        | .ok home => lookUp v { place with home } (lineNo + 1) rest
      else if p.mnemonic = [] ∨ p.mnemonic = "EXTERN" ∨ p.mnemonic = "DEFAULT"
          ∨ p.mnemonic = "BITS" then
        lookUp v place (lineNo + 1) rest
      else
        match (p.operands.flatMap references).findSome? (v.checkReference place lineNo) with
        | some fault => some fault
        | none => lookUp v place (lineNo + 1) rest

/-- Checks a text, and keeps its labels. -/
def verify (v : Verifier) (code : Text) : Verifier × Option VerifyFault :=
  let lines := Text.split (Text.byte '\n') code
  match v.collect {} 1 lines with
  | (v, some fault) => (v, some fault)
  | (v, none) => (v, v.lookUp {} 1 lines)

end Verifier

/-- What is wrong with a text. -/
def verify (code : Text) : Option VerifyFault := (Verifier.empty.verify code).2

end StackLang.Assembly
