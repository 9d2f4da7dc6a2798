import StackLang.Yaml.Cursor

/-!
# Scalars

A scalar is written plainly or in quotes, and either form may go over several lines: the blanks
around line ends count for nothing, one line end is a space, and each further one is kept. A line or
paragraph separator is always kept.

- `plain?`: a plain scalar ends before a comment, before the mark of a value, before the mark of a
  document, where the indentation falls below its block, and in brackets before one of their marks.
- `quoted?`: a quoted scalar ends at its quote. Within single quotes a doubled quote stands for one;
  within double quotes a backslash starts an escape.

Texts are collected backwards. Every step passes a character, so as many steps as the document has
characters are enough.
-/

set_option autoImplicit false

namespace StackLang.Yaml

/-! ## Gaps -/

/-- The blanks and line ends after a word of a scalar. -/
structure Gap where
  /-- Whether a line end is among them, or an escaped one stands in front. -/
  broken : Bool := false
  /-- The blanks on the line of the word. -/
  blanks : List Char := []
  /-- The first line end, unless it is escaped. -/
  first : Option Char := none
  /-- The line ends after it. -/
  more : List Char := []
  deriving DecidableEq, Repr

namespace Gap

/-- What a gap stands for. -/
def text (g : Gap) : List Char :=
  if g.broken then
    match g.first with
    | some '\n' => if g.more.isEmpty then [' '] else g.more
    | some c => g.more ++ [c]
    | none => g.more
  else g.blanks

/-- Takes in a blank; those before the words of a line count for nothing. -/
def blank (g : Gap) (c : Char) : Gap := if g.broken then g else { g with blanks := c :: g.blanks }

/-- Takes in a line end. -/
def lineEnd (g : Gap) (c : Char) : Gap :=
  if g.broken then { g with more := c :: g.more } else { g with broken := true, first := some c }

end Gap

/-- Reads on in a gap. A tab before column `floor` of a new line is malformed. -/
def gapFrom (floor : Nat) : (steps : Nat) → Gap → Cursor → Option (Gap × Cursor)
  | 0, _, _ => none
  | steps + 1, g, c =>
    if isBlank c.head then
      if g.broken ∧ c.place.col < floor ∧ c.head = '\t' then none
      else do gapFrom floor steps (g.blank c.head) (← c.skip.need 1)
    else if isBreak c.head then do
      let c ← c.need 2
      gapFrom floor steps (g.lineEnd c.lineEnd) (← c.skipLine.need 1)
    else some (g, c)

/-! ## Plain scalars -/

/-- The marks that have a meaning in brackets and braces. -/
def isFlowMark (c : Char) : Bool := c ∈ [',', '?', '[', ']', '{', '}']

/-- Whether a plain scalar ends before the next character. -/
def endsPlain (flow : Bool) (c : Cursor) : Bool :=
  (c.head = ':' && endsWord (c.get 1)) || (flow && isFlowMark c.head)

/-- A plain scalar as far as it is read. -/
structure Plain where
  text : List Char := []
  gap : Gap := {}
  deriving DecidableEq, Repr

/-- Reads a word of a plain scalar. -/
def plainWord (flow : Bool) : (steps : Nat) → Plain → Cursor → Option (Plain × Cursor)
  | 0, _, _ => none
  | steps + 1, p, c =>
    if endsWord c.head || endsPlain flow c then some (p, c)
    else do plainWord flow steps ⟨c.head :: (p.gap.text ++ p.text), {}⟩ (← c.skip.need 2)

/-- Reads on in a plain scalar, word by word. -/
def plainFrom (flow : Bool) (floor : Nat) : (steps : Nat) → Plain → Cursor → Option (Plain × Cursor)
  | 0, _, _ => none
  | steps + 1, p, c => do
    let c ← c.need 4
    if c.marksDocument || c.head = '#' then some (p, c)
    else
      let (p, c) ← plainWord flow (steps + 1) p c
      if isBlank c.head || isBreak c.head then
        let (gap, c) ← gapFrom floor (steps + 1) p.gap (← c.need 1)
        if ¬ flow ∧ c.place.col < floor then some (⟨p.text, gap⟩, c)
        else plainFrom flow floor steps ⟨p.text, gap⟩ c
      else some (p, c)

/-- The plain scalar that starts here and the place after it and the gap behind it, with whether a
line end is in that gap. In a block the lines after the first reach at least to column `floor`. -/
def plain? (steps : Nat) (flow : Bool) (floor : Nat) (c : Cursor) :
    Option (Text × Bool × Cursor) := do
  let (p, c) ← plainFrom flow floor steps {} c
  return (Text.ofChars p.text.reverse, p.gap.broken, c)

/-! ## Quoted scalars -/

/-- The character that a letter after a backslash stands for. -/
def escaped? (c : Char) : Option Char :=
  match c with
  | '0' => some (Char.ofNat 0x00)
  | 'a' => some (Char.ofNat 0x07)
  | 'b' => some (Char.ofNat 0x08)
  | 't' | '\t' => some '\t'
  | 'n' => some '\n'
  | 'v' => some (Char.ofNat 0x0B)
  | 'f' => some (Char.ofNat 0x0C)
  | 'r' => some '\r'
  | 'e' => some (Char.ofNat 0x1B)
  | ' ' | '"' | '\'' | '\\' => some c
  | 'N' => some (Char.ofNat 0x85)
  | '_' => some (Char.ofNat 0xA0)
  | 'L' => some (Char.ofNat 0x2028)
  | 'P' => some (Char.ofNat 0x2029)
  | _ => none

/-- How many hexadecimal digits follow a letter after a backslash. -/
def hexLength? (c : Char) : Option Nat :=
  match c with
  | 'x' => some 2
  | 'u' => some 4
  | 'U' => some 8
  | _ => none

/-- The value of a hexadecimal digit. -/
def hexDigit? (c : Char) : Option Nat :=
  if '0' ≤ c ∧ c ≤ '9' then some (c.toNat - 0x30)
  else if 'a' ≤ c ∧ c ≤ 'f' then some (c.toNat - 0x57)
  else if 'A' ≤ c ∧ c ≤ 'F' then some (c.toNat - 0x37)
  else none

/-- The number that `n` hexadecimal digits spell, and the place after them. -/
def hexNumber? : (n value : Nat) → Cursor → Option (Nat × Cursor)
  | 0, value, c => some (value, c)
  | n + 1, value, c => do hexNumber? n (value * 16 + (← hexDigit? c.head)) c.skip

/-- The character of the escape that starts here, and the place after it. -/
def escape? (c : Cursor) : Option (Char × Cursor) :=
  match escaped? (c.get 1), hexLength? (c.get 1) with
  | some x, _ => some (x, c.skip.skip)
  | none, some n => do
    let (value, c) ← hexNumber? n 0 (← c.skip.skip.need n)
    if value.isValidChar then some (Char.ofNat value, c) else none
  | none, none => none

/-- Reads a word within quotes `quote`: its text, whether an escaped line end ended it, and the
place after it. -/
def quotedWord (quote : Char) :
    (steps : Nat) → List Char → Cursor → Option (List Char × Bool × Cursor)
  | 0, _, _ => none
  | steps + 1, text, c =>
    if endsWord c.head then some (text, false, c)
    else if c.head = quote then
      if quote = '\'' ∧ c.get 1 = '\'' then do
        quotedWord quote steps ('\'' :: text) (← c.skip.skip.need 2)
      else some (text, false, c)
    else if quote = '"' ∧ c.head = '\\' then
      if isBreak (c.get 1) then do some (text, true, (← c.need 3).skip.skipLine)
      else do
        let (x, c) ← escape? c
        quotedWord quote steps (x :: text) (← c.need 2)
    else do quotedWord quote steps (c.head :: text) (← c.skip.need 2)

/-- Reads on within quotes, word by word, and gives the text and the place after the quote. -/
def quotedFrom (quote : Char) : (steps : Nat) → List Char → Cursor → Option (List Char × Cursor)
  | 0, _, _ => none
  | steps + 1, text, c => do
    let c ← c.need 4
    if c.marksDocument || isEnd c.head then none
    else
      let (text, joined, c) ← quotedWord quote (steps + 1) text c
      let c ← c.need 1
      if c.head = quote then some (text, c.skip)
      else
        let (gap, c) ← gapFrom 0 (steps + 1) { broken := joined } c
        quotedFrom quote steps (gap.text ++ text) c

/-- The quoted scalar that starts here, and the place after it. -/
def quoted? (steps : Nat) (c : Cursor) : Option (Text × Cursor) := do
  let (text, stop) ← quotedFrom c.head steps [] c.skip
  return (Text.ofChars text.reverse, stop)

end StackLang.Yaml
