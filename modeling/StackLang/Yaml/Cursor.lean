import StackLang.Yaml.Source

/-!
# A place in a document

The layout of a document is told by lines and columns, so reading keeps them beside the characters.
Lines count from one and columns from zero.

- `Cursor.skip`, `Cursor.skipLine`: the place after a character and after a line end.
- `Cursor.lineComment`, `Cursor.comments`: the place after comments.
-/

set_option autoImplicit false

namespace StackLang.Yaml

/-! ## Kinds of characters -/

/-- A space or a tab. -/
def isBlank (c : Char) : Bool := c = ' ' || c = '\t'

/-- A line end that takes one byte. -/
def isShortBreak (c : Char) : Bool := c = '\r' || c = '\n'

/-- A line or paragraph separator; unlike other line ends it is kept in a scalar. -/
def isSeparator (c : Char) : Bool := c.toNat = 0x2028 || c.toNat = 0x2029

/-- A line end. -/
def isBreak (c : Char) : Bool := isShortBreak c || c.toNat = 0x85 || isSeparator c

/-- The end of the text. -/
def isEnd (c : Char) : Bool := c = Source.endMark

/-- A line end or the end of the text. -/
def endsLine (c : Char) : Bool := isBreak c || isEnd c

/-- A blank, a line end or the end of the text. -/
def endsWord (c : Char) : Bool := isBlank c || endsLine c

/-! ## Places -/

/-- A place: how many characters stand before it, and its line and column. -/
structure Place where
  index : Nat := 0
  line : Nat := 1
  col : Nat := 0
  deriving DecidableEq, Repr

/-- A place with the characters from there on. -/
structure Cursor where
  source : Source
  place : Place := {}
  /-- Whether a line end and then only blanks were passed last. -/
  fresh : Bool := false
  deriving DecidableEq, Repr

namespace Cursor

/-- Sees to it that `n` characters are at hand. -/
def need (n : Nat) (c : Cursor) : Option Cursor :=
  (c.source.need n).map fun source => { c with source }

/-- The character at a distance. -/
def get (c : Cursor) (k : Nat) : Char := c.source.get k

/-- The next character. -/
def head (c : Cursor) : Char := c.source.get 0

/-- The place after the next character, which is no line end. -/
def skip (c : Cursor) : Cursor :=
  { source := c.source.drop 1
    place := { c.place with index := c.place.index + 1, col := c.place.col + 1 }
    fresh := c.fresh && isBlank c.head }

/-- The number of characters of the line end that comes next. -/
def breakLength (c : Cursor) : Nat :=
  if c.head = '\r' ∧ c.get 1 = '\n' then 2 else if isBreak c.head then 1 else 0

/-- The place after the line end that comes next. -/
def skipLine (c : Cursor) : Cursor :=
  if c.breakLength = 0 then c
  else
    { source := c.source.drop c.breakLength
      place := ⟨c.place.index + c.breakLength, c.place.line + 1, 0⟩
      fresh := true }

/-- What the line end that comes next stands for. -/
def lineEnd (c : Cursor) : Char := if isSeparator c.head then c.head else '\n'

/-- Whether one of the marks around documents stands here. -/
def marksDocument (c : Cursor) : Bool :=
  c.place.col = 0 && (c.head = '-' || c.head = '.') && c.get 1 = c.head && c.get 2 = c.head &&
    endsWord (c.get 3)

/-! ## Comments -/

/-- The end of the line, at or after the place with `index` characters before it. -/
def lineEndFrom : (steps index : Nat) → Cursor → Option Cursor
  | 0, _, _ => none
  | steps + 1, index, c => do
    let c ← c.need 1
    if endsLine c.head then
      if index ≤ c.place.index then some c
      else lineEndFrom steps index (← c.need 2).skipLine
    else lineEndFrom steps index c.skip

/-- How far the mark of a comment is looked for. -/
def commentReach : Nat := 512

/-- The place after a comment that follows on the same line, where `k` blanks were seen already. -/
def lineCommentFrom : (steps k : Nat) → Cursor → Option Cursor
  | 0, _, _ => none
  | steps + 1, k, c =>
    if commentReach ≤ k then some c
    else do
      let c ← c.need (k + 1)
      if isBlank (c.get k) then lineCommentFrom steps (k + 1) c
      else if c.get k = '#' then lineEndFrom steps (c.place.index + k) c
      else some c

/-- The place after a comment that follows on the same line. -/
def lineComment (steps : Nat) (c : Cursor) : Option Cursor :=
  if c.fresh then some c else lineCommentFrom steps 0 c

/-- The end of the last of the comments that start here, where `k` blanks and line ends were seen
already. Comments that follow one another may stand behind any blanks. A line end of several bytes
ends the look-out. -/
def commentsFrom : (steps k : Nat) → Cursor → Option Cursor
  | 0, _, _ => none
  | steps + 1, k, c =>
    if commentReach ≤ k then some c
    else do
      let c ← c.need (k + 1)
      if isBlank (c.get k) || isShortBreak (c.get k) then commentsFrom steps (k + 1) c
      else if isBreak (c.get k) then (if k + 1 < commentReach then c.need (k + 2) else some c)
      else if c.get k = '#' then do
        let c ← lineEndFrom steps (c.place.index + k) c
        if isShortBreak c.head then commentsFrom steps 1 c else c.need 2
      else some c

/-- The end of the last of the comments that start here. -/
def comments (steps : Nat) (c : Cursor) : Option Cursor := commentsFrom steps 0 c

end Cursor

end StackLang.Yaml
