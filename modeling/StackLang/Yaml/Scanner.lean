import StackLang.Yaml.Scalar
import StackLang.Yaml.Token

/-!
# From characters to tokens

Whether a scalar or a collection is a key shows only at the colon behind it. Until then its tokens
wait in a queue, where the mark of the key, and of the mapping that it may open, are put in front of
them. A key stands on one line and its colon at most 1024 characters after its start. Where the
indentation leaves room for nothing but a key, a missing colon is malformed.

A token is handed on when two more follow it in the queue and it cannot start a key any more. What
is malformed further on does not reach it.

- `Scanner.fetch`: reads the next token into the queue.
- `Token.scan`: the tokens that are handed on.
-/

set_option autoImplicit false

namespace StackLang.Yaml

/-- The start of a possible key. -/
structure KeyStart where
  place : Place
  /-- Whether nothing but a key may stand there. -/
  required : Bool
  /-- Whether its token waits until the key is decided. -/
  waits : Bool := true
  deriving DecidableEq, Repr

/-- The possible key of a level of brackets, and the number of the token where it, or the level, was
opened. -/
structure Level where
  number : Nat := 0
  key : Option KeyStart := none
  deriving DecidableEq, Repr

/-- The state of the reading of tokens. -/
structure Scanner where
  cursor : Cursor
  /-- How many steps a single loop may take. -/
  steps : Nat
  /-- The tokens in the queue. -/
  queue : List Token := []
  /-- The number of tokens handed on. -/
  passed : Nat := 0
  /-- The columns of the open blocks, innermost first. -/
  columns : List Nat := []
  /-- The level outside all brackets. -/
  outer : Level := {}
  /-- The levels within brackets and braces, innermost first. -/
  inner : List Level := []
  /-- Whether a key may start here. -/
  keyAllowed : Bool := true
  deriving DecidableEq, Repr

namespace Scanner

/-! ## The queue -/

/-- Adds a token. -/
def push (s : Scanner) (kind : TokenKind) (line : Nat) : Scanner :=
  { s with queue := s.queue ++ [⟨kind, line⟩] }

/-- Adds a token in front of the one with a number; when that one is handed on, at the end. -/
def pushBefore (s : Scanner) (number : Nat) (kind : TokenKind) (line : Nat) : Scanner :=
  if number < s.passed then s.push kind line
  else
    let k := number - s.passed
    { s with queue := s.queue.take k ++ ⟨kind, line⟩ :: s.queue.drop k }

/-- The number of the next token. -/
def nextNumber (s : Scanner) : Nat := s.passed + s.queue.length

/-! ## Levels and keys -/

/-- Whether the place is within brackets or braces. -/
def inFlow (s : Scanner) : Bool := !s.inner.isEmpty

/-- The innermost level. -/
def level (s : Scanner) : Level := s.inner.headD s.outer

/-- Changes the innermost level. -/
def setLevel (s : Scanner) (l : Level) : Scanner :=
  match s.inner with
  | [] => { s with outer := l }
  | _ :: rest => { s with inner := l :: rest }

/-- Drops the possible key of the innermost level; none when it is required. -/
def dropKey (s : Scanner) : Option Scanner :=
  match s.level.key with
  | some k => if k.required then none else some (s.setLevel { s.level with key := none })
  | none => some s

/-- Notes that a key may start here. -/
def startKey (s : Scanner) : Option Scanner :=
  if s.keyAllowed then do
    let s ← s.dropKey
    let required := !s.inFlow && s.columns.head? = some s.cursor.place.col
    return s.setLevel ⟨s.nextNumber, some { place := s.cursor.place, required }⟩
  else some s

/-- How many characters a key and the blanks behind it may have. -/
def keyReach : Nat := 1024

/-- Whether the colon of a key came too late. -/
def isStale (s : Scanner) (k : KeyStart) : Bool :=
  k.place.line < s.cursor.place.line || k.place.index + keyReach < s.cursor.place.index

/-- How deep brackets and braces may be nested, and how deep blocks. -/
def deepest : Nat := 10000

/-- Enters a level. -/
def enter (s : Scanner) : Option Scanner :=
  if deepest ≤ s.inner.length then none
  else some { s with inner := { number := s.nextNumber } :: s.inner }

/-- A level whose key does not wait, if it starts at the token with a number. -/
def Level.release (number : Nat) (l : Level) : Level :=
  if l.number = number then { l with key := l.key.map fun k => { k with waits := false } } else l

/-- Leaves a level. A level without any key in it releases the key that it may start. -/
def leave (s : Scanner) : Scanner :=
  match s.inner with
  | [] => s
  | l :: rest =>
    let s := { s with inner := rest }
    s.setLevel (Level.release l.number s.level)

/-! ## Blocks -/

/-- Closes the blocks to the right of a column. -/
def closeBlocks (s : Scanner) (isOpen : Nat → Bool) : Scanner :=
  if s.inFlow then s
  else
    let closed := s.columns.takeWhile fun col => !isOpen col
    { s with
      columns := s.columns.dropWhile fun col => !isOpen col
      queue := s.queue ++ closed.map fun _ => ⟨.blockEnd, s.cursor.place.line⟩ }

/-- Opens a block at a column, unless one is open there, with its token in front of the one with a
number. -/
def openBlock (s : Scanner) (col number : Nat) (kind : TokenKind) (line : Nat) : Option Scanner :=
  if s.inFlow ∨ (s.columns.head?.any fun c => col ≤ c) then some s
  else if deepest ≤ s.columns.length then none
  else some { s.pushBefore number kind line with columns := col :: s.columns }

/-- The column that the lines of a scalar have to reach. -/
def floor (s : Scanner) : Nat := (s.columns.head?.map (· + 1)).getD 0

/-! ## Between tokens -/

/-- Passes blanks. -/
def blanksFrom (tabs : Bool) : (steps : Nat) → Cursor → Option Cursor
  | 0, _ => none
  | steps + 1, c =>
    if c.head = ' ' ∨ (tabs ∧ c.head = '\t') then do blanksFrom tabs steps (← c.skip.need 1)
    else some c

/-- Passes blanks, comments and line ends. A tab may not stand where a key may start in a block.
Where a line starts and the characters at hand began with a byte order mark, a character is
passed. -/
def toToken : (steps : Nat) → Scanner → Option Scanner
  | 0, _ => none
  | steps + 1, s => do
    let c ← s.cursor.need 1
    let c ← (if c.place.col = 0 ∧ c.source.marked then c.skip else c).need 1
    let c ← blanksFrom (s.inFlow || !s.keyAllowed) s.steps c
    let c ← if c.head = '#' then c.comments s.steps else some c
    if isBreak c.head then
      let c ← c.need 2
      toToken steps { s with cursor := c.skipLine, keyAllowed := s.keyAllowed || !s.inFlow }
    else some { s with cursor := c }

/-! ## Tokens -/

/-- Reads a mark of `n` characters. -/
def mark (s : Scanner) (kind : TokenKind) (n : Nat) : Scanner :=
  { s.push kind s.cursor.place.line with cursor := n.repeat Cursor.skip s.cursor }

/-- The end of the text closes everything. -/
def fetchEnd (s : Scanner) : Option Scanner := do
  let place := s.cursor.place
  let place := if place.col = 0 then place else { place with line := place.line + 1, col := 0 }
  let s := { s with cursor := { s.cursor with place } }
  let s ← (s.closeBlocks fun _ => false).dropKey
  return { s.push .streamEnd place.line with keyAllowed := false }

/-- The mark of a document closes everything. -/
def fetchDocumentMark (s : Scanner) (kind : TokenKind) : Option Scanner := do
  let s ← (s.closeBlocks fun _ => false).dropKey
  return { s.mark kind 3 with keyAllowed := false }

/-- An opening bracket or brace may start a key. -/
def fetchOpening (s : Scanner) (kind : TokenKind) : Option Scanner := do
  let s ← (← s.startKey).enter
  return { s.mark kind 1 with keyAllowed := true }

/-- A closing bracket or brace. -/
def fetchClosing (s : Scanner) (kind : TokenKind) : Option Scanner := do
  let s ← s.dropKey
  return { s.leave.mark kind 1 with keyAllowed := false }

/-- A comma. -/
def fetchComma (s : Scanner) : Option Scanner := do
  let s ← s.dropKey
  return { s.mark .comma 1 with keyAllowed := true }

/-- Opens a block for a mark that stands here. -/
def openHere (s : Scanner) (kind : TokenKind) : Option Scanner :=
  if s.inFlow then some s
  else if s.keyAllowed then
    s.openBlock s.cursor.place.col s.nextNumber kind s.cursor.place.line
  else none

/-- The mark of an item of a block. -/
def fetchItem (s : Scanner) : Option Scanner := do
  let s ← (← s.openHere .blockSequenceStart).dropKey
  return { s.mark .item 1 with keyAllowed := true }

/-- The mark of a key. -/
def fetchKey (s : Scanner) : Option Scanner := do
  let s ← (← s.openHere .blockMappingStart).dropKey
  return { s.mark .key 1 with keyAllowed := !s.inFlow }

/-- The mark of a value, after the key `k` of this level. -/
def valueOf (s : Scanner) (k : KeyStart) : Option Scanner := do
  let number := s.level.number
  let s := s.pushBefore number .key k.place.line
  let s ← s.openBlock k.place.col number .blockMappingStart k.place.line
  let s := s.setLevel { s.level with key := none }
  return { s.mark .value 1 with keyAllowed := false }

/-- The mark of a value without a key on its line. -/
def loneValue (s : Scanner) : Option Scanner := do
  let s ← s.openHere .blockMappingStart
  return { s.mark .value 1 with keyAllowed := !s.inFlow }

/-- The mark of a value. -/
def fetchValue (s : Scanner) : Option Scanner :=
  match s.level.key with
  | none => s.loneValue
  | some k =>
    if s.isStale k then
      if k.required then none else (s.setLevel { s.level with key := none }).loneValue
    else s.valueOf k

/-- A scalar in quotes. -/
def fetchQuoted (s : Scanner) : Option Scanner := do
  let s ← s.startKey
  let (text, cursor) ← quoted? s.steps s.cursor
  return { s.push (.scalar true text) s.cursor.place.line with cursor, keyAllowed := false }

/-- A plain scalar. When its gap reaches to another line, a key may follow. -/
def fetchPlain (s : Scanner) : Option Scanner := do
  let s ← s.startKey
  let (text, broken, cursor) ← plain? s.steps s.inFlow s.floor s.cursor
  return { s.push (.scalar false text) s.cursor.place.line with cursor, keyAllowed := broken }

/-- The characters that never start a plain scalar. -/
def isReserved (c : Char) : Bool :=
  c ∈ ['#', '&', '*', '!', '|', '>', '%', '@', Char.ofNat 0x60]

/-- The token that starts at the next character. -/
def fetchHere (s : Scanner) : Option Scanner :=
  let c := s.cursor
  if c.head = '[' then s.fetchOpening .flowSequenceStart
  else if c.head = '{' then s.fetchOpening .flowMappingStart
  else if c.head = ']' then s.fetchClosing .flowSequenceEnd
  else if c.head = '}' then s.fetchClosing .flowMappingEnd
  else if c.head = ',' then s.fetchComma
  else if c.head = '-' ∧ endsWord (c.get 1) then s.fetchItem
  else if c.head = '?' ∧ (s.inFlow ∨ endsWord (c.get 1)) then s.fetchKey
  else if c.head = ':' ∧ (s.inFlow ∨ endsWord (c.get 1)) then s.fetchValue
  else if c.head = '\'' ∨ c.head = '"' then s.fetchQuoted
  else if isReserved c.head ∨ isBlank c.head then none
  else s.fetchPlain

/-- Passes a comment behind the token read last. Behind the mark of an item it belongs to what
follows. -/
def passComment (s : Scanner) : Option Scanner :=
  if s.queue.getLast?.any fun t => t.kind = .item then some s
  else (s.cursor.lineComment s.steps).map fun cursor => { s with cursor }

/-- Reads the next token into the queue. -/
def fetch (s : Scanner) : Option Scanner := do
  let s ← toToken s.steps s
  let s := s.closeBlocks fun col => col ≤ s.cursor.place.col
  let cursor ← s.cursor.need 4
  let s := { s with cursor }
  if isEnd cursor.head then s.fetchEnd
  else if cursor.marksDocument then
    s.fetchDocumentMark (if cursor.head = '-' then .documentStart else .documentEnd)
  else do (← s.fetchHere).passComment

/-! ## Handing on -/

/-- Whether the first token of the queue may be handed on; none when the key that it starts is
missing its colon. -/
def isReady (s : Scanner) : Option Bool :=
  if s.queue.length ≤ 2 then some false
  else
    match (s.outer :: s.inner).find? fun l => l.number = s.passed && l.key.any KeyStart.waits with
    | some ⟨_, some k⟩ =>
      if s.isStale k then if k.required then none else some true else some false
    | _ => some true

/-- Hands on tokens up to the end of the text, or up to where it is malformed. -/
def run : (steps : Nat) → Scanner → List Token
  | 0, _ => []
  | steps + 1, s =>
    match s.isReady, s.queue with
    | some true, t :: queue =>
      if t.kind = .streamEnd then [t]
      else t :: run steps { s with queue, passed := s.passed + 1 }
    | some _, _ =>
      match s.fetch with
      | some s => run steps s
      | none => []
    | none, _ => []

end Scanner

/-- The tokens of a text that are handed on; the last is the end of the text, unless the text is
malformed. -/
def Token.scan (t : Text) : List Token :=
  let source := Source.ofText t
  let steps := 2 * source.size + 2 * Cursor.commentReach
  match source.need 1 with
  | none => []
  | some source =>
    Scanner.run (8 * steps) { cursor := { source }, steps, queue := [⟨.streamStart, 1⟩] }

end StackLang.Yaml
