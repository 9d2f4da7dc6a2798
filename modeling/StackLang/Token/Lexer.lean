import StackLang.Error
import StackLang.Text.Fold

/-!
# Reading tokens

The source is read one character at a time. Between tokens stand white space and comments, which
run from two slashes to the end of the line. A token starts with the longest reading that its first
characters allow: an array up to its closing parenthesis, a quoted literal up to its closing quote,
or a word up to white space or a comment.

- `Lexer.tokens`: the tokens of a source with their places.
-/

set_option autoImplicit false

namespace StackLang.Lexer

open CharClass (isSpace)

/-! ## Extents: how many characters belong together -/

/-- Whether a comment starts here. -/
def atComment : List Char → Bool
  | '/' :: '/' :: _ => true
  | _ => false

/-- The number of characters before the next line. -/
def commentExtent : List Char → Nat
  | [] => 0
  | c :: cs => if c = '\n' then 0 else commentExtent cs + 1

/-- The number of characters before white space or a comment. -/
def wordExtent : List Char → Nat
  | [] => 0
  | c :: cs => if isSpace c || atComment (c :: cs) then 0 else wordExtent cs + 1

/-- How far quoted text goes, and whether it is closed. -/
structure QuotedExtent where
  length : Nat
  closed : Bool
  deriving DecidableEq, Repr

/-- One more character in front. -/
def QuotedExtent.succ (e : QuotedExtent) : QuotedExtent := ⟨e.length + 1, e.closed⟩

/-- The characters after an opening quote up to the closing one or the end of the line. After a
backslash (`escaped`) a quote does not close. -/
def quotedExtent (quote : Char) (escaped : Bool) : List Char → QuotedExtent
  | [] => ⟨0, false⟩
  | c :: cs =>
    if c = '\n' then ⟨0, false⟩
    else if escaped then (quotedExtent quote false cs).succ
    else if c = '\\' then (quotedExtent quote true cs).succ
    else if c = quote then ⟨1, true⟩
    else (quotedExtent quote false cs).succ

/-- How an array literal ends. -/
inductive ArrayExtent where
  /-- With a parenthesis, after so many characters. -/
  | closed (length : Nat)
  /-- In quoted text of a length that starts at an offset and is not closed. -/
  | openQuote (offset length : Nat)
  /-- With the source. -/
  | unclosed
  deriving DecidableEq, Repr

/-- One more character in front. -/
def ArrayExtent.succ : ArrayExtent → ArrayExtent
  | closed n => closed (n + 1)
  | openQuote offset n => openQuote (offset + 1) n
  | unclosed => unclosed

/-- The characters of an array up to its closing parenthesis, where the first `skip` belong to
quoted text. -/
def arrayExtent : Nat → List Char → ArrayExtent
  | _, [] => .unclosed
  | skip + 1, _ :: cs => (arrayExtent skip cs).succ
  | 0, c :: cs =>
    if c = '"' ∨ c = '\'' then
      let q := quotedExtent c false cs
      if q.closed then (arrayExtent q.length cs).succ else .openQuote 0 (q.length + 1)
    else if c = ')' then .closed 1
    else (arrayExtent 0 cs).succ

/-- The word that starts an array, with its parenthesis. -/
def arrayStart : List Char := ['a', 'r', 'r', 'a', 'y', '(']

/-- Whether an array starts here, in any case. -/
def atArray (cs : List Char) : Bool := arrayStart.isPrefixOf (cs.map CharClass.asciiLower)

/-- The number of characters of the token that starts a non-empty text which starts with neither
white space nor a comment. -/
def tokenExtent (file : Text) (pos : Position) (cs : List Char) : Except Failure Nat :=
  if atArray (cs.take arrayStart.length) then
    match arrayExtent 0 (cs.drop arrayStart.length) with
    | .closed n => .ok (arrayStart.length + n)
    | .openQuote offset n =>
      let before := arrayStart.length + offset
      let text := (cs.drop before).take n
      .error ((Cause.unterminatedLiteral (Text.ofChars text)).at
        ((pos.after (cs.take before)).inFile file))
    | .unclosed => .error (Cause.unterminatedArray.at (pos.inFile file))
  else
    match cs with
    | [] => .ok 0
    | c :: rest =>
      if c = '"' ∨ c = '\'' then
        let q := quotedExtent c false rest
        if q.closed then .ok (q.length + 1)
        else .error ((Cause.unterminatedLiteral (Text.ofChars (cs.take (q.length + 1)))).at
          (pos.inFile file))
      else .ok (wordExtent cs)

/-! ## Kinds of tokens -/

/-- The keywords that are read before a program is made. -/
def directives : List Text := ["MACRO", "INCLUDE"]

/-- Whether an upper-case word is a keyword. -/
def isKeyword (upper : Text) : Bool := (Keyword.ofName? upper).isSome || directives.contains upper

/-- The primitives that are written as signs. -/
def operators : List (Text × Primitive) :=
  [("%", .mod), ("/", .div), ("==", .eq), (">=", .ge), (">", .gt), ("<=", .le), ("<", .lt),
   ("-", .minus), ("*", .mul), ("!=", .ne), ("+", .plus), ("^", .pow), (".", .printInt)]

/-- Whether a byte is a decimal digit. -/
def isDigitByte (b : UInt8) : Bool := 0x30 ≤ b && b ≤ 0x39

/-- Whether a text is written as an integer: digits after an optional minus sign. -/
def isInteger (t : Text) : Bool :=
  let digits := if t.head? = some (Text.byte '-') then t.tail else t
  !digits.isEmpty && digits.all isDigitByte

/-- Whether a text stands between two quotes. -/
def isBetween (quote : Char) (t : Text) : Bool :=
  2 ≤ t.length && t.head? = some (Text.byte quote) && t.getLast? = some (Text.byte quote)

/-- The kind and the normalised text of a token. The first reading that fits wins: keyword, array,
boolean, quoted literal, integer, operator, word. -/
def classify (chars : List Char) : Except Cause (TokenKind × Text) :=
  let raw := Text.ofChars chars
  let upper := Text.ofChars (chars.map CharClass.toUpper)
  if isKeyword upper then .ok (.keyword, upper)
  else if Text.ofString "ARRAY(" <+: upper ∧ raw.getLast? = some (Text.byte ')') then
    match Literal.elements raw with
    | .ok _ => .ok (.array, raw)
    | .error fault => .error (.badLiteral fault)
  else if upper = "TRUE" then .ok (.boolean, "1")
  else if upper = "FALSE" then .ok (.boolean, "0")
  else if isBetween '"' raw ∨ isBetween '\'' raw then
    match Literal.unquote raw with
    | .ok _ => .ok (if isBetween '"' raw then .string else .cstring, raw)
    | .error fault => .error (.badLiteral fault)
  else if isInteger raw then
    match Number.decimal raw with
    | .ok _ => .ok (.integer, raw)
    | .error _ => .error (.integerOutOfRange raw)
  else
    match operators.lookup raw with
    | some p => .ok (.word, p.name)
    | none => .ok (.word, upper)

/-! ## The source -/

/-- The token at the start of a text, and the number of characters after its first one. -/
def token (file : Text) (pos : Position) (cs : List Char) : Except Failure (Token × Nat) :=
  match tokenExtent file pos cs with
  | .error e => .error e
  | .ok n =>
    match classify (cs.take n) with
    | .error cause => .error (cause.at (pos.inFile file))
    | .ok (kind, text) => .ok (⟨kind, text, pos.inFile file⟩, n - 1)

/-- The tokens of the characters at a place, where the first `skip` are read already. -/
def scan (file : Text) : Nat → Position → List Char → Except Failure (List Token)
  | _, _, [] => .ok []
  | skip + 1, pos, c :: cs => scan file skip (pos.step c) cs
  | 0, pos, c :: cs =>
    if isSpace c then scan file 0 (pos.step c) cs
    else if atComment (c :: cs) then scan file (commentExtent cs) (pos.step c) cs
    else
      match token file pos (c :: cs) with
      | .error e => .error e
      | .ok (t, more) => (scan file more (pos.step c) cs).map (t :: ·)

/-- The tokens of a source. -/
def tokens (file source : Text) : Except Failure (List Token) :=
  scan file 0 Position.start (Utf8.decode source)

end StackLang.Lexer
