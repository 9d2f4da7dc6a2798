import StackLang.Text.Space

/-!
# Literals

Quoted literals and array literals, and the bytes they stand for.

- `Literal.unquote`: the bytes of a quoted literal; its first and last byte are taken for quotes.
- `Literal.elements`: the elements of an array literal, each the bytes of a quoted literal or the
  bare text between commas.
-/

set_option autoImplicit false

namespace StackLang.Literal

/-- Why a text is no literal; each keeps the whole literal. -/
inductive Fault where
  /-- Too short for two quotes. -/
  | malformed (lit : Text)
  /-- A backslash ends the body. -/
  | danglingEscape (lit : Text)
  /-- A backslash before a byte that has no escape. -/
  | unknownEscape (byte : UInt8) (lit : Text)
  /-- No parentheses around the elements. -/
  | malformedArray (lit : Text)
  /-- Nothing between two commas. -/
  | emptyElement (lit : Text)
  deriving DecidableEq, Repr

/-- The wording of a fault. The byte after a backslash is shown as the character of its number. -/
def Fault.message : Fault → Text
  | malformed lit => "malformed literal " ++ lit
  | danglingEscape lit => "dangling escape in " ++ lit
  | unknownEscape b lit =>
    "unknown escape sequence \\" ++ String.utf8EncodeChar (Char.ofNat b.toNat) ++ " in " ++ lit
  | malformedArray lit => "malformed array literal " ++ lit
  | emptyElement lit => "empty element in array literal " ++ lit

/-! ## Quoted literals -/

/-- The byte that a backslash and `b` stand for. -/
def escape? (b : UInt8) : Option UInt8 :=
  if b = Text.byte 'n' then some 10
  else if b = Text.byte 't' then some 9
  else if b = Text.byte 'r' then some 13
  else if b = Text.byte '0' then some 0
  else if b = Text.byte '\\' ∨ b = Text.byte '"' ∨ b = Text.byte '\'' then some b
  else none

/-- The bytes that the body of the literal `lit` stands for. -/
def unescape (lit : Text) : Text → Except Fault Text
  | [] => .ok []
  | b :: t =>
    if b = Text.byte '\\' then
      match t with
      | [] => .error (.danglingEscape lit)
      | e :: t =>
        match escape? e with
        | none => .error (.unknownEscape e lit)
        | some v => (unescape lit t).map (v :: ·)
    else (unescape lit t).map (b :: ·)

/-- The bytes that a quoted literal stands for. -/
def unquote (lit : Text) : Except Fault Text :=
  if lit.length < 2 then .error (.malformed lit) else unescape lit lit.tail.dropLast

/-! ## Array literals -/

/-- Whether a byte opens and closes quoted text. -/
def isQuote (b : UInt8) : Bool := b = Text.byte '"' || b = Text.byte '\''

/-- Puts a byte in front of the first part. -/
def consFirst (b : UInt8) : List Text → List Text
  | [] => [[b]]
  | p :: ps => (b :: p) :: ps

/-- The parts between the commas outside quotes. `quote` is the quote that is open; `escaped` says
that a backslash precedes within it. -/
def commaParts (quote : Option UInt8) (escaped : Bool) : Text → List Text
  | [] => [[]]
  | b :: t =>
    match quote with
    | some q =>
      if escaped then consFirst b (commaParts quote false t)
      else if b = Text.byte '\\' then consFirst b (commaParts quote true t)
      else if b = q then consFirst b (commaParts none false t)
      else consFirst b (commaParts quote false t)
    | none =>
      if isQuote b then consFirst b (commaParts (some b) false t)
      else if b = Text.byte ',' then [] :: commaParts none false t
      else consFirst b (commaParts none false t)

/-- The bytes of one trimmed part of the array literal `lit`. -/
def element (lit part : Text) : Except Fault Text :=
  match part with
  | [] => .error (.emptyElement lit)
  | b :: _ => if isQuote b then unquote part else .ok part

/-- The text between the first opening parenthesis and the closing one that ends the literal. -/
def inner? (lit : Text) : Option Text :=
  if lit.getLast? = some (Text.byte ')') then
    (Text.cut? (Text.byte '(') lit).map fun p => p.2.dropLast
  else none

/-- The elements of an array literal. -/
def elements (lit : Text) : Except Fault (List Text) :=
  match inner? lit with
  | none => .error (.malformedArray lit)
  | some inner =>
    if Text.isBlank inner then .ok []
    else (commaParts none false inner).mapM fun part => element lit (Text.trim part)

end StackLang.Literal
