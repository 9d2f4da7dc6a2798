import StackLang.Text.Number
import StackLang.Yaml.Node

/-!
# What a plain scalar means

A plain scalar is a text unless it is written as null, a truth value, a number, a point in time or
the mark of a merge. Numbers may have a base mark and underscores anywhere; a number with a fraction
or an exponent counts as the binary number of 53 significant bits that is nearest to it.

- `nearestWhole?`: the whole part of that nearest number.
- `Meaning.ofPlain`: the meaning of a plain scalar.
-/

set_option autoImplicit false

namespace StackLang.Yaml

/-- What a scalar means. -/
inductive Meaning where
  | null
  | bool (b : Bool)
  /-- A number from -2^63 up to 2^64 - 1. -/
  | int (i : Int)
  /-- A number with a fraction or an exponent. `whole` is its whole part; positive infinity and what
  is not a number have none. -/
  | float (whole : Option Int)
  | timestamp
  /-- The key whose value is merged into the mapping around it. -/
  | merge
  | string
  deriving DecidableEq, Repr

/-- The tag of a meaning. -/
def Meaning.tag : Meaning → Text
  | null => "!!null"
  | bool _ => "!!bool"
  | int _ => "!!int"
  | float _ => "!!float"
  | timestamp => "!!timestamp"
  | merge => "!!merge"
  | string => "!!str"

/-! ## Whole numbers -/

/-- An integer in a base, with an optional sign. -/
def signedIn? (base : Nat) (t : Text) : Option Int :=
  let (negative, digits) := Number.sign t
  if digits.isEmpty then none
  else
    match Number.magnitude base false 0 digits with
    | .value n =>
      if negative then if n ≤ 0x8000000000000000 then some (-n) else none
      else if n < 0x8000000000000000 ∨ (digits = t ∧ n < 0x10000000000000000) then some n else none
    | _ => none

/-- An integer after a base mark, where the sign may stand on either side of the mark. -/
def afterMark? (mark : Text) (base : Nat) (t : Text) : Option Int :=
  match Text.dropStart? mark t, Text.dropStart? ("-" ++ mark) t with
  | some digits, _ => signedIn? base digits
  | none, some digits => signedIn? base ("-" ++ digits)
  | none, none => none

/-- An integer with an optional sign in front of an optional base mark; without a sign it may take
all 64 bits. -/
def integer? (t : Text) : Option Int :=
  let (negative, unsigned) := Number.sign t
  if unsigned.isEmpty then none
  else
    let (base, digits) := Number.marked unsigned
    match Number.magnitude base false 0 digits with
    | .value n =>
      if negative then if n ≤ 0x8000000000000000 then some (-n) else none
      else if n < 0x8000000000000000 ∨ (unsigned = t ∧ n < 0x10000000000000000) then some n else none
    | _ => none

/-! ## Numbers with a fraction -/

/-- The number `m * 10 ^ e`, with a sign. -/
structure Decimal where
  negative : Bool
  m : Nat
  e : Int
  deriving DecidableEq, Repr

/-- Whether a byte is a decimal digit. -/
def isDecimalDigit (b : UInt8) : Bool := 0x30 ≤ b.toNat && b.toNat ≤ 0x39

/-- The number that decimal digits spell. -/
def digitsValue (t : Text) : Nat := t.foldl (fun n b => n * 10 + (b.toNat - 0x30)) 0

/-- The exponent of a number, when the text is one. -/
def exponent? : Text → Option Int
  | [] => some 0
  | b :: t =>
    let (negative, digits) := Number.sign t
    if (b = Text.byte 'e' ∨ b = Text.byte 'E') ∧ ¬ digits.isEmpty ∧ digits.all isDecimalDigit then
      some (if negative then -digitsValue digits else digitsValue digits)
    else none

/-- A decimal number with an optional sign, fraction and exponent. -/
def decimal? (t : Text) : Option Decimal :=
  let (negative, unsigned) := Number.sign t
  let whole := unsigned.takeWhile isDecimalDigit
  let (fraction, rest) :=
    match unsigned.dropWhile isDecimalDigit with
    | [] => ([], [])
    | b :: t =>
      if b = Text.byte '.' then (t.takeWhile isDecimalDigit, t.dropWhile isDecimalDigit)
      else ([], b :: t)
  if whole.isEmpty ∧ fraction.isEmpty then none
  else
    (exponent? rest).map fun e =>
      ⟨negative, digitsValue (whole ++ fraction), e - fraction.length⟩

/-- The integer nearest to `num / den`, the even one of two. -/
def roundHalfEven (num den : Nat) : Nat :=
  let q := num / den
  let r := num % den
  if 2 * r < den then q else if den < 2 * r then q + 1 else q + q % 2

/-- The whole part of the binary number of 53 significant bits nearest to `m * 10 ^ e`; none when
that number is at least 2^1024. Numbers far above that limit or far below one are not computed. -/
def nearestWhole? (m : Nat) (e : Int) : Option Nat :=
  let size : Int := (Nat.toDigits 10 m).length + e
  if m = 0 ∨ size < 0 then some 0
  else if 400 < size then none
  else
    let num := m * Nat.pow 10 e.toNat
    let den := Nat.pow 10 (-e).toNat
    let bits := if num < den then 0 else (num / den).log2 + 1
    let whole :=
      if bits ≤ 53 then roundHalfEven (num <<< (53 - bits)) den >>> (53 - bits)
      else roundHalfEven num (den <<< (bits - 53)) <<< (bits - 53)
    if whole < 1 <<< 1024 then some whole else none

/-- The meaning of a decimal number; one without a nearest binary number is a text. -/
def Decimal.meaning (d : Decimal) : Meaning :=
  match nearestWhole? d.m d.e with
  | some n => .float (some (if d.negative then -n else n))
  | none => .string

/-! ## Points in time -/

/-- One or two digits that come to at most `limit`, and what follows. -/
def fewDigits? (limit : Nat) : Text → Option (Nat × Text)
  | [] => none
  | a :: t =>
    if isDecimalDigit a then
      let (n, rest) :=
        match t with
        | b :: t => if isDecimalDigit b then (digitsValue [a, b], t) else (digitsValue [a], b :: t)
        | [] => (digitsValue [a], [])
      if n ≤ limit then some (n, rest) else none
    else none

/-- The text after a mark. -/
def afterByte? (c : Char) : Text → Option Text
  | [] => none
  | b :: t => if b = Text.byte c then some t else none

/-- The number of days of a month. -/
def daysIn (year month : Nat) : Nat :=
  if month = 2 then
    if year % 4 = 0 ∧ (year % 100 ≠ 0 ∨ year % 400 = 0) then 29 else 28
  else if month = 4 ∨ month = 6 ∨ month = 9 ∨ month = 11 then 30
  else 31

/-- What follows a date of four, one or two, and one or two digits. -/
def afterDate? (t : Text) : Option Text := do
  let year := t.takeWhile isDecimalDigit
  if year.length ≠ 4 then none
  else
    let (month, t) ← fewDigits? 12 (← afterByte? '-' (t.drop 4))
    let (day, t) ← fewDigits? 31 (← afterByte? '-' t)
    if 0 < month ∧ 0 < day ∧ day ≤ daysIn (digitsValue year) month then some t else none

/-- What follows a time of day. -/
def afterTime? (t : Text) : Option Text := do
  let (_, t) ← fewDigits? 23 t
  let (_, t) ← fewDigits? 59 (← afterByte? ':' t)
  let (_, t) ← fewDigits? 59 (← afterByte? ':' t)
  match t with
  | point :: digit :: rest =>
    if (point = Text.byte '.' ∨ point = Text.byte ',') ∧ isDecimalDigit digit then
      some (rest.dropWhile isDecimalDigit)
    else some t
  | _ => some t

/-- Whether a text is the distance of a time zone. -/
def isZone (t : Text) : Bool :=
  match t with
  | [z] => z = Text.byte 'Z'
  | [sign, h, h', colon, m, m'] =>
    (sign = Text.byte '+' || sign = Text.byte '-') && colon = Text.byte ':' &&
      [h, h', m, m'].all isDecimalDigit && digitsValue [h, h'] ≤ 24 && digitsValue [m, m'] ≤ 60
  | _ => false

/-- Whether a text is a date, a date and a time with a zone, or a date and a time after blanks. -/
def isTimestamp (t : Text) : Bool :=
  match afterDate? t with
  | none => false
  | some [] => true
  | some (b :: rest) =>
    if b = Text.byte 'T' ∨ b = Text.byte 't' then (afterTime? rest).any isZone
    else if b = Text.byte ' ' then
      afterTime? (rest.dropWhile (· = Text.byte ' ')) = some []
    else false

/-! ## The meaning of a scalar -/

/-- The words with a meaning of their own. -/
def wordMeaning? (t : Text) : Option Meaning :=
  let oneOf (words : List String) : Bool := t ∈ words.map Text.ofString
  if oneOf ["true", "True", "TRUE"] then some (.bool true)
  else if oneOf ["false", "False", "FALSE"] then some (.bool false)
  else if oneOf ["", "~", "null", "Null", "NULL"] then some .null
  else if oneOf ["<<"] then some .merge
  else if oneOf [".nan", ".NaN", ".NAN"] then some (.float none)
  else if oneOf [".inf", ".Inf", ".INF", "+.inf", "+.Inf", "+.INF"] then some (.float none)
  else if oneOf ["-.inf", "-.Inf", "-.INF"] then some (.float (some (-(1 <<< 1024 : Nat))))
  else none

/-- The meaning of a text that starts with a digit or a sign. -/
def numberMeaning (t : Text) : Meaning :=
  let plain := t.filter (· ≠ Text.byte '_')
  if isTimestamp t then .timestamp
  else
    match integer? plain with
    | some i => .int i
    | none =>
      match (decimal? plain).map Decimal.meaning with
      | some (.float whole) => .float whole
      | _ =>
        match (afterMark? "0b" 2 plain).or (afterMark? "0o" 8 plain) with
        | some i => .int i
        | none => .string

/-- The meaning of a text that starts with a point, where underscores may only separate digits. -/
def fractionMeaning (t : Text) : Meaning :=
  if Number.gapsAllowed false .start t then
    ((decimal? (t.filter (· ≠ Text.byte '_'))).map Decimal.meaning).getD .string
  else .string

/-- The meaning of a plain scalar. -/
def Meaning.ofPlain (t : Text) : Meaning :=
  match wordMeaning? t, t with
  | some m, _ => m
  | none, [] => .string
  | none, b :: _ =>
    if isDecimalDigit b ∨ b = Text.byte '+' ∨ b = Text.byte '-' then numberMeaning t
    else if b = Text.byte '.' then fractionMeaning t
    else .string

/-- The meaning of a scalar; one in quotes is a text. -/
def Meaning.ofScalar (quoted : Bool) (value : Text) : Meaning :=
  if quoted then .string else ofPlain value

end StackLang.Yaml
