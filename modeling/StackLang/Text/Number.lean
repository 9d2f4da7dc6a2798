import StackLang.Text.Basic

/-!
# Numbers in text

Reading signed 64-bit numbers. A digit that takes the magnitude past 64 bits ends the reading at
once, so what follows it is not looked at; a malformed digit before that makes the text malformed.

- `Number.decimal`: an optional sign and decimal digits.
- `Number.anyBase`: as written in a program: `0x`, `0b`, `0o` or a leading `0` choose the base, and
  underscores may separate digits.
-/

set_option autoImplicit false

namespace StackLang.Number

/-- Why a text is no 64-bit number. -/
inductive Fault where
  /-- Not written as a number. -/
  | malformed
  /-- A number outside the range; `nearest` is the limit on its side. -/
  | outOfRange (nearest : Int64)
  deriving DecidableEq, Repr

/-- The value of a digit in bases up to 36. -/
def digit? (b : UInt8) : Option Nat :=
  let n := b.toNat
  if 0x30 ≤ n ∧ n ≤ 0x39 then some (n - 0x30)
  else if 0x61 ≤ n ∧ n ≤ 0x7A then some (n - 0x61 + 10)
  else if 0x41 ≤ n ∧ n ≤ 0x5A then some (n - 0x41 + 10)
  else none

/-- What the digits of a number come to. -/
inductive Magnitude where
  | malformed
  | tooLarge
  | value (n : Nat)
  deriving DecidableEq, Repr

/-- The number that digits spell in a base, after those that came to `acc`. Where `gaps` holds, an
underscore is skipped. -/
def magnitude (base : Nat) (gaps : Bool) (acc : Nat) : Text → Magnitude
  | [] => .value acc
  | b :: t =>
    if gaps ∧ b = Text.byte '_' then magnitude base gaps acc t
    else
      match digit? b with
      | none => .malformed
      | some d =>
        if base ≤ d then .malformed
        else if 0x10000000000000000 ≤ acc * base + d then .tooLarge
        else magnitude base gaps (acc * base + d) t

/-- The signed number of a sign and a magnitude. -/
def withSign (negative : Bool) : Magnitude → Except Fault Int64
  | .malformed => .error .malformed
  | .tooLarge => .error (.outOfRange (if negative then Int64.minValue else Int64.maxValue))
  | .value n =>
    if negative then
      if 0x8000000000000000 < n then .error (.outOfRange Int64.minValue) else .ok (Int64.ofInt (-n))
    else
      if 0x8000000000000000 ≤ n then .error (.outOfRange Int64.maxValue) else .ok (Int64.ofInt n)

/-- The sign of a text (true for a minus) and what follows it. -/
def sign : Text → Bool × Text
  | [] => (false, [])
  | b :: t =>
    if b = Text.byte '+' then (false, t)
    else if b = Text.byte '-' then (true, t)
    else (false, b :: t)

/-- A decimal number with an optional sign. -/
def decimal (t : Text) : Except Fault Int64 :=
  let (negative, digits) := sign t
  if digits.isEmpty then .error .malformed
  else withSign negative (magnitude 10 false 0 digits)

/-- The number that a decimal text stands for when an error does not count: a malformed text is
zero, and a number outside the range is the limit on its side. -/
def clamped (t : Text) : Int64 :=
  match decimal t with
  | .ok v => v
  | .error .malformed => 0
  | .error (.outOfRange v) => v

/-! ## Any base -/

/-- The base that a mark such as `0x` chooses, and the digits after the mark. -/
def marked : Text → Nat × Text
  | [] => (10, [])
  | z :: t =>
    if z ≠ Text.byte '0' then (10, z :: t)
    else
      match t with
      | m :: d :: rest =>
        if m = Text.byte 'x' ∨ m = Text.byte 'X' then (16, d :: rest)
        else if m = Text.byte 'o' ∨ m = Text.byte 'O' then (8, d :: rest)
        else if m = Text.byte 'b' ∨ m = Text.byte 'B' then (2, d :: rest)
        else (8, t)
      | _ => (8, t)

/-- What the last byte was, while the places of underscores are judged. -/
inductive Place where
  | start
  | digit
  | gap
  | other
  deriving DecidableEq, Repr

/-- Whether each underscore stands between digits; a base mark counts as a digit. -/
def gapsAllowed (hex : Bool) : Place → Text → Bool
  | place, [] => place ≠ .gap
  | place, b :: t =>
    let n := b.toNat
    let isDigit := (0x30 ≤ n ∧ n ≤ 0x39) ∨
      (hex ∧ ((0x61 ≤ n ∧ n ≤ 0x66) ∨ (0x41 ≤ n ∧ n ≤ 0x46)))
    if isDigit then gapsAllowed hex .digit t
    else if b = Text.byte '_' then place = .digit && gapsAllowed hex .gap t
    else place ≠ .gap && gapsAllowed hex .other t

/-- Whether the underscores of an unsigned number are well placed. -/
def gapsWellPlaced : Text → Bool
  | z :: m :: t =>
    let isMark := m ∈ [Text.byte 'b', Text.byte 'B', Text.byte 'o', Text.byte 'O',
      Text.byte 'x', Text.byte 'X']
    if z = Text.byte '0' ∧ isMark then
      gapsAllowed (m = Text.byte 'x' || m = Text.byte 'X') .digit t
    else gapsAllowed false .start (z :: m :: t)
  | t => gapsAllowed false .start t

/-- A number with an optional sign, an optional base mark and underscores between digits. -/
def anyBase (t : Text) : Except Fault Int64 :=
  let (negative, unsigned) := sign t
  if unsigned.isEmpty then .error .malformed
  else
    let (base, digits) := marked unsigned
    match magnitude base true 0 digits with
    | .value n =>
      if unsigned.contains (Text.byte '_') ∧ ¬ gapsWellPlaced unsigned then .error .malformed
      else withSign negative (.value n)
    | m => withSign negative m

end StackLang.Number
