import StackLang.Text.Basic

/-!
# Data operands

Bytes are written as operands of a data line: runs of printable ASCII characters between double
quotes, and every other byte (the double quote too) as a decimal number. No bytes at all are
written as a single zero.

- `DataOperand.values_ofBytes`: the operands of bytes stand for these bytes.
-/

set_option autoImplicit false

namespace StackLang.Assembly

/-- An operand of a data line. -/
inductive DataOperand where
  | run (chars : Text)
  | number (byte : UInt8)
  deriving DecidableEq, Repr

namespace DataOperand

/-- Whether a byte is written as a character. -/
def isPlain (b : UInt8) : Bool := 0x20 ≤ b && b < 0x7F && b ≠ Text.byte '"'

/-- Puts a byte in front of the operands of the bytes after it. -/
def cons (b : UInt8) (ops : List DataOperand) : List DataOperand :=
  if isPlain b then
    match ops with
    | run r :: rest => run (b :: r) :: rest
    | _ => run [b] :: ops
  else number b :: ops

/-- The operands of bytes. -/
def ofBytes (data : Text) : List DataOperand := data.foldr cons []

/-- The bytes that an operand stands for. -/
def values : DataOperand → Text
  | run chars => chars
  | number b => [b]

/-- How an operand is written. -/
def render : DataOperand → Text
  | run chars => "\"" ++ chars ++ "\""
  | number b => Text.ofNat b.toNat

theorem values_cons (b : UInt8) (ops : List DataOperand) :
    (cons b ops).flatMap values = b :: ops.flatMap values := by
  unfold cons
  split
  · split <;> simp [values]
  · simp [values]

theorem values_ofBytes (data : Text) : (ofBytes data).flatMap values = data := by
  induction data with
  | nil => rfl
  | cons b data ih =>
    change (cons b (ofBytes data)).flatMap values = b :: data
    rw [values_cons, ih]

end DataOperand

/-- Bytes as the operands of a data line. -/
def formatBytes (data : Text) : Text :=
  if data.isEmpty then "0" else Text.join ", " ((DataOperand.ofBytes data).map DataOperand.render)

end StackLang.Assembly
