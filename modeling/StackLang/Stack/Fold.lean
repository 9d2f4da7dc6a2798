import StackLang.Primitive

/-!
# Arithmetic on known numbers

What the primitives compute when their operands are known: 64-bit two's complement arithmetic with
wraparound, division toward zero, comparisons that give one or zero.
-/

set_option autoImplicit false

namespace StackLang.Fold

/-- One for true and zero for false. -/
def ofBool (b : Bool) : Int64 := if b then 1 else 0

/-- `result * base ^ exp` by squaring. -/
def squareMultiply (result base : Int64) (exp : Nat) : Int64 :=
  if exp = 0 then result
  else squareMultiply (if exp % 2 = 1 then result * base else result) (base * base) (exp / 2)
termination_by exp
decreasing_by omega

/-- `base ^ exp` with wraparound, or one when the exponent is not positive. -/
def power (base exp : Int64) : Int64 :=
  if 0 < exp then squareMultiply 1 base exp.toInt.toNat else 1

/-- The result of a primitive with two numbers and one result that never fails. -/
def binary? (p : Primitive) (a b : Int64) : Option Int64 :=
  match p with
  | .plus => some (a + b)
  | .minus => some (a - b)
  | .mul => some (a * b)
  | .pow => some (power a b)
  | .eq => some (ofBool (a == b))
  | .ne => some (ofBool (a != b))
  | .gt => some (ofBool (b < a))
  | .ge => some (ofBool (b ≤ a))
  | .lt => some (ofBool (a < b))
  | .le => some (ofBool (a ≤ b))
  | .and => some (a &&& b)
  | .or => some (a ||| b)
  | _ => none

end StackLang.Fold
