import StackLang.Operation

/-!
# Abstract values

What is known of an entry of the operand stack before the program runs: that it is a number, and
perhaps which, or that it points to some data.
-/

set_option autoImplicit false

namespace StackLang

/-- What a pointer on the stack points to. -/
inductive Pointee where
  /-- The argument vector of the process. -/
  | argv
  /-- The data of a symbol. -/
  | data (symbol : Symbol)
  deriving DecidableEq, Repr

/-- The name of a pointee. -/
def Pointee.name : Pointee → Text
  | argv => "argv"
  | data s => s.name

/-- An entry of the abstract stack. -/
inductive Value where
  /-- A number, with its value when it is known. -/
  | int (known : Option Int64)
  /-- An address. -/
  | ptr (target : Pointee)
  deriving DecidableEq, Repr

namespace Value

/-- A known number. -/
def known (v : Int64) : Value := .int (some v)

/-- A number that only the running program knows. -/
def unknown : Value := .int none

/-- The value as it is shown in messages. -/
def describe : Value → Text
  | int none => "INT"
  | int (some v) => Text.ofInt v.toInt
  | ptr target => "*buf " ++ target.name

end Value

/-- What an operand has to be. -/
inductive Pattern where
  | int
  | ptr
  | any
  deriving DecidableEq, Repr

namespace Pattern

/-- The pattern with a code; every code but two leaves the operand free. -/
def ofCode (code : Int) : Pattern := if code = 0 then int else if code = 1 then ptr else any

/-- The name of a pattern. -/
def name : Pattern → Text
  | int => "INT"
  | ptr => "*buf"
  | any => "ANY"

/-- Whether a value satisfies a pattern. -/
def accepts : Pattern → Value → Bool
  | int, .int _ => true
  | int, .ptr _ => false
  | ptr, .ptr _ => true
  | ptr, .int _ => false
  | any, _ => true

end Pattern

end StackLang
