import StackLang.Text.Basic

/-!
# Primitives

The operations that a word names. A code outside the assigned ones is kept as it is, so that a
program may hold it and each stage can say that it does not know it.

- `Primitive.ofName?_name`: every assigned primitive is found by its name.
-/

set_option autoImplicit false

namespace StackLang

/-- A primitive operation. -/
inductive Primitive where
  | plus
  | minus
  | mul
  | div
  | mod
  | divmod
  | pow
  | eq
  | ne
  | gt
  | ge
  | lt
  | le
  | and
  | or
  | dup
  | dup2
  | drop
  | over
  | rot
  | swap
  | swap2
  | getNth
  | printInt
  | puts
  | input
  | exit
  | argc
  | argv
  /-- A system call with the given number of arguments. -/
  | syscall (args : Fin 7)
  | unassigned (code : Int)
  deriving DecidableEq, Repr

namespace Primitive

/-- The assigned primitives in the order of their codes. -/
def all : List Primitive :=
  [plus, minus, mul, div, mod, divmod, pow, eq, ne, gt, ge, lt, le, and, or, dup, dup2, drop, .over,
   rot, swap, swap2, getNth, printInt, puts, input, exit, argc, argv, syscall 0, syscall 1,
   syscall 2, syscall 3, syscall 4, syscall 5, syscall 6]

/-- The primitive with a code. -/
def ofCode (code : Int) : Primitive :=
  if code < 0 then unassigned code else all.getD code.toNat (unassigned code)

/-- The name of a primitive. -/
def name : Primitive → Text
  | plus => "PLUS"
  | minus => "MINUS"
  | mul => "MUL"
  | div => "DIV"
  | mod => "MOD"
  | divmod => "DIVMOD"
  | pow => "POW"
  | eq => "EQ"
  | ne => "NE"
  | gt => "GT"
  | ge => "GE"
  | lt => "LT"
  | le => "LE"
  | and => "AND"
  | or => "OR"
  | dup => "DUP"
  | dup2 => "DUP2"
  | drop => "DROP"
  | .over => "OVER"
  | rot => "ROT"
  | swap => "SWAP"
  | swap2 => "SWAP2"
  | getNth => "GET_NTH"
  | printInt => "PRINT_INT"
  | puts => "PUTS"
  | input => "INPUT"
  | exit => "EXIT"
  | argc => "ARGC"
  | argv => "ARGV"
  | syscall args => "SYSCALL" ++ Text.ofNat args
  | unassigned code => "Intrinsic(" ++ Text.ofInt code ++ ")"

/-- The code of an assigned primitive. -/
def code? (p : Primitive) : Option Nat := all.findIdx? (· = p)

/-- The primitive with a name. -/
def ofName? (t : Text) : Option Primitive := all.find? (·.name = t)

/-- The number of arguments of a system call. -/
def syscallArgs? : Primitive → Option Nat
  | syscall args => some args
  | _ => none

theorem ofName?_name : ∀ p ∈ all, ofName? p.name = some p := by decide +kernel

end Primitive

end StackLang
