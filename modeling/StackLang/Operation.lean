import StackLang.Primitive
import StackLang.Token.Basic
import StackLang.Text.Number

/-!
# Operations

A program is a flat list of operations. What an operation does is its action: a structural keyword,
a push of a literal, or a primitive. Its index names its label and its data; programs made from
tokens count it from zero, but a program may be given with any indices.
-/

set_option autoImplicit false

namespace StackLang

/-- A structural keyword of a program. -/
inductive Keyword where
  | breakKw
  | doKw
  | doneKw
  | elifKw
  | elseKw
  | endKw
  | endifKw
  | ifKw
  | whileKw
  deriving DecidableEq, Repr

namespace Keyword

/-- The keywords in the order of their codes. -/
def all : List Keyword :=
  [breakKw, doKw, doneKw, elifKw, elseKw, endKw, endifKw, ifKw, whileKw]

/-- The word of a keyword. -/
def name : Keyword → Text
  | breakKw => "BREAK"
  | doKw => "DO"
  | doneKw => "DONE"
  | elifKw => "ELIF"
  | elseKw => "ELSE"
  | endKw => "END"
  | endifKw => "ENDIF"
  | ifKw => "IF"
  | whileKw => "WHILE"

/-- The keyword of a word. -/
def ofName? (t : Text) : Option Keyword := all.find? (·.name = t)

theorem ofName?_name (k : Keyword) : ofName? k.name = some k := by
  cases k <;> decide +kernel

end Keyword

/-- What an operation does. A code outside the assigned ones is kept as it is. -/
inductive Action where
  | keyword (k : Keyword)
  | pushInt
  | pushString
  | pushCString
  | pushArray
  | primitive (p : Primitive)
  | unassigned (code : Int)
  deriving DecidableEq, Repr

namespace Action

/-- The actions in the order of their codes, where `p` is the primitive of the last one. -/
def all (p : Primitive) : List Action :=
  Keyword.all.map keyword ++ [pushInt, pushString, pushCString, pushArray, primitive p]

/-- The action with a code, given the code of its primitive. -/
def ofCode (code primitiveCode : Int) : Action :=
  if code < 0 then unassigned code
  else (all (Primitive.ofCode primitiveCode)).getD code.toNat (unassigned code)

/-- The name of an action's kind. -/
def kindName : Action → Text
  | keyword k => k.name
  | pushInt => "PUSH_INT"
  | pushString => "PUSH_STR"
  | pushCString => "PUSH_CSTR"
  | pushArray => "PUSH_ARRAY"
  | primitive _ => "INTRINSIC"
  | unassigned code => "OpKind(" ++ Text.ofInt code ++ ")"

/-- The name of an action in messages. -/
def name : Action → Text
  | primitive p => p.name
  | a => a.kindName

/-- Whether an action takes part in the block structure; so do codes below all assigned ones. -/
def isStructural : Action → Bool
  | keyword _ => true
  | unassigned code => code < 0
  | _ => false

end Action

/-- The data that an operation owns. -/
inductive Symbol where
  | string (index : Int)
  | cstring (index : Int)
  | array (index : Int)
  | input (index : Int)
  deriving DecidableEq, Repr

/-- The name of a symbol in the assembly. -/
def Symbol.name : Symbol → Text
  | string i => "str_" ++ Text.ofInt i
  | cstring i => "cstr_" ++ Text.ofInt i
  | array i => "array_" ++ Text.ofInt i
  | input i => "input_" ++ Text.ofInt i

/-- One operation of a program, with the token it came from. -/
structure Operation where
  index : Int
  action : Action
  token : Token
  deriving DecidableEq, Repr

namespace Operation

/-- Where the operation stands in its source. -/
def loc (op : Operation) : Location := op.token.loc

/-- The operation in one line. -/
def describe (op : Operation) : Text :=
  match op.action with
  | .primitive p => Text.ofInt op.index ++ " " ++ p.name
  | a => Text.ofInt op.index ++ " " ++ a.kindName ++ " " ++ op.token.text

/-- The label of a structural operation. -/
def label (op : Operation) : Text := op.action.kindName ++ "_" ++ Text.ofInt op.index

/-- The data symbol that an operation owns. -/
def symbol? (op : Operation) : Option Symbol :=
  match op.action with
  | .pushString => some (.string op.index)
  | .pushCString => some (.cstring op.index)
  | .pushArray => some (.array op.index)
  | .primitive .input => some (.input op.index)
  | _ => none

/-- The number that an integer push stands for. -/
def intValue (op : Operation) : Int64 := Number.clamped op.token.text

/-- The place of the operation in tables by position; none for a negative index. -/
def place? (op : Operation) : Option Nat := op.index.toNat?

end Operation

/-- The operations of a program in order. -/
abbrev Program := List Operation

end StackLang
