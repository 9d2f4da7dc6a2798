import StackLang.Error
import StackLang.Stack.Fold

/-!
# Checking the operand stack

A program is run on a stack of abstract values, top first, operation by operation in the order of
the list. Each action takes operands that satisfy its patterns and leaves results; structural
keywords act as they do when control falls through them.

- `Check.step`: one operation.
- `Check.run`: a program from the empty stack, with the data that its operations need.
-/

set_option autoImplicit false

namespace StackLang

/-- The abstract stack, top first. -/
abbrev Stack := List Value

/-- The kind of data that an operation needs. A code outside the assigned ones is kept as it is. -/
inductive DataKind where
  | string
  | cstring
  | array
  | buffer
  | unassigned (code : Int)
  deriving DecidableEq, Repr

namespace DataKind

/-- The kinds in the order of their codes. -/
def all : List DataKind := [string, cstring, array, buffer]

/-- The kind with a code. -/
def ofCode (code : Int) : DataKind :=
  if code < 0 then unassigned code else all.getD code.toNat (unassigned code)

/-- The code of a kind. -/
def code : DataKind → Int
  | string => 0
  | cstring => 1
  | array => 2
  | buffer => 3
  | unassigned code => code

end DataKind

/-- Data that an operation needs. -/
structure Static where
  op : Operation
  kind : DataKind
  deriving DecidableEq, Repr

/-- What is known of a program: the stack after its last operation, and its data in order. -/
structure Analysis where
  stack : Stack
  statics : List Static
  deriving Repr

/-- The data of the operation with an index; of several the last counts. -/
def Analysis.static? (a : Analysis) (index : Int) : Option Static :=
  a.statics.reverse.find? (·.op.index = index)

namespace Check

/-! ## Operands and results -/

/-- The patterns of the operands that an action takes, the top of the stack first. -/
def patterns : Action → List Pattern
  | .keyword .ifKw | .keyword .elifKw | .keyword .whileKw => [.any]
  | .keyword .doKw => [.any, .any]
  | .primitive p =>
    match p with
    | .plus | .minus | .mul | .pow | .eq | .ne | .gt | .ge | .lt | .le | .and | .or => [.int, .int]
    | .div | .mod | .divmod => [.int, .int]
    | .dup | .drop => [.any]
    | .dup2 | .over | .swap => [.any, .any]
    | .rot => [.any, .any, .any]
    | .swap2 => [.any, .any, .any, .any]
    | .getNth | .printInt | .exit => [.int]
    | .puts => [.ptr, .int]
    | .syscall args => .int :: List.replicate args .any
    | .input | .argc | .argv | .unassigned _ => []
  | _ => []

/-- The operands that an operation takes and the stack below them. There have to be enough, and each
has to satisfy its pattern. -/
def operands (op : Operation) (ps : List Pattern) (stack : Stack) :
    Except Failure (List Value × Stack) :=
  if stack.length < ps.length then
    .error ((Cause.underflow op.action ps.length stack.length).at op.loc)
  else
    match (ps.zip stack).find? fun pv => !pv.1.accepts pv.2 with
    | some (p, v) => .error ((Cause.mismatch op.action p v).at op.loc)
    | none => .ok (stack.take ps.length, stack.drop ps.length)

/-- The results of a division, the top of the stack first. -/
def division (op : Operation) (p : Primitive) (a b : Option Int64) : Except Failure (List Value) :=
  match a, b with
  | some a, some b =>
    if b = 0 then .error ((Cause.divisionByZero p a).at op.loc)
    else
      match p with
      | .div => .ok [.known (a / b)]
      | .mod => .ok [.known (a % b)]
      | _ => .ok [.known (a % b), .known (a / b)]
  | _, _ =>
    match p with
    | .divmod => .ok [.unknown, .unknown]
    | _ => .ok [.unknown]

/-- The results of a primitive on its operands, both with the top of the stack first. -/
def primitiveResults (op : Operation) (p : Primitive) (vs : List Value) :
    Except Failure (List Value) :=
  match p, vs with
  | .div, [.int b, .int a] => division op p a b
  | .mod, [.int b, .int a] => division op p a b
  | .divmod, [.int b, .int a] => division op p a b
  | .dup, [a] => .ok [a, a]
  | .dup2, [b, a] => .ok [b, a, b, a]
  | .drop, _ => .ok []
  | .over, [b, a] => .ok [a, b, a]
  | .rot, [c, b, a] => .ok [a, c, b]
  | .swap, [b, a] => .ok [a, b]
  | .swap2, [d, c, b, a] => .ok [b, a, d, c]
  | .printInt, _ => .ok []
  | .exit, _ => .ok []
  | .puts, _ => .ok []
  | .input, _ => .ok [.ptr (.data (.input op.index)), .unknown]
  | .argc, _ => .ok [.unknown]
  | .argv, _ => .ok [.ptr .argv]
  | .syscall _, _ => .ok [.unknown]
  | p, [.int (some b), .int (some a)] =>
    match Fold.binary? p a b with
    | some v => .ok [.known v]
    | none => .ok []
  | _, _ => .ok [.unknown]

/-- The results of an action on its operands, both with the top of the stack first. -/
def results (op : Operation) (vs : List Value) : Except Failure (List Value) :=
  match op.action with
  | .keyword .ifKw | .keyword .elifKw | .keyword .whileKw => .ok (vs ++ vs)
  | .keyword _ => .ok []
  | .pushInt => .ok [.known op.intValue]
  | .pushString =>
    match Literal.unquote op.token.text with
    | .error fault => .error ((Cause.badLiteral fault).at op.loc)
    | .ok bytes =>
      .ok [.ptr (.data (.string op.index)), .known (Int64.ofInt bytes.length)]
  | .pushCString => .ok [.ptr (.data (.cstring op.index))]
  | .pushArray => .ok [.ptr (.data (.array op.index))]
  | .primitive p => primitiveResults op p vs
  | .unassigned _ => .ok []

/-! ## Steps -/

/-- The entry that a known index names, counted down from the top of the stack below it. The top
itself has no index. -/
def nth (op : Operation) (index : Value) (stack : Stack) : Except Failure Value :=
  match index with
  | .int (some n) =>
    if n < 1 then .error ((Cause.badIndex index).at op.loc)
    else
      match stack[n.toInt.toNat]? with
      | some v => .ok v
      | none => .error ((Cause.indexTooDeep n stack.length).at op.loc)
  | _ => .error ((Cause.badIndex index).at op.loc)

/-- Whether no rule is known for an action. -/
def isUnknown : Action → Bool
  | .unassigned _ | .primitive (.unassigned _) => true
  | _ => false

/-- The stack after an operation. -/
def step (op : Operation) (stack : Stack) : Except Failure Stack :=
  if isUnknown op.action then .error ((Cause.uncheckable op.action).at op.loc)
  else
    match operands op (patterns op.action) stack with
    | .error e => .error e
    | .ok (vs, rest) =>
      if op.action = .primitive .getNth then
        match vs with
        | index :: _ => (nth op index rest).map (· :: rest)
        | [] => .ok rest
      else (results op vs).map (· ++ rest)

/-- The kind of data that an operation needs. -/
def dataKind? (op : Operation) : Option DataKind :=
  match op.action with
  | .pushString => some .string
  | .pushCString => some .cstring
  | .pushArray => some .array
  | .primitive .input => some .buffer
  | _ => none

/-- The data that the operations of a program need, in order. -/
def statics (prog : Program) : List Static :=
  prog.filterMap fun op => (dataKind? op).map fun kind => ⟨op, kind⟩

/-- The stack after a program. -/
def steps (prog : Program) (stack : Stack) : Except Failure Stack :=
  prog.foldlM (fun s op => step op s) stack

/-- The stacks after the operations of a program that succeed, and what stops it. -/
def trace : Program → Stack → List (Operation × Stack) × Except Failure Stack
  | [], stack => ([], .ok stack)
  | op :: prog, stack =>
    match step op stack with
    | .error e => ([], .error e)
    | .ok next =>
      let (rest, last) := trace prog next
      ((op, next) :: rest, last)

/-- What is known of a program that starts with an empty stack. -/
def run (prog : Program) : Except Failure Analysis :=
  (steps prog []).map fun stack => ⟨stack, statics prog⟩

/-- A trace ends as the program does. -/
theorem trace_snd (prog : Program) (stack : Stack) : (trace prog stack).2 = steps prog stack := by
  induction prog generalizing stack with
  | nil => rfl
  | cons op prog ih =>
    simp only [trace, steps, List.foldlM_cons]
    cases h : step op stack with
    | error e => rfl
    | ok next => exact ih next

end Check

end StackLang
