import StackLang.Proofs.Machine

/-!
# Structured semantics

What a program does, told along its block tree. A run works through a list of items: the sequences
that are still to be run, the tests of branches and loops that are under way, and what closes them.
Numbers are words, pointers among them; a `World` says what the surroundings contribute.

- `Source.primitive`, `Source.plain`: what an operation makes of the stack.
- `Source.advance`: one operation in its place in the tree.
- `Source.visits`: the run of a program, which shows each operation that control comes to together
  with the stack there.

A run faults when a division has no result, and fails when the stack holds too few values for an
operation.
-/

set_option autoImplicit false

namespace StackLang.Source

open Machine BlockTree

/-- The operand stack, top first, and the number of system calls so far. -/
structure State where
  stack : List Word
  calls : Nat

/-! ## Simple operations -/

/-- Whether a division has no result: by zero, or out of range. -/
def faults (a b : Word) : Bool := b = 0#64 || a = BitVec.intMin 64 && b = -1#64

/-- What a primitive makes of two numbers. -/
def arithmetic (p : Primitive) (a b : Word) : Option Word :=
  (Fold.binary? p (.ofBitVec a) (.ofBitVec b)).map Int64.toBitVec

/-- The stack after a primitive that concerns nothing else. -/
def rearrange : Primitive → List Word → Option (List Word)
  | .dup, a :: s => some (a :: a :: s)
  | .dup2, b :: a :: s => some (b :: a :: b :: a :: s)
  | .drop, _ :: s => some s
  | .over, b :: a :: s => some (a :: b :: a :: s)
  | .rot, c :: b :: a :: s => some (a :: c :: b :: s)
  | .swap, b :: a :: s => some (a :: b :: s)
  | .swap2, d :: c :: b :: a :: s => some (b :: a :: d :: c :: s)
  | .getNth, n :: s => s[n.toNat]?.map (· :: s)
  | p, b :: a :: s => (arithmetic p a b).map (· :: s)
  | _, _ => none

/-- Divides; the stack afterwards depends on the quotient and the remainder. -/
def divide (a b : Word) (calls : Nat) (stack : Word → Word → List Word) : Outcome State :=
  if faults a b then .faulted else .running ⟨stack (a.sdiv b) (a.srem b), calls⟩

/-- Calls the system, which may not return; the stack afterwards depends on what it returns. -/
def call (w : World) (calls : Nat) (stack : Word → List Word) : Outcome State :=
  match w.reply calls with
  | none => .ended
  | some v => .running ⟨stack v, calls + 1⟩

/-- The run after a primitive with an index. -/
def primitive (w : World) (index : Int) (p : Primitive) (s : State) : Outcome State :=
  match p, s.stack with
  | .div, b :: a :: rest => divide a b s.calls fun q _ => q :: rest
  | .mod, b :: a :: rest => divide a b s.calls fun _ r => r :: rest
  | .divmod, b :: a :: rest => divide a b s.calls fun q r => r :: q :: rest
  | .printInt, _ :: rest => call w s.calls fun _ => rest
  | .puts, _ :: _ :: rest => call w s.calls fun _ => rest
  | .input, stack => call w s.calls fun v => w.address (Symbol.input index).name :: v :: stack
  | .exit, _ :: _ => .ended
  | .argc, stack => .running { s with stack := w.argc :: stack }
  | .argv, stack => .running { s with stack := (w.base + 8#64) :: stack }
  | .syscall args, number :: rest =>
    if rest.length < args then .failed
    else if number = 60#64 then .ended
    else call w s.calls fun v => v :: rest.drop args
  | p, stack =>
    match rearrange p stack with
    | none => .failed
    | some stack => .running { s with stack }

/-- The run after an operation that takes no part in the block structure. -/
def plain (w : World) (op : Operation) (s : State) : Outcome State :=
  match op.action with
  | .pushInt => .running { s with stack := op.intValue.toBitVec :: s.stack }
  | .pushString =>
    match Literal.unquote op.token.text with
    | .error _ => .failed
    | .ok bytes =>
      let sym := (Symbol.string op.index).name
      .running { s with stack := w.address sym :: BitVec.ofNat 64 bytes.length :: s.stack }
  | .pushCString =>
    .running { s with stack := w.address (Symbol.cstring op.index).name :: s.stack }
  | .pushArray => .running { s with stack := w.address (Symbol.array op.index).name :: s.stack }
  | .primitive p => primitive w op.index p s
  | .keyword _ | .unassigned _ => .failed

/-- `IF`, `ELIF` and `WHILE` duplicate the top of the stack. -/
def duplicate (s : State) : Outcome State :=
  match s.stack with
  | [] => .failed
  | a :: rest => .running { s with stack := a :: a :: rest }

/-! ## Structure -/

/-- What is still to be done. -/
inductive Item where
  | plain (op : Plain)
  | code {l : Bool} (c : Code l)
  /-- The `DO` of a branch, its body, and the rest of the conditional. -/
  | test {l : Bool} (test : Mark .doKw) (body : Code l) (chain : Chain l)
  /-- What follows a branch that has been run. -/
  | pass {l : Bool} (chain : Chain l)
  /-- The `DO` of a loop. -/
  | guard (head : Head .whileKw) (body : Code true) (done : Mark .doneKw)
  /-- The `DONE` of a loop whose body is being run. -/
  | again (head : Head .whileKw) (body : Code true) (done : Mark .doneKw)

/-- A run between two operations. -/
structure Config where
  work : List Item
  state : State

/-- Goes on with `work`. -/
def proceed (work : List Item) : Outcome State → Outcome Config
  | .running s => .running ⟨work, s⟩
  | .ended => .ended
  | .faulted => .faulted
  | .failed => .failed

/-- Control comes to an operation in order. -/
def visit (op : Operation) (s : State) : Visit := .seen (.start op) s.stack

/-- Control comes to the label of an operation. -/
def arrive (op : Operation) (s : State) : Visit := .seen (.label op) s.stack

/-- The operations of a condition. -/
def condition {k : Keyword} (head : Head k) : List Item := head.condition.map .plain

/-- A test has failed: the next branch is tried, or the last one is run, or there is none. -/
def enter {l : Bool} (chain : Chain l) (work : List Item) (s : State) : Outcome Config :=
  match chain with
  | .close _ => .running ⟨work, s⟩
  | .otherwise _ body endif => .running ⟨.code body :: .pass (.close endif : Chain l) :: work, s⟩
  | .elif head body chain =>
    proceed (condition head ++ .test head.test body chain :: work) (duplicate s)

/-- The end of the innermost loop that is being run, and what follows it. -/
def innermost : List Item → Option (Operation × List Item)
  | [] => none
  | .again _ _ done :: work => some (done.1, work)
  | _ :: work => innermost work

/-- The `DO` pops the condition and the value below it, and continues by the condition. -/
def branch (test : Operation) (s : State) (yes no : State → List Visit × Outcome Config) :
    List Visit × Outcome Config :=
  match s.stack with
  | v :: _ :: rest =>
    let (shown, o) := (if v = 0#64 then no else yes) { s with stack := rest }
    (visit test s :: shown, o)
  | _ => ([visit test s], .failed)

/-- The next operation of what is to be done. -/
def advance (w : World) : List Item → State → List Visit × Outcome Config
  | [], s => ([.seen .finish s.stack], .ended)
  | .plain op :: work, s => ([visit op.1 s], proceed work (plain w op.1 s))
  | .code .nil :: work, s => advance w work s
  | .code (.plain op rest) :: work, s =>
    ([visit op.1 s], proceed (.code rest :: work) (plain w op.1 s))
  | .code (.leave op _) :: work, s =>
    match innermost work with
    | none => ([visit op.1 s], .failed)
    | some (done, work) => ([visit op.1 s, arrive done s], .running ⟨work, s⟩)
  | .code (.cond head body chain rest) :: work, s =>
    ([visit head.opener.1 s],
      proceed (condition head ++ .test head.test body chain :: .code rest :: work) (duplicate s))
  | .code (.loop head body done rest) :: work, s =>
    ([visit head.opener.1 s, arrive head.opener.1 s],
      proceed (condition head ++ .guard head body done :: .code rest :: work) (duplicate s))
  | .test test body chain :: work, s =>
    branch test.1 s (fun s => ([], .running ⟨.code body :: .pass chain :: work, s⟩))
      fun s => ([arrive chain.first s], enter chain work s)
  | .pass chain :: work, s =>
    ([visit chain.first s, arrive chain.endif s], .running ⟨work, s⟩)
  | .guard head body done :: work, s =>
    branch head.test.1 s (fun s => ([], .running ⟨.code body :: .again head body done :: work, s⟩))
      fun s => ([arrive done.1 s], .running ⟨work, s⟩)
  | .again head body done :: work, s =>
    ([visit done.1 s, arrive head.opener.1 s],
      proceed (condition head ++ .guard head body done :: work) (duplicate s))

/-- The run of a program, observed at each operation that control comes to. -/
def visits (w : World) : System Config Visit := fun c => advance w c.work c.state

/-- The start of a program. -/
def start (c : Code false) : Config := ⟨[.code c], ⟨[], 0⟩⟩

end StackLang.Source
