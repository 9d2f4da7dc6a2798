import StackLang.Error

/-!
# Blocks

The structural operations of a program pair up into conditionals and loops. The block table says
for each of them where control goes:

- a `DO` knows the `IF`, `ELIF` or `WHILE` it belongs to (its opener) and, as its target, the next
  `ELIF`, `ELSE` or `ENDIF` of its conditional or the `DONE` of its loop;
- `ELIF` and `ELSE` go to their `ENDIF`, `BREAK` to the `DONE` of the innermost loop, `DONE` to its
  `WHILE`, and a `WHILE` knows its `DONE`.

The table is indexed by position. An operation with a negative index has no place in it; using a
place outside the table is a failure of its own (`Failure.outOfTable`).
-/

set_option autoImplicit false

namespace StackLang

/-- For each place the opener and the target of the operation there. -/
structure BlockTable where
  openers : Array (Option Nat)
  targets : Array (Option Nat)
  deriving DecidableEq, Repr

namespace BlockTable

/-- A table of `n` places without entries. -/
def empty (n : Nat) : BlockTable := ⟨Array.replicate n none, Array.replicate n none⟩

/-- The entry for an index. -/
def entry? (t : Array (Option Nat)) (index : Int) : Option Nat :=
  index.toNat?.bind fun i => t[i]?.join

/-- The opener that the `DO` with an index belongs to. -/
def opener? (t : BlockTable) (index : Int) : Option Nat := entry? t.openers index

/-- Where control goes from the operation with an index. -/
def target? (t : BlockTable) (index : Int) : Option Nat := entry? t.targets index

/-- Sets the entry of a place. -/
def setEntry (t : Array (Option Nat)) (place value : Option Nat) :
    Except Failure (Array (Option Nat)) :=
  match place with
  | none => .error .outOfTable
  | some i => if h : i < t.size then .ok (t.set i value) else .error .outOfTable

/-- Sets the opener of a place. -/
def setOpener (t : BlockTable) (place value : Option Nat) : Except Failure BlockTable :=
  (setEntry t.openers place value).map fun a => { t with openers := a }

/-- Sets the target of a place. -/
def setTarget (t : BlockTable) (place value : Option Nat) : Except Failure BlockTable :=
  (setEntry t.targets place value).map fun a => { t with targets := a }

/-- Sets the target of several places. -/
def setTargets (t : BlockTable) (places : List (Option Nat)) (value : Option Nat) :
    Except Failure BlockTable :=
  places.foldlM (fun t place => t.setTarget place value) t

end BlockTable

/-- A conditional or a loop that is not closed yet. Places are `none` for negative indices. -/
structure OpenBlock where
  /-- The `IF` or `WHILE`. -/
  start : Option Nat
  isLoop : Bool
  /-- The `IF`, `ELIF` or `WHILE` whose `DO` has not come. -/
  awaiting : Option Nat
  /-- The `DO` of the current branch. -/
  test : Option Nat
  sawElse : Bool
  /-- The `ELIF`, `ELSE` or `BREAK` operations that go to the end of the block. -/
  exits : List (Option Nat)
  deriving DecidableEq, Repr

namespace Blocks

/-- Where the resolution of a program stands. -/
structure State where
  table : BlockTable
  /-- The open blocks, the innermost first. -/
  blocks : List OpenBlock
  /-- The place of the last structural operation. -/
  last : Option Nat
  deriving DecidableEq, Repr

/-- The operation at a place. -/
def operationAt (prog : Program) (place : Nat) : Except Failure Operation :=
  match prog[place]? with
  | some op => .ok op
  | none => .error .outOfTable

/-- Fails when the current branch of a block has no `DO` before `closer`. -/
def requireTest (prog : Program) (block : OpenBlock) (closer : Operation) : Except Failure Unit :=
  match block.awaiting with
  | none => .ok ()
  | some place =>
    match operationAt prog place with
    | .error e => .error e
    | .ok opener => .error ((Cause.missingDo opener closer.action).at closer.loc)

/-- Adds an exit to the innermost loop. -/
def addExit (place : Option Nat) : List OpenBlock → Option (List OpenBlock)
  | [] => none
  | b :: bs =>
    if b.isLoop then some ({ b with exits := b.exits ++ [place] } :: bs)
    else (addExit place bs).map (b :: ·)

/-- Whether a `DO` may follow an action. -/
def opensTest : Action → Bool
  | .keyword .ifKw | .keyword .elifKw | .keyword .whileKw => true
  | _ => false

/-- The innermost open block, when it is of the wanted sort. -/
def innermost? (isLoop : Bool) (st : State) : Option (OpenBlock × List OpenBlock) :=
  match st.blocks with
  | b :: bs => if b.isLoop = isLoop then some (b, bs) else none
  | [] => none

/-- Opens a block. -/
def opening (isLoop : Bool) (op : Operation) (st : State) : State :=
  let block : OpenBlock := ⟨op.place?, isLoop, op.place?, none, false, []⟩
  { st with blocks := block :: st.blocks }

/-- Takes a `DO` into the innermost block. -/
def takeTest (prog : Program) (op : Operation) (st : State) : Except Failure State :=
  match st.last with
  | none => .error (Cause.doWithoutOpener.at op.loc)
  | some place =>
    match operationAt prog place with
    | .error e => .error e
    | .ok previous =>
      if !opensTest previous.action then .error ((Cause.doAfter previous).at op.loc)
      else
        match st.blocks with
        | [] => .error ((Cause.doRepeated previous).at op.loc)
        | b :: bs =>
          if b.awaiting ≠ some place then .error ((Cause.doRepeated previous).at op.loc)
          else
            (st.table.setOpener op.place? (some place)).map fun table =>
              { st with table, blocks := { b with test := op.place?, awaiting := none } :: bs }

/-- Starts the next branch of a conditional with an `ELIF` or an `ELSE`. -/
def takeBranch (prog : Program) (isElse : Bool) (op : Operation) (st : State) :
    Except Failure State :=
  match innermost? false st with
  | none => .error ((Cause.withoutIf op.action).at op.loc)
  | some (b, bs) =>
    if b.sawElse then .error ((Cause.afterElse op.action).at op.loc)
    else
      match requireTest prog b op with
      | .error e => .error e
      | .ok () =>
        (st.table.setTarget b.test op.place?).map fun table =>
          let block := { b with
            exits := b.exits ++ [op.place?]
            test := none
            awaiting := if isElse then b.awaiting else op.place?
            sawElse := isElse }
          { st with table, blocks := block :: bs }

/-- Closes a conditional. -/
def closeIf (prog : Program) (op : Operation) (st : State) : Except Failure State :=
  match innermost? false st with
  | none => .error ((Cause.withoutIf op.action).at op.loc)
  | some (b, bs) =>
    match requireTest prog b op with
    | .error e => .error e
    | .ok () =>
      let tests := if b.test.isSome then [b.test] else []
      (st.table.setTargets (tests ++ b.exits) op.place?).map fun table =>
        { st with table, blocks := bs }

/-- Closes a loop. -/
def closeLoop (prog : Program) (op : Operation) (st : State) : Except Failure State :=
  match innermost? true st with
  | none => .error (Cause.withoutWhile.at op.loc)
  | some (b, bs) =>
    match requireTest prog b op with
    | .error e => .error e
    | .ok () =>
      match st.table.setTarget b.test op.place? with
      | .error e => .error e
      | .ok table =>
        match table.setTarget op.place? b.start with
        | .error e => .error e
        | .ok table =>
          (table.setTargets (b.start :: b.exits) op.place?).map fun table =>
            { st with table, blocks := bs }

/-- Takes a `BREAK` into the innermost loop. -/
def takeBreak (op : Operation) (st : State) : Except Failure State :=
  match addExit op.place? st.blocks with
  | none => .error (Cause.breakOutside.at op.loc)
  | some blocks => .ok { st with blocks }

/-- Takes one structural operation. -/
def visit (prog : Program) (op : Operation) (st : State) : Except Failure State :=
  match op.action with
  | .keyword .ifKw => .ok (opening false op st)
  | .keyword .whileKw => .ok (opening true op st)
  | .keyword .doKw => takeTest prog op st
  | .keyword .elifKw => takeBranch prog false op st
  | .keyword .elseKw => takeBranch prog true op st
  | .keyword .endifKw => closeIf prog op st
  | .keyword .doneKw => closeLoop prog op st
  | .keyword .breakKw => takeBreak op st
  | .keyword .endKw => .error (Cause.endOutside.at op.loc)
  | action => .error ((Cause.unresolvable action).at op.loc)

/-- Takes one operation; only structural ones count. -/
def step (prog : Program) (st : State) (op : Operation) : Except Failure State :=
  if op.action.isStructural then
    (visit prog op st).map fun st => { st with last := op.place? }
  else .ok st

/-- The state before the first operation. -/
def start (prog : Program) : State := ⟨BlockTable.empty prog.length, [], none⟩

/-- The block table of a program. -/
def resolve (prog : Program) : Except Failure BlockTable :=
  match prog.foldlM (step prog) (start prog) with
  | .error e => .error e
  | .ok st =>
    match st.blocks with
    | [] => .ok st.table
    | b :: _ =>
      match b.start with
      | none => .error .outOfTable
      | some place =>
        match operationAt prog place with
        | .error e => .error e
        | .ok opener => .error ((Cause.neverClosed opener.action).at opener.loc)

end Blocks

end StackLang
