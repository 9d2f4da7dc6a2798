import StackLang.Proofs.GeneratedCode
import StackLang.Proofs.Rereading

/-!
# Places do not show

The place of a token is told in errors and nowhere else. Every stage behind the tokens does the same
to a program without places: it gives the same results, and fails for the same causes.

- `Token.bare`, `Operation.bare`, `Failure.bare`: without places; `stripped`: a result of a stage.
- `Program.ofTokensFrom_bare`, `Check.steps_bare`, `Blocks.resolve_bare`: the stages.
- `Codegen.layout_bare`: the assembly of a program.
-/

set_option autoImplicit false

namespace StackLang

/-! ## Without places -/

/-- An operation without its place. -/
def Operation.bare (op : Operation) : Operation := { op with token := op.token.bare }

/-- A cause that names operations without their places. -/
def Cause.bare : Cause → Cause
  | .doAfter previous => .doAfter previous.bare
  | .doRepeated previous => .doRepeated previous.bare
  | .missingDo opener closer => .missingDo opener.bare closer
  | cause => cause

/-- A failure without its place. -/
def Failure.bare : Failure → Failure
  | .error e => e.cause.bare.at ⟨[], 0, 0⟩
  | .unreadable _ path reason => .unreadable ⟨[], 0, 0⟩ path reason
  | .inconsistent file fault => .inconsistent file fault
  | .outOfTable => .outOfTable

/-- The kind under which users see a failure, if it has one. -/
def Failure.kind? : Failure → Option ErrorKind
  | .error e => some e.cause.kind
  | _ => none

theorem Failure.kind?_bare (f : Failure) : f.bare.kind? = f.kind? := by
  cases f with
  | error e =>
    obtain ⟨cause, loc⟩ := e
    cases cause <;> rfl
  | _ => rfl

/-- A result whose failure has no place. -/
def stripped {α : Type} : Except Failure α → Except Failure α
  | .ok a => .ok a
  | .error f => .error f.bare

section
variable {α β : Type}

@[simp] theorem stripped_ok (a : α) : stripped (.ok a) = .ok a := rfl

@[simp] theorem stripped_error (f : Failure) :
    stripped (.error f : Except Failure α) = .error f.bare := rfl

theorem map_ok (a : α) (f : α → β) : (.ok a : Except Failure α).map f = .ok (f a) := rfl

theorem stripped_map (x : Except Failure α) (f : α → β) :
    stripped (x.map f) = (stripped x).map f := by
  cases x <;> rfl

theorem bare_of_stripped {x : Except Failure α} (h : stripped x = x) {f : Failure}
    (hx : x = .error f) : f.bare = f := by
  subst hx
  exact Except.error.inj h

end

/-! ## Operations and the check of the stack -/

theorem Action.ofToken_bare (t : Token) : Action.ofToken t.bare = stripped (Action.ofToken t) := by
  obtain ⟨kind, text, loc⟩ := t
  cases kind with
  | keyword =>
    simp only [Token.bare, TokenKind.reread, Action.ofToken]
    cases Keyword.ofName? text <;> rfl
  | word =>
    simp only [Token.bare, TokenKind.reread, Action.ofToken]
    cases Primitive.ofName? text <;> rfl
  | integer | boolean =>
    simp only [Token.bare, TokenKind.reread, Action.ofToken]
    cases Number.decimal text <;> rfl
  | string | cstring | array | unassigned => rfl

theorem Program.ofTokensFrom_bare (start : Nat) (ts : List Token) :
    ofTokensFrom start (ts.map Token.bare)
      = (stripped (ofTokensFrom start ts)).map (·.map Operation.bare) := by
  induction ts generalizing start with
  | nil => rfl
  | cons t ts ih =>
    simp only [List.map_cons, ofTokensFrom, Action.ofToken_bare]
    cases Action.ofToken t with
    | error f => rfl
    | ok action =>
      simp only [stripped_ok, ih]
      cases ofTokensFrom (start + 1) ts <;> rfl

namespace Check

theorem operands_bare (op : Operation) (ps : List Pattern) (stack : StackLang.Stack) :
    operands op.bare ps stack = stripped (operands op ps stack) := by
  unfold operands
  split
  · rfl
  · cases (ps.zip stack).find? fun pv => !pv.1.accepts pv.2 <;> rfl

theorem division_bare (op : Operation) (p : Primitive) (a b : Option Int64) :
    division op.bare p a b = stripped (division op p a b) := by
  unfold division
  cases a with
  | none => cases p <;> rfl
  | some a =>
    cases b with
    | none => cases p <;> rfl
    | some b =>
      dsimp only
      split
      · rfl
      · cases p <;> rfl

theorem primitiveResults_bare (op : Operation) (p : Primitive) (vs : List Value) :
    primitiveResults op.bare p vs = stripped (primitiveResults op p vs) := by
  unfold primitiveResults
  split
  case h_1 | h_2 | h_3 => exact division_bare op _ _ _
  case h_18 => split <;> rfl
  all_goals rfl

theorem results_bare (op : Operation) (vs : List Value) :
    results op.bare vs = stripped (results op vs) := by
  obtain ⟨index, action, token⟩ := op
  cases action with
  | keyword k => cases k <;> rfl
  | primitive p => exact primitiveResults_bare _ p vs
  | pushString =>
    simp only [results, Operation.bare, Token.bare]
    cases Literal.unquote token.text <;> rfl
  | pushInt | pushCString | pushArray | unassigned => rfl

theorem nth_bare (op : Operation) (index : Value) (stack : StackLang.Stack) :
    nth op.bare index stack = stripped (nth op index stack) := by
  unfold nth
  split
  · split
    · rfl
    · split <;> rfl
  · rfl

theorem step_bare (op : Operation) (stack : StackLang.Stack) :
    step op.bare stack = stripped (step op stack) := by
  have haction : op.bare.action = op.action := rfl
  simp only [step, haction, operands_bare, nth_bare, results_bare]
  split
  · rfl
  · cases operands op (patterns op.action) stack with
    | error f => rfl
    | ok taken =>
      obtain ⟨vs, rest⟩ := taken
      dsimp only [stripped_ok]
      split
      · cases vs with
        | nil => rfl
        | cons index vs => exact (stripped_map _ _).symm
      · exact (stripped_map _ _).symm

theorem steps_bare (prog : Program) (stack : StackLang.Stack) :
    steps (prog.map Operation.bare) stack = stripped (steps prog stack) := by
  induction prog generalizing stack with
  | nil => rfl
  | cons op prog ih =>
    simp only [steps, List.map_cons, List.foldlM_cons, step_bare]
    cases step op stack with
    | error f => rfl
    | ok next => exact ih next

end Check

/-! ## Blocks -/

namespace BlockTable

-- A table knows no places, so what it refuses is refused without one.

theorem stripped_setEntry (t : Array (Option Nat)) (place value : Option Nat) :
    stripped (setEntry t place value) = setEntry t place value := by
  unfold setEntry
  split
  · rfl
  · split <;> rfl

theorem stripped_setOpener (t : BlockTable) (place value : Option Nat) :
    stripped (t.setOpener place value) = t.setOpener place value := by
  rw [setOpener, stripped_map, stripped_setEntry]

theorem stripped_setTarget (t : BlockTable) (place value : Option Nat) :
    stripped (t.setTarget place value) = t.setTarget place value := by
  rw [setTarget, stripped_map, stripped_setEntry]

theorem stripped_setTargets (t : BlockTable) (places : List (Option Nat)) (value : Option Nat) :
    stripped (t.setTargets places value) = t.setTargets places value := by
  induction places generalizing t with
  | nil => rfl
  | cons place places ih =>
    simp only [setTargets, List.foldlM_cons]
    cases hs : t.setTarget place value with
    | error f => exact congrArg Except.error (bare_of_stripped (stripped_setTarget _ _ _) hs)
    | ok t => exact ih t

end BlockTable

namespace Blocks

section
variable (prog : Program) (op : Operation) (st : State)

theorem operationAt_bare (place : Nat) : operationAt (prog.map Operation.bare) place
    = (stripped (operationAt prog place)).map Operation.bare := by
  rw [operationAt, operationAt, List.getElem?_map]
  cases prog[place]? <;> rfl

theorem requireTest_bare (b : OpenBlock) : requireTest (prog.map Operation.bare) b op.bare
    = stripped (requireTest prog b op) := by
  simp only [requireTest, operationAt_bare]
  cases b.awaiting with
  | none => rfl
  | some place =>
    dsimp only
    cases operationAt prog place <;> rfl

theorem takeTest_bare : takeTest (prog.map Operation.bare) op.bare st
    = stripped (takeTest prog op st) := by
  simp only [takeTest, operationAt_bare]
  cases st.last with
  | none => rfl
  | some place =>
    dsimp only
    cases operationAt prog place with
    | error f => rfl
    | ok previous =>
      have haction : previous.bare.action = previous.action := rfl
      simp only [stripped_ok, map_ok, haction]
      split
      · rfl
      cases st.blocks with
      | nil => rfl
      | cons b bs =>
        dsimp only
        split
        · rfl
        · rw [stripped_map, BlockTable.stripped_setOpener]
          rfl

theorem takeBranch_bare (isElse : Bool) : takeBranch (prog.map Operation.bare) isElse op.bare st
    = stripped (takeBranch prog isElse op st) := by
  simp only [takeBranch, requireTest_bare]
  cases innermost? false st with
  | none => rfl
  | some top =>
    dsimp only
    split
    · rfl
    cases requireTest prog top.1 op with
    | error f => rfl
    | ok u =>
      dsimp only [stripped_ok]
      rw [stripped_map, BlockTable.stripped_setTarget]
      rfl

theorem closeIf_bare : closeIf (prog.map Operation.bare) op.bare st
    = stripped (closeIf prog op st) := by
  simp only [closeIf, requireTest_bare]
  cases innermost? false st with
  | none => rfl
  | some top =>
    dsimp only
    cases requireTest prog top.1 op with
    | error f => rfl
    | ok u =>
      dsimp only [stripped_ok]
      rw [stripped_map, BlockTable.stripped_setTargets]
      rfl

theorem closeLoop_bare : closeLoop (prog.map Operation.bare) op.bare st
    = stripped (closeLoop prog op st) := by
  have hplace : op.bare.place? = op.place? := rfl
  simp only [closeLoop, requireTest_bare, hplace]
  cases innermost? true st with
  | none => rfl
  | some top =>
    dsimp only
    cases requireTest prog top.1 op with
    | error f => rfl
    | ok u =>
      dsimp only [stripped_ok]
      cases hs : st.table.setTarget top.1.test op.place? with
      | error f =>
        have hf := bare_of_stripped (BlockTable.stripped_setTarget _ _ _) hs
        exact congrArg Except.error hf.symm
      | ok table =>
        dsimp only
        cases hs : table.setTarget op.place? top.1.start with
        | error f =>
          have hf := bare_of_stripped (BlockTable.stripped_setTarget _ _ _) hs
          exact congrArg Except.error hf.symm
        | ok table =>
          dsimp only
          rw [stripped_map, BlockTable.stripped_setTargets]

theorem takeBreak_bare : takeBreak op.bare st = stripped (takeBreak op st) := by
  have hplace : op.bare.place? = op.place? := rfl
  simp only [takeBreak, hplace]
  cases addExit op.place? st.blocks <;> rfl

theorem visit_bare : visit (prog.map Operation.bare) op.bare st = stripped (visit prog op st) := by
  have haction : op.bare.action = op.action := rfl
  simp only [visit, haction, takeTest_bare, takeBranch_bare, closeIf_bare, closeLoop_bare,
    takeBreak_bare]
  cases op.action with
  | keyword k => cases k <;> rfl
  | _ => rfl

theorem step_bare : step (prog.map Operation.bare) st op.bare = stripped (step prog st op) := by
  have haction : op.bare.action = op.action := rfl
  simp only [step, haction, visit_bare]
  split
  · exact (stripped_map _ _).symm
  · rfl

end

theorem foldlM_bare (prog : Program) (ops : List Operation) (st : State) :
    (ops.map Operation.bare).foldlM (step (prog.map Operation.bare)) st
      = stripped (ops.foldlM (step prog) st) := by
  induction ops generalizing st with
  | nil => rfl
  | cons op ops ih =>
    simp only [List.map_cons, List.foldlM_cons, step_bare]
    cases step prog st op with
    | error f => rfl
    | ok next => exact ih next

theorem resolve_bare (prog : Program) :
    resolve (prog.map Operation.bare) = stripped (resolve prog) := by
  have hstart : start (prog.map Operation.bare) = start prog := by
    rw [start, start, List.length_map]
  simp only [resolve, hstart, foldlM_bare, operationAt_bare]
  cases prog.foldlM (step prog) (start prog) with
  | error f => rfl
  | ok st =>
    dsimp only [stripped_ok]
    cases st.blocks with
    | nil => rfl
    | cons b bs =>
      dsimp only
      cases b.start with
      | none => rfl
      | some place =>
        dsimp only
        cases operationAt prog place <;> rfl

end Blocks

/-! ## Code -/

namespace Codegen

section
variable (prog : Program) (table : BlockTable) (size : Int) (op : Operation)

theorem partner_bare : partner (prog.map Operation.bare) table op.bare
    = stripped (partner prog table op) := by
  have hindex : op.bare.index = op.index := rfl
  simp only [partner, hindex, Blocks.operationAt_bare]
  cases table.target? op.index with
  | none => rfl
  | some place =>
    dsimp only
    cases Blocks.operationAt prog place <;> rfl

theorem keyword_bare (k : Keyword) : keyword (prog.map Operation.bare) table op.bare k
    = stripped (keyword prog table op k) := by
  have hlabel : op.bare.label = op.label := rfl
  cases k with
  | ifKw | whileKw | endifKw | endKw => rfl
  | elifKw | elseKw | doKw | doneKw | breakKw =>
    simp only [keyword, partner_bare, hlabel]
    exact (stripped_map _ _).symm

theorem code_bare : code (prog.map Operation.bare) table size op.bare
    = stripped (code prog table size op) := by
  obtain ⟨index, action, token⟩ := op
  cases action with
  | keyword k => exact keyword_bare prog table _ k
  | primitive p =>
    simp only [code, Operation.bare]
    cases primitive size index p <;> rfl
  | pushString =>
    simp only [code, Operation.bare, Token.bare]
    cases Literal.unquote token.text <;> rfl
  | pushInt | pushCString | pushArray | unassigned => rfl

theorem opLines_bare : opLines (prog.map Operation.bare) table size op.bare
    = opLines prog table size op := by
  have htemplate : template (prog.map Operation.bare) table size op.bare
      = template prog table size op := by
    rw [template, template, code_bare]
    cases code prog table size op <;> rfl
  rw [opLines, opLines, htemplate]
  rfl

/-- The assembly of a program does not tell where its operations stand. -/
theorem layout_bare : layout (prog.map Operation.bare) table size = layout prog table size := by
  have hdata : ∀ o : Operation, dataLines o.bare = dataLines o := fun _ => rfl
  have hreserved : ∀ o : Operation, reservations size o.bare = reservations size o := fun _ => rfl
  have hdeclared : ∀ o : Operation, declared o.bare = declared o := fun _ => rfl
  simp only [layout, List.flatMap_map, hdata, hreserved, hdeclared, opLines_bare]

end

end Codegen

end StackLang
