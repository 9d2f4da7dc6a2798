import StackLang.Proofs.StackEffect

/-!
# The check on deeper stacks

A step of the check looks at the operands of its operation and at the entry that an index picks, which
is counted from the top. What lies further down neither matters nor changes, so operations that pass
the check on one stack pass it on every stack that has more beneath.

- `advance`, `advanceAll`: the check as a walk that registers data on its way, and
  `run_eq_advanceAll`: what is known of a program is what the walk ends with.
- `step_frame`: one operation on a deeper stack. `steps_frame`: a list of them.
- `checks_on_deeper_stacks`: so they do behind every program that leaves the stack they need.
-/

set_option autoImplicit false

namespace StackLang.Check

/-! ## The walk -/

/-- What is known after an operation: the stack, and the data with those that it registers. -/
def advance (a : Analysis) (op : Operation) : Except Failure Analysis :=
  (step op a.stack).map fun stack => ⟨stack, a.statics ++ statics [op]⟩

/-- What is known after operations that start with what is known before them. -/
def advanceAll (prog : Program) (a : Analysis) : Except Failure Analysis := prog.foldlM advance a

theorem advanceAll_append (before prog : Program) (a : Analysis) :
    advanceAll (before ++ prog) a = advanceAll before a >>= advanceAll prog := List.foldlM_append

theorem statics_cons (op : Operation) (prog : Program) :
    statics (op :: prog) = statics [op] ++ statics prog :=
  List.filterMap_append (l := [op])

/-- A walk leads to the stack of the steps, and registers the data of the operations in order. -/
theorem advanceAll_eq (prog : Program) (a : Analysis) : advanceAll prog a
    = (steps prog a.stack).map fun stack => ⟨stack, a.statics ++ statics prog⟩ := by
  induction prog generalizing a with
  | nil =>
    have hnone : a.statics ++ statics [] = a.statics := List.append_nil _
    rw [hnone]
    rfl
  | cons op prog ih =>
    rw [advanceAll, List.foldlM_cons, advance, steps, List.foldlM_cons]
    cases step op a.stack with
    | error e => rfl
    | ok next =>
      refine (ih _).trans ?_
      rw [statics_cons op prog, ← List.append_assoc]
      rfl

/-- **What is known of a program is what the walk ends with**, from an empty stack. -/
theorem run_eq_advanceAll (prog : Program) : run prog = advanceAll prog ⟨[], []⟩ :=
  (advanceAll_eq prog ⟨[], []⟩).symm

/-! ## Deeper stacks -/

section
variable {op : Operation}

/-- Values that satisfy the patterns are taken from the top of any stack. -/
theorem operands_append {ps : List Pattern} {vs : List Value}
    (hv : List.Forall₂ (fun p v => Pattern.accepts p v = true) ps vs) (rest : Stack) :
    operands op ps (vs ++ rest) = .ok (vs, rest) := by
  have hnone : (ps.zip (vs ++ rest)).find? (fun pv => !pv.1.accepts pv.2) = none := by
    induction hv with
    | nil => rfl
    | cons hp _ ih =>
      rw [List.cons_append, List.zip_cons_cons, List.find?_cons_of_neg (by simp [hp])]
      exact ih
  have hlen := hv.length_eq
  rw [operands, if_neg (by rw [List.length_append]; omega), hnone, hlen]
  simp only [List.take_left, List.drop_left]

/-- An index counts from the top, so it picks the same entry. -/
theorem nth_frame {index v : Value} {stack : Stack} (h : nth op index stack = .ok v)
    (below : Stack) : nth op index (stack ++ below) = .ok v := by
  obtain ⟨n, rfl, hpos, hv⟩ := nth_ok h
  have hn : ¬n < 1 := fun hlt => by
    have hlt := Int64.lt_iff_toInt_lt.1 hlt
    have hone : (1 : Int64).toInt = 1 := rfl
    omega
  have hdeep : (stack ++ below)[n.toInt.toNat]? = some v := by
    obtain ⟨hlt, -⟩ := List.getElem?_eq_some_iff.1 hv
    rw [List.getElem?_append_left hlt, hv]
  simp only [nth, if_neg hn, hdeep]

/-- **One operation on a deeper stack** does the same, and leaves what is beneath. -/
theorem step_frame {stack next : Stack} (h : step op stack = .ok next) (below : Stack) :
    step op (stack ++ below) = .ok (next ++ below) := by
  obtain ⟨hknown, vs, rest, rfl, hv, hnext⟩ := step_cases h
  rw [List.append_assoc, step, if_neg (by rw [hknown]; exact Bool.false_ne_true),
    operands_append hv]
  dsimp only
  obtain ⟨hget, index, v, rfl, hnth, rfl⟩ | ⟨hget, rs, hr, rfl⟩ := hnext
  · rw [if_pos hget]
    dsimp only
    rw [nth_frame hnth below]
    rfl
  · rw [if_neg hget, hr, List.append_assoc]
    rfl

end

/-- **A list of operations on a deeper stack** does the same, and leaves what is beneath. -/
theorem steps_frame {prog : Program} {stack final : Stack} (h : steps prog stack = .ok final)
    (below : Stack) : steps prog (stack ++ below) = .ok (final ++ below) := by
  induction prog generalizing stack with
  | nil =>
    obtain rfl := Except.ok.inj h
    rfl
  | cons op prog ih =>
    obtain ⟨next, hstep, hsteps⟩ := steps_cons_ok h
    rw [steps, List.foldlM_cons, step_frame hstep below]
    exact ih hsteps

/-- **Operations that pass the check pass it on every deeper stack.** Let a list of operations lead
from a stack to another one and register some data. With anything beneath the stack, and whatever has
been registered before, it leads to the other stack with the same beneath and registers the same; and
so it does behind every program that leaves the stack on top of something. -/
theorem checks_on_deeper_stacks {prog : Program} {stack final : Stack} {found : List Static}
    (h : advanceAll prog ⟨stack, []⟩ = .ok ⟨final, found⟩) (below : Stack) (known : List Static) :
    advanceAll prog ⟨stack ++ below, known⟩ = .ok ⟨final ++ below, known ++ found⟩ ∧
    ∀ before, run before = .ok ⟨stack ++ below, known⟩ →
      run (before ++ prog) = .ok ⟨final ++ below, known ++ found⟩ := by
  have hframe : advanceAll prog ⟨stack ++ below, known⟩ = .ok ⟨final ++ below, known ++ found⟩ := by
    rw [advanceAll_eq] at h ⊢
    obtain ⟨stack', hsteps, heq⟩ := Failure.of_map_ok h
    obtain ⟨rfl, rfl⟩ := Analysis.mk.inj heq
    rw [steps_frame hsteps below]
    rfl
  refine ⟨hframe, fun before hbefore => ?_⟩
  rw [run_eq_advanceAll] at hbefore
  rw [run_eq_advanceAll, advanceAll_append, hbefore]
  exact hframe

/-- Picks the entry below the top, and pushes a string. -/
def reaching : Program :=
  [⟨4, .pushInt, ⟨.integer, "1", ⟨"a", 1, 1⟩⟩⟩,
   ⟨5, .primitive .getNth, ⟨.word, "GET_NTH", ⟨"a", 1, 3⟩⟩⟩,
   ⟨6, .pushString, ⟨.string, "\"ab\"", ⟨"a", 1, 11⟩⟩⟩]

/-- Pushes a pointer and two numbers. -/
def supplying : Program :=
  [⟨1, .primitive .argv, ⟨.word, "ARGV", ⟨"a", 1, 1⟩⟩⟩,
   ⟨2, .pushInt, ⟨.integer, "7", ⟨"a", 1, 6⟩⟩⟩,
   ⟨3, .pushInt, ⟨.integer, "8", ⟨"a", 1, 8⟩⟩⟩]

theorem checks_on_deeper_stacks_reaching :
    advanceAll reaching ⟨[.known 8, .known 7], []⟩
      = .ok ⟨[.ptr (.data (.string 6)), .known 2, .known 7, .known 8, .known 7], statics reaching⟩ ∧
    run supplying = .ok ⟨[.known 8, .known 7, .ptr .argv], []⟩ ∧
    run (supplying ++ reaching) = .ok ⟨[.ptr (.data (.string 6)), .known 2, .known 7, .known 8,
      .known 7, .ptr .argv], statics reaching⟩ := by
  have hwalk : advanceAll reaching ⟨[.known 8, .known 7], []⟩ = .ok ⟨[.ptr (.data (.string 6)),
    .known 2, .known 7, .known 8, .known 7], statics reaching⟩ := rfl
  have hbefore : run supplying = .ok ⟨[.known 8, .known 7, .ptr .argv], []⟩ := rfl
  exact ⟨hwalk, hbefore, (checks_on_deeper_stacks hwalk [.ptr .argv] []).2 supplying hbefore⟩

end StackLang.Check
