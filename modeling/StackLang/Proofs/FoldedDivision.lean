import StackLang.Proofs.ControlPaths

/-!
# Divisions that the check folds

The check divides known numbers and refuses a divisor of zero. The machine divides too, and faults
where the quotient is out of range, which the check does not look at: the least number has no quotient
by minus one.

- `Check.step_division`: what the check makes of known operands.
- `Machine.answers_division`: what the lines of a division do.
- `Source.exists_seen_of_faulted`: a run that faults has come to a division.
- `Check.straight_seen`: where control goes straight through a program, it has the operands that the
  check had.
- `folded_divisions_agree`: so the lines push what the check has folded, or fault out of range.
- `fault_of_accepted_division`: a program that the check accepts and that faults.
-/

set_option autoImplicit false

namespace StackLang

open Machine

/-- The primitives that divide. -/
def Primitive.divisions : List Primitive := [.div, .mod, .divmod]

theorem Primitive.mem_divisions {p : Primitive} :
    p ∈ Primitive.divisions ↔ p = .div ∨ p = .mod ∨ p = .divmod := by
  simp only [Primitive.divisions, List.mem_cons, List.not_mem_nil, or_false]

/-- An operation that divides. -/
abbrev Operation.Divides (op : Operation) : Prop := ∃ p ∈ Primitive.divisions, op.action = .primitive p

/-- The quotient of the two numbers is out of range. -/
abbrev Overflows (a b : Int64) : Prop := a = Int64.minValue ∧ b = -1

theorem Source.faults_toBitVec (a b : Int64) :
    Source.faults a.toBitVec b.toBitVec = true ↔ b = 0 ∨ Overflows a b := by
  have hzero : b.toBitVec = 0#64 ↔ b = 0 := Int64.toBitVec_inj (b := 0)
  have hmin : a.toBitVec = BitVec.intMin 64 ↔ a = Int64.minValue :=
    Int64.toBitVec_inj (b := Int64.minValue)
  have hminus : b.toBitVec = -1#64 ↔ b = -1 := Int64.toBitVec_inj (b := -1)
  simp only [Source.faults, Bool.or_eq_true, Bool.and_eq_true, decide_eq_true_eq, hzero, hmin, hminus]

/-! ## The check -/

namespace Check

theorem map_quotients {α β : Type} (f : α → β) (p : Primitive) (quotient remainder : α) :
    (quotients p quotient remainder).map f = quotients p (f quotient) (f remainder) := by
  unfold quotients
  split <;> rfl

/-- **What the check makes of known operands**: it refuses zero, and divides by everything else. -/
theorem step_division {op : Operation} {p : Primitive} (hp : p ∈ Primitive.divisions)
    (hop : op.action = .primitive p) (a b : Int64) (rest : Stack) :
    step op (.known b :: .known a :: rest) =
      if b = 0 then .error ((Cause.divisionByZero p a).at op.loc)
      else .ok ((quotients p (a / b) (a % b)).map .known ++ rest) := by
  replace hp := Primitive.mem_divisions.1 hp
  unfold step results
  rw [hop]
  by_cases hb : b = 0
  · subst hb
    rcases hp with rfl | rfl | rfl <;> rfl
  · rw [if_neg hb]
    have hdivision : division op p (some a) (some b) = .ok ((quotients p (a / b) (a % b)).map .known) := by
      refine (if_neg hb).trans ?_
      rcases hp with rfl | rfl | rfl <;> rfl
    rcases hp with rfl | rfl | rfl <;> exact congrArg (Except.map (· ++ rest)) hdivision

end Check

/-! ## The lines -/

namespace Machine

open Assembly Codegen Check

theorem code_division {op : Operation} {p : Primitive} (hp : p ∈ Primitive.divisions)
    (hop : op.action = .primitive p) (prog : Program) (table : BlockTable) (size : Int) :
    code prog table size op = .ok (divide (quotients p .rax .rdx).reverse) := by
  unfold code
  rw [hop]
  rcases Primitive.mem_divisions.1 hp with rfl | rfl | rfl <;> rfl

section
variable {w : World} {room : Nat} {prog : Program} {code : List Line} {pc : Nat} {st : Source.State}
  {s : State} (hw : w.Sane room) (hm : Matches w room pc st s) (hr : st.stack.length + 16 ≤ room)
include hw hm hr

/-- **The lines of a division** fault where it has no result, and push its results where it has. -/
theorem answers_division {p : Primitive} (hp : p ∈ Primitive.divisions) {a b : Word}
    {stack : List Word} (hst : st.stack = b :: a :: stack)
    (hat : divide (quotients p .rax .rdx).reverse <+: code.drop pc) :
    System.Answers (visits w prog code)
      (Matches w room (pc + (divide (quotients p .rax .rdx).reverse).length)) 0 s []
      (Source.divide a b st.calls fun q r => quotients p q r ++ stack) := by
  refine answers_divide hw hm hr hst _ ?_ _ ?_ hat
  · rcases Primitive.mem_divisions.1 hp with rfl | rfl | rfl <;> decide
  · rintro ⟨regs, flags, _⟩ rfl
    rcases Primitive.mem_divisions.1 hp with rfl | rfl | rfl <;> exact ⟨_, rfl, rfl⟩

end

/-- What the lines of an operation do, wherever they stand and whatever is below on the stack: they
find `taken` on top and leave `left` in its place, or fault where there is none. -/
def LinesDo (op : Operation) (taken : List Word) (left : Option (List Word)) : Prop :=
  ∀ (prog : Program) (table : BlockTable) (size : Int), ∃ ls, Codegen.code prog table size op = .ok ls ∧
    ∀ (w : World) (room : Nat) (text : List Line) (pc : Nat) (below : List Word) (calls : Nat)
      (s : State), w.Sane room → ls <+: text.drop pc → (taken ++ below).length + 16 ≤ room →
      Matches w room pc ⟨taken ++ below, calls⟩ s →
      match left with
      | none => (visits w prog text).Reaches 0 s [] .faulted
      | some left => ∃ s', (visits w prog text).Reaches 0 s [] (.running s') ∧
          Matches w room (pc + ls.length) ⟨left ++ below, calls⟩ s'

/-- **The lines of a division that the check folds** leave what it has folded, or fault out of
range. -/
theorem linesDo_division {op : Operation} {p : Primitive} (hp : p ∈ Primitive.divisions)
    (hop : op.action = .primitive p) {a b : Int64} (hb : b ≠ 0) :
    LinesDo op [b.toBitVec, a.toBitVec]
      (if Overflows a b then none else some ((quotients p (a / b) (a % b)).map Int64.toBitVec)) := by
  intro prog table size
  refine ⟨_, code_division hp hop prog table size, fun w room text pc below calls s hw hat hr hm => ?_⟩
  have hlines : System.Answers (visits w prog text) _ 0 s [] _ := answers_division hw hm hr hp rfl hat
  unfold Source.divide at hlines
  by_cases hout : Overflows a b
  · rw [if_pos ((Source.faults_toBitVec a b).2 (.inr hout))] at hlines
    rw [if_pos hout]
    exact hlines
  · have hrange : ¬Source.faults a.toBitVec b.toBitVec = true := fun hf =>
      ((Source.faults_toBitVec a b).1 hf).elim hb hout
    rw [if_neg hrange] at hlines
    rw [if_neg hout, map_quotients, Int64.toBitVec_div, Int64.toBitVec_mod]
    exact hlines

end Machine

/-! ## Runs that fault -/

namespace Source

variable {w : World}

theorem call_ne_faulted (calls : Nat) (f : Word → List Word) : call w calls f ≠ .faulted := by
  unfold call
  split <;> nofun

theorem faults_of_divide {a b : Word} {calls : Nat} {f : Word → Word → List Word}
    (h : divide a b calls f = .faulted) : faults a b = true := by
  unfold divide at h
  split at h
  · assumption
  · cases h

/-- A primitive that faults divides, and the operands have no quotient. -/
theorem primitive_faulted {index : Int} {p : Primitive} {s : State}
    (h : primitive w index p s = .faulted) :
    p ∈ Primitive.divisions ∧ ∃ b a rest, s.stack = b :: a :: rest ∧ faults a b = true := by
  unfold primitive at h
  split at h
  case h_1 b a rest hst | h_2 b a rest hst | h_3 b a rest hst =>
    exact ⟨by decide, b, a, rest, hst, faults_of_divide h⟩
  case h_4 | h_5 | h_6 => exact absurd h (call_ne_faulted _ _)
  case h_7 | h_8 | h_9 => cases h
  case h_10 =>
    split at h
    · cases h
    · split at h
      · cases h
      · exact absurd h (call_ne_faulted _ _)
  case h_11 => split at h <;> cases h

/-- Control has come to a division that faults. -/
def SeesFault (vs : List Visit) : Prop :=
  ∃ op : Operation, op.Divides ∧ ∃ (a b : Int64) (rest : List Word),
    .seen (.start op) (b.toBitVec :: a.toBitVec :: rest) ∈ vs ∧ (b = 0 ∨ Overflows a b)

theorem SeesFault.mono {vs us : List Visit} (h : SeesFault vs) (hsub : vs ⊆ us) : SeesFault us := by
  obtain ⟨op, hop, a, b, rest, hmem, hf⟩ := h
  exact ⟨op, hop, a, b, rest, hsub hmem, hf⟩

theorem seesFault_of_plain {op : Operation} {s : State} (h : plain w op s = .faulted) :
    SeesFault [visit op s] := by
  unfold plain at h
  split at h
  case h_5 p ha =>
    obtain ⟨hp, b, a, rest, hst, hf⟩ := primitive_faulted h
    refine ⟨op, ⟨p, hp, ha⟩, .ofBitVec a, .ofBitVec b, rest, ?_, ?_⟩
    · rw [visit, hst]
      exact List.mem_singleton.2 rfl
    · exact (faults_toBitVec _ _).1 hf
  case h_2 => split at h <;> cases h
  all_goals cases h

theorem eq_faulted_of_proceed {work : List Item} {o : Outcome State}
    (h : proceed work o = .faulted) : o = .faulted := by
  cases o <;> first | rfl | cases h

theorem duplicate_ne_faulted (s : State) : duplicate s ≠ .faulted := by
  unfold duplicate
  split <;> nofun

theorem enter_ne_faulted {l : Bool} (chain : BlockTree.Chain l) (work : List Item) (s : State) :
    enter chain work s ≠ .faulted := by
  cases chain with
  | close | otherwise => nofun
  | elif => exact fun h => duplicate_ne_faulted s (eq_faulted_of_proceed h)

theorem branch_ne_faulted {op : Operation} {s : State} {yes no : State → List Visit × Outcome Config}
    (hyes : ∀ s, (yes s).2 ≠ .faulted) (hno : ∀ s, (no s).2 ≠ .faulted) :
    (branch op s yes no).2 ≠ .faulted := by
  unfold branch
  split
  · dsimp only
    split
    · exact hno _
    · exact hyes _
  · nofun

/-- **One operation** faults only where it divides. -/
theorem seesFault_of_advance {work : List Item} {s : State} (h : (advance w work s).2 = .faulted) :
    SeesFault (advance w work s).1 := by
  fun_induction advance w work s with
  | case1 => cases h
  | case2 | case4 => exact seesFault_of_plain (eq_faulted_of_proceed h)
  | case3 _ _ _ ih => exact ih h
  | case5 | case6 => cases h
  | case7 | case8 => exact absurd (eq_faulted_of_proceed h) (duplicate_ne_faulted _)
  | case9 =>
    refine absurd h (branch_ne_faulted (fun _ => ?_) fun _ => enter_ne_faulted _ _ _)
    nofun
  | case10 => cases h
  | case11 =>
    refine absurd h (branch_ne_faulted (fun _ => ?_) fun _ => ?_)
    all_goals nofun
  | case12 => exact absurd (eq_faulted_of_proceed h) (duplicate_ne_faulted _)

/-- **A run that faults has come to a division** whose operands have no quotient. -/
theorem exists_seen_of_faulted {n : Nat} {cfg : Config} (h : (visits w).after n cfg = .faulted) :
    SeesFault ((visits w).trace n cfg) := by
  induction n generalizing cfg with
  | zero => cases h
  | succ n ih =>
    rw [System.after] at h
    rw [System.trace]
    cases hstep : (visits w cfg).2 with
    | running cfg' =>
      rw [hstep] at h
      exact (ih h).mono (List.subset_append_right _ _)
    | faulted => exact (seesFault_of_advance hstep).mono (List.subset_append_left _ _)
    | ended | failed =>
      rw [hstep] at h
      cases h

end Source

/-! ## Programs without structural operations -/

namespace Check

/-- The operands of every division are known when the check comes to it, and have a quotient in
range. -/
def DividesKnown (prog : Program) : Prop :=
  ∀ (i : Nat) (op : Operation), prog[i]? = some op → op.Divides →
    ∃ a b rest, stackAt prog i = .known b :: .known a :: rest ∧ ¬Overflows a b

/-- An operation is seen with the stack that the check has at its place. -/
def SeenAs (w : World) (prog : Program) : Visit → Prop
  | .seen (.start op) words => ∃ i, prog[i]? = some op ∧ Describes w (stackAt prog i) words
  | _ => True

section
variable {w : World} {prog : Program} {final : Stack} (hs : steps prog [] = .ok final)
  (hplain : ∀ op ∈ prog, op.action.isStructural = false)
include hs hplain

/-- **Straight through a program**, control comes to the operations with the stacks of the check. -/
theorem straight_seen {before : Program} {c : BlockTree.Code false} (hprog : prog = before ++ c.flatten)
    {st : Source.State} (hd : Describes w (stackAt prog before.length) st.stack) (n : Nat) :
    ∀ v ∈ (Source.visits w).trace n ⟨[.code c], st⟩, SeenAs w prog v := by
  induction n generalizing c before st with
  | zero => simp [System.trace]
  | succ n ih =>
    cases c with
    | nil =>
      have hlast : Source.visits w ⟨[.code (.nil : BlockTree.Code false)], st⟩ =
          ([.seen .finish st.stack], .ended) := rfl
      simp [System.trace, hlast, SeenAs]
    | plain op rest =>
      have hat : prog[before.length]? = some op.1 := by
        rw [hprog, List.getElem?_append_right (Nat.le_refl _), Nat.sub_self]
        rfl
      have hkeeps := step_sound (hplain op.1 (List.mem_of_getElem? hat)) (step_stackAt hs hat) hd
      have hone : Source.visits w ⟨[.code (.plain op rest)], st⟩ =
          ([Source.visit op.1 st], Source.proceed [.code rest] (Source.plain w op.1 st)) := rfl
      have hseen : SeenAs w prog (Source.visit op.1 st) := ⟨_, hat, hd⟩
      simp only [System.trace, hone]
      cases hplainOp : Source.plain w op.1 st with
      | running st' =>
        rw [hplainOp] at hkeeps
        have hprog' : prog = (before ++ [op.1]) ++ rest.flatten := by
          rw [hprog, List.append_assoc]
          rfl
        have hd' : Describes w (stackAt prog (before ++ [op.1]).length) st'.stack := by
          rw [List.length_append]
          exact hkeeps
        simp only [Source.proceed, List.singleton_append, List.forall_mem_cons]
        exact ⟨hseen, ih hprog' hd'⟩
      | ended | faulted | failed =>
        simpa only [Source.proceed, List.append_nil, List.forall_mem_singleton] using hseen
    | cond head body chain rest =>
      have hop := hplain head.opener.1 (by simp [hprog, BlockTree.Code.flatten, BlockTree.Head.ops])
      rw [head.opener.2] at hop
      cases hop
    | loop head body done rest =>
      have hop := hplain head.opener.1 (by simp [hprog, BlockTree.Code.flatten, BlockTree.Head.ops])
      rw [head.opener.2] at hop
      cases hop

/-- A program that divides known numbers in range does not fault. -/
theorem straight_ne_faulted (hknown : DividesKnown prog) {c : BlockTree.Code false}
    (hc : c.flatten = prog) (n : Nat) : (Source.visits w).after n (Source.start c) ≠ .faulted := by
  intro hfault
  obtain ⟨op, hop, a, b, words, hmem, hf⟩ := Source.exists_seen_of_faulted hfault
  have hempty : Describes w (stackAt prog 0) [] := .nil
  have hprog : prog = [] ++ c.flatten := hc.symm
  obtain ⟨i, hi, hd⟩ := straight_seen hs hplain hprog hempty n _ hmem
  obtain ⟨a', b', rest, hstack, hin⟩ := hknown i op hi hop
  have hstep := step_stackAt hs hi
  rw [hstack] at hd hstep
  obtain ⟨y, _, heq, hy, hd⟩ := hd.uncons
  obtain ⟨rfl, rfl⟩ := List.cons.inj heq
  obtain ⟨x, _, heq, hx, -⟩ := hd.uncons
  obtain ⟨rfl, rfl⟩ := List.cons.inj heq
  obtain rfl : b = b' := Int64.toBitVec_inj.1 hy
  obtain rfl : a = a' := Int64.toBitVec_inj.1 hx
  obtain rfl | hout := hf
  · obtain ⟨p, hp, hop⟩ := hop
    rw [step_division hp hop, if_pos rfl] at hstep
    cases hstep
  · exact hin hout

end

end Check

/-- The text of a compiled program and its strings are no longer than addresses and pushed numbers
can say. -/
structure Compiled.Fits (r : Compiled) : Prop where
  text : r.artifact.code.size < 2 ^ 64
  strings : ∀ op ∈ r.program, op.action = .pushString →
    ∀ bytes, Literal.unquote op.token.text = .ok bytes → bytes.length < 2 ^ 31

/-- Some run of the code ends as the run of the source does. -/
theorem Compiled.Made.agrees {r : Compiled} {size : Int} (hr : r.Made size) (hfits : r.Fits)
    {c : BlockTree.Code false} (hc : c.flatten = r.program) {w : World} {room : Nat} {d : Data}
    (hw : w.Sane room) (hsp : d.regs .rsp = w.base) (hargc : d.mem.load 8 w.base = w.argc) :
    ∃ s, boot r.artifact.code.toList d = some s ∧
      ∀ n, (∀ v ∈ (Source.visits w).trace n (Source.start c), v.depth + 16 ≤ room) →
        ∃ k, ((Source.visits w).after n (Source.start c)).Agrees
          ((visits w r.program r.artifact.code.toList).after k s) := by
  obtain ⟨c', hc', ha, hb⟩ :=
    Codegen.built_of_generate hr.program hr.analysis hr.blocks hr.artifact hfits.text hfits.strings
  obtain rfl := BlockTree.Code.flatten_inj (hc.trans hc'.symm)
  obtain ⟨s, hboot, hrun⟩ := answers_run hw hb hsp hargc
  rw [← hc, ha]
  refine ⟨s, hboot, fun n hdepth => ?_⟩
  obtain ⟨k, -, hagrees⟩ := (hrun n hdepth).agrees
  exact ⟨k, hagrees⟩

/-- Generated code comes to its end without a fault, in all surroundings with so much room. -/
def Completes (prog : Program) (text : List Assembly.Line) (room : Nat) : Prop :=
  ∀ (w : World) (d : Data), w.Sane room → d.regs .rsp = w.base → d.mem.load 8 w.base = w.argc →
    ∃ s, boot text d = some s ∧ (∀ k, (visits w prog text).after k s ≠ .faulted) ∧
      ∃ k, (visits w prog text).after k s = .ended

/-- A program without structural operations whose divisions are of known numbers in range comes to
its end. -/
theorem completes_of_dividesKnown {r : Compiled} {size : Int} (hr : r.Made size) (hfits : r.Fits)
    (hplain : ∀ op ∈ r.program, op.action.isStructural = false)
    (hknown : Check.DividesKnown r.program) {room : Nat} (hroom : 2 * r.program.length + 16 ≤ room) :
    Completes r.program r.artifact.code.toList room := by
  intro w d hw hsp hargc
  obtain ⟨c, hc⟩ := Check.exists_straight hplain
  obtain ⟨stack, hsteps, -⟩ := Failure.of_map_ok hr.analysis
  obtain ⟨s, hboot, hruns⟩ := hr.agrees hfits hc hw hsp hargc
  have hempty : Check.Describes w [] (⟨[], 0⟩ : Source.State).stack := .nil
  obtain ⟨hseen, hfail, hend⟩ := Check.run_straight (c := c) (hc ▸ hplain) (hc ▸ hsteps) hempty
    (r.program.length + 1)
  obtain ⟨k, hagrees⟩ := hruns (r.program.length + 1) fun v hv => by
    have hdepth := (hseen v hv).depth_le
    rw [hc, List.length_nil] at hdepth
    omega
  have hended : (visits w r.program r.artifact.code.toList).after k s = .ended := by
    cases hafter : (Source.visits w).after (r.program.length + 1) (Source.start c) with
    | running cfg => exact absurd hafter (hend (by rw [hc]; omega) cfg)
    | ended =>
      rw [hafter] at hagrees
      exact hagrees.eq_ended
    | faulted => exact absurd hafter (Check.straight_ne_faulted hsteps hplain hknown hc _)
    | failed => exact absurd hafter hfail
  refine ⟨s, hboot, fun j hfault => ?_, k, hended⟩
  have hsame : (visits w r.program r.artifact.code.toList).after j s
      = (visits w r.program r.artifact.code.toList).after k s :=
    System.after_eq_of_ended (by rw [hfault]; nofun) (by rw [hended]; nofun)
  rw [hfault, hended] at hsame
  cases hsame

/-- **What the check folds of a division is what the machine computes, but for one quotient.** Let the
check accept a division of known numbers. Then its lines push the numbers that the check has folded,
in their order, and go on, unless the quotient is out of range, where they fault. A run of any program
faults nowhere but at a division whose operands have the divisor zero or a quotient out of range. And
a compiled program without structural operations, all of whose divisions the check has folded in range,
never faults and comes to its end. -/
theorem folded_divisions_agree (a b : Int64) :
    (∀ (op : Operation) (p : Primitive), p ∈ Primitive.divisions → op.action = .primitive p →
      ∀ rest next : Stack, Check.step op (.known b :: .known a :: rest) = .ok next →
        ∃ vs : List Int64, next = vs.map .known ++ rest ∧
          LinesDo op [b.toBitVec, a.toBitVec]
            (if Overflows a b then none else some (vs.map Int64.toBitVec))) ∧
    (∀ (w : World) (c : BlockTree.Code false) (n : Nat),
      (Source.visits w).after n (Source.start c) = .faulted →
        Source.SeesFault ((Source.visits w).trace n (Source.start c))) ∧
    ∀ (lib : Library) (file source : Text) (size : Int) (r : Compiled),
      compile lib file source size = .ok r → r.Fits →
      (∀ op ∈ r.program, op.action.isStructural = false) → Check.DividesKnown r.program →
      Completes r.program r.artifact.code.toList (2 * r.program.length + 16) := by
  refine ⟨fun op p hp hop rest next hnext => ?_, fun w c n => Source.exists_seen_of_faulted,
    fun lib file source size r hr hfits hplain hknown =>
      completes_of_dividesKnown (compile_eq_ok_iff.1 hr).2 hfits hplain hknown (Nat.le_refl _)⟩
  rw [Check.step_division hp hop] at hnext
  split at hnext
  · cases hnext
  · rename_i hb
    obtain rfl := Except.ok.inj hnext
    exact ⟨_, rfl, linesDo_division hp hop hb⟩

open Codegen (written idle idleData idle_sane)

/-- Divides a negative number. -/
def dividing : Program :=
  [written 0 .pushInt .integer "-7" 1, written 1 .pushInt .integer "2" 4,
   written 2 (.primitive .divmod) .word "DIVMOD" 6]

theorem dividesKnown_dividing : Check.DividesKnown dividing := by
  rintro i op hi ⟨p, hp, hop⟩
  match i with
  | 0 | 1 =>
    obtain rfl := Option.some.inj hi
    cases hop
  | 2 => exact ⟨-7, 2, [], rfl, by decide⟩
  | i + 3 => cases hi

theorem folded_divisions_agree_dividing : ∃ r,
    compile (.ofList "/" []) "a" "-7 2 DIVMOD" 0 = .ok r ∧
    r.analysis.stack = [.known (-1), .known (-3)] ∧
    LinesDo (written 2 (.primitive .divmod) .word "DIVMOD" 6) [2#64, -7#64] (some [-1#64, -3#64]) ∧
    Completes r.program r.artifact.code.toList 22 := by
  have hl : Lexer.tokens "a" "-7 2 DIVMOD" = .ok (dividing.map (·.token)) := by decide +kernel
  have hp : Program.ofTokens (dividing.map (·.token)) = .ok dividing := by decide +kernel
  have hc : Check.run dividing = .ok ⟨[.known (-1), .known (-3)], []⟩ := rfl
  have hr := compile_eq_layout (.ofList "/" []) (source_of_tokens hl (by decide)) hp hc rfl 0
  obtain ⟨hlines, -, hends⟩ := folded_divisions_agree (-7) 2
  obtain ⟨vs, hvs, hdo⟩ := hlines (written 2 (.primitive .divmod) .word "DIVMOD" 6) .divmod (by decide)
    rfl [] [.known (-1), .known (-3)] rfl
  have hknown : Function.Injective Value.known := fun a b h => Option.some.inj (Value.int.inj h)
  obtain rfl : [-1, -3] = vs := List.map_injective_iff.2 hknown (hvs.trans (List.append_nil _))
  have hplain : ∀ op ∈ dividing, op.action.isStructural = false := by decide
  have hnone : ∀ op ∈ dividing, op.action ≠ .pushString := by decide
  exact ⟨_, hr, rfl, hdo, hends _ _ _ _ _ hr
    ⟨by decide +kernel, fun op ho ha => absurd ha (hnone op ho)⟩ hplain dividesKnown_dividing⟩

/-! ## Divisions that are accepted and fault -/

/-- Divides the least number by minus one. -/
def overflowing : BlockTree.Code false :=
  .plain ⟨written 0 .pushInt .integer "-9223372036854775808" 1, rfl⟩ <|
  .plain ⟨written 1 .pushInt .integer "-1" 22, rfl⟩ <|
  .plain ⟨written 2 (.primitive .div) .word "DIV" 25, rfl⟩ .nil

/-- Divides in a loop, by a number that comes down to zero. -/
def diminishing : BlockTree.Code false :=
  .plain ⟨written 0 .pushInt .integer "2" 1, rfl⟩ <|
  .loop ⟨⟨written 1 (.keyword .whileKw) .keyword "WHILE" 3, rfl⟩,
      [⟨written 2 .pushInt .integer "1" 9, rfl⟩],
      ⟨written 3 (.keyword .doKw) .keyword "DO" 11, rfl⟩⟩
    (.plain ⟨written 4 .pushInt .integer "1" 14, rfl⟩ <|
     .plain ⟨written 5 (.primitive .minus) .word "MINUS" 16, rfl⟩ <|
     .plain ⟨written 6 .pushInt .integer "5" 22, rfl⟩ <|
     .plain ⟨written 7 (.primitive .over) .word "OVER" 24, rfl⟩ <|
     .plain ⟨written 8 (.primitive .div) .word "DIV" 29, rfl⟩ <|
     .plain ⟨written 9 (.primitive .drop) .word "DROP" 33, rfl⟩ .nil)
    ⟨written 10 (.keyword .doneKw) .keyword "DONE" 38, rfl⟩ .nil

theorem dividesKnown_diminishing : Check.DividesKnown diminishing.flatten := by
  rintro i op hi ⟨p, hp, hop⟩
  match i with
  | 0 | 1 | 2 | 3 | 4 | 6 | 10 =>
    obtain rfl := Option.some.inj hi
    cases hop
  | 5 | 7 | 9 =>
    obtain rfl := Option.some.inj hi
    cases hop
    exact absurd hp (by decide)
  | 8 => exact ⟨5, 1, [.known 1], rfl, by decide⟩
  | i + 11 => cases hi

/-- **Accepted divisions can fault.** The check folds the quotient of the least number by minus one to
the least number, and the machine faults; and in a loop the machine may come to a division with other
operands than the ones that the check has folded. -/
theorem fault_of_accepted_division :
    (∃ r s k, compile (.ofList "/" []) "a" "-9223372036854775808 -1 DIV" 0 = .ok r ∧
      r.analysis.stack = [.known Int64.minValue] ∧ boot r.artifact.code.toList idleData = some s ∧
      (visits idle r.program r.artifact.code.toList).after k s = .faulted) ∧
    ∃ r s k, compile (.ofList "/" []) "a" "2 WHILE 1 DO 1 MINUS 5 OVER DIV DROP DONE" 0 = .ok r ∧
      Check.DividesKnown r.program ∧ boot r.artifact.code.toList idleData = some s ∧
      (visits idle r.program r.artifact.code.toList).after k s = .faulted := by
  have hargc : idleData.mem.load 8 idle.base = idle.argc := Memory.load_store (n := 8) _ (by decide) _ _
  constructor
  · have hl : Lexer.tokens "a" "-9223372036854775808 -1 DIV" =
        .ok (overflowing.flatten.map (·.token)) := by decide +kernel
    have hp : Program.ofTokens (overflowing.flatten.map (·.token)) = .ok overflowing.flatten := by
      decide +kernel
    have hc : Check.run overflowing.flatten = .ok ⟨[.known Int64.minValue], []⟩ := rfl
    have hr := compile_eq_layout (.ofList "/" []) (source_of_tokens hl (by decide)) hp hc rfl 0
    have hnone : ∀ op ∈ overflowing.flatten, op.action ≠ .pushString := by decide
    obtain ⟨s, hboot, hruns⟩ := (compile_eq_ok_iff.1 hr).2.agrees
      ⟨by decide +kernel, fun op ho ha => absurd ha (hnone op ho)⟩ rfl idle_sane rfl hargc
    obtain ⟨k, hk⟩ := hruns 3 (by decide +kernel)
    exact ⟨_, s, k, hr, rfl, hboot, Outcome.Agrees.eq_faulted hk⟩
  · have hl : Lexer.tokens "a" "2 WHILE 1 DO 1 MINUS 5 OVER DIV DROP DONE" =
        .ok (diminishing.flatten.map (·.token)) := by decide +kernel
    have hp : Program.ofTokens (diminishing.flatten.map (·.token)) = .ok diminishing.flatten := by
      decide +kernel
    have hr := compile_eq_layout (.ofList "/" []) (source_of_tokens hl (by decide)) hp rfl rfl 0
    have hnone : ∀ op ∈ diminishing.flatten, op.action ≠ .pushString := by decide
    obtain ⟨s, hboot, hruns⟩ := (compile_eq_ok_iff.1 hr).2.agrees
      ⟨by decide +kernel, fun op ho ha => absurd ha (hnone op ho)⟩ rfl idle_sane rfl hargc
    obtain ⟨k, hk⟩ := hruns 18 (by decide +kernel)
    exact ⟨_, s, k, hr, dividesKnown_diminishing, hboot, Outcome.Agrees.eq_faulted hk⟩

end StackLang
