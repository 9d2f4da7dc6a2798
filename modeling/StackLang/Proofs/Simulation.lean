import StackLang.Proofs.Linking

/-!
# Running a program

The machine that runs the text of a program follows the structured semantics: it comes to the same
operations in the same order, with the same words on the stack.

- `lineOf`: where the lines of an operation lie.
- `Anchored`: what is still to be done lies in the text as it lies in the tree.
- `answers_advance`: one step of the source, by the constructors of its items.
- `answers_run`: runs of every length.
-/

set_option autoImplicit false

namespace StackLang

/-! ## The ends of a chain -/

namespace BlockTree

theorem Chain.flatten_first {l : Bool} (chain : Chain l) :
    ∃ ops, chain.flatten = chain.first :: ops := by
  cases chain <;> exact ⟨_, rfl⟩

theorem Chain.flatten_endif {l : Bool} (chain : Chain l) :
    ∃ ops, chain.flatten = ops ++ [chain.endif] ∧ chain.endif.action = .keyword .endifKw := by
  induction chain using Chain.induct with
  | close endif => exact ⟨[], rfl, endif.2⟩
  | otherwise op body endif => exact ⟨op.1 :: body.flatten, rfl, endif.2⟩
  | elif head body chain ih =>
    obtain ⟨ops, hops, hend⟩ := ih
    refine ⟨head.ops ++ (body.flatten ++ ops), ?_, hend⟩
    rw [Chain.flatten, hops, Chain.endif]
    simp

/-- A chain starts with its `ENDIF`, or with an operation that goes there. -/
theorem Chain.first_endif {l : Bool} (chain : Chain l) (exit : Option Operation) :
    chain.first = chain.endif ∧ chain.flatten = [chain.endif] ∨
      (chain.first, chain.endif) ∈ chain.targets exit ∧
        chain.first.action ∈ [.keyword .elifKw, .keyword .elseKw] := by
  cases chain with
  | close endif => exact .inl ⟨rfl, rfl⟩
  | otherwise op body endif => exact .inr ⟨List.mem_cons_self, by simp [Chain.first, op.2]⟩
  | elif head body chain => exact .inr ⟨List.mem_cons_self, by simp [Chain.first, head.opener.2]⟩

end BlockTree

namespace Machine

open Assembly Codegen BlockTree
open Source (Item)

/-! ## Where lines lie -/

/-- The line where what follows the operations `before` starts. -/
def lineOf (prog : Program) (table : BlockTable) (size : Int) (before : List Operation) : Nat :=
  preamble.length + (before.flatMap (opLines prog table size)).length

section
variable {prog : Program} {table : BlockTable} {size : Int} {before after : List Operation}
  {op : Operation}

theorem lineOf_append (before ops : List Operation) : lineOf prog table size (before ++ ops) =
    lineOf prog table size before + (ops.flatMap (opLines prog table size)).length := by
  simp [lineOf, Nat.add_assoc]

theorem lineOf_snoc (before : List Operation) (op : Operation) :
    lineOf prog table size (before ++ [op]) =
      lineOf prog table size before + 1 + (template prog table size op).length := by
  rw [lineOf_append]
  simp [opLines]
  omega

theorem drop_lineOf (h : prog = before ++ after) :
    (layout prog table size).code.toList.drop (lineOf prog table size before) =
      after.flatMap (opLines prog table size) ++ epilogue := by
  have hcode : (layout prog table size).code.toList = (preamble ++
      before.flatMap (opLines prog table size)) ++
        (after.flatMap (opLines prog table size) ++ epilogue) := by
    simp only [layout, h, List.flatMap_append, List.append_assoc]
  rw [hcode, lineOf, ← List.length_append, List.drop_left]

/-- The lines of an operation lie where they should. -/
theorem opLines_isPrefix (h : prog = before ++ op :: after) :
    opLines prog table size op <+:
      (layout prog table size).code.toList.drop (lineOf prog table size before) := by
  rw [drop_lineOf h, List.flatMap_cons, List.append_assoc]
  exact List.prefix_append _ _

end

/-! ## Structural lines -/

/-- The duplicate that a branch's opener makes. -/
def duplicateLines : List Line := [op1 .push (entry 0)]

/-- What stands behind the label of a landing. -/
def entryLines : Action → List Line
  | .keyword .elifKw | .keyword .whileKw => duplicateLines
  | _ => []

/-- The lines in which a `DO` decides. -/
def testLines : List Line := [pop .rax, op2 .add (q .rsp) (.imm 8), op2 .test (q .rax) (q .rax)]

/-- A program that the stages before generation accept, whose text and strings are of a size that the
machine can address. -/
structure Built (c : Code false) (table : BlockTable) (size : Int) : Prop where
  indexed : Program.Indexed c.flatten
  sound : Program.Sound c.flatten
  resolved : Blocks.resolve c.flatten = .ok table
  short : (layout c.flatten table size).code.size < 2 ^ 64
  fits : ∀ op ∈ c.flatten, op.action = .pushString →
    ∀ bytes, Literal.unquote op.token.text = .ok bytes → bytes.length < 2 ^ 31

/-- The text of a program. -/
abbrev textOf (c : Code false) (table : BlockTable) (size : Int) : List Line :=
  (layout c.flatten table size).code.toList

theorem template_keyword (prog : Program) (table : BlockTable) (size : Int) {op : Operation}
    {k : Keyword} {ls : List Line} (ha : op.action = .keyword k)
    (hls : keyword prog table op k = .ok ls) : template prog table size op = ls := by
  simp only [template, code, ha, hls]

theorem template_isPrefix {c : Code false} (table : BlockTable) (size : Int)
    {before after : List Operation} {op : Operation} (hp : c.flatten = before ++ op :: after) :
    template c.flatten table size op <+:
      (textOf c table size).drop (lineOf c.flatten table size before + 1) :=
  (head_of_isPrefix (opLines_isPrefix hp)).2

namespace Built

variable {c : Code false} {table : BlockTable} {size : Int} (hb : Built c table size)
include hb

theorem linked : Linked c.flatten (textOf c table size) :=
  linked_layout hb.indexed hb.sound size hb.resolved hb.short

theorem template_test {m : Mark .doKw} {t : Operation} (ht : (m.1, t) ∈ c.targets none) :
    template c.flatten table size m.1 = testLines ++ [jumpIf .z t.label] := by
  refine template_keyword _ _ _ m.2 ?_
  simp only [keyword, (partner_of_mem hb.indexed hb.resolved ht).2.2]
  rfl

/-- An operation that leaves at once: its first line jumps. -/
theorem template_jump {op t : Operation} (ht : (op, t) ∈ c.targets none)
    (hop : op.action ∈ [.keyword .elifKw, .keyword .elseKw, .keyword .doneKw, .keyword .breakKw]) :
    ∃ ls, template c.flatten table size op = jump t.label :: ls := by
  have hp := (partner_of_mem hb.indexed hb.resolved ht).2.2
  simp only [List.mem_cons, List.not_mem_nil, or_false] at hop
  rcases hop with ha | ha | ha | ha
  all_goals
    simp only [template, code, ha, keyword, hp]
    exact ⟨_, rfl⟩

/-- The label of a landing, and what stands behind it. -/
theorem template_landing {op : Operation} (ho : op ∈ c.flatten)
    (hl : isLanding op.action = true) :
    ∃ ls, template c.flatten table size op = ls ++ .label op.label :: entryLines op.action := by
  cases ha : op.action with
  | keyword k =>
    cases k with
    | whileKw | endifKw => exact ⟨[], template_keyword _ _ _ ha rfl⟩
    | elifKw | elseKw | doneKw =>
      obtain ⟨t, -, -, hp⟩ := partner_ok hb.indexed hb.resolved ho (by rw [ha]; rfl)
      refine ⟨[jump t.label], template_keyword _ _ _ ha ?_⟩
      simp only [keyword, hp]
      rfl
    | ifKw | doKw | breakKw | endKw =>
      rw [ha] at hl
      cases hl
  | pushInt | pushString | pushCString | pushArray | primitive p | unassigned n =>
    rw [ha] at hl
    cases hl

end Built

section
variable {w : World} {room : Nat} {c : Code false} {table : BlockTable} {size : Int}
  {before after : List Operation} {st : Source.State} {s : State} {pc : Nat}

/-- A line that marks a point shows it. -/
theorem run_seen {prog : Program} {code : List Line} {l : Line} {p : Point} (hw : w.Sane room)
    (hl : code[pc]? = some l) (hp : point? prog l = some p) (hm : Matches w room pc st s) :
    ∃ s', (visits w prog code).Reaches 1 s [.seen p st.stack] (.running s') ∧
      Matches w room (pc + 1) st s' := by
  obtain ⟨v, m, rfl, hback, hst⟩ := hm
  refine ⟨_, .step ?_, v, m, rfl, hback, hst⟩
  have hops := hback.operands_eq hw
  rw [hst] at hops
  cases l with
  | comment t => simp [visits, step, hl, shown, hp, hops, State.next]
  | label t => simp [visits, step, hl, shown, hp, hops, State.next]
  | instruction i => cases hp
  | exported t => cases hp
  | blank => cases hp
  | verbatim t => cases hp

section
variable (hw : w.Sane room) (hb : Built c table size)
include hw hb

/-- The comment of an operation. -/
theorem run_start {op : Operation} (hp : c.flatten = before ++ op :: after)
    (hm : Matches w room (lineOf c.flatten table size before) st s) :
    ∃ s', (visits w c.flatten (textOf c table size)).Reaches 1 s [Source.visit op st] (.running s') ∧
      Matches w room (lineOf c.flatten table size before + 1) st s' :=
  run_seen hw (head_of_isPrefix (opLines_isPrefix hp)).1
    (hb.linked.start op (by rw [hp]; simp)) hm

omit hw in
/-- The label of a landing can be found. -/
theorem exists_label {t : Operation} (hp : c.flatten = before ++ t :: after)
    (hl : isLanding t.action = true) : ∃ j, (textOf c table size)[j]? = some (.label t.label) ∧
      (∀ pc, destination (textOf c table size) pc t.label = some j) ∧
      entryLines t.action <+: (textOf c table size).drop (j + 1) ∧
      j + 1 + (entryLines t.action).length = lineOf c.flatten table size (before ++ [t]) := by
  have ho : t ∈ c.flatten := by
    rw [hp]
    simp
  obtain ⟨ls, hls⟩ := hb.template_landing ho hl
  have hat := template_isPrefix table size hp
  rw [hls] at hat
  obtain ⟨hlabel, hrest⟩ := head_of_isPrefix (isPrefix_append hat).2
  refine ⟨_, hlabel, fun pc => hb.linked.resolves _ _ hlabel ?_ pc, hrest, ?_⟩
  · obtain ⟨k, hk⟩ := landing_text hb.indexed ho hl
    obtain ⟨ha, hid, -⟩ := Name.identifier (n := .indexed (.mark k) t.place) (by simp [Name.IsGlobal])
    rw [hk]
    exact head_ne_dot ha hid
  · rw [lineOf_snoc, hls]
    simp
    omega

/-- A jump to a landing. -/
theorem run_arrive {t : Operation} (hp : c.flatten = before ++ t :: after)
    (hl : isLanding t.action = true) (hline : (textOf c table size)[pc]? = some (jump t.label))
    (hm : Matches w room pc st s) :
    ∃ j s', (visits w c.flatten (textOf c table size)).Reaches 1 s [Source.arrive t st] (.running s') ∧
      Matches w room j st s' ∧ entryLines t.action <+: (textOf c table size).drop j ∧
      j + (entryLines t.action).length = lineOf c.flatten table size (before ++ [t]) := by
  obtain ⟨j, hj, hdest, hrest, hend⟩ := exists_label hb hp hl
  obtain ⟨v, m, rfl, hback, hst⟩ := hm
  have hjump : (visits w c.flatten (textOf c table size)).Reaches 1 ⟨pc, v.data m, st.calls⟩ []
      (.running ⟨j, v.data m, st.calls⟩) := run_jump hline (hdest pc)
  obtain ⟨s', hseen, hm'⟩ := run_seen hw hj (hb.linked.label t (by rw [hp]; simp) hl)
    ⟨v, m, rfl, hback, hst⟩
  exact ⟨j + 1, s', (hjump.trans hseen).mono (by omega), hm', hrest, hend⟩

omit hb in
/-- The lines that duplicate the top of the stack. -/
theorem answers_duplicate {prog : Program} {code : List Line}
    (hat : duplicateLines <+: code.drop pc) (hm : Matches w room pc st s)
    (hr : st.stack.length + 16 ≤ room) :
    System.Answers (visits w prog code) (Matches w room (pc + 1)) 0 s [] (Source.duplicate st) := by
  unfold Source.duplicate
  split
  · exact ⟨_, .refl _ _⟩
  · rename_i a rest hst
    refine answers_turns hw hm hr hat ?_ (by decide)
    rw [hst]
    exact turns_of w fun _ _ => ⟨_, rfl, rfl⟩

/-- A `DO` with values enough goes on by its condition. -/
theorem run_test {test : Mark .doKw} {t : Operation} (ht : (test.1, t) ∈ c.targets none)
    (hp : c.flatten = before ++ test.1 :: after) {j : Nat}
    (hj : ∀ pc, destination (textOf c table size) pc t.label = some j) {v x : Word}
    {rest : List Word} (hst : st.stack = v :: x :: rest)
    (hm : Matches w room (lineOf c.flatten table size before + 1) st s)
    (hr : st.stack.length + 16 ≤ room) :
    ∃ s', (visits w c.flatten (textOf c table size)).Reaches 0 s [] (.running s') ∧
      Matches w room (if v = 0#64 then j else lineOf c.flatten table size (before ++ [test.1]))
        { st with stack := rest } s' := by
  have htemplate := hb.template_test ht
  have hat := template_isPrefix table size hp
  rw [htemplate] at hat
  obtain ⟨htest, hjump⟩ := isPrefix_append hat
  obtain ⟨⟨regs, flags, _⟩, m, rfl, hback, rfl⟩ := hm
  rw [hst] at hback hr
  simp only [List.length_cons] at hr
  obtain ⟨v1, he, hflags, hstack⟩ : ∃ v1, View.execAll w testLines ⟨regs, flags, v :: x :: rest⟩ =
      some v1 ∧ v1.flags = some (.of (v &&& v) false) ∧ v1.stack = rest := ⟨_, rfl, rfl, rfl⟩
  obtain ⟨m1, hrun, hback1⟩ := run_block c.flatten hw st.calls htest hback
    (by simp [testLines]; omega) he
  obtain ⟨hjump, -⟩ := head_of_isPrefix hjump
  have hif := hrun.trans (run_jumpIf hjump hflags (hj _))
  have hcond : holds (.of (v &&& v) false) .z = decide (v = 0#64) := by
    rw [holds_test, compares]
    rfl
  have hend : lineOf c.flatten table size before + 1 + testLines.length + 1 =
      lineOf c.flatten table size (before ++ [test.1]) := by
    rw [lineOf_snoc, htemplate]
    rfl
  simp only [hcond, decide_eq_true_eq, hend] at hif
  exact ⟨_, hif.mono (Nat.zero_le _), v1, m1, rfl, hback1, hstack⟩

end

end

/-! ## Work in the text -/

/-- The operations that an item stands for, from where it goes on. -/
def opsOf : Item → List Operation
  | .plain op => [op.1]
  | .code c => c.flatten
  | .test test body chain => test.1 :: (body.flatten ++ chain.flatten)
  | .pass chain => chain.flatten
  | .guard head body done => head.test.1 :: (body.flatten ++ [done.1])
  | .again _ _ done => [done.1]

/-- The loop that an item may go back to the start of. -/
def loopOf : Item → Option (List Operation)
  | .guard head body done | .again head body done => some (head.ops ++ (body.flatten ++ [done.1]))
  | _ => none

/-- Where control may go from the operations of an item; `exit` is the end of the loop around it. -/
def linksOf (exit : Option Operation) : Item → List Link
  | .plain _ => []
  | .code c => c.targets exit
  | .test test body chain => (test.1, chain.first) :: (body.targets exit ++ chain.targets exit)
  | .pass chain => chain.targets exit
  | .guard head body done | .again head body done =>
    (head.test.1, done.1) :: (done.1, head.opener.1) :: body.targets (some done.1)

/-- What is still to be done lies in the tree of the program: its jumps are the tree's, and the loops
under way lie before what follows them. -/
def Anchored (c : Code false) : List Item → Prop
  | [] => True
  | i :: work => linksOf ((Source.innermost work).map (·.1)) i ⊆ c.targets none ∧
      (∀ ops, loopOf i = some ops → ops ++ work.flatMap opsOf <:+ c.flatten) ∧ Anchored c work

section
variable {c : Code false} {work : List Item}

theorem flatMap_opsOf_plains (ps : List Plain) :
    (ps.map Item.plain ++ work).flatMap opsOf = ps.map (·.1) ++ work.flatMap opsOf := by
  induction ps with
  | nil => rfl
  | cons p ps ih => exact congrArg (p.1 :: ·) ih

theorem Anchored.cons {i : Item}
    (hlinks : linksOf ((Source.innermost work).map (·.1)) i ⊆ c.targets none) (hi : loopOf i = none)
    (h : Anchored c work) : Anchored c (i :: work) := by
  refine ⟨hlinks, fun ops ho => ?_, h⟩
  rw [hi] at ho
  cases ho

theorem Anchored.plains (h : Anchored c work) (ps : List Plain) :
    Anchored c (ps.map Item.plain ++ work) := by
  induction ps with
  | nil => exact h
  | cons p ps ih => exact .cons (List.nil_subset _) rfl ih

/-- A conditional whose opener has been reached. -/
theorem Anchored.cond {l : Bool} {head : Head .ifKw} {body : Code l} {chain : Chain l} {rest : Code l}
    (h : Anchored c (.code (.cond head body chain rest) :: work)) :
    Anchored c (.test head.test body chain :: .code rest :: work) := by
  obtain ⟨hlinks, -, hrest⟩ := h
  obtain ⟨hlink, hlinks⟩ := List.cons_subset.1 hlinks
  obtain ⟨hbody, hlinks⟩ := List.append_subset.1 hlinks
  obtain ⟨hchain, hcode⟩ := List.append_subset.1 hlinks
  have hcode : Anchored c (.code rest :: work) := .cons hcode rfl hrest
  exact .cons (List.cons_subset.2 ⟨hlink, List.append_subset.2 ⟨hbody, hchain⟩⟩) rfl hcode

/-- A loop whose opener has been reached. -/
theorem Anchored.loop {l : Bool} {head : Head .whileKw} {body : Code true} {done : Mark .doneKw}
    {rest : Code l} {before : List Operation}
    (hp : c.flatten = before ++ (Item.code (.loop head body done rest) :: work).flatMap opsOf)
    (h : Anchored c (.code (.loop head body done rest) :: work)) :
    Anchored c (.guard head body done :: .code rest :: work) := by
  obtain ⟨hlinks, -, hrest⟩ := h
  obtain ⟨-, hlinks⟩ := List.cons_subset.1 hlinks
  obtain ⟨hlink, hlinks⟩ := List.cons_subset.1 hlinks
  obtain ⟨hbody, hlinks⟩ := List.append_subset.1 hlinks
  obtain ⟨hback, hcode⟩ := List.cons_subset.1 hlinks
  refine ⟨List.cons_subset.2 ⟨hlink, List.cons_subset.2 ⟨hback, hbody⟩⟩, ?_, .cons hcode rfl hrest⟩
  rintro _ ⟨⟩
  exact ⟨before, by simpa [opsOf, Code.flatten] using hp.symm⟩

/-- The test of a branch, and the branch. -/
theorem Anchored.test {l : Bool} {test : Mark .doKw} {body : Code l} {chain : Chain l}
    (h : Anchored c (.test test body chain :: work)) :
    (test.1, chain.first) ∈ c.targets none ∧
      chain.targets ((Source.innermost work).map (·.1)) ⊆ c.targets none ∧
      Anchored c (.code body :: .pass chain :: work) := by
  obtain ⟨hlinks, -, hrest⟩ := h
  obtain ⟨hlink, hlinks⟩ := List.cons_subset.1 hlinks
  obtain ⟨hbody, hchain⟩ := List.append_subset.1 hlinks
  exact ⟨hlink, hchain, .cons hbody rfl (.cons hchain rfl hrest)⟩

/-- The test of a loop, and the body. -/
theorem Anchored.guard {head : Head .whileKw} {body : Code true} {done : Mark .doneKw}
    (h : Anchored c (.guard head body done :: work)) :
    (head.test.1, done.1) ∈ c.targets none ∧
      Anchored c (.code body :: .again head body done :: work) := by
  obtain ⟨hlinks, hloop, hrest⟩ := h
  obtain ⟨hlink, hbody⟩ := List.cons_subset.1 hlinks
  exact ⟨hlink, .cons (List.cons_subset.1 hbody).2 rfl ⟨hlinks, hloop, hrest⟩⟩

/-- The last branch of a conditional. -/
theorem Anchored.otherwise (h : Anchored c work) {l : Bool} {op : Mark .elseKw} {body : Code l}
    {endif : Mark .endifKw} (hlinks : (Chain.otherwise op body endif).targets
      ((Source.innermost work).map (·.1)) ⊆ c.targets none) :
    Anchored c (.code body :: .pass (.close endif : Chain l) :: work) :=
  .cons (fun _ hx => hlinks (List.mem_cons_of_mem _ hx)) rfl (.cons (List.nil_subset _) rfl h)

/-- A further branch of a conditional. -/
theorem Anchored.elif (h : Anchored c work) {l : Bool} {head : Head .elifKw} {body : Code l}
    {chain : Chain l} (hlinks : (Chain.elif head body chain).targets
      ((Source.innermost work).map (·.1)) ⊆ c.targets none) :
    Anchored c (.test head.test body chain :: work) :=
  .cons (fun _ hx => hlinks (List.mem_cons_of_mem _ hx)) rfl h

/-- The innermost loop under way lies in what is still to be done. -/
theorem innermost_spec {done : Operation} {rest : List Item}
    (h : Source.innermost work = some (done, rest)) (ha : Anchored c work) :
    ∃ ops, work.flatMap opsOf = ops ++ done :: rest.flatMap opsOf ∧
      done.action = .keyword .doneKw ∧ Anchored c rest := by
  induction work with
  | nil => cases h
  | cons i work ih =>
    cases i with
    | again head body d =>
      obtain ⟨rfl, rfl⟩ := Prod.mk.inj (Option.some.inj h)
      exact ⟨[], rfl, d.2, ha.2.2⟩
    | _ =>
      obtain ⟨ops, hops, hdone, hrest⟩ := ih h ha.2.2
      exact ⟨_ ++ ops, by rw [List.flatMap_cons, hops, List.append_assoc], hdone, hrest⟩

end

/-- **The machine follows the source**: it is about to run the lines of what is still to be done. -/
def Follows (w : World) (room : Nat) (c : Code false) (table : BlockTable) (size : Int)
    (cfg : Source.Config) (s : State) : Prop :=
  ∃ before, c.flatten = before ++ cfg.work.flatMap opsOf ∧ Anchored c cfg.work ∧
    Matches w room (lineOf c.flatten table size before) cfg.state s

/-! ## Steps -/

/-- What answers an operation answers going on with other work. -/
theorem answers_proceed {w : World} {prog : Program} {code : List Line} {R : Source.Config → State → Prop}
    {R' : Source.State → State → Prop} {work : List Item} {n : Nat} {s : State} {vs : List Visit}
    {o : Outcome Source.State} (hr : ∀ st s, R' st s → R ⟨work, st⟩ s)
    (h : System.Answers (visits w prog code) R' n s vs o) :
    System.Answers (visits w prog code) R n s vs (Source.proceed work o) := by
  cases o with
  | running st =>
    obtain ⟨s', hs, h'⟩ := h
    exact ⟨s', hs, hr st s' h'⟩
  | ended => exact h
  | faulted => exact h
  | failed => exact h

section
variable {w : World} {room : Nat} {c : Code false} {table : BlockTable} {size : Int}
  (hw : w.Sane room) (hb : Built c table size) {before : List Operation} {work : List Item}
  {st : Source.State} {s : State}
include hw hb

/-- A plain operation. -/
theorem answers_plain {op : Plain} (hp : c.flatten = before ++ op.1 :: work.flatMap opsOf)
    (ha : Anchored c work) (hm : Matches w room (lineOf c.flatten table size before) st s)
    (hr : st.stack.length + 16 ≤ room) :
    System.Answers (visits w c.flatten (textOf c table size)) (Follows w room c table size) 1 s
      [Source.visit op.1 st] (Source.proceed work (Source.plain w op.1 st)) := by
  have ho : op.1 ∈ c.flatten := by
    rw [hp]
    simp
  obtain ⟨s1, h1, hm1⟩ := run_start hw hb hp hm
  have h2 := answers_template hw hm1 hr hb.linked (hb.sound _ ho) (index_eq_place hb.indexed ho)
    (hb.fits _ ho) (template_isPrefix table size hp)
  refine System.Answers.trans h1 (answers_proceed (fun st' s' hm' => ?_) h2)
  refine ⟨before ++ [op.1], by simpa using hp, ha, ?_⟩
  rw [lineOf_snoc]
  exact hm'

omit hb in
/-- An opener that has been reached: its duplicate, and then its condition. -/
theorem answers_condition {k : Keyword} {head : Head k} {line : Nat}
    (hp : c.flatten =
      before ++ head.opener.1 :: (head.condition.map (·.1) ++ work.flatMap opsOf))
    (ha : Anchored c work) (hat : duplicateLines <+: (textOf c table size).drop line)
    (hend : line + 1 = lineOf c.flatten table size (before ++ [head.opener.1]))
    (hm : Matches w room line st s) (hr : st.stack.length + 16 ≤ room) :
    System.Answers (visits w c.flatten (textOf c table size)) (Follows w room c table size) 0 s []
      (Source.proceed (Source.condition head ++ work) (Source.duplicate st)) := by
  refine answers_proceed (fun st' s' hm' => ?_) (answers_duplicate hw hat hm hr)
  refine ⟨before ++ [head.opener.1], ?_, ha.plains head.condition, hend ▸ hm'⟩
  rw [Source.condition, flatMap_opsOf_plains]
  simpa using hp

omit hb in
/-- The rest of a conditional, reached at its first label. -/
theorem answers_enter {l : Bool} {chain : Chain l} {line : Nat}
    (hp : c.flatten = before ++ (chain.flatten ++ work.flatMap opsOf)) (ha : Anchored c work)
    (hlinks : chain.targets ((Source.innermost work).map (·.1)) ⊆ c.targets none)
    (hat : entryLines chain.first.action <+: (textOf c table size).drop line)
    (hend : line + (entryLines chain.first.action).length =
      lineOf c.flatten table size (before ++ [chain.first]))
    (hm : Matches w room line st s) (hr : st.stack.length + 16 ≤ room) :
    System.Answers (visits w c.flatten (textOf c table size)) (Follows w room c table size) 0 s []
      (Source.enter chain work st) := by
  cases chain with
  | close endif =>
    simp only [Chain.first, endif.2, entryLines] at hend
    exact ⟨s, .refl _ _, before ++ [endif.1], by simpa [Chain.flatten] using hp, ha, hend ▸ hm⟩
  | otherwise op body endif =>
    simp only [Chain.first, op.2, entryLines] at hend
    exact ⟨s, .refl _ _, before ++ [op.1], by simpa [opsOf, Chain.flatten] using hp,
      ha.otherwise hlinks, hend ▸ hm⟩
  | elif head body chain =>
    simp only [Chain.first, head.opener.2, entryLines] at hat hend
    refine answers_condition hw ?_ (ha.elif hlinks) hat hend hm hr
    simpa [Chain.flatten, Head.ops, opsOf] using hp

/-- A `DO`, whose two ways are answered. -/
theorem answers_branch {test : Mark .doKw} {t : Operation} {after b a : List Operation}
    (ht : (test.1, t) ∈ c.targets none) (hp : c.flatten = before ++ test.1 :: after)
    (hpt : c.flatten = b ++ t :: a) {yes : List Item} {no : Source.State → Outcome Source.Config}
    (hyes : ∀ st' s', Matches w room (lineOf c.flatten table size (before ++ [test.1])) st' s' →
      Follows w room c table size ⟨yes, st'⟩ s')
    (hno : ∀ line st' s', entryLines t.action <+: (textOf c table size).drop line →
      line + (entryLines t.action).length = lineOf c.flatten table size (b ++ [t]) →
      Matches w room line st' s' → st'.stack.length + 16 ≤ room →
      System.Answers (visits w c.flatten (textOf c table size)) (Follows w room c table size) 0 s' []
        (no st'))
    (hm : Matches w room (lineOf c.flatten table size before) st s)
    (hr : st.stack.length + 16 ≤ room) {vs : List Visit} {o : Outcome Source.Config}
    (hbranch : Source.branch test.1 st (fun s => ([], .running ⟨yes, s⟩))
      (fun s => ([Source.arrive t s], no s)) = (vs, o)) :
    System.Answers (visits w c.flatten (textOf c table size)) (Follows w room c table size) 1 s vs o := by
  obtain ⟨s1, h1, hm1⟩ := run_start hw hb hp hm
  unfold Source.branch at hbranch
  split at hbranch
  · rename_i v x rest hst
    have hland := (partner_of_mem hb.indexed hb.resolved ht).2.1
    obtain ⟨j, hj, hdest, hrest, hend⟩ := exists_label hb hpt hland
    obtain ⟨s2, h2, hm2⟩ := run_test hw hb ht hp hdest hst hm1 hr
    rw [hst] at hr
    simp only [List.length_cons] at hr
    by_cases hv : v = 0#64
    · rw [if_pos hv] at hm2 hbranch
      obtain ⟨rfl, rfl⟩ := Prod.mk.inj hbranch
      obtain ⟨s3, h3, hm3⟩ := run_seen hw hj (hb.linked.label t (by rw [hpt]; simp) hland) hm2
      have h4 := hno _ _ _ hrest hend hm3 (by dsimp only; omega)
      exact (System.Answers.trans h1 (System.Answers.trans h2 (System.Answers.trans h3 h4))).mono
        (by omega)
    · rw [if_neg hv] at hm2 hbranch
      obtain ⟨rfl, rfl⟩ := Prod.mk.inj hbranch
      exact ⟨s2, h1.trans h2, hyes _ _ hm2⟩
  · obtain ⟨rfl, rfl⟩ := Prod.mk.inj hbranch
    exact ⟨_, h1.mono (Nat.zero_le _)⟩

/-- A branch that has been run goes on behind the conditional. -/
theorem answers_pass {l : Bool} {chain : Chain l}
    (hp : c.flatten = before ++ (chain.flatten ++ work.flatMap opsOf)) (ha : Anchored c work)
    {exit : Option Operation} (hlinks : chain.targets exit ⊆ c.targets none)
    (hm : Matches w room (lineOf c.flatten table size before) st s) :
    System.Answers (visits w c.flatten (textOf c table size)) (Follows w room c table size) 1 s
      [Source.visit chain.first st, Source.arrive chain.endif st] (.running ⟨work, st⟩) := by
  obtain ⟨tail, htail⟩ := chain.flatten_first
  obtain ⟨ops, hops, hend⟩ := chain.flatten_endif
  have hfirst : c.flatten = before ++ chain.first :: (tail ++ work.flatMap opsOf) := by
    rw [hp, htail, List.cons_append]
  obtain ⟨s1, h1, hm1⟩ := run_start hw hb hfirst hm
  have hat := template_isPrefix table size hfirst
  -- either the `ENDIF` itself comes next, or the operation that does jumps to it
  rcases chain.first_endif exit with ⟨hsame, hflat⟩ | ⟨hmem, hjump⟩
  · rw [hflat] at hp
    have hlines := template_keyword c.flatten table size hend rfl
    rw [hsame, hlines] at hat
    have hpoint := hb.linked.label chain.endif (by rw [hp]; simp) (by rw [hend]; rfl)
    obtain ⟨s2, h2, hm2⟩ := run_seen hw (head_of_isPrefix hat).1 hpoint hm1
    refine ⟨s2, (h1.trans h2).mono (by omega), before ++ [chain.endif], by simpa using hp, ha, ?_⟩
    rw [lineOf_snoc, hlines]
    exact hm2
  · have hlast : c.flatten = (before ++ ops) ++ chain.endif :: work.flatMap opsOf := by
      rw [hp, hops]
      simp
    obtain ⟨ls, hls⟩ := hb.template_jump (hlinks hmem)
      (List.mem_append_left [_, _] hjump)
    rw [hls] at hat
    obtain ⟨j, s2, h2, hm2, -, hj⟩ :=
      run_arrive hw hb hlast (by rw [hend]; rfl) (head_of_isPrefix hat).1 hm1
    rw [hend] at hj
    exact ⟨s2, (h1.trans h2).mono (by omega), before ++ ops ++ [chain.endif], by simpa using hlast, ha,
      hj ▸ hm2⟩

/-- A `BREAK` goes on behind the innermost loop. -/
theorem answers_leave {op : Mark .breakKw} {after : List Operation}
    (hp : c.flatten = before ++ op.1 :: (after ++ work.flatMap opsOf)) (ha : Anchored c work)
    {done : Operation} {rest : List Item} (hin : Source.innermost work = some (done, rest))
    (hlink : (op.1, done) ∈ c.targets none)
    (hm : Matches w room (lineOf c.flatten table size before) st s) :
    System.Answers (visits w c.flatten (textOf c table size)) (Follows w room c table size) 1 s
      [Source.visit op.1 st, Source.arrive done st] (.running ⟨rest, st⟩) := by
  obtain ⟨ops, hops, hact, ha'⟩ := innermost_spec hin ha
  have hdone : c.flatten = (before ++ op.1 :: (after ++ ops)) ++ done :: rest.flatMap opsOf := by
    rw [hp, hops]
    simp
  obtain ⟨s1, h1, hm1⟩ := run_start hw hb hp hm
  obtain ⟨ls, hls⟩ := hb.template_jump hlink (by simp [op.2])
  have hat := template_isPrefix table size hp
  rw [hls] at hat
  obtain ⟨j, s2, h2, hm2, -, hj⟩ := run_arrive hw hb hdone
    (by rw [hact]; rfl) (head_of_isPrefix hat).1 hm1
  rw [hact] at hj
  refine ⟨s2, (h1.trans h2).mono (by omega), before ++ op.1 :: (after ++ ops) ++ [done], ?_, ha',
    hj ▸ hm2⟩
  simpa using hdone

/-- The end of a loop's body goes back to the start of the loop. -/
theorem answers_again {head : Head .whileKw} {body : Code true} {done : Mark .doneKw}
    (hp : c.flatten = before ++ done.1 :: work.flatMap opsOf)
    (ha : Anchored c (.again head body done :: work))
    (hm : Matches w room (lineOf c.flatten table size before) st s)
    (hr : st.stack.length + 16 ≤ room) :
    System.Answers (visits w c.flatten (textOf c table size)) (Follows w room c table size) 1 s
      [Source.visit done.1 st, Source.arrive head.opener.1 st]
      (Source.proceed (Source.condition head ++ .guard head body done :: work)
        (Source.duplicate st)) := by
  obtain ⟨hlinks, hloop, ha'⟩ := ha
  obtain ⟨b, hb'⟩ := hloop _ rfl
  have hlink : (done.1, head.opener.1) ∈ c.targets none := hlinks (by simp [linksOf])
  have hopen : c.flatten = b ++ head.opener.1 :: (head.condition.map (·.1) ++
      (Item.guard head body done :: work).flatMap opsOf) := by
    simpa [Head.ops, opsOf] using hb'.symm
  obtain ⟨s1, h1, hm1⟩ := run_start hw hb hp hm
  obtain ⟨ls, hls⟩ := hb.template_jump hlink (by simp [done.2])
  have hat := template_isPrefix table size hp
  rw [hls] at hat
  obtain ⟨j, s2, h2, hm2, hdup, hj⟩ := run_arrive hw hb hopen
    (isLanding_mark head.opener rfl) (head_of_isPrefix hat).1 hm1
  rw [head.opener.2] at hdup hj
  have h3 := answers_condition hw hopen ⟨hlinks, hloop, ha'⟩ hdup hj hm2 hr
  exact (System.Answers.trans h1 (System.Answers.trans h2 h3)).mono (by omega)

omit hb in
/-- The lines behind the program end the run. -/
theorem answers_finish (hm : Matches w room (lineOf c.flatten table size c.flatten) st s)
    (hr : st.stack.length + 16 ≤ room) :
    System.Answers (visits w c.flatten (textOf c table size)) (Follows w room c table size) 1 s
      [.seen .finish st.stack] .ended := by
  have hat : epilogue <+:
      (textOf c table size).drop (lineOf c.flatten table size c.flatten) := by
    have hall : c.flatten = c.flatten ++ [] := (List.append_nil _).symm
    rw [textOf, drop_lineOf hall]
    exact List.prefix_rfl
  obtain ⟨hcomment, hrest⟩ := head_of_isPrefix hat
  have hhead : epilogue.head? = some (.comment "exit(0)") := rfl
  have hpoint : point? c.flatten (.comment "exit(0)") = some .finish := by
    rw [point?, if_pos hhead]
  obtain ⟨s1, h1, hm1⟩ := run_seen hw hcomment hpoint hm
  have h2 : (visits w c.flatten (textOf c table size)).Reaches 0 s1 [] .ended :=
    answers_call (f := fun _ => st.stack) hw [_, _] 60#64 st.stack hrest
      (fun v hv => ⟨_, rfl, hv, rfl⟩) (fun x v _ hv => ⟨v, rfl, hv⟩) hm1 (by simp; omega) (by simp; omega)
  exact (h1.trans h2).mono (Nat.zero_le _)

omit hw hb in
/-- Each step shows the stack that it starts with. -/
theorem exists_depth (w : World) (work : List Item) (st : Source.State) :
    ∃ v ∈ (Source.advance w work st).1, v.depth = st.stack.length := by
  have hbranch : ∀ (op : Operation) (yes no : Source.State → List Visit × Outcome Source.Config),
      ∃ v ∈ (Source.branch op st yes no).1, v.depth = st.stack.length := by
    intro op yes no
    unfold Source.branch
    split
    · exact ⟨_, List.mem_cons_self, rfl⟩
    · exact ⟨_, List.mem_cons_self, rfl⟩
  induction work with
  | nil => exact ⟨_, List.mem_cons_self, rfl⟩
  | cons i work ih =>
    cases i with
    | plain op => exact ⟨_, List.mem_cons_self, rfl⟩
    | code c =>
      cases c with
      | nil => exact ih
      | leave op rest =>
        simp only [Source.advance]
        split <;> exact ⟨_, List.mem_cons_self, rfl⟩
      | _ => exact ⟨_, List.mem_cons_self, rfl⟩
    | test test body chain => exact hbranch ..
    | guard head body done => exact hbranch ..
    | pass chain => exact ⟨_, List.mem_cons_self, rfl⟩
    | again head body done => exact ⟨_, List.mem_cons_self, rfl⟩

/-! The operations of the block structure, each where its item comes next. -/

section
variable (hm : Matches w room (lineOf c.flatten table size before) st s)
  (hr : st.stack.length + 16 ≤ room)
include hm hr

theorem answers_test {l : Bool} {test : Mark .doKw} {body : Code l} {chain : Chain l}
    (hp : c.flatten = before ++ (Item.test test body chain :: work).flatMap opsOf)
    (ha : Anchored c (.test test body chain :: work)) :
    System.Answers (visits w c.flatten (textOf c table size)) (Follows w room c table size) 1 s
      (Source.advance w (.test test body chain :: work) st).1
      (Source.advance w (.test test body chain :: work) st).2 := by
  obtain ⟨hlink, hchain, hbody⟩ := ha.test
  obtain ⟨ops, hops⟩ := chain.flatten_first
  have hfirst : c.flatten = (before ++ test.1 :: body.flatten) ++
      chain.first :: (ops ++ work.flatMap opsOf) := by
    simpa [opsOf, hops] using hp
  refine answers_branch hw hb hlink hp hfirst (fun st' s' hm' => ?_)
    (fun line st' s' hat hend hm' hr' => ?_) hm hr rfl
  · exact ⟨before ++ [test.1], by simpa [opsOf] using hp, hbody, hm'⟩
  · have hchains : c.flatten = (before ++ test.1 :: body.flatten) ++
        (chain.flatten ++ work.flatMap opsOf) := by
      simpa [opsOf] using hp
    exact answers_enter hw hchains ha.2.2 hchain hat hend hm' hr'

theorem answers_guard {head : Head .whileKw} {body : Code true} {done : Mark .doneKw}
    (hp : c.flatten = before ++ (Item.guard head body done :: work).flatMap opsOf)
    (ha : Anchored c (.guard head body done :: work)) :
    System.Answers (visits w c.flatten (textOf c table size)) (Follows w room c table size) 1 s
      (Source.advance w (.guard head body done :: work) st).1
      (Source.advance w (.guard head body done :: work) st).2 := by
  obtain ⟨hlink, hbody⟩ := ha.guard
  have hdone : c.flatten = (before ++ head.test.1 :: body.flatten) ++
      done.1 :: work.flatMap opsOf := by
    simpa [opsOf] using hp
  refine answers_branch hw hb hlink hp hdone (fun st' s' hm' => ?_)
    (fun line st' s' _ hend hm' _ => ?_) hm hr rfl
  · exact ⟨before ++ [head.test.1], by simpa [opsOf] using hp, hbody, hm'⟩
  · rw [done.2] at hend
    refine ⟨s', .refl _ _, before ++ head.test.1 :: body.flatten ++ [done.1], ?_, ha.2.2, hend ▸ hm'⟩
    simpa using hdone

theorem answers_cond {l : Bool} {head : Head .ifKw} {body : Code l} {chain : Chain l} {rest : Code l}
    (hp : c.flatten = before ++ (Item.code (.cond head body chain rest) :: work).flatMap opsOf)
    (ha : Anchored c (.code (.cond head body chain rest) :: work)) :
    System.Answers (visits w c.flatten (textOf c table size)) (Follows w room c table size) 1 s
      [Source.visit head.opener.1 st] (Source.proceed
        (Source.condition head ++ .test head.test body chain :: .code rest :: work)
        (Source.duplicate st)) := by
  have hopen : c.flatten = before ++ head.opener.1 :: (head.condition.map (·.1) ++
      (Item.test head.test body chain :: .code rest :: work).flatMap opsOf) := by
    simpa [opsOf, Code.flatten, Head.ops] using hp
  have hlines := template_keyword c.flatten table size head.opener.2 rfl
  have hat := template_isPrefix table size hopen
  rw [hlines] at hat
  obtain ⟨s1, h1, hm1⟩ := run_start hw hb hopen hm
  refine System.Answers.trans h1 (answers_condition hw hopen ha.cond hat ?_ hm1 hr)
  rw [lineOf_snoc, hlines]
  rfl

theorem answers_loop {l : Bool} {head : Head .whileKw} {body : Code true} {done : Mark .doneKw}
    {rest : Code l}
    (hp : c.flatten = before ++ (Item.code (.loop head body done rest) :: work).flatMap opsOf)
    (ha : Anchored c (.code (.loop head body done rest) :: work)) :
    System.Answers (visits w c.flatten (textOf c table size)) (Follows w room c table size) 1 s
      [Source.visit head.opener.1 st, Source.arrive head.opener.1 st] (Source.proceed
        (Source.condition head ++ .guard head body done :: .code rest :: work)
        (Source.duplicate st)) := by
  have hopen : c.flatten = before ++ head.opener.1 :: (head.condition.map (·.1) ++
      (Item.guard head body done :: .code rest :: work).flatMap opsOf) := by
    simpa [opsOf, Code.flatten, Head.ops] using hp
  have hlines := template_keyword c.flatten table size head.opener.2 rfl
  have hat := template_isPrefix table size hopen
  rw [hlines] at hat
  obtain ⟨hlabel, hdup⟩ := head_of_isPrefix hat
  have hpoint := hb.linked.label head.opener.1 (by rw [hopen]; simp) (isLanding_mark head.opener rfl)
  obtain ⟨s1, h1, hm1⟩ := run_start hw hb hopen hm
  obtain ⟨s2, h2, hm2⟩ := run_seen hw hlabel hpoint hm1
  refine (System.Answers.trans h1 (System.Answers.trans h2
    (answers_condition hw hopen (ha.loop hp) hdup ?_ hm2 hr))).mono (by omega)
  rw [lineOf_snoc, hlines]
  rfl

/-- **One step of the source is answered**, whatever comes next. -/
theorem answers_advance (hp : c.flatten = before ++ work.flatMap opsOf) (ha : Anchored c work) :
    System.Answers (visits w c.flatten (textOf c table size)) (Follows w room c table size) 1 s
      (Source.advance w work st).1 (Source.advance w work st).2 := by
  induction work with
  | nil =>
    obtain rfl : c.flatten = before := by simpa using hp
    exact answers_finish hw hm hr
  | cons i work ih =>
    have hrest := ha.2.2
    cases i with
    | plain op => exact answers_plain hw hb hp hrest hm hr
    | pass chain => exact answers_pass hw hb hp hrest ha.1 hm
    | again head body done => exact answers_again hw hb hp ha hm hr
    | test test body chain => exact answers_test hw hb hm hr hp ha
    | guard head body done => exact answers_guard hw hb hm hr hp ha
    | code code =>
      cases code with
      | nil => exact ih hp hrest
      | plain op rest =>
        have hwork : Anchored c (.code rest :: work) := .cons ha.1 rfl hrest
        exact answers_plain hw hb (by simpa [opsOf, Code.flatten] using hp) hwork hm hr
      | cond head body chain rest => exact answers_cond hw hb hm hr hp ha
      | loop head body done rest => exact answers_loop hw hb hm hr hp ha
      | leave op rest =>
        have hp' : c.flatten = before ++ op.1 :: (rest.flatten ++ work.flatMap opsOf) := by
          simpa [opsOf, Code.flatten] using hp
        simp only [Source.advance]
        split
        · obtain ⟨s1, h1, -⟩ := run_start hw hb hp' hm
          exact ⟨_, h1.mono (Nat.zero_le _)⟩
        · rename_i done rest' hin
          refine answers_leave hw hb hp' hrest hin (ha.1 ?_) hm
          simp [linksOf, Code.targets, hin]

end

/-! ## Runs -/

omit hb in
/-- The store of the first stack pointer. -/
theorem backs_store {d : Data} (hsp : d.regs .rsp = w.base) (hargc : d.mem.load 8 w.base = w.argc) :
    Backs w room (d.mem.store 8 w.cell w.base) ⟨d.regs, d.flags, []⟩ := by
  have hc := hw.cell_end
  have ha := hw.above
  refine ⟨Nat.zero_le _, hsp, ?_, Memory.load_store (n := 8) _ (by decide) _ _⟩
  rw [← hargc]
  refine Memory.load_congr fun i hi => Memory.store_apply_of_le (n := 8) _ _ ?_
  have hx : (w.base + BitVec.ofNat 64 i).toNat = w.base.toNat + i := toNat_add_ofNat (by omega)
  rw [BitVec.toNat_sub, hx]
  rcases hw.apart with h | h <;> omega

/-- The machine starts at `_start` and comes to the first operation. -/
theorem exists_boot {d : Data} (hsp : d.regs .rsp = w.base) (hargc : d.mem.load 8 w.base = w.argc) :
    ∃ s0 s, boot (textOf c table size) d = some s0 ∧
      (visits w c.flatten (textOf c table size)).Reaches 0 s0 [] (.running s) ∧
      Follows w room c table size (Source.start c) s := by
  have hframe : preamble <+: (textOf c table size).drop 0 := hb.linked.frame
  have hlabel : (textOf c table size)[0 + startLine]? = some (.label "_start") :=
    line_of_isPrefix hframe rfl
  have hstore : (textOf c table size)[0 + (startLine + 1)]? = some (.instruction (.binary .mov
      (.memory none (.symbol argsPointer)) (q .rsp))) := line_of_isPrefix hframe rfl
  have hboot : boot (textOf c table size) d = some ⟨startLine, d, 0⟩ :=
    congrArg (Option.map _) (hb.linked.resolves _ _ hlabel (by decide) 0)
  have hquiet : point? c.flatten (.label "_start") = none :=
    hb.linked.quiet _ (by decide)
  have h1 : (visits w c.flatten (textOf c table size)).Reaches 1 ⟨startLine, d, 0⟩ []
      (.running ⟨startLine + 1, d, 0⟩) := run_label hlabel hquiet
  have h2 : visits w c.flatten (textOf c table size) ⟨startLine + 1, d, 0⟩ =
      ([], .running ⟨startLine + 2, { d with mem := d.mem.store 8 w.cell (d.regs .rsp) }, 0⟩) :=
    visits_exec hstore (breaches_of_reach rfl) rfl
  refine ⟨_, _, hboot, (h1.trans (.step h2)).mono (Nat.zero_le _), [], by simp [Source.start, opsOf],
    .cons (List.Subset.refl _) rfl trivial, ⟨d.regs, d.flags, []⟩, _, rfl, ?_, rfl⟩
  have hback := backs_store hw hsp hargc
  rw [← hsp] at hback
  exact hback

/-- **Runs of every length** on a stack that is deep enough. -/
theorem answers_run {d : Data} (hsp : d.regs .rsp = w.base) (hargc : d.mem.load 8 w.base = w.argc) :
    ∃ s0, boot (textOf c table size) d = some s0 ∧
      ∀ n, (∀ v ∈ (Source.visits w).trace n (Source.start c), v.depth + 16 ≤ room) →
        System.Answers (visits w c.flatten (textOf c table size)) (Follows w room c table size) n s0
          ((Source.visits w).trace n (Source.start c)) ((Source.visits w).after n (Source.start c)) := by
  obtain ⟨s0, s, hboot, hrun, hfollows⟩ := exists_boot hw hb hsp hargc
  refine ⟨s0, hboot, fun n hdepth => ?_⟩
  have hstep : ∀ cfg s, Follows w room c table size cfg s →
      (∀ v ∈ (Source.visits w cfg).1, v.depth + 16 ≤ room) →
      System.Answers (visits w c.flatten (textOf c table size)) (Follows w room c table size) 1 s
        (Source.visits w cfg).1 (Source.visits w cfg).2 := by
    rintro ⟨work, st⟩ s ⟨before, hp, ha, hm⟩ hv
    obtain ⟨v, hmem, hlen⟩ := exists_depth w work st
    exact answers_advance hw hb hm (hlen ▸ hv v hmem) hp ha
  have h := System.Answers.trans hrun (System.simulates hstep n hfollows hdepth)
  exact h.mono (by omega)

end

end Machine

end StackLang
