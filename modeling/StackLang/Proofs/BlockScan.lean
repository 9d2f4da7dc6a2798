import StackLang.Proofs.BlockGrammar
import StackLang.Proofs.BlockPartners

/-!
# Partners by counting nested blocks

The partner of an operation can be found without a table, by a scan of the flat program that counts
the blocks it enters and leaves: from the `DO` of a conditional forward to the next `ELIF`, `ELSE`
or `ENDIF` outside inner conditionals, from a `DONE` back to the `WHILE` outside inner loops, and so
on. The table of the resolver agrees with these scans.

- `scan`, `scanOpener`, `scanTarget`: the scans.
- `Code.passes_if`, `Code.passes_while`, `Code.passes_back`: a scan at any depth goes over a whole
  sequence.
- `Code.found_targets`, `Code.found_openers`: scans find the links of a tree.
- `Blocks.resolve_partners`: the table, the tree and the scans agree.
-/

set_option autoImplicit false

namespace StackLang

open BlockTree

/-- The first operation with one of the keywords `stops` that is not inside a block from `opening`
to `closing`, when the scan starts inside `depth` of them. -/
def scan (opening closing : Keyword) (stops : List Keyword) : Nat → List Operation →
    Option Operation
  | _, [] => none
  | depth, op :: ops =>
    if depth = 0 ∧ op.action ∈ stops.map .keyword then some op
    else if op.action = .keyword opening then scan opening closing stops (depth + 1) ops
    else if op.action = .keyword closing then scan opening closing stops (depth - 1) ops
    else scan opening closing stops depth ops

/-- The nearest opener before a `DO`; `before` holds the operations before it, the nearest first. -/
def scanOpener (before : List Operation) (op : Operation) (_ : List Operation) :
    Option Operation :=
  if op.action = .keyword .doKw then before.find? fun o => Blocks.opensTest o.action else none

/-- The operation that control goes to from `op`, between those `before` it, the nearest first, and
those `after` it. -/
def scanTarget (before : List Operation) (op : Operation) (after : List Operation) :
    Option Operation :=
  match op.action with
  | .keyword .doKw =>
    if (scanOpener before op after).any fun o => o.action = .keyword .whileKw then
      scan .whileKw .doneKw [.doneKw] 0 after
    else scan .ifKw .endifKw [.elifKw, .elseKw, .endifKw] 0 after
  | .keyword .elifKw | .keyword .elseKw => scan .ifKw .endifKw [.endifKw] 0 after
  | .keyword .whileKw | .keyword .breakKw => scan .whileKw .doneKw [.doneKw] 0 after
  | .keyword .doneKw => scan .doneKw .whileKw [.whileKw] 0 before
  | _ => none

/-- The result of a scan from a place of a program, as a place. -/
def scanAt (f : List Operation → Operation → List Operation → Option Operation) (prog : Program)
    (i : Nat) : Option Nat :=
  (prog[i]?.bind fun op => f (prog.take i).reverse op (prog.drop (i + 1))).map Operation.place

/-! ## Going over blocks -/

section
variable {opening closing : Keyword} {stops : List Keyword}

variable (opening closing stops) in
/-- The scan goes over the operations, whatever its depth. -/
def Passes (ops : List Operation) : Prop :=
  ∀ depth after, scan opening closing stops depth (ops ++ after)
    = scan opening closing stops depth after

variable (opening closing stops) in
/-- The scan goes over the operations when it is inside a block. -/
def PassesInside (ops : List Operation) : Prop :=
  ∀ depth after, scan opening closing stops (depth + 1) (ops ++ after)
    = scan opening closing stops (depth + 1) after

variable (opening closing stops) in
/-- A keyword that means nothing to the scan. -/
def Ignores (k : Keyword) : Prop := k ≠ opening ∧ k ≠ closing ∧ k ∉ stops

theorem Passes.inside {ops : List Operation} (h : Passes opening closing stops ops) :
    PassesInside opening closing stops ops := fun depth => h (depth + 1)

theorem passes_nil : Passes opening closing stops [] := fun _ _ => rfl

theorem Passes.append {ops ops' : List Operation} (h : Passes opening closing stops ops)
    (h' : Passes opening closing stops ops') : Passes opening closing stops (ops ++ ops') := by
  intro depth after
  rw [List.append_assoc, h, h']

theorem PassesInside.append {ops ops' : List Operation}
    (h : PassesInside opening closing stops ops) (h' : PassesInside opening closing stops ops') :
    PassesInside opening closing stops (ops ++ ops') := by
  intro depth after
  rw [List.append_assoc, h, h']

theorem passes_mark {k : Keyword} (m : Mark k) (hk : Ignores opening closing stops k) :
    Passes opening closing stops [m.1] := by
  intro depth after
  simp [scan, m.2, hk.1, hk.2.1, hk.2.2]

theorem passesInside_mark {k : Keyword} (m : Mark k) (ho : k ≠ opening) (hc : k ≠ closing) :
    PassesInside opening closing stops [m.1] := by
  intro depth after
  simp [scan, m.2, ho, hc]

theorem passes_plain (p : Plain) : Passes opening closing stops [p.1] := by
  have hp : ∀ k, p.1.action ≠ .keyword k := fun k he => by
    have := p.2
    simp [he, Action.isStructural] at this
  have hs : p.1.action ∉ stops.map Action.keyword := by
    simpa using fun k _ he => hp k he.symm
  intro depth after
  simp [scan, hp, hs]

theorem passes_plains (ps : List Plain) : Passes opening closing stops (ps.map (·.1)) := by
  induction ps with
  | nil => exact passes_nil
  | cons p ps ih => exact (passes_plain p).append ih

theorem passes_head {k : Keyword} (head : Head k) (hk : Ignores opening closing stops k)
    (hd : Ignores opening closing stops .doKw) : Passes opening closing stops head.ops :=
  (passes_mark head.opener hk).append ((passes_plains _).append (passes_mark head.test hd))

theorem scan_opening (m : Mark opening) (ho : opening ∉ stops) (depth : Nat)
    (after : List Operation) :
    scan opening closing stops depth (m.1 :: after)
      = scan opening closing stops (depth + 1) after := by
  simp [scan, m.2, ho]

theorem scan_closing (m : Mark closing) (hne : closing ≠ opening) (depth : Nat)
    (after : List Operation) :
    scan opening closing stops (depth + 1) (m.1 :: after)
      = scan opening closing stops depth after := by
  simp [scan, m.2, hne]

theorem scan_stop {k : Keyword} (m : Mark k) (hk : k ∈ stops) (after : List Operation) :
    scan opening closing stops 0 (m.1 :: after) = some m.1 := by
  simp [scan, m.2, hk]

/-- The scan goes over a block when it goes over what is inside. -/
theorem PassesInside.block {ops : List Operation} (h : PassesInside opening closing stops ops)
    (m : Mark opening) (m' : Mark closing) (ho : opening ∉ stops) (hne : closing ≠ opening) :
    Passes opening closing stops (m.1 :: (ops ++ [m'.1])) := by
  intro depth after
  rw [List.cons_append, scan_opening m ho, List.append_assoc, h, List.singleton_append,
    scan_closing m' hne]

end

instance {opening closing : Keyword} {stops : List Keyword} {k : Keyword} :
    Decidable (Ignores opening closing stops k) :=
  inferInstanceAs (Decidable (_ ∧ _))

namespace BlockTree

/-- The operations of a chain before its `ENDIF`. -/
def Chain.inner {l : Bool} : Chain l → List Operation
  | .close _ => []
  | .otherwise op body _ => op.1 :: body.flatten
  | .elif head body chain => head.ops ++ (body.flatten ++ chain.inner)

/-- The `ENDIF` of a chain as what it is. -/
def Chain.closing {l : Bool} : Chain l → Mark .endifKw
  | .close endif => endif
  | .otherwise _ _ endif => endif
  | .elif _ _ chain => chain.closing

theorem Chain.closing_val {l : Bool} (chain : Chain l) : chain.closing.1 = chain.endif := by
  induction chain using Chain.induct with
  | close _ => rfl
  | otherwise _ _ _ => rfl
  | elif _ _ _ ih => exact ih

theorem Chain.flatten_eq {l : Bool} (chain : Chain l) :
    chain.flatten = chain.inner ++ [chain.closing.1] := by
  induction chain using Chain.induct with
  | close _ => rfl
  | otherwise _ _ _ => rfl
  | elif head body chain ih => simp [Chain.flatten, Chain.inner, Chain.closing, ih]

/-! ### Conditionals -/

/-- The keywords at which scans over conditionals stop. -/
def BranchEnds (stops : List Keyword) : Prop :=
  ∀ k ∈ stops, k = .elifKw ∨ k = .elseKw ∨ k = .endifKw

section
variable {stops : List Keyword}

theorem BranchEnds.ignores (hs : BranchEnds stops) {k : Keyword}
    (hk : k ∈ [Keyword.doKw, .whileKw, .doneKw, .breakKw]) :
    Ignores .ifKw .endifKw stops k := by
  refine ⟨?_, ?_, fun h => ?_⟩
  · rintro rfl
    simp at hk
  · rintro rfl
    simp at hk
  · rcases hs k h with rfl | rfl | rfl <;> simp at hk

theorem BranchEnds.not_if (hs : BranchEnds stops) : Keyword.ifKw ∉ stops := by
  intro h
  rcases hs _ h with h | h | h <;> cases h

mutual

/-- A scan over conditionals goes over a sequence. -/
theorem Code.passes_if {l : Bool} (c : Code l) (hs : BranchEnds stops) :
    Passes .ifKw .endifKw stops c.flatten := by
  match c with
  | .nil => exact passes_nil
  | .plain p rest => exact (passes_plain p).append (rest.passes_if hs)
  | .leave op rest =>
    exact (passes_mark op (hs.ignores (by decide))).append (rest.passes_if hs)
  | .cond head body chain rest =>
    have hinside : PassesInside .ifKw .endifKw stops
        (head.condition.map (·.1) ++ ([head.test.1] ++ (body.flatten ++ chain.inner))) :=
      (passes_plains _).inside.append ((passes_mark head.test (hs.ignores (by decide))).inside.append
        ((body.passes_if hs).inside.append (chain.inside_if hs)))
    have hblock := hinside.block head.opener chain.closing hs.not_if (by decide)
    have hall := hblock.append (rest.passes_if hs)
    simpa [Code.flatten, Head.ops, chain.flatten_eq] using hall
  | .loop head body done rest =>
    exact (passes_head head (hs.ignores (by decide)) (hs.ignores (by decide))).append
      ((body.passes_if hs).append
        ((passes_mark done (hs.ignores (by decide))).append (rest.passes_if hs)))

theorem Chain.inside_if {l : Bool} (chain : Chain l) (hs : BranchEnds stops) :
    PassesInside .ifKw .endifKw stops chain.inner := by
  match chain with
  | .close _ => exact passes_nil.inside
  | .otherwise op body _ =>
    exact (passesInside_mark op (by decide) (by decide)).append (body.passes_if hs).inside
  | .elif head body chain =>
    have hhead : PassesInside .ifKw .endifKw stops head.ops :=
      (passesInside_mark head.opener (by decide) (by decide)).append
        ((passes_plains _).append (passes_mark head.test (hs.ignores (by decide)))).inside
    exact hhead.append ((body.passes_if hs).inside.append (chain.inside_if hs))

end

theorem branchEnds_endif : BranchEnds [.endifKw] := by simp [BranchEnds]

theorem branchEnds_all : BranchEnds [.elifKw, .elseKw, .endifKw] := by simp [BranchEnds]

/-- A scan for the `ENDIF` of a chain goes over its other branches. -/
theorem Chain.passes_inner {l : Bool} (chain : Chain l) :
    Passes .ifKw .endifKw [.endifKw] chain.inner := by
  match chain with
  | .close _ => exact passes_nil
  | .otherwise op body _ =>
    exact (passes_mark op (by decide)).append (body.passes_if branchEnds_endif)
  | .elif head body chain =>
    exact (passes_head head (by decide) (by decide)).append
      ((body.passes_if branchEnds_endif).append chain.passes_inner)

theorem Chain.scan_endif {l : Bool} (chain : Chain l) (after : List Operation) :
    scan .ifKw .endifKw [.endifKw] 0 (chain.flatten ++ after) = some chain.endif := by
  rw [chain.flatten_eq, List.append_assoc, chain.passes_inner, List.singleton_append,
    scan_stop _ (by simp), chain.closing_val]

theorem Chain.scan_first {l : Bool} (chain : Chain l) (after : List Operation) :
    scan .ifKw .endifKw [.elifKw, .elseKw, .endifKw] 0 (chain.flatten ++ after)
      = some chain.first := by
  match chain with
  | .close endif => exact scan_stop endif (by simp) _
  | .otherwise op _ _ => exact scan_stop op (by simp) _
  | .elif head _ _ => exact scan_stop head.opener (by simp) _

end

/-! ### Loops -/

mutual

/-- A scan over loops goes over a sequence. -/
theorem Code.passes_while {l : Bool} (c : Code l) :
    Passes .whileKw .doneKw [.doneKw] c.flatten := by
  match c with
  | .nil => exact passes_nil
  | .plain p rest => exact (passes_plain p).append rest.passes_while
  | .leave op rest => exact (passes_mark op (by decide)).append rest.passes_while
  | .cond head body chain rest =>
    exact (passes_head head (by decide) (by decide)).append
      (body.passes_while.append (chain.passes_while.append rest.passes_while))
  | .loop head body done rest =>
    have hinside : Passes .whileKw .doneKw [.doneKw]
        (head.condition.map (·.1) ++ ([head.test.1] ++ body.flatten)) :=
      (passes_plains _).append ((passes_mark head.test (by decide)).append body.passes_while)
    have hblock := hinside.inside.block head.opener done (by decide) (by decide)
    have hall := hblock.append rest.passes_while
    simpa [Code.flatten, Head.ops] using hall

theorem Chain.passes_while {l : Bool} (chain : Chain l) :
    Passes .whileKw .doneKw [.doneKw] chain.flatten := by
  match chain with
  | .close endif => exact passes_mark endif (by decide)
  | .otherwise op body endif =>
    exact (passes_mark op (by decide)).append
      (body.passes_while.append (passes_mark endif (by decide)))
  | .elif head body chain =>
    exact (passes_head head (by decide) (by decide)).append
      (body.passes_while.append chain.passes_while)

end

/-- A condition, its `DO` and the body of a loop lead a scan from the `WHILE` to the `DONE`. -/
theorem scan_while (head : Head .whileKw) (body : Code true) (done : Mark .doneKw)
    (after : List Operation) :
    scan .whileKw .doneKw [.doneKw] 0
      (head.condition.map (·.1) ++ head.test.1 :: (body.flatten ++ done.1 :: after))
      = some done.1 := by
  have htest := passes_mark head.test (by decide : Ignores .whileKw .doneKw [.doneKw] .doKw) 0
  simp only [List.singleton_append] at htest
  rw [passes_plains, htest, body.passes_while, scan_stop done (by simp)]

/-! ### Loops from their ends -/

/-- Scans that go from a `DONE` back to its `WHILE`. -/
def PassesBack (ops : List Operation) : Prop :=
  Passes .doneKw .whileKw [.whileKw] ops.reverse

theorem PassesBack.append {ops ops' : List Operation} (h : PassesBack ops)
    (h' : PassesBack ops') : PassesBack (ops ++ ops') := by
  have happ := Passes.append h' h
  rwa [← List.reverse_append] at happ

theorem passesBack_mark {k : Keyword} (m : Mark k) (hk : Ignores .doneKw .whileKw [.whileKw] k) :
    PassesBack [m.1] := passes_mark m hk

theorem passesBack_plains (ps : List Plain) : PassesBack (ps.map (·.1)) := by
  have h : Passes .doneKw .whileKw [.whileKw] (ps.reverse.map (·.1)) := passes_plains _
  rwa [List.map_reverse] at h

theorem passesBack_head {k : Keyword} (head : Head k)
    (hk : Ignores .doneKw .whileKw [.whileKw] k) : PassesBack head.ops :=
  (passesBack_mark head.opener hk).append
    ((passesBack_plains _).append (passesBack_mark head.test (by decide)))

mutual

/-- A scan from the end goes over a sequence. -/
theorem Code.passes_back {l : Bool} (c : Code l) : PassesBack c.flatten := by
  match c with
  | .nil => exact passes_nil
  | .plain p rest => exact PassesBack.append (passesBack_plains [p]) rest.passes_back
  | .leave op rest => exact (passesBack_mark op (by decide)).append rest.passes_back
  | .cond head body chain rest =>
    exact (passesBack_head head (by decide)).append
      (body.passes_back.append (chain.passes_back.append rest.passes_back))
  | .loop head body done rest =>
    have hinside : PassesBack (head.condition.map (·.1) ++ ([head.test.1] ++ body.flatten)) :=
      (passesBack_plains _).append ((passesBack_mark head.test (by decide)).append body.passes_back)
    have hblock : PassesBack (head.ops ++ (body.flatten ++ [done.1])) := by
      have h := (Passes.inside hinside).block done head.opener (by decide) (by decide)
      simpa [PassesBack, Head.ops] using h
    have hall := hblock.append rest.passes_back
    simpa [Code.flatten] using hall

theorem Chain.passes_back {l : Bool} (chain : Chain l) : PassesBack chain.flatten := by
  match chain with
  | .close endif => exact passesBack_mark endif (by decide)
  | .otherwise op body endif =>
    exact (passesBack_mark op (by decide)).append
      (body.passes_back.append (passesBack_mark endif (by decide)))
  | .elif head body chain =>
    exact (passesBack_head head (by decide)).append (body.passes_back.append chain.passes_back)

end

/-- The body of a loop, its `DO` and its condition lead a scan from the `DONE` back to the
`WHILE`. -/
theorem scan_done (head : Head .whileKw) (body : Code true) (before : List Operation) :
    scan .doneKw .whileKw [.whileKw] 0 ((head.ops ++ body.flatten).reverse ++ before)
      = some head.opener.1 := by
  have hbody := body.passes_back 0
  have hcond := passesBack_plains head.condition 0
  have htest := passes_mark head.test (by decide : Ignores .doneKw .whileKw [.whileKw] .doKw) 0
  rw [List.reverse_append, List.append_assoc, hbody, Head.ops, List.reverse_cons,
    List.reverse_append, List.append_assoc, List.append_assoc, List.reverse_singleton, htest, hcond,
    List.singleton_append, scan_stop head.opener (by simp)]

/-! ## Scans over trees -/

/-- The scan `f` finds a link within `ops`, between the operations `before` and `after` them. -/
def Found (f : List Operation → Operation → List Operation → Option Operation)
    (before ops after : List Operation) (x : Link) : Prop :=
  ∃ a b, ops = a ++ x.1 :: b ∧ f (a.reverse ++ before) x.1 (b ++ after) = some x.2

section
variable {f : List Operation → Operation → List Operation → Option Operation}
  {before ops after : List Operation} {x : Link}

theorem Found.append_left (pre : List Operation)
    (h : Found f (pre.reverse ++ before) ops after x) : Found f before (pre ++ ops) after x := by
  obtain ⟨a, b, rfl, hf⟩ := h
  exact ⟨pre ++ a, b, by simp, by simpa using hf⟩

theorem Found.append_right (post : List Operation) (h : Found f before ops (post ++ after) x) :
    Found f before (ops ++ post) after x := by
  obtain ⟨a, b, rfl, hf⟩ := h
  exact ⟨a, b ++ post, by simp, by simpa using hf⟩

/-- A scan from the place of a link in the whole program. -/
theorem Found.scanAt {prog : Program} (hi : prog.Indexed) (h : Found f [] prog [] x) :
    scanAt f prog x.1.place = some x.2.place := by
  obtain ⟨a, b, rfl, hf⟩ := h
  have hidx := hi a.length x.1 (by simp)
  have hplace : x.1.place = a.length := by simp [Operation.place, hidx]
  simp only [List.append_nil] at hf
  simp [StackLang.scanAt, hplace, hf]

end

/-- From a `DO` back over its condition stands its opener. -/
theorem scanOpener_head {k : Keyword} (head : Head k)
    (hk : Blocks.opensTest (.keyword k) = true) (before after : List Operation) :
    scanOpener ((head.opener.1 :: head.condition.map (·.1)).reverse ++ before) head.test.1 after
      = some head.opener.1 := by
  have hplain : ∀ p : Plain, Blocks.opensTest p.1.action = false := fun p => by
    have hp := p.2
    cases ha : p.1.action with
    | keyword k' => simp [ha, Action.isStructural] at hp
    | _ => rfl
  have hcond : ((head.condition.map (·.1)).reverse).find? (fun o => Blocks.opensTest o.action)
      = none := by
    simp only [List.find?_eq_none, List.mem_reverse, List.mem_map]
    rintro o ⟨p, -, rfl⟩
    simp [hplain p]
  rw [scanOpener, if_pos head.test.2, List.reverse_cons, List.append_assoc, List.find?_append,
    hcond, List.singleton_append, Option.none_or,
    List.find?_cons_of_pos (by rw [head.opener.2, hk])]

theorem Head.found_opener {k : Keyword} (head : Head k)
    (hk : Blocks.opensTest (.keyword k) = true) {before after : List Operation} :
    Found scanOpener before head.ops after (head.test.1, head.opener.1) :=
  ⟨head.opener.1 :: head.condition.map (·.1), [], rfl, scanOpener_head head hk _ _⟩

mutual

/-- Scans find the openers of a sequence. -/
theorem Code.found_openers {l : Bool} (c : Code l) {before after : List Operation} {x : Link}
    (hx : x ∈ c.openers) :
    Found scanOpener before c.flatten after x := by
  match c with
  | .nil => cases hx
  | .plain p rest => exact (rest.found_openers hx).append_left [p.1]
  | .leave op rest => exact (rest.found_openers hx).append_left [op.1]
  | .cond head body chain rest =>
    simp only [Code.openers, List.mem_cons, List.mem_append] at hx
    rcases hx with rfl | hx | hx | hx
    · exact (head.found_opener rfl).append_right _
    · exact ((body.found_openers hx).append_right _).append_left _
    · exact (((chain.found_openers hx).append_right _).append_left _).append_left _
    · exact (((rest.found_openers hx).append_left _).append_left _).append_left _
  | .loop head body done rest =>
    simp only [Code.openers, List.mem_cons, List.mem_append] at hx
    rcases hx with rfl | hx | hx
    · exact (head.found_opener rfl).append_right _
    · exact ((body.found_openers hx).append_right _).append_left _
    · exact (((rest.found_openers hx).append_left [done.1]).append_left _).append_left _

theorem Chain.found_openers {l : Bool} (chain : Chain l) {before after : List Operation} {x : Link}
    (hx : x ∈ chain.openers) :
    Found scanOpener before chain.flatten after x := by
  match chain with
  | .close _ => cases hx
  | .otherwise op body endif => exact ((body.found_openers hx).append_right _).append_left [op.1]
  | .elif head body chain =>
    simp only [Chain.openers, List.mem_cons, List.mem_append] at hx
    rcases hx with rfl | hx | hx
    · exact (head.found_opener rfl).append_right _
    · exact ((body.found_openers hx).append_right _).append_left _
    · exact ((chain.found_openers hx).append_left _).append_left _

end

/-- From the `DO` of a branch a scan finds what follows the branch. -/
theorem Head.found_branch {k : Keyword} {l : Bool} (head : Head k) (body : Code l)
    (chain : Chain l) (hk : k = .ifKw ∨ k = .elifKw) (before after : List Operation) :
    Found scanTarget before head.ops (body.flatten ++ (chain.flatten ++ after))
      (head.test.1, chain.first) := by
  have hopens : Blocks.opensTest (.keyword k) = true := by rcases hk with rfl | rfl <;> rfl
  have hne : k ≠ .whileKw := by rcases hk with rfl | rfl <;> decide
  refine ⟨head.opener.1 :: head.condition.map (·.1), [], rfl, ?_⟩
  simp only [scanTarget, head.test.2, scanOpener_head head hopens _ _, Option.any_some, head.opener.2,
    Action.keyword.injEq, hne, decide_false, Bool.false_eq_true, if_false, List.nil_append]
  rw [body.passes_if branchEnds_all, chain.scan_first]

mutual

/-- Scans find the targets of a sequence; from a `BREAK` of it they go on into what follows, where
they find the exit. -/
theorem Code.found_targets {l : Bool} (c : Code l) {before after : List Operation}
    {exit : Option Operation}
    (he : ∀ d ∈ exit, scan .whileKw .doneKw [.doneKw] 0 after = some d) {x : Link}
    (hx : x ∈ c.targets exit) : Found scanTarget before c.flatten after x := by
  match c with
  | .nil => cases hx
  | .plain p rest => exact (rest.found_targets he hx).append_left [p.1]
  | .leave op rest =>
    simp only [Code.targets, List.mem_append, List.mem_map, Option.mem_toList] at hx
    rcases hx with ⟨d, hd, rfl⟩ | hx
    · refine ⟨[], rest.flatten, rfl, ?_⟩
      simp only [scanTarget, op.2]
      rw [rest.passes_while, he d hd]
    · exact (rest.found_targets he hx).append_left [op.1]
  | .cond head body chain rest =>
    -- what follows a part leads scans from its breaks over the parts after it
    have he₃ : ∀ d ∈ exit,
        scan .whileKw .doneKw [.doneKw] 0 (rest.flatten ++ after) = some d := fun d hd => by
      rw [rest.passes_while, he d hd]
    have he₂ : ∀ d ∈ exit,
        scan .whileKw .doneKw [.doneKw] 0 (chain.flatten ++ rest.flatten ++ after) = some d :=
      fun d hd => by rw [List.append_assoc, chain.passes_while, he₃ d hd]
    simp only [Code.targets, List.mem_cons, List.mem_append] at hx
    rcases hx with rfl | hx | hx | hx
    · have h := head.found_branch body chain (.inl rfl) before (rest.flatten ++ after)
      exact Found.append_right _ (by simpa using h)
    · exact (Found.append_right _ (body.found_targets he₂ hx)).append_left _
    · exact ((Found.append_right _ (chain.found_targets he₃ hx)).append_left _).append_left _
    · exact (((rest.found_targets he hx).append_left _).append_left _).append_left _
  | .loop head body done rest =>
    simp only [Code.targets, List.mem_cons, List.mem_append] at hx
    rcases hx with rfl | rfl | hx | rfl | hx
    · refine ⟨[], head.condition.map (·.1) ++ head.test.1 :: (body.flatten ++ done.1 :: rest.flatten),
        by simp [Code.flatten, Head.ops], ?_⟩
      have h := scan_while head body done (rest.flatten ++ after)
      simpa [scanTarget, head.opener.2] using h
    · refine ⟨head.opener.1 :: head.condition.map (·.1), body.flatten ++ done.1 :: rest.flatten,
        by simp [Code.flatten, Head.ops], ?_⟩
      simp only [scanTarget, head.test.2, scanOpener_head head rfl _ _, Option.any_some, head.opener.2,
        decide_true, if_true, List.append_assoc, List.cons_append]
      rw [body.passes_while, scan_stop done (by simp)]
    · refine (Found.append_right _ (body.found_targets ?_ hx)).append_left _
      rintro d ⟨⟩
      exact scan_stop done (by simp) _
    · refine ⟨head.ops ++ body.flatten, rest.flatten, by simp [Code.flatten], ?_⟩
      simp only [scanTarget, done.2]
      exact scan_done head body before
    · exact (((rest.found_targets he hx).append_left [done.1]).append_left _).append_left _

theorem Chain.found_targets {l : Bool} (chain : Chain l) {before after : List Operation}
    {exit : Option Operation}
    (he : ∀ d ∈ exit, scan .whileKw .doneKw [.doneKw] 0 after = some d) {x : Link}
    (hx : x ∈ chain.targets exit) : Found scanTarget before chain.flatten after x := by
  match chain with
  | .close _ => cases hx
  | .otherwise op body endif =>
    simp only [Chain.targets, List.mem_cons] at hx
    rcases hx with rfl | hx
    · refine ⟨[], body.flatten ++ [endif.1], rfl, ?_⟩
      simp only [scanTarget, op.2, List.append_assoc, List.singleton_append]
      rw [body.passes_if branchEnds_endif, scan_stop endif (by simp)]
    · refine (Found.append_right _ (body.found_targets ?_ hx)).append_left [op.1]
      intro d hd
      rw [passes_mark endif (by decide), he d hd]
  | .elif head body chain =>
    simp only [Chain.targets, List.mem_cons, List.mem_append] at hx
    rcases hx with rfl | rfl | hx | hx
    · refine ⟨[], head.condition.map (·.1) ++ [head.test.1] ++ (body.flatten ++ chain.flatten),
        by simp [Chain.flatten, Head.ops], ?_⟩
      have htest : Passes .ifKw .endifKw [.endifKw] [head.test.1] := passes_mark _ (by decide)
      simp only [scanTarget, head.opener.2, List.append_assoc]
      rw [passes_plains, htest, body.passes_if branchEnds_endif, chain.scan_endif]
    · have h := head.found_branch body chain (.inr rfl) before after
      exact Found.append_right _ (by simpa using h)
    · refine (Found.append_right _ (body.found_targets ?_ hx)).append_left _
      intro d hd
      rw [chain.passes_while, he d hd]
    · exact ((chain.found_targets he hx).append_left _).append_left _

end

end BlockTree

namespace Blocks

section
variable {prog : Program} {ls : List Link} {isKey : Action → Bool}

/-- The places that have a link, when the keys of the links are told by their actions. -/
theorem exists_link_iff (hi : prog.Indexed)
    (hkeys : ls.map (·.1) = prog.filter fun o => isKey o.action) (i : Nat) :
    (∃ x ∈ ls, x.1.place = i) ↔ ∃ op, prog[i]? = some op ∧ isKey op.action = true := by
  constructor
  · rintro ⟨x, hx, rfl⟩
    have hm : x.1 ∈ prog.filter fun o => isKey o.action := hkeys ▸ List.mem_map_of_mem hx
    rw [List.mem_filter] at hm
    exact ⟨x.1, (hi.placed hm.1).2, hm.2⟩
  · rintro ⟨op, hop, hk⟩
    have hm : op ∈ ls.map (·.1) := by
      rw [hkeys, List.mem_filter]
      exact ⟨List.mem_of_getElem? hop, hk⟩
    obtain ⟨x, hx, rfl⟩ := List.mem_map.1 hm
    exact ⟨x, hx, by simp [Operation.place, hi i _ hop]⟩

/-- A table of links that scans find agrees with the scans everywhere. -/
theorem eq_scanAt {f : List Operation → Operation → List Operation → Option Operation}
    {entry : Nat → Option Nat} (hi : prog.Indexed)
    (hkeys : ls.map (·.1) = prog.filter fun o => isKey o.action)
    (hentry : ∀ i j, entry i = some j ↔ ∃ x ∈ ls, x.1.place = i ∧ x.2.place = j)
    (hfound : ∀ x ∈ ls, Found f [] prog [] x)
    (hnone : ∀ before op after, isKey op.action = false → f before op after = none) (i : Nat) :
    entry i = scanAt f prog i := by
  by_cases hx : ∃ x ∈ ls, x.1.place = i
  · obtain ⟨x, hx, rfl⟩ := hx
    rw [(hfound x hx).scanAt hi, hentry]
    exact ⟨x, hx, rfl, rfl⟩
  · have hno : entry i = none := by
      rw [Option.eq_none_iff_forall_ne_some]
      intro j hj
      obtain ⟨x, hm, hp, -⟩ := (hentry i j).1 hj
      exact hx ⟨x, hm, hp⟩
    rw [hno, scanAt]
    cases hop : prog[i]? with
    | none => rfl
    | some op =>
      have hk : isKey op.action = false := by
        rw [exists_link_iff hi hkeys] at hx
        simpa [hop] using hx
      simp [hnone _ op _ hk]

end

theorem scanTarget_eq_none (before : List Operation) (op : Operation) (after : List Operation)
    (h : hasTarget op.action = false) : scanTarget before op after = none := by
  unfold scanTarget
  split <;> simp_all [hasTarget]

theorem scanOpener_eq_none (before : List Operation) (op : Operation) (after : List Operation)
    (h : hasOpener op.action = false) : scanOpener before op after = none := by
  rw [scanOpener, if_neg]
  intro ha
  simp [ha, hasOpener] at h

/-- A block table that holds the links of a tree, said three times: by the shape of the tree, by
the keywords of the operations that have links and the loops among them, and by scans. -/
structure IsTableOf (table : BlockTable) (c : Code false) : Prop where
  opener : ∀ i j : Nat, table.opener? i = some j ↔ ∃ x ∈ c.openers, x.1.place = i ∧ x.2.place = j
  target : ∀ i j : Nat,
    table.target? i = some j ↔ ∃ x ∈ c.targets none, x.1.place = i ∧ x.2.place = j
  /-- Only a `DO` has an opener. -/
  opener_isSome : ∀ i : Nat,
    (table.opener? i).isSome ↔ ∃ op, c.flatten[i]? = some op ∧ hasOpener op.action = true
  /-- A structural operation other than `IF` and `ENDIF` has a target. -/
  target_isSome : ∀ i : Nat,
    (table.target? i).isSome ↔ ∃ op, c.flatten[i]? = some op ∧ hasTarget op.action = true
  /-- A `WHILE` goes to a `DONE` that goes back to it. -/
  while_done : ∀ (i : Nat) (w : Operation), c.flatten[i]? = some w →
    w.action = .keyword .whileKw → ∃ (j : Nat) (d : Operation), c.flatten[j]? = some d ∧
      d.action = .keyword .doneKw ∧ table.target? i = some j ∧ table.target? j = some i
  /-- A `DONE` goes to a `WHILE` that leads to it. -/
  done_while : ∀ (j : Nat) (d : Operation), c.flatten[j]? = some d →
    d.action = .keyword .doneKw → ∃ (i : Nat) (w : Operation), c.flatten[i]? = some w ∧
      w.action = .keyword .whileKw ∧ table.target? j = some i ∧ table.target? i = some j
  opener_eq_scan : ∀ i : Nat, table.opener? i = scanAt scanOpener c.flatten i
  target_eq_scan : ∀ i : Nat, table.target? i = scanAt scanTarget c.flatten i

section
variable {c : Code false} {table : BlockTable}

theorem isSome_iff_exists_link {entry : Nat → Option Nat} {ls : List Link}
    (hentry : ∀ i j, entry i = some j ↔ ∃ x ∈ ls, x.1.place = i ∧ x.2.place = j) (i : Nat) :
    (entry i).isSome ↔ ∃ x ∈ ls, x.1.place = i := by
  rw [Option.isSome_iff_exists]
  constructor
  · rintro ⟨j, hj⟩
    obtain ⟨x, hx, hp, -⟩ := (hentry i j).1 hj
    exact ⟨x, hx, hp⟩
  · rintro ⟨x, hx, hp⟩
    exact ⟨x.2.place, (hentry i _).2 ⟨x, hx, hp, rfl⟩⟩

/-- The two operations of a loop have each other as targets. -/
theorem target?_loop (hc : Program.Indexed c.flatten) (h : resolve c.flatten = .ok table)
    {w d : Operation} (hl : (w, d) ∈ c.loops) :
    (c.flatten[w.place]? = some w ∧ w.action = .keyword .whileKw) ∧
      (c.flatten[d.place]? = some d ∧ d.action = .keyword .doneKw) ∧
      table.target? w.place = some d.place ∧ table.target? d.place = some w.place := by
  obtain ⟨⟨hw, hwk⟩, hd, hdk⟩ := c.mem_loops hl
  refine ⟨⟨(hc.placed hw).2, hwk⟩, ⟨(hc.placed hd).2, hdk⟩, ?_, ?_⟩
  · exact (target?_iff hc h _ _).2
      ⟨(w, d), ((c.mem_targets_loops none w d).1 hwk).2 hl, rfl, rfl⟩
  · exact (target?_iff hc h _ _).2
      ⟨(d, w), ((c.mem_targets_loops none d w).2 hdk).2 hl, rfl, rfl⟩

/-- An operation that has a target, with it. -/
theorem exists_target (hc : Program.Indexed c.flatten) {i : Nat} {op : Operation}
    (hop : c.flatten[i]? = some op) (hk : hasTarget op.action = true) :
    op.place = i ∧ ∃ t, (op, t) ∈ c.targets none := by
  obtain ⟨⟨o, t⟩, hx, hp⟩ := (exists_link_iff hc (c.keys_targets (by simp)) i).2 ⟨op, hop, hk⟩
  have hm : o ∈ c.flatten := by
    have : o ∈ (c.targets none).map (·.1) := List.mem_map_of_mem hx
    rw [c.keys_targets (by simp)] at this
    exact (List.mem_filter.1 this).1
  have ho : o = op := by
    have hat := (hc.placed hm).2
    rw [show o.place = i from hp, hop, Option.some.injEq] at hat
    exact hat.symm
  exact ⟨ho ▸ hp, t, ho ▸ hx⟩

theorem isTableOf_flatten (hc : Program.Indexed c.flatten) (h : resolve c.flatten = .ok table) :
    IsTableOf table c where
  opener := opener?_iff hc h
  target := target?_iff hc h
  opener_isSome i := by
    rw [isSome_iff_exists_link (opener?_iff hc h), exists_link_iff hc c.keys_openers]
  target_isSome i := by
    rw [isSome_iff_exists_link (target?_iff hc h), exists_link_iff hc (c.keys_targets (by simp))]
  while_done i w hw hk := by
    obtain ⟨rfl, d, hd⟩ := exists_target hc hw (by rw [hk]; rfl)
    obtain ⟨-, ⟨hd, hdk⟩, h1, h2⟩ :=
      target?_loop hc h (((c.mem_targets_loops none w d).1 hk).1 hd)
    exact ⟨d.place, d, hd, hdk, h1, h2⟩
  done_while j d hd hk := by
    obtain ⟨rfl, w, hw⟩ := exists_target hc hd (by rw [hk]; rfl)
    obtain ⟨⟨hw, hwk⟩, -, h1, h2⟩ :=
      target?_loop hc h (((c.mem_targets_loops none d w).2 hk).1 hw)
    exact ⟨w.place, w, hw, hwk, h2, h1⟩
  opener_eq_scan := eq_scanAt hc c.keys_openers (opener?_iff hc h)
    (fun _ hx => c.found_openers hx) scanOpener_eq_none
  target_eq_scan := eq_scanAt hc (c.keys_targets (by simp)) (target?_iff hc h)
    (fun _ hx => c.found_targets (by simp) hx) scanTarget_eq_none

end

/-- **The partner tables are the tree's**: an accepted program has exactly one tree, and its table
holds the links of this tree, no others, which are also those that scans with a count of nested
blocks find. -/
theorem resolve_partners {prog : Program} (hi : prog.Indexed) {table : BlockTable}
    (h : resolve prog = .ok table) :
    ∃ c : Code false, c.flatten = prog ∧ (∀ c' : Code false, c'.flatten = prog → c' = c) ∧
      IsTableOf table c := by
  obtain ⟨c, rfl⟩ := exists_flatten_of_resolve hi h
  exact ⟨c, rfl, fun c' hc' => Code.flatten_inj hc', isTableOf_flatten hi h⟩

theorem resolve_partners_leavingLoop :
    leavingLoop.Indexed ∧ ∃ table, resolve leavingLoop = .ok table ∧
      (table.target? 6 = some 13 ∧ table.target? 5 = some 7 ∧ table.target? 7 = some 12) ∧
      ∃ c : Code false, c.flatten = leavingLoop ∧
        (∀ c' : Code false, c'.flatten = leavingLoop → c' = c) ∧ IsTableOf table c := by
  have hi : leavingLoop.Indexed := by decide
  exact ⟨hi, _, rfl, by decide, resolve_partners hi rfl⟩

end Blocks

end StackLang
