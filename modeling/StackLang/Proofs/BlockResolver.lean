import StackLang.Proofs.BlockTree

/-!
# The resolver on block trees

How the resolver walks over a tree: it takes every operation, enters the links of the tree in the
table as their blocks are closed, and leaves the blocks around the tree as they were, apart from the
`BREAK` operations that wait for the end of the innermost loop.

- `Blocks.run_code`, `Blocks.run_chain`: what a run over a tree leaves behind.
- `Blocks.resolve_flatten`: the table of a tree.
-/

set_option autoImplicit false

namespace StackLang

/-- The place of an operation whose index is not negative. -/
def Operation.place (op : Operation) : Nat := op.index.toNat

/-- The operation stands in the program where its index says. -/
def Placed (prog : Program) (op : Operation) : Prop :=
  op.place? = some op.place ∧ prog[op.place]? = some op

theorem Program.Indexed.placed {prog : Program} (hi : prog.Indexed) {op : Operation}
    (hm : op ∈ prog) : Placed prog op := by
  obtain ⟨i, hop⟩ := List.mem_iff_getElem?.1 hm
  have hidx := hi i op hop
  refine ⟨?_, ?_⟩
  · rw [Operation.place?, Operation.place, hidx]
    rfl
  · simpa [Operation.place, hidx] using hop

theorem Placed.lt {prog : Program} {op : Operation} (h : Placed prog op) :
    op.place < prog.length := (List.getElem?_eq_some_iff.1 h.2).1

theorem Placed.operationAt {prog : Program} {op : Operation} (h : Placed prog op) :
    Blocks.operationAt prog op.place = .ok op := by
  simp [Blocks.operationAt, h.2]

/-! ## Tables -/

namespace BlockTable

open BlockTree (Link)

/-- The entries of a table after some links. -/
def enter (t : Array (Option Nat)) (ls : List Link) : Array (Option Nat) :=
  ls.foldl (fun t l => t.setIfInBounds l.1.place (some l.2.place)) t

/-- The table after some openers and targets. -/
def record (t : BlockTable) (openers targets : List Link) : BlockTable :=
  ⟨enter t.openers openers, enter t.targets targets⟩

/-- Both parts of the table have a place for every operation. -/
def Fits (t : BlockTable) (prog : Program) : Prop :=
  t.openers.size = prog.length ∧ t.targets.size = prog.length

theorem enter_append (t : Array (Option Nat)) (ls ls' : List Link) :
    enter (enter t ls) ls' = enter t (ls ++ ls') := by
  simp [enter]

theorem size_enter (t : Array (Option Nat)) (ls : List Link) : (enter t ls).size = t.size := by
  induction ls generalizing t with
  | nil => rfl
  | cons l ls ih =>
    rw [← List.singleton_append, ← enter_append, ih]
    simp [enter]

theorem record_nil (t : BlockTable) : t.record [] [] = t := rfl

theorem record_record (t : BlockTable) (os ts os' ts' : List Link) :
    (t.record os ts).record os' ts' = t.record (os ++ os') (ts ++ ts') := by
  simp [record, enter_append]

theorem Fits.record {t : BlockTable} {prog : Program} (h : t.Fits prog) (os ts : List Link) :
    (t.record os ts).Fits prog := by
  simpa [Fits, BlockTable.record, size_enter] using h

theorem fits_empty (prog : Program) : (empty prog.length).Fits prog := by
  simp [Fits, empty]

section
variable {prog : Program} {t : BlockTable} {op value : Operation}

theorem setOpener_ok (ht : t.Fits prog) (ho : Placed prog op) :
    t.setOpener op.place? (some value.place) = .ok (t.record [(op, value)] []) := by
  have hlt : op.place < t.openers.size := by rw [ht.1]; exact ho.lt
  simp [setOpener, setEntry, ho.1, hlt, Except.map, record, enter, Array.setIfInBounds]

theorem setTarget_ok (ht : t.Fits prog) (ho : Placed prog op) (hv : Placed prog value) :
    t.setTarget op.place? value.place? = .ok (t.record [] [(op, value)]) := by
  have hlt : op.place < t.targets.size := by rw [ht.2]; exact ho.lt
  simp [setTarget, setEntry, ho.1, hv.1, hlt, Except.map, record, enter, Array.setIfInBounds]

theorem setTargets_ok (ht : t.Fits prog) {ops : List Operation} (ho : ∀ o ∈ ops, Placed prog o)
    (hv : Placed prog value) :
    t.setTargets (ops.map Operation.place?) value.place?
      = .ok (t.record [] (ops.map (·, value))) := by
  induction ops generalizing t with
  | nil => rfl
  | cons o ops ih =>
    have h1 := setTarget_ok ht (ho o (by simp)) hv
    have h2 := ih (ht.record [] [(o, value)]) fun o' h' => ho o' (by simp [h'])
    simp only [setTargets] at h2 ⊢
    rw [List.map_cons, List.foldlM_cons, h1]
    show List.foldlM _ _ _ = _
    rw [h2, record_record]
    rfl

end

end BlockTable

namespace BlockTree

/-! ## Links in the order of their blocks' ends -/

mutual

/-- The `BREAK` operations of a sequence that leave the loop around it. -/
def Code.breaks {l : Bool} : Code l → List Operation
  | .nil => []
  | .plain _ rest => rest.breaks
  | .leave op rest => op.1 :: rest.breaks
  | .cond _ body chain rest => body.breaks ++ (chain.breaks ++ rest.breaks)
  | .loop _ _ _ rest => rest.breaks

/-- The `BREAK` operations of a chain that leave the loop around it. -/
def Chain.breaks {l : Bool} : Chain l → List Operation
  | .close _ => []
  | .otherwise _ body _ => body.breaks
  | .elif _ body chain => body.breaks ++ chain.breaks

end

mutual

/-- The targets within a sequence, in the order in which blocks and branches end. Its `breaks` have
theirs outside. -/
def Code.writes {l : Bool} : Code l → List Link
  | .nil => []
  | .plain _ rest => rest.writes
  | .leave _ rest => rest.writes
  | .cond head body chain rest => body.writes ++ (chain.writes head.test.1 [] ++ rest.writes)
  | .loop head body done rest =>
    body.writes ++ ((head.test.1, done.1) :: (done.1, head.opener.1) :: (head.opener.1, done.1)
      :: (body.breaks.map (·, done.1) ++ rest.writes))

/-- The targets within a chain after the branch of `test`, where `exits` wait for its end. -/
def Chain.writes {l : Bool} (test : Operation) (exits : List Operation) : Chain l → List Link
  | .close endif => (test, endif.1) :: exits.map (·, endif.1)
  | .otherwise op body endif =>
    (test, op.1) :: (body.writes ++ (exits ++ [op.1]).map (·, endif.1))
  | .elif head body chain =>
    (test, head.opener.1)
      :: (body.writes ++ chain.writes head.test.1 (exits ++ [head.opener.1]))

end

mutual

theorem Code.mem_of_mem_breaks {l : Bool} (c : Code l) {o : Operation} (h : o ∈ c.breaks) :
    o ∈ c.flatten := by
  match c with
  | .nil => exact h
  | .plain _ rest => exact List.mem_cons_of_mem _ (rest.mem_of_mem_breaks h)
  | .leave op rest =>
    rcases List.mem_cons.1 h with rfl | h
    · exact List.mem_cons_self
    · exact List.mem_cons_of_mem _ (rest.mem_of_mem_breaks h)
  | .cond head body chain rest =>
    simp only [Code.breaks, List.mem_append] at h
    simp only [Code.flatten, List.mem_append]
    rcases h with h | h | h
    · exact .inr (.inl (body.mem_of_mem_breaks h))
    · exact .inr (.inr (.inl (chain.mem_of_mem_breaks h)))
    · exact .inr (.inr (.inr (rest.mem_of_mem_breaks h)))
  | .loop head body done rest =>
    simp only [Code.flatten, List.mem_append, List.mem_cons]
    exact .inr (.inr (.inr (rest.mem_of_mem_breaks h)))

theorem Chain.mem_of_mem_breaks {l : Bool} (c : Chain l) {o : Operation} (h : o ∈ c.breaks) :
    o ∈ c.flatten := by
  match c with
  | .close _ => cases h
  | .otherwise _ body _ =>
    simp only [Chain.flatten, List.mem_append, List.mem_cons]
    exact .inr (.inl (body.mem_of_mem_breaks h))
  | .elif head body chain =>
    simp only [Chain.breaks, List.mem_append] at h
    simp only [Chain.flatten, List.mem_append]
    rcases h with h | h
    · exact .inr (.inl (body.mem_of_mem_breaks h))
    · exact .inr (.inr (chain.mem_of_mem_breaks h))

end

end BlockTree

namespace Blocks

open BlockTree

/-! ## Runs -/

/-- The state after some operations. -/
def run (prog : Program) (st : State) (ops : List Operation) : Except Failure State :=
  ops.foldlM (step prog) st

section
variable {prog : Program} {st st' : State}

@[simp] theorem run_nil (prog : Program) (st : State) : run prog st [] = .ok st := rfl

theorem run_cons {op : Operation} {ops : List Operation} (h : step prog st op = .ok st') :
    run prog st (op :: ops) = run prog st' ops := by
  simp [run, List.foldlM_cons, h, bind, Except.bind]

theorem run_append {ops ops' : List Operation} (h : run prog st ops = .ok st') :
    run prog st (ops ++ ops') = run prog st' ops' := by
  simp only [run] at h ⊢
  rw [List.foldlM_append, h]
  rfl

/-- A run that succeeds takes its first operation. -/
theorem of_run_cons {op : Operation} {ops : List Operation} (h : run prog st (op :: ops) = .ok st') :
    ∃ st₁, step prog st op = .ok st₁ ∧ run prog st₁ ops = .ok st' := by
  cases hs : step prog st op with
  | error e => simp [run, List.foldlM_cons, hs, bind, Except.bind] at h
  | ok st₁ => exact ⟨st₁, rfl, by rw [run_cons hs] at h; exact h⟩

theorem step_plain (p : Plain) : step prog st p.1 = .ok st := by
  simp [step, p.2]

theorem run_plains (ps : List Plain) : run prog st (ps.map (·.1)) = .ok st := by
  induction ps with
  | nil => rfl
  | cons p ps ih => rw [List.map_cons, run_cons (step_plain p), ih]

/-- A structural operation is taken by `visit`. -/
theorem step_mark {k : Keyword} (m : Mark k) :
    step prog st m.1 = (visit prog m.1 st).map fun st => { st with last := m.1.place? } := by
  simp [step, m.2, Action.isStructural]

end

/-! ## Waiting exits -/

/-- The blocks after some `BREAK` operations have been added to the innermost loop. -/
def addExits (ops : List Operation) : List OpenBlock → List OpenBlock
  | [] => []
  | b :: bs =>
    if b.isLoop then { b with exits := b.exits ++ ops.map Operation.place? } :: bs
    else b :: addExits ops bs

/-- Whether one of the blocks is a loop. -/
def hasLoop (bs : List OpenBlock) : Bool := bs.any (·.isLoop)

@[simp] theorem hasLoop_cons (b : OpenBlock) (bs : List OpenBlock) :
    hasLoop (b :: bs) = (b.isLoop || hasLoop bs) := rfl

@[simp] theorem addExits_nil (bs : List OpenBlock) : addExits [] bs = bs := by
  induction bs with
  | nil => rfl
  | cons b bs ih => simp [addExits, ih]

theorem addExits_addExits (ops ops' : List Operation) (bs : List OpenBlock) :
    addExits ops' (addExits ops bs) = addExits (ops ++ ops') bs := by
  induction bs with
  | nil => rfl
  | cons b bs ih => by_cases hb : b.isLoop <;> simp [addExits, hb, ih]

@[simp] theorem hasLoop_addExits (ops : List Operation) (bs : List OpenBlock) :
    hasLoop (addExits ops bs) = hasLoop bs := by
  induction bs with
  | nil => rfl
  | cons b bs ih =>
    simp only [hasLoop] at ih
    by_cases hb : b.isLoop <;> simp [addExits, hasLoop, hb, ih]

theorem addExits_cond {b : OpenBlock} (hb : b.isLoop = false) (ops : List Operation)
    (bs : List OpenBlock) : addExits ops (b :: bs) = b :: addExits ops bs := by
  simp [addExits, hb]

theorem addExits_loop {b : OpenBlock} (hb : b.isLoop = true) (ops : List Operation)
    (bs : List OpenBlock) :
    addExits ops (b :: bs) = { b with exits := b.exits ++ ops.map Operation.place? } :: bs := by
  simp [addExits, hb]

theorem addExit_eq {bs : List OpenBlock} (h : hasLoop bs = true) (op : Operation) :
    addExit op.place? bs = some (addExits [op] bs) := by
  induction bs with
  | nil => simp [hasLoop] at h
  | cons b bs ih =>
    by_cases hb : b.isLoop
    · simp [addExit, addExits, hb]
    · have : hasLoop bs = true := by simpa [hasLoop, hb] using h
      simp [addExit, addExits, hb, ih this]

/-- A `BREAK` finds its loop when there is one. -/
theorem hasLoop_of_addExit {bs bs' : List OpenBlock} {place : Option Nat}
    (h : addExit place bs = some bs') : hasLoop bs = true := by
  induction bs generalizing bs' with
  | nil => simp [addExit] at h
  | cons b bs ih =>
    by_cases hb : b.isLoop
    · simp [hasLoop, hb]
    · simp only [addExit, hb, Bool.false_eq_true, ↓reduceIte, Option.map_eq_some_iff] at h
      obtain ⟨bs₁, h1, -⟩ := h
      have := ih h1
      simp only [hasLoop] at this
      simp [hasLoop, this]

/-! ## Runs over trees -/

section
variable {prog : Program}

/-- A condition and its `DO` put the innermost block into its branch. -/
theorem run_condition {k : Keyword} (head : Head k) {t : BlockTable} {b : OpenBlock}
    {bs : List OpenBlock} (hk : opensTest (.keyword k) = true) (ht : t.Fits prog)
    (ho : Placed prog head.opener.1) (hd : Placed prog head.test.1)
    (hb : b.awaiting = head.opener.1.place?) :
    run prog ⟨t, b :: bs, head.opener.1.place?⟩ (head.condition.map (·.1) ++ [head.test.1])
      = .ok ⟨t.record [(head.test.1, head.opener.1)] [],
          { b with test := head.test.1.place?, awaiting := none } :: bs,
          head.test.1.place?⟩ := by
  have hs : step prog ⟨t, b :: bs, head.opener.1.place?⟩ head.test.1
      = .ok ⟨t.record [(head.test.1, head.opener.1)] [],
          { b with test := head.test.1.place?, awaiting := none } :: bs,
          head.test.1.place?⟩ := by
    rw [step_mark]
    simp [visit, head.test.2, takeTest, ho.1, ho.operationAt, head.opener.2, hk, hb,
      BlockTable.setOpener_ok ht hd, Except.map]
  rw [run_append (run_plains _), run_cons hs, run_nil]

/-- The start of a conditional or a loop opens a block. -/
theorem run_head {k : Keyword} (head : Head k) (isLoop : Bool) {t : BlockTable}
    (bs : List OpenBlock) (last : Option Nat) (hk : opensTest (.keyword k) = true)
    (ht : t.Fits prog) (ho : Placed prog head.opener.1) (hd : Placed prog head.test.1)
    (hv : ∀ st, visit prog head.opener.1 st = .ok (opening isLoop head.opener.1 st)) :
    run prog ⟨t, bs, last⟩ head.ops
      = .ok ⟨t.record [(head.test.1, head.opener.1)] [],
          ⟨head.opener.1.place?, isLoop, none, head.test.1.place?, false, []⟩ :: bs,
          head.test.1.place?⟩ := by
  have hs : step prog ⟨t, bs, last⟩ head.opener.1 = .ok ⟨t,
      ⟨head.opener.1.place?, isLoop, head.opener.1.place?, none, false, []⟩ :: bs,
      head.opener.1.place?⟩ := by
    rw [step_mark, hv]
    rfl
  rw [Head.ops, run_cons hs, run_condition head hk ht ho hd rfl]

/-- A conditional in a branch after its `DO`, where `exits` wait for its end. -/
def inBranch (start : Option Nat) (test : Operation) (exits : List Operation) : OpenBlock :=
  ⟨start, false, none, test.place?, false, exits.map Operation.place?⟩

/-- A conditional after its `ELSE`. -/
def inElse (start : Option Nat) (exits : List Operation) : OpenBlock :=
  ⟨start, false, none, none, true, exits.map Operation.place?⟩

/-- An `ELSE` ends a branch. -/
theorem step_else (m : Mark .elseKw) {t : BlockTable} (start : Option Nat) (bs : List OpenBlock)
    (last : Option Nat) {test : Operation} (exits : List Operation) (ht : t.Fits prog)
    (hm : Placed prog m.1) (hd : Placed prog test) :
    step prog ⟨t, inBranch start test exits :: bs, last⟩ m.1
      = .ok ⟨t.record [] [(test, m.1)], inElse start (exits ++ [m.1]) :: bs, m.1.place?⟩ := by
  rw [step_mark]
  simp [visit, m.2, takeBranch, innermost?, inBranch, inElse, requireTest,
    BlockTable.setTarget_ok ht hd hm, Except.map]

/-- An `ELIF`, its condition and its `DO` lead from one branch to the next. -/
theorem run_elif (head : Head .elifKw) {t : BlockTable} (start : Option Nat)
    (bs : List OpenBlock) (last : Option Nat) {test : Operation} (exits : List Operation)
    (ht : t.Fits prog) (ho : Placed prog head.opener.1) (hd : Placed prog head.test.1)
    (htest : Placed prog test) :
    run prog ⟨t, inBranch start test exits :: bs, last⟩ head.ops
      = .ok ⟨t.record [(head.test.1, head.opener.1)] [(test, head.opener.1)],
          inBranch start head.test.1 (exits ++ [head.opener.1]) :: bs, head.test.1.place?⟩ := by
  have h1 : step prog ⟨t, inBranch start test exits :: bs, last⟩ head.opener.1
      = .ok ⟨t.record [] [(test, head.opener.1)], ⟨start, false, head.opener.1.place?, none, false,
          (exits ++ [head.opener.1]).map Operation.place?⟩ :: bs, head.opener.1.place?⟩ := by
    rw [step_mark]
    simp [visit, head.opener.2, takeBranch, innermost?, inBranch, requireTest,
      BlockTable.setTarget_ok ht htest ho, Except.map]
  rw [Head.ops, run_cons h1,
    run_condition head (by rfl) (ht.record [] [(test, head.opener.1)]) ho hd rfl,
    BlockTable.record_record]
  rfl

/-- An `ENDIF` closes a conditional after its last branch. -/
theorem step_endif (m : Mark .endifKw) {t : BlockTable} (b : OpenBlock) (bs : List OpenBlock)
    (last : Option Nat) {exits : List Operation} (ht : t.Fits prog) (hm : Placed prog m.1)
    (he : ∀ o ∈ exits, Placed prog o) (hc : b.isLoop = false) (ha : b.awaiting = none)
    (hx : (if b.test.isSome then [b.test] else []) ++ b.exits = exits.map Operation.place?) :
    step prog ⟨t, b :: bs, last⟩ m.1
      = .ok ⟨t.record [] (exits.map (·, m.1)), bs, m.1.place?⟩ := by
  rw [step_mark]
  simp [visit, m.2, closeIf, innermost?, hc, requireTest, ha, hx,
    BlockTable.setTargets_ok ht he hm, Except.map]

/-- A `DONE` closes a loop. -/
theorem step_done (m : Mark .doneKw) {t : BlockTable} (b : OpenBlock) (bs : List OpenBlock)
    (last : Option Nat) {start test : Operation} {exits : List Operation} (ht : t.Fits prog)
    (hm : Placed prog m.1) (hs : Placed prog start) (hd : Placed prog test)
    (he : ∀ o ∈ exits, Placed prog o) (hl : b.isLoop = true) (ha : b.awaiting = none)
    (hbs : b.start = start.place?) (hbt : b.test = test.place?)
    (hx : b.exits = exits.map Operation.place?) :
    step prog ⟨t, b :: bs, last⟩ m.1 = .ok
      ⟨t.record [] ((test, m.1) :: (m.1, start) :: (start, m.1) :: exits.map (·, m.1)), bs,
        m.1.place?⟩ := by
  have h1 := BlockTable.setTarget_ok ht hd hm
  have h2 := BlockTable.setTarget_ok (ht.record [] [(test, m.1)]) hm hs
  have hexits : ∀ o ∈ start :: exits, Placed prog o := List.forall_mem_cons.2 ⟨hs, he⟩
  have h3 := BlockTable.setTargets_ok (ht.record [] [(test, m.1), (m.1, start)]) hexits hm
  rw [step_mark]
  simp only [List.map_cons] at h3
  simp [visit, m.2, closeLoop, innermost?, hl, requireTest, ha, hbs, hbt, hx, h1, h2, h3,
    BlockTable.record_record, Except.map]

/-- A `BREAK` is added to the innermost loop. -/
theorem step_break (m : Mark .breakKw) {t : BlockTable} {bs : List OpenBlock} {last : Option Nat}
    (h : hasLoop bs = true) :
    step prog ⟨t, bs, last⟩ m.1 = .ok ⟨t, addExits [m.1] bs, m.1.place?⟩ := by
  rw [step_mark]
  simp only [visit, m.2, takeBreak, addExit_eq h]
  rfl

mutual

/-- **A run over a sequence** enters its links and leaves the blocks around it as they were, apart
from the exits of the innermost loop. -/
theorem run_code {l : Bool} (c : Code l) {t : BlockTable} (bs : List OpenBlock)
    (last : Option Nat) (hc : ∀ o ∈ c.flatten, Placed prog o) (ht : t.Fits prog)
    (hl : l = true → hasLoop bs = true) :
    ∃ last', run prog ⟨t, bs, last⟩ c.flatten
      = .ok ⟨t.record c.openers c.writes, addExits c.breaks bs, last'⟩ := by
  match c with
  | .nil => exact ⟨last, by simp [Code.flatten, Code.openers, Code.writes, Code.breaks,
      BlockTable.record_nil]⟩
  | .plain p rest =>
    rw [Code.flatten, run_cons (step_plain p)]
    exact run_code rest bs last (fun o ho => hc o (by simp [Code.flatten, ho])) ht hl
  | .leave m rest =>
    rw [Code.flatten, run_cons (step_break m (hl rfl))]
    obtain ⟨last', h⟩ := run_code rest (addExits [m.1] bs) m.1.place?
      (fun o ho => hc o (by simp [Code.flatten, ho])) ht (by simpa using hl)
    exact ⟨last', by rw [h, addExits_addExits]; rfl⟩
  | .cond head body chain rest =>
    simp only [Code.flatten, Head.ops, List.mem_append, List.mem_cons] at hc
    have ho : Placed prog head.opener.1 := hc _ (by simp)
    have hd : Placed prog head.test.1 := hc _ (by simp)
    have hh : run prog ⟨t, bs, last⟩ head.ops
        = .ok ⟨t.record [(head.test.1, head.opener.1)] [],
            inBranch head.opener.1.place? head.test.1 [] :: bs, head.test.1.place?⟩ :=
      run_head head false bs last (by rfl) ht ho hd fun st => by simp [visit, head.opener.2]
    have ht1 := ht.record [(head.test.1, head.opener.1)] []
    obtain ⟨last₁, h1⟩ := run_code body
      (inBranch head.opener.1.place? head.test.1 [] :: bs) head.test.1.place?
      (fun o h => hc o (by simp [h])) ht1 (by simpa [inBranch] using hl)
    rw [addExits_cond rfl, BlockTable.record_record] at h1
    have ht2 := ht.record ([(head.test.1, head.opener.1)] ++ body.openers) ([] ++ body.writes)
    obtain ⟨last₂, h2⟩ := run_chain chain head.opener.1.place? (addExits body.breaks bs) last₁ []
      (fun o h => hc o (by simp [h])) hd (by simp) ht2 (by simpa using hl)
    rw [addExits_addExits, BlockTable.record_record] at h2
    obtain ⟨last₃, h3⟩ := run_code rest (addExits (body.breaks ++ chain.breaks) bs) last₂
      (fun o h => hc o (by simp [h])) (ht2.record chain.openers (chain.writes head.test.1 []))
      (by simpa using hl)
    rw [BlockTable.record_record, BlockTable.record_record, addExits_addExits] at h3
    refine ⟨last₃, ?_⟩
    rw [Code.flatten, run_append hh, run_append h1, run_append h2, h3]
    simp [Code.openers, Code.writes, Code.breaks]
  | .loop head body done rest =>
    simp only [Code.flatten, Head.ops, List.mem_append, List.mem_cons] at hc
    have ho : Placed prog head.opener.1 := hc _ (by simp)
    have hd : Placed prog head.test.1 := hc _ (by simp)
    have hh := run_head head true bs last (by rfl) ht ho hd
      fun st => by simp [visit, head.opener.2]
    have ht1 := ht.record [(head.test.1, head.opener.1)] []
    obtain ⟨last₁, h1⟩ := run_code body
      (⟨head.opener.1.place?, true, none, head.test.1.place?, false, []⟩ :: bs)
      head.test.1.place? (fun o h => hc o (by simp [h])) ht1 (fun _ => rfl)
    rw [addExits_loop rfl, BlockTable.record_record] at h1
    have ht2 := ht.record ([(head.test.1, head.opener.1)] ++ body.openers) ([] ++ body.writes)
    have hbr : ∀ o ∈ body.breaks, Placed prog o :=
      fun o h => hc o (by simp [body.mem_of_mem_breaks h])
    have h2 := step_done done ⟨head.opener.1.place?, true, none, head.test.1.place?, false,
        body.breaks.map Operation.place?⟩ bs last₁ ht2 (hc _ (by simp)) ho hd hbr rfl rfl rfl rfl rfl
    rw [BlockTable.record_record] at h2
    obtain ⟨last₃, h3⟩ := run_code rest bs done.1.place? (fun o h => hc o (by simp [h]))
      (ht2.record [] _) hl
    rw [BlockTable.record_record, BlockTable.record_record] at h3
    refine ⟨last₃, ?_⟩
    rw [Code.flatten, run_append hh, run_append h1]
    simp only [List.nil_append] at h2 h3 ⊢
    rw [run_cons h2, h3]
    simp [Code.openers, Code.writes, Code.breaks]

/-- **A run over a chain** closes the conditional of its branch. -/
theorem run_chain {l : Bool} (chain : Chain l) {t : BlockTable} (start : Option Nat)
    (bs : List OpenBlock) (last : Option Nat) {test : Operation} (exits : List Operation)
    (hc : ∀ o ∈ chain.flatten, Placed prog o) (hd : Placed prog test)
    (he : ∀ o ∈ exits, Placed prog o) (ht : t.Fits prog)
    (hl : l = true → hasLoop bs = true) :
    ∃ last', run prog ⟨t, inBranch start test exits :: bs, last⟩ chain.flatten
      = .ok ⟨t.record chain.openers (chain.writes test exits), addExits chain.breaks bs, last'⟩ := by
  match chain with
  | .close endif =>
    have hm : Placed prog endif.1 := hc _ (by simp [Chain.flatten])
    have hexits : ∀ o ∈ test :: exits, Placed prog o := List.forall_mem_cons.2 ⟨hd, he⟩
    have h1 := step_endif endif (inBranch start test exits) bs last ht hm hexits rfl rfl
      (by simp [inBranch, hd.1])
    refine ⟨endif.1.place?, ?_⟩
    rw [Chain.flatten, run_cons h1]
    simp [Chain.openers, Chain.writes, Chain.breaks]
  | .otherwise op body endif =>
    simp only [Chain.flatten, List.mem_append, List.mem_cons] at hc
    have hm : Placed prog op.1 := hc _ (by simp)
    have h1 := step_else op start bs last exits ht hm hd
    obtain ⟨last₂, h2⟩ := run_code body (inElse start (exits ++ [op.1]) :: bs) op.1.place?
      (fun o h => hc o (by simp [h])) (ht.record [] [(test, op.1)])
      (by simpa [inElse] using hl)
    rw [addExits_cond rfl, BlockTable.record_record] at h2
    have he' : ∀ o ∈ exits ++ [op.1], Placed prog o := by
      simpa [or_imp, forall_and] using ⟨he, hm⟩
    have h3 := step_endif endif (inElse start (exits ++ [op.1])) (addExits body.breaks bs) last₂
      (ht.record ([] ++ body.openers) ([(test, op.1)] ++ body.writes)) (hc _ (by simp)) he' rfl rfl
      (by simp [inElse])
    rw [BlockTable.record_record] at h3
    refine ⟨endif.1.place?, ?_⟩
    rw [Chain.flatten, run_cons h1, run_append h2, run_cons h3]
    simp [Chain.openers, Chain.writes, Chain.breaks]
  | .elif head body chain =>
    simp only [Chain.flatten, Head.ops, List.mem_append, List.mem_cons] at hc
    have ho : Placed prog head.opener.1 := hc _ (by simp)
    have hd' : Placed prog head.test.1 := hc _ (by simp)
    have h1 := run_elif head start bs last exits ht ho hd' hd
    have ht1 := ht.record [(head.test.1, head.opener.1)] [(test, head.opener.1)]
    obtain ⟨last₂, h2⟩ := run_code body
      (inBranch start head.test.1 (exits ++ [head.opener.1]) :: bs) head.test.1.place?
      (fun o h => hc o (by simp [h])) ht1
      (by simpa [inBranch] using hl)
    rw [addExits_cond rfl, BlockTable.record_record] at h2
    have he' : ∀ o ∈ exits ++ [head.opener.1], Placed prog o := by
      simpa [or_imp, forall_and] using ⟨he, ho⟩
    obtain ⟨last₃, h3⟩ := run_chain chain start (addExits body.breaks bs) last₂
      (exits ++ [head.opener.1]) (fun o h => hc o (by simp [h])) hd' he'
      (ht1.record body.openers body.writes) (by simpa using hl)
    rw [BlockTable.record_record, BlockTable.record_record, addExits_addExits] at h3
    refine ⟨last₃, ?_⟩
    rw [Chain.flatten, run_append h1, run_append h2]
    simp only [List.append_assoc] at h3 ⊢
    rw [h3]
    simp [Chain.openers, Chain.writes, Chain.breaks]

end

/-- **The table of a tree.** -/
theorem resolve_flatten {c : Code false} (hc : Program.Indexed c.flatten) :
    resolve c.flatten
      = .ok ((BlockTable.empty c.flatten.length).record c.openers c.writes) := by
  obtain ⟨last', h⟩ := run_code c [] none
    (fun o ho => hc.placed ho) (BlockTable.fits_empty c.flatten) (by simp)
  simp only [run] at h
  simp [resolve, Blocks.start, h, addExits]

end

end Blocks

end StackLang
