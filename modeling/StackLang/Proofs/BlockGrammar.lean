import StackLang.Proofs.BlockResolver

/-!
# The grammar of blocks

The resolver accepts the programs that are flattened block trees, and no others. That it takes every
tree is the run over trees. For the converse, `Completes` says of each state of the resolver what
the rest of a program must look like for the open blocks to be closed; each step of the resolver
keeps this, read from the last operation to the first. A block in whose condition a structural
operation has been met is never closed: its `DO` would have to follow its opener at once.

- `Blocks.completes_of_run`: the rest of an accepted program completes the open blocks.
- `Blocks.resolve_ok_iff`: the programs that are accepted.
-/

set_option autoImplicit false

namespace StackLang.Blocks

open BlockTree

/-! ## What a step does -/

section
variable {prog : Program} {st st' : State}

theorem requireTest_ok {b : OpenBlock} {op : Operation}
    (h : requireTest prog b op = .ok ()) : b.awaiting = none := by
  unfold requireTest at h
  split at h
  · assumption
  · split at h <;> simp at h

theorem innermost?_some {isLoop : Bool} {b : OpenBlock} {bs : List OpenBlock}
    (h : innermost? isLoop st = some (b, bs)) : st.blocks = b :: bs ∧ b.isLoop = isLoop := by
  unfold innermost? at h
  split at h
  · rename_i b' bs' hb
    split at h
    · simp only [Option.some.injEq, Prod.mk.injEq] at h
      obtain ⟨rfl, rfl⟩ := h
      exact ⟨hb, by assumption⟩
    · simp at h
  · simp at h

/-- An accepted structural operation becomes the last one. -/
theorem visit_of_step {k : Keyword} {m : Mark k} (h : step prog st m.1 = .ok st') :
    ∃ st₁, visit prog m.1 st = .ok st₁ ∧ st'.blocks = st₁.blocks ∧ st'.table = st₁.table ∧
      st'.last = m.1.place? := by
  rw [step_mark] at h
  obtain ⟨st₁, h1, rfl⟩ := Failure.of_map_ok h
  exact ⟨st₁, h1, rfl, rfl, rfl⟩

theorem step_open_inv {k : Keyword} {m : Mark k} (isLoop : Bool)
    (hv : visit prog m.1 st = .ok (opening isLoop m.1 st)) (h : step prog st m.1 = .ok st') :
    st'.blocks = ⟨m.1.place?, isLoop, m.1.place?, none, false, []⟩ :: st.blocks ∧
      st'.last = m.1.place? := by
  obtain ⟨st₁, h1, hb, -, hl⟩ := visit_of_step h
  rw [hv, Except.ok.injEq] at h1
  subst h1
  exact ⟨hb, hl⟩

theorem step_do_inv {m : Mark .doKw} (h : step prog st m.1 = .ok st') :
    ∃ b bs, st.blocks = b :: bs ∧ b.awaiting.isSome ∧ b.awaiting = st.last ∧
      st'.blocks = { b with test := m.1.place?, awaiting := none } :: bs := by
  obtain ⟨st₁, h1, hb, -⟩ := visit_of_step h
  simp only [visit, m.2, takeTest] at h1
  split at h1
  · simp at h1
  · rename_i p hp
    split at h1
    · simp at h1
    · split at h1
      · simp at h1
      · split at h1
        · simp at h1
        · rename_i b bs hbs
          split at h1
          · simp at h1
          · rename_i ha
            obtain ⟨t, -, rfl⟩ := Failure.of_map_ok h1
            have ha := Classical.not_not.1 ha
            exact ⟨b, bs, hbs, by simp [ha], by rw [ha, hp], hb⟩

theorem step_branch_inv {k : Keyword} {m : Mark k} (isElse : Bool)
    (hv : visit prog m.1 st = takeBranch prog isElse m.1 st) (h : step prog st m.1 = .ok st') :
    ∃ b bs, st.blocks = b :: bs ∧ b.isLoop = false ∧ b.sawElse = false ∧ b.awaiting = none ∧
      st'.blocks = { b with
        exits := b.exits ++ [m.1.place?]
        test := none
        awaiting := if isElse then none else m.1.place?
        sawElse := isElse } :: bs ∧
      st.table.setTarget b.test m.1.place? = .ok st'.table := by
  obtain ⟨st₁, h1, hb, ht, -⟩ := visit_of_step h
  rw [hv] at h1
  simp only [takeBranch] at h1
  split at h1
  · simp at h1
  · rename_i b bs hbs
    obtain ⟨hbs, hloop⟩ := innermost?_some hbs
    split at h1
    · simp at h1
    · rename_i helse
      split at h1
      · simp at h1
      · rename_i hreq
        have ha := requireTest_ok hreq
        obtain ⟨t, hset, rfl⟩ := Failure.of_map_ok h1
        simp only [ha] at hb
        exact ⟨b, bs, hbs, hloop, by simpa using helse, ha, hb, ht ▸ hset⟩

theorem step_endif_inv {m : Mark .endifKw} (h : step prog st m.1 = .ok st') :
    ∃ b, st.blocks = b :: st'.blocks ∧ b.isLoop = false ∧ b.awaiting = none ∧
      st'.last = m.1.place? := by
  obtain ⟨st₁, h1, hb, -, hl⟩ := visit_of_step h
  simp only [visit, m.2, closeIf] at h1
  split at h1
  · simp at h1
  · rename_i b bs hbs
    obtain ⟨hbs, hloop⟩ := innermost?_some hbs
    split at h1
    · simp at h1
    · rename_i hreq
      obtain ⟨t, -, rfl⟩ := Failure.of_map_ok h1
      exact ⟨b, by rw [hb, hbs], hloop, requireTest_ok hreq, hl⟩

theorem step_done_inv {m : Mark .doneKw} (h : step prog st m.1 = .ok st') :
    ∃ b, st.blocks = b :: st'.blocks ∧ b.isLoop = true ∧ b.awaiting = none ∧
      (∃ t₁ t₂, st.table.setTarget b.test m.1.place? = .ok t₁ ∧
        t₁.setTarget m.1.place? b.start = .ok t₂ ∧
        t₂.setTargets (b.start :: b.exits) m.1.place? = .ok st'.table) ∧
      st'.last = m.1.place? := by
  obtain ⟨st₁, h1, hb, ht, hl⟩ := visit_of_step h
  simp only [visit, m.2, closeLoop] at h1
  split at h1
  · simp at h1
  · rename_i b bs hbs
    obtain ⟨hbs, hloop⟩ := innermost?_some hbs
    split at h1
    · simp at h1
    · rename_i hreq
      split at h1
      · simp at h1
      · rename_i t₁ ht₁
        split at h1
        · simp at h1
        · rename_i t₂ ht₂
          obtain ⟨t₃, ht₃, rfl⟩ := Failure.of_map_ok h1
          exact ⟨b, by rw [hb, hbs], hloop, requireTest_ok hreq, ⟨t₁, t₂, ht₁, ht₂, ht ▸ ht₃⟩, hl⟩

theorem step_break_inv {m : Mark .breakKw} (h : step prog st m.1 = .ok st') :
    hasLoop st.blocks = true ∧ st'.blocks = addExits [m.1] st.blocks ∧ st'.last = m.1.place? := by
  obtain ⟨st₁, h1, hb, -, hl⟩ := visit_of_step h
  simp only [visit, m.2, takeBreak] at h1
  split at h1
  · simp at h1
  · rename_i bs hbs
    have hloop := hasLoop_of_addExit hbs
    rw [addExit_eq hloop, Option.some.injEq] at hbs
    simp only [Except.ok.injEq] at h1
    subst h1
    exact ⟨hloop, by rw [hb, hbs], hl⟩

/-- An `END` and an unknown action are refused. -/
theorem step_end_ne_ok (m : Mark .endKw) : step prog st m.1 ≠ .ok st' := by
  intro h
  obtain ⟨st₁, h1, -⟩ := visit_of_step h
  simp [visit, m.2] at h1

theorem step_unassigned_ne_ok {op : Operation} {code : Int} (ha : op.action = .unassigned code)
    (hs : op.action.isStructural = true) : step prog st op ≠ .ok st' := by
  intro h
  rw [ha] at hs
  simp [step, hs, visit, ha, Except.map] at h

end

/-- What an accepted operation does to the open blocks. -/
inductive Moves (op : Operation) : List OpenBlock → List OpenBlock → Prop
  | plain {bs : List OpenBlock} (action : op.action.isStructural = false) : Moves op bs bs
  | opening {bs : List OpenBlock} (isLoop : Bool)
      (action : op.action = .keyword (if isLoop then .whileKw else .ifKw)) :
      Moves op bs (⟨op.place?, isLoop, op.place?, none, false, []⟩ :: bs)
  | test {b : OpenBlock} {bs : List OpenBlock} (action : op.action = .keyword .doKw)
      (waits : b.awaiting.isSome) :
      Moves op (b :: bs) ({ b with test := op.place?, awaiting := none } :: bs)
  | branch {b : OpenBlock} {bs : List OpenBlock} (isElse : Bool)
      (action : op.action = .keyword (if isElse then .elseKw else .elifKw))
      (cond : b.isLoop = false) (first : b.sawElse = false) (tested : b.awaiting = none) :
      Moves op (b :: bs) ({ b with
        exits := b.exits ++ [op.place?]
        test := none
        awaiting := if isElse then none else op.place?
        sawElse := isElse } :: bs)
  | closing {b : OpenBlock} {bs : List OpenBlock}
      (action : op.action = .keyword (if b.isLoop then .doneKw else .endifKw)) :
      Moves op (b :: bs) bs
  | exit {bs : List OpenBlock} (action : op.action = .keyword .breakKw) :
      Moves op bs (addExits [op] bs)

/-- **All that a step can do** to the open blocks. -/
theorem moves_of_step {prog : Program} {st st' : State} {op : Operation}
    (h : step prog st op = .ok st') : Moves op st.blocks st'.blocks := by
  have hplain (hs : op.action.isStructural = false) : Moves op st.blocks st'.blocks := by
    rw [step_plain ⟨op, hs⟩, Except.ok.injEq] at h
    exact h ▸ .plain hs
  cases hact : op.action with
  | keyword k =>
    cases k with
    | ifKw =>
      rw [(step_open_inv (m := ⟨op, hact⟩) false (by simp [visit, hact]) h).1]
      exact .opening false hact
    | whileKw =>
      rw [(step_open_inv (m := ⟨op, hact⟩) true (by simp [visit, hact]) h).1]
      exact .opening true hact
    | doKw =>
      obtain ⟨b, bs, hb, hwaits, -, hb'⟩ := step_do_inv (m := ⟨op, hact⟩) h
      rw [hb, hb']
      exact .test hact hwaits
    | elifKw =>
      obtain ⟨b, bs, hb, hloop, helse, hwait, hb', -⟩ :=
        step_branch_inv (m := ⟨op, hact⟩) false (by simp [visit, hact]) h
      rw [hb, hb']
      exact .branch false hact hloop helse hwait
    | elseKw =>
      obtain ⟨b, bs, hb, hloop, helse, hwait, hb', -⟩ :=
        step_branch_inv (m := ⟨op, hact⟩) true (by simp [visit, hact]) h
      rw [hb, hb']
      exact .branch true hact hloop helse hwait
    | endifKw =>
      obtain ⟨b, hb, hloop, -⟩ := step_endif_inv (m := ⟨op, hact⟩) h
      rw [hb]
      exact .closing (by rw [hloop, hact]; rfl)
    | doneKw =>
      obtain ⟨b, hb, hloop, -⟩ := step_done_inv (m := ⟨op, hact⟩) h
      rw [hb]
      exact .closing (by rw [hloop, hact]; rfl)
    | breakKw =>
      rw [(step_break_inv (m := ⟨op, hact⟩) h).2.1]
      exact .exit hact
    | endKw => exact absurd h (step_end_ne_ok ⟨op, hact⟩)
  | unassigned code =>
    cases hs : op.action.isStructural with
    | true => exact absurd h (step_unassigned_ne_ok hact hs)
    | false => exact hplain hs
  | pushInt | pushString | pushCString | pushArray | primitive p =>
    exact hplain (by rw [hact]; rfl)

/-! ## The rest of a program -/

/-- Where an open block stands: before its `DO`, in the body of a loop, in a branch or after the
`ELSE` of a conditional. -/
inductive Phase where
  | test (isLoop : Bool)
  | body
  | branch
  | otherwise

/-- The phase of an open block. -/
def phase (b : OpenBlock) : Phase :=
  if b.awaiting.isSome then .test b.isLoop
  else if b.isLoop then .body
  else if b.sawElse then .otherwise
  else .branch

/-- Whether one of the blocks is a loop. -/
def inLoop : List Phase → Bool
  | [] => false
  | .test isLoop :: ps => isLoop || inLoop ps
  | .body :: _ => true
  | .branch :: ps => inLoop ps
  | .otherwise :: ps => inLoop ps

/-- What may follow the current sequence of the innermost block, up to the end of the program. A
block before its `DO` has no such sequence. -/
def Follows : List Phase → List Operation → Prop
  | [], r => r = []
  | .test _ :: _, _ => False
  | .body :: ps, r =>
    ∃ (done : Mark .doneKw) (c : Code (inLoop ps)) (r' : List Operation),
      r = done.1 :: (c.flatten ++ r') ∧ Follows ps r'
  | .branch :: ps, r =>
    ∃ (chain : Chain (inLoop ps)) (c : Code (inLoop ps)) (r' : List Operation),
      r = chain.flatten ++ (c.flatten ++ r') ∧ Follows ps r'
  | .otherwise :: ps, r =>
    ∃ (endif : Mark .endifKw) (c : Code (inLoop ps)) (r' : List Operation),
      r = endif.1 :: (c.flatten ++ r') ∧ Follows ps r'

/-- The rest of a program within a sequence of the innermost block. -/
def Rest (ps : List Phase) (ops : List Operation) : Prop :=
  ∃ (c : Code (inLoop ps)) (r : List Operation), ops = c.flatten ++ r ∧ Follows ps r

/-- The phase after a `DO`. -/
def afterTest (isLoop : Bool) : Phase := if isLoop then .body else .branch

/-- **The rest of a program completes the open blocks.** -/
def Completes : List Phase → List Operation → Prop
  | .test isLoop :: ps, ops =>
    ∃ (cs : List Plain) (t : Mark .doKw) (r : List Operation),
      ops = cs.map (·.1) ++ t.1 :: r ∧ Rest (afterTest isLoop :: ps) r
  | ps, ops => Rest ps ops

theorem Completes.rest {ps : List Phase} {ops : List Operation} (h : Completes ps ops)
    (hp : ∀ isLoop qs, ps ≠ .test isLoop :: qs) : Rest ps ops := by
  match ps with
  | .test isLoop :: qs => exact absurd rfl (hp isLoop qs)
  | [] | .body :: _ | .branch :: _ | .otherwise :: _ => exact h

theorem Rest.completes {ps : List Phase} {ops : List Operation} (h : Rest ps ops) :
    Completes ps ops := by
  match ps with
  | .test isLoop :: qs =>
    obtain ⟨_, _, _, hf⟩ := h
    exact hf.elim
  | [] | .body :: _ | .branch :: _ | .otherwise :: _ => exact h

/-! ### One item more in front -/

section
variable {ps : List Phase} {ops : List Operation}

theorem Completes.plain (p : Plain) (h : Completes ps ops) : Completes ps (p.1 :: ops) := by
  match ps with
  | .test isLoop :: qs =>
    obtain ⟨cs, t, r, rfl, hr⟩ := h
    exact ⟨p :: cs, t, r, rfl, hr⟩
  | [] | .body :: _ | .branch :: _ | .otherwise :: _ =>
    obtain ⟨c, r, rfl, hr⟩ := h
    exact ⟨.plain p c, r, rfl, hr⟩

theorem Rest.leave (m : Mark .breakKw) (hl : inLoop ps = true) (h : Rest ps ops) :
    Rest ps (m.1 :: ops) := by
  obtain ⟨c, r, rfl, hr⟩ := h
  have hc : ∃ c' : Code (inLoop ps), c'.flatten = m.1 :: c.flatten := by
    generalize inLoop ps = l at c hl
    subst hl
    exact ⟨.leave m c, rfl⟩
  obtain ⟨c', hc'⟩ := hc
  exact ⟨c', r, by rw [hc']; rfl, hr⟩

theorem Completes.loop (m : Mark .whileKw) (h : Completes (.test true :: ps) ops) :
    Rest ps (m.1 :: ops) := by
  obtain ⟨cs, t, r, rfl, (body : Code true), r', rfl, done, rest, r'', rfl, hr⟩ := h
  refine ⟨.loop ⟨m, cs, t⟩ body done rest, r'', ?_, hr⟩
  simp only [Code.flatten, Head.ops, List.cons_append, List.append_assoc, List.nil_append]
  rfl

theorem Completes.cond (m : Mark .ifKw) (h : Completes (.test false :: ps) ops) :
    Rest ps (m.1 :: ops) := by
  obtain ⟨cs, t, r, rfl, (body : Code (inLoop ps)), r', rfl, chain, rest, r'', rfl, hr⟩ := h
  refine ⟨.cond ⟨m, cs, t⟩ body chain rest, r'', ?_, hr⟩
  simp only [Code.flatten, Head.ops, List.cons_append, List.append_assoc, List.nil_append]
  rfl

theorem Completes.elif (m : Mark .elifKw) (h : Completes (.test false :: ps) ops) :
    Rest (.branch :: ps) (m.1 :: ops) := by
  obtain ⟨cs, t, r, rfl, (body : Code (inLoop ps)), r', rfl, chain, rest, r'', rfl, hr⟩ := h
  refine ⟨.nil, _, rfl, .elif ⟨m, cs, t⟩ body chain, rest, r'', ?_, hr⟩
  simp only [Chain.flatten, Head.ops, List.cons_append, List.append_assoc, List.nil_append]
  rfl

theorem Rest.otherwise (m : Mark .elseKw) (h : Rest (.otherwise :: ps) ops) :
    Rest (.branch :: ps) (m.1 :: ops) := by
  obtain ⟨(body : Code (inLoop ps)), r, rfl, endif, rest, r', rfl, hr⟩ := h
  refine ⟨.nil, _, rfl, .otherwise m body endif, rest, r', ?_, hr⟩
  simp only [Chain.flatten, List.cons_append, List.append_assoc, List.nil_append]
  rfl

theorem Rest.done (m : Mark .doneKw) (h : Rest ps ops) : Rest (.body :: ps) (m.1 :: ops) := by
  obtain ⟨c, r, rfl, hr⟩ := h
  exact ⟨.nil, _, rfl, m, c, r, rfl, hr⟩

theorem Rest.endif {p : Phase} (m : Mark .endifKw) (hp : p = .branch ∨ p = .otherwise)
    (h : Rest ps ops) : Rest (p :: ps) (m.1 :: ops) := by
  obtain ⟨c, r, rfl, hr⟩ := h
  rcases hp with rfl | rfl
  · exact ⟨.nil, _, rfl, .close m, c, r, rfl, hr⟩
  · exact ⟨.nil, _, rfl, m, c, r, rfl, hr⟩

end

/-! ## From runs to trees -/

/-- What waits for a `DO` is an operation that may have one, and no `ELSE` came before it. -/
def AwaitsOpener (prog : Program) (bs : List OpenBlock) : Prop :=
  ∀ b ∈ bs, ∀ p, b.awaiting = some p →
    b.sawElse = false ∧ ∃ o, prog[p]? = some o ∧ opensTest o.action = true

theorem awaiting_of_phase {b : OpenBlock} {isLoop : Bool} (h : phase b = .test isLoop) :
    b.awaiting.isSome := by
  unfold phase at h
  split at h
  · assumption
  · repeat' split at h
    all_goals cases h

theorem phase_addExits (ops : List Operation) (bs : List OpenBlock) :
    (addExits ops bs).map phase = bs.map phase := by
  induction bs with
  | nil => rfl
  | cons b bs ih => by_cases hb : b.isLoop <;> simp [addExits, hb, ih, phase]

theorem inLoop_phase (bs : List OpenBlock) : inLoop (bs.map phase) = hasLoop bs := by
  induction bs with
  | nil => rfl
  | cons b bs ih =>
    simp only [List.map_cons, hasLoop_cons, phase]
    repeat' split
    all_goals simp_all [inLoop]

theorem AwaitsOpener.addExits {prog : Program} {bs : List OpenBlock} (h : AwaitsOpener prog bs)
    (ops : List Operation) : AwaitsOpener prog (addExits ops bs) := by
  induction bs with
  | nil => exact h
  | cons b bs ih =>
    have hbs : AwaitsOpener prog bs := fun b' hb' => h b' (by simp [hb'])
    have hb := h b (by simp)
    intro b' hb'
    by_cases hl : b.isLoop
    · rw [addExits_loop hl] at hb'
      rcases List.mem_cons.1 hb' with rfl | hb'
      · exact hb
      · exact hbs b' hb'
    · rw [addExits_cond (by simpa using hl)] at hb'
      rcases List.mem_cons.1 hb' with rfl | hb'
      · exact hb
      · exact ih hbs b' hb'

/-- A block that waits for its `DO` is the innermost one, and its opener is the last structural
operation. -/
def Ready (st : State) : Prop :=
  ∀ b bs, st.blocks = b :: bs → b.awaiting.isSome → b.awaiting = st.last

/-- The innermost block does not wait for a `DO` after an operation that needs none. -/
theorem Ready.not_test {prog : Program} {st : State} {op : Operation} (hr : Ready st)
    (ha : AwaitsOpener prog st.blocks) (hp : Placed prog op) (hl : st.last = op.place?)
    (ho : opensTest op.action = false) :
    ∀ isLoop qs, st.blocks.map phase ≠ .test isLoop :: qs := by
  intro isLoop qs he
  obtain ⟨b, bs, hb, hphase, -⟩ := List.map_eq_cons_iff.1 he
  have hw := hr b bs hb (awaiting_of_phase hphase)
  rw [hl, hp.1] at hw
  obtain ⟨-, o, h1, h2⟩ := ha b (by simp [hb]) _ hw
  rw [hp.2, Option.some.injEq] at h1
  subst h1
  rw [ho] at h2
  cases h2

theorem awaitsOpener_cons {prog : Program} {b : OpenBlock} {bs : List OpenBlock} :
    AwaitsOpener prog (b :: bs) ↔
      (∀ p, b.awaiting = some p →
        b.sawElse = false ∧ ∃ o, prog[p]? = some o ∧ opensTest o.action = true) ∧
      AwaitsOpener prog bs := List.forall_mem_cons

/-- The blocks keep waiting for openers only. -/
theorem AwaitsOpener.moves {prog : Program} {bs bs' : List OpenBlock} {op : Operation}
    (ha : AwaitsOpener prog bs) (hop : Placed prog op) (h : Moves op bs bs') :
    AwaitsOpener prog bs' := by
  have hwait (ho : opensTest op.action = true) (p : Nat) (hp : op.place? = some p) :
      ∃ o, prog[p]? = some o ∧ opensTest o.action = true := by
    rw [hop.1, Option.some.injEq] at hp
    exact ⟨op, hp ▸ hop.2, ho⟩
  cases h with
  | plain => exact ha
  | opening isLoop hact =>
    have ho : opensTest op.action = true := by cases isLoop <;> rw [hact] <;> rfl
    exact awaitsOpener_cons.2 ⟨fun p hp => ⟨rfl, hwait ho p hp⟩, ha⟩
  | test => exact awaitsOpener_cons.2 ⟨nofun, (awaitsOpener_cons.1 ha).2⟩
  | branch isElse hact =>
    refine awaitsOpener_cons.2 ⟨fun p hp => ?_, (awaitsOpener_cons.1 ha).2⟩
    cases isElse with
    | false => exact ⟨rfl, hwait (by rw [hact]; rfl) p hp⟩
    | true => cases hp
  | closing => exact (awaitsOpener_cons.1 ha).2
  | exit => exact ha.addExits [op]

/-- Within a sequence no block waits for its `DO`. -/
theorem Rest.ready {st : State} {ops : List Operation} (h : Rest (st.blocks.map phase) ops) :
    Ready st := by
  intro b bs hb hw
  obtain ⟨c, r, -, hf⟩ := h
  rw [hb, List.map_cons, phase, if_pos hw] at hf
  exact hf.elim

/-- One operation in front of what completes the blocks after it. -/
theorem completes_step {prog : Program} {ops : List Operation} {st st' : State} {op : Operation}
    (hop : Placed prog op) (ha : AwaitsOpener prog st.blocks)
    (ha' : AwaitsOpener prog st'.blocks) (hs : step prog st op = .ok st')
    (hc : Completes (st'.blocks.map phase) ops) (hr : Ready st') :
    Completes (st.blocks.map phase) (op :: ops) ∧ Ready st := by
  -- it suffices to be within a sequence, since then no block waits
  have rest : Rest (st.blocks.map phase) (op :: ops) →
      Completes (st.blocks.map phase) (op :: ops) ∧ Ready st := fun h => ⟨h.completes, h.ready⟩
  cases hact : op.action with
  | keyword k =>
    cases k with
    | ifKw =>
      obtain ⟨hb, -⟩ := step_open_inv (m := ⟨op, hact⟩) false (by simp [visit, hact]) hs
      rw [hb, List.map_cons, phase, hop.1] at hc
      exact rest (hc.cond ⟨op, hact⟩)
    | whileKw =>
      obtain ⟨hb, -⟩ := step_open_inv (m := ⟨op, hact⟩) true (by simp [visit, hact]) hs
      rw [hb, List.map_cons, phase, hop.1] at hc
      exact rest (hc.loop ⟨op, hact⟩)
    | doKw =>
      obtain ⟨b, bs, hb, hsome, hlast, hb'⟩ := step_do_inv (m := ⟨op, hact⟩) hs
      obtain ⟨p, hp⟩ := Option.isSome_iff_exists.1 hsome
      have helse := (ha b (by simp [hb]) p hp).1
      refine ⟨?_, fun b₁ bs₁ hb₁ _ => ?_⟩
      · rw [hb, List.map_cons, phase, if_pos hsome]
        refine ⟨[], ⟨op, hact⟩, ops, rfl, ?_⟩
        rw [hb', List.map_cons] at hc
        cases hl : b.isLoop <;> simpa [phase, hl, helse, afterTest, Completes] using hc
      · rw [hb, List.cons.injEq] at hb₁
        rw [← hb₁.1, hlast]
    | elifKw =>
      obtain ⟨b, bs, hb, hloop, helse, hwait, hb', -⟩ :=
        step_branch_inv (m := ⟨op, hact⟩) false (by simp [visit, hact]) hs
      have hph : phase b = .branch := by simp [phase, hloop, helse, hwait]
      rw [hb', List.map_cons] at hc
      simp only [phase, hop.1, hloop] at hc
      rw [hb, List.map_cons, hph] at rest ⊢
      exact rest (Completes.elif ⟨op, hact⟩ hc)
    | elseKw =>
      obtain ⟨b, bs, hb, hloop, helse, hwait, hb', -⟩ :=
        step_branch_inv (m := ⟨op, hact⟩) true (by simp [visit, hact]) hs
      have hph : phase b = .branch := by simp [phase, hloop, helse, hwait]
      rw [hb', List.map_cons] at hc
      simp only [phase, hloop] at hc
      rw [hb, List.map_cons, hph] at rest ⊢
      exact rest (Rest.otherwise ⟨op, hact⟩ hc)
    | endifKw =>
      obtain ⟨b, hb, hloop, hwait, hlast⟩ := step_endif_inv (m := ⟨op, hact⟩) hs
      have hph : phase b = .branch ∨ phase b = .otherwise := by
        cases he : b.sawElse <;> simp [phase, hloop, hwait, he]
      have hr' := hc.rest (hr.not_test ha' hop hlast (by rw [hact]; rfl))
      rw [hb, List.map_cons] at rest ⊢
      exact rest (hr'.endif ⟨op, hact⟩ hph)
    | doneKw =>
      obtain ⟨b, hb, hloop, hwait, -, hlast⟩ := step_done_inv (m := ⟨op, hact⟩) hs
      have hph : phase b = .body := by simp [phase, hloop, hwait]
      have hr' := hc.rest (hr.not_test ha' hop hlast (by rw [hact]; rfl))
      rw [hb, List.map_cons, hph] at rest ⊢
      exact rest (hr'.done ⟨op, hact⟩)
    | breakKw =>
      obtain ⟨hloop, hb, hlast⟩ := step_break_inv (m := ⟨op, hact⟩) hs
      have hr' := hc.rest (hr.not_test ha' hop hlast (by rw [hact]; rfl))
      rw [hb, phase_addExits] at hr'
      exact rest (hr'.leave ⟨op, hact⟩ (by rw [inLoop_phase, hloop]))
    | endKw => exact absurd hs (step_end_ne_ok ⟨op, hact⟩)
  | unassigned code =>
    cases hst : op.action.isStructural with
    | true => exact absurd hs (step_unassigned_ne_ok hact hst)
    | false =>
      rw [step_plain ⟨op, hst⟩, Except.ok.injEq] at hs
      subst hs
      exact ⟨hc.plain ⟨op, hst⟩, hr⟩
  | pushInt | pushString | pushCString | pushArray | primitive p =>
    have hst : op.action.isStructural = false := by rw [hact]; rfl
    rw [step_plain ⟨op, hst⟩, Except.ok.injEq] at hs
    subst hs
    exact ⟨hc.plain ⟨op, hst⟩, hr⟩

/-- **The rest of an accepted program completes the open blocks.** The induction is on the rest:
what the blocks need after its first operation is known, and that operation is put in front. -/
theorem completes_of_run {prog : Program} {ops : List Operation} {st st' : State}
    (hp : ∀ o ∈ ops, Placed prog o) (ha : AwaitsOpener prog st.blocks)
    (h : run prog st ops = .ok st') (hst' : st'.blocks = []) :
    Completes (st.blocks.map phase) ops ∧ Ready st := by
  induction ops generalizing st with
  | nil =>
    simp only [run_nil, Except.ok.injEq] at h
    subst h
    rw [hst']
    exact ⟨⟨.nil, [], rfl, rfl⟩, fun b bs hb => by rw [hst'] at hb; cases hb⟩
  | cons op ops ih =>
    obtain ⟨st₁, hs, h1⟩ := of_run_cons h
    have hop := hp op (by simp)
    have ha₁ := ha.moves hop (moves_of_step hs)
    obtain ⟨hc, hr⟩ := ih (fun o ho => hp o (by simp [ho])) ha₁ h1
    exact completes_step hop ha ha₁ hs hc hr

/-- An accepted program has a tree. -/
theorem exists_flatten_of_resolve {prog : Program} (hi : prog.Indexed) {table : BlockTable}
    (h : resolve prog = .ok table) : ∃ c : Code false, c.flatten = prog := by
  unfold resolve at h
  split at h
  · simp at h
  · rename_i st hst
    split at h
    · rename_i hb
      have hwait : AwaitsOpener prog (Blocks.start prog).blocks := by
        simp [AwaitsOpener, Blocks.start]
      obtain ⟨⟨c, r, hc, hr⟩, -⟩ := completes_of_run (fun o ho => hi.placed ho) hwait hst hb
      exact ⟨c, by rw [hc, show r = [] from hr, List.append_nil]; rfl⟩
    · split at h
      · simp at h
      · split at h <;> simp at h

/-- **The resolver accepts exactly the block grammar**: a program whose indices are its positions is
resolved if and only if it is the flattening of a tree. -/
theorem resolve_ok_iff {prog : Program} (hi : prog.Indexed) :
    (∃ table, resolve prog = .ok table) ↔ ∃ c : Code false, c.flatten = prog := by
  constructor
  · rintro ⟨table, h⟩
    exact exists_flatten_of_resolve hi h
  · rintro ⟨c, rfl⟩
    exact ⟨_, resolve_flatten hi⟩

theorem resolve_ok_iff_leavingLoop :
    leavingLoop.Indexed ∧ (∃ table, resolve leavingLoop = .ok table) ∧
      ∃ c : Code false, c.flatten = leavingLoop := by
  have hi : leavingLoop.Indexed := by decide
  have hok : ∃ table, resolve leavingLoop = .ok table := ⟨_, rfl⟩
  exact ⟨hi, hok, (resolve_ok_iff hi).1 hok⟩

end StackLang.Blocks
