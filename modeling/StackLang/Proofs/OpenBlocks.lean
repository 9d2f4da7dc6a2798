import Mathlib.Data.Nat.PSub
import StackLang.Proofs.BlockErrors
import StackLang.Proofs.BlockGrammar

/-!
# Open blocks

What the resolver remembers of the blocks that are not closed yet, whatever the nesting of the
program: each open block is in one of three phases, and the places that it keeps are those of its own
operations. Which operations are a block's own is said by counting the blocks that open and close
between two places. So the resolver finds a `DO` wherever it needs one, and stays in its table.

- `Encloses`: the innermost block around a place, by counting.
- `OpenBlock.Coherent`: what holds of an open block.
- `Blocks.Nested.moves`, `Blocks.coherent_moves`, `Blocks.Tracks.next`: what a step keeps.
- `Blocks.tracks_run`: what holds whenever the resolver has taken some operations.
- `Blocks.open_blocks_coherent`: so it never leaves its table, and no `DO` comes twice.
-/

set_option autoImplicit false

namespace StackLang

/-! ## Nesting -/

/-- Whether the block that an action opens is a loop. -/
def Action.opens? : Action → Option Bool
  | .keyword .ifKw => some false
  | .keyword .whileKw => some true
  | _ => none

/-- Whether the block that an action closes is a loop. -/
def Action.closes? : Action → Option Bool
  | .keyword .endifKw => some false
  | .keyword .doneKw => some true
  | _ => none

/-- Counts all blocks. -/
def anyBlock (_isLoop : Bool) : Bool := true

/-- Counts loops and no conditionals. -/
def onlyLoops (isLoop : Bool) : Bool := isLoop

/-- How many of the blocks that are counted are open behind an operation, when `depth` of them are
open before it. It cannot close more than there are. -/
def nestingStep (counted : Bool → Bool) (depth : Nat) (op : Operation) : Option Nat :=
  if op.action.opens?.any counted then some (depth + 1)
  else if op.action.closes?.any counted then depth.ppred
  else some depth

/-- How many of the counted blocks that open among some operations are open behind them; none when
one closes that has been opened before. -/
def nesting (counted : Bool → Bool) (ops : List Operation) : Option Nat :=
  ops.foldlM (nestingStep counted) 0

/-- **The innermost block around a place**, of those that are counted, is the one from `start` on:
what opens between the two places closes there too. -/
def Encloses (counted : Bool → Bool) (prog : Program) (start place : Nat) : Prop :=
  start < place ∧ nesting counted ((prog.take place).drop (start + 1)) = some 0

section
variable {counted : Bool → Bool} {op : Operation}

theorem nesting_concat (counted : Bool → Bool) (ops : List Operation) (op : Operation) :
    nesting counted (ops ++ [op]) = (nesting counted ops).bind (nestingStep counted · op) := by
  simp only [nesting, List.foldlM_append, List.foldlM_cons, List.foldlM_nil, bind_pure]
  rfl

theorem Action.closes?_of_opens? {a : Action} {isLoop : Bool} (h : a.opens? = some isLoop) :
    a.closes? = none := by
  unfold Action.opens? at h
  split at h
  · rfl
  · rfl
  · cases h

theorem Action.opens?_of_closes? {a : Action} {isLoop : Bool} (h : a.closes? = some isLoop) :
    a.opens? = none := by
  unfold Action.closes? at h
  split at h
  · rfl
  · rfl
  · cases h

theorem nestingStep_of_opens {isLoop : Bool} (h : op.action.opens? = some isLoop) (depth : Nat) :
    nestingStep counted depth op = some (depth + if counted isLoop then 1 else 0) := by
  cases hc : counted isLoop <;> simp [nestingStep, h, Action.closes?_of_opens? h, hc]

theorem nestingStep_of_closes {isLoop : Bool} (h : op.action.closes? = some isLoop) (depth : Nat) :
    nestingStep counted (depth + if counted isLoop then 1 else 0) op = some depth := by
  cases hc : counted isLoop <;> simp [nestingStep, h, Action.opens?_of_closes? h, hc]

theorem nestingStep_of_none (ho : op.action.opens? = none) (hc : op.action.closes? = none)
    (depth : Nat) : nestingStep counted depth op = some depth := by
  simp [nestingStep, ho, hc]

end

/-! ## What an open block remembers -/

/-- An operation with the keyword stands at a place. -/
def Keyword.StandsAt (k : Keyword) (prog : Program) (place : Nat) : Prop :=
  prog[place]?.map (·.action) = some (.keyword k)

theorem Keyword.StandsAt.lt {k : Keyword} {prog : Program} {place : Nat}
    (h : k.StandsAt prog place) : place < prog.length := by
  obtain ⟨op, hop, -⟩ := Option.map_eq_some_iff.1 h
  exact (List.getElem?_eq_some_iff.1 hop).1

/-- An operation with the keyword stands at a place, and the block from `start` on is the innermost
around it. -/
def Keyword.BelongsTo (k : Keyword) (counted : Bool → Bool) (prog : Program) (start place : Nat) :
    Prop :=
  k.StandsAt prog place ∧ Encloses counted prog start place

/-- **What holds of an open block** that starts at a place of the program. -/
structure OpenBlock.Coherent (prog : Program) (b : OpenBlock) (start : Nat) : Prop where
  starts : b.start = some start
  opener : (if b.isLoop then Keyword.whileKw else Keyword.ifKw).StandsAt prog start
  /-- What awaits its `DO` is the opener, or an `ELIF` of the conditional. -/
  awaiting : ∀ i ∈ b.awaiting,
    i = start ∨ b.isLoop = false ∧ Keyword.elifKw.BelongsTo anyBlock prog start i
  test : ∀ i ∈ b.test, Keyword.doKw.BelongsTo anyBlock prog start i
  /-- It awaits a `DO`, is in the branch of one, or is behind its `ELSE`. -/
  phase : [b.awaiting.isSome, b.test.isSome, b.sawElse].count true = 1
  sawElse : b.sawElse = true → b.isLoop = false
  branches : b.isLoop = false → ∀ place ∈ b.exits, ∃ i, place = some i ∧
    (Keyword.elifKw.BelongsTo anyBlock prog start i ∨ Keyword.elseKw.BelongsTo anyBlock prog start i)
  breaks : b.isLoop = true → ∀ place ∈ b.exits, ∃ i, place = some i ∧
    Keyword.breakKw.BelongsTo onlyLoops prog start i

namespace OpenBlock.Coherent

variable {prog : Program} {b : OpenBlock} {start : Nat}

/-- A block that awaits a `DO` is in no branch. -/
theorem of_awaiting (h : b.Coherent prog start) (hw : b.awaiting.isSome = true) :
    b.test = none ∧ b.sawElse = false := by
  have hphase := h.phase
  rw [hw] at hphase
  cases htest : b.test <;> cases helse : b.sawElse <;> simp_all

/-- **A block that awaits no `DO` has had one**, unless it is behind its `ELSE`. -/
theorem exists_test (h : b.Coherent prog start) (hw : b.awaiting = none) (he : b.sawElse = false) :
    ∃ i, b.test = some i := by
  have hphase := h.phase
  rw [hw, he] at hphase
  cases htest : b.test with
  | none => simp [htest] at hphase
  | some i => exact ⟨i, rfl⟩

end OpenBlock.Coherent

/-- Where a block starts, and whether it is a loop. -/
def OpenBlock.shape (b : OpenBlock) : Option Nat × Bool := (b.start, b.isLoop)

namespace Blocks

theorem map_shape_addExits (ops : List Operation) (bs : List OpenBlock) :
    (addExits ops bs).map OpenBlock.shape = bs.map OpenBlock.shape := by
  induction bs with
  | nil => rfl
  | cons b bs ih => by_cases hb : b.isLoop <;> simp [addExits, hb, ih, OpenBlock.shape]

/-! ## Steps -/

/-- The open blocks, innermost first, are those that some operations leave open: from the start of
each on, just those inside it are open. -/
def Nested (ops : List Operation) (shapes : List (Option Nat × Bool)) : Prop :=
  ∀ (inner : List (Option Nat × Bool)) (start : Nat) (isLoop : Bool)
    (outer : List (Option Nat × Bool)), shapes = inner ++ (some start, isLoop) :: outer →
    start < ops.length ∧ ∀ counted : Bool → Bool,
      nesting counted (ops.drop (start + 1)) = some (inner.countP fun s => counted s.2)

section
variable {ops : List Operation} {op : Operation} {bs bs' : List OpenBlock}

/-- An operation changes the number of blocks inside an open one. -/
theorem Nested.behind {shapes inner inner' outer : List (Option Nat × Bool)} {start : Nat}
    {isLoop : Bool} (h : Nested ops shapes) (heq : shapes = inner ++ (some start, isLoop) :: outer)
    (hstep : ∀ counted : Bool → Bool, nestingStep counted (inner.countP fun s => counted s.2) op
      = some (inner'.countP fun s => counted s.2)) :
    start < (ops ++ [op]).length ∧ ∀ counted : Bool → Bool,
      nesting counted ((ops ++ [op]).drop (start + 1))
        = some (inner'.countP fun s => counted s.2) := by
  obtain ⟨hlt, hnest⟩ := h inner start isLoop outer heq
  refine ⟨by rw [List.length_append]; omega, fun counted => ?_⟩
  rw [List.drop_append_of_le_length hlt, nesting_concat, hnest counted]
  exact hstep counted

/-- **One operation** keeps the nesting. -/
theorem Nested.moves (h : Nested ops (bs.map OpenBlock.shape)) (hop : op.place? = some ops.length)
    (hm : Moves op bs bs') : Nested (ops ++ [op]) (bs'.map OpenBlock.shape) := by
  have hsame (hshape : bs'.map OpenBlock.shape = bs.map OpenBlock.shape)
      (ho : op.action.opens? = none) (hc : op.action.closes? = none) :
      Nested (ops ++ [op]) (bs'.map OpenBlock.shape) := by
    intro inner start isLoop outer heq
    exact h.behind (hshape ▸ heq) fun counted => nestingStep_of_none ho hc _
  cases hm with
  | plain hs =>
    cases ha : op.action with
    | keyword k => simp [ha, Action.isStructural] at hs
    | _ => exact hsame rfl (by rw [ha]; rfl) (by rw [ha]; rfl)
  | opening isLoop hact =>
    have ho : op.action.opens? = some isLoop := by cases isLoop <;> rw [hact] <;> rfl
    intro inner start isLoop' outer heq
    cases inner with
    | nil =>
      -- The new block is the innermost, and nothing is behind its opener yet.
      obtain ⟨hnew, -⟩ := List.cons.inj heq
      obtain rfl : ops.length = start := Option.some.inj (hop.symm.trans (Prod.mk.inj hnew).1)
      refine ⟨by simp, fun counted => ?_⟩
      rw [List.drop_eq_nil_of_le (by simp)]
      rfl
    | cons s inner =>
      obtain ⟨rfl, hrest⟩ := List.cons.inj heq
      refine h.behind hrest fun counted => ?_
      rw [nestingStep_of_opens ho, List.countP_cons]
      rfl
  | test hact => exact hsame rfl (by rw [hact]; rfl) (by rw [hact]; rfl)
  | branch isElse hact =>
    exact hsame rfl (by cases isElse <;> rw [hact] <;> rfl) (by cases isElse <;> rw [hact] <;> rfl)
  | @closing b _ hact =>
    have hc : op.action.closes? = some b.isLoop := by
      rw [hact]
      cases b.isLoop <;> rfl
    intro inner start isLoop outer heq
    have hnow : (b :: bs').map OpenBlock.shape =
        (b.shape :: inner) ++ (some start, isLoop) :: outer := by
      rw [List.map_cons, heq, List.cons_append]
    refine h.behind hnow fun counted => ?_
    rw [List.countP_cons]
    exact nestingStep_of_closes hc _
  | exit hact => exact hsame (map_shape_addExits _ _) (by rw [hact]; rfl) (by rw [hact]; rfl)

end

section
variable {prog ops : Program} {op : Operation} {bs bs' : List OpenBlock}

/-- The innermost block is the innermost around the next operation. -/
theorem Nested.encloses_head {b : OpenBlock} {start : Nat}
    (h : Nested ops ((b :: bs).map OpenBlock.shape)) (hops : ops <+: prog)
    (hb : b.start = some start) : Encloses anyBlock prog start ops.length := by
  obtain ⟨hlt, hnest⟩ := h [] start b.isLoop (bs.map OpenBlock.shape)
    (by rw [List.map_cons, OpenBlock.shape, hb]; rfl)
  refine ⟨hlt, ?_⟩
  rw [← List.prefix_iff_eq_take.1 hops]
  exact hnest anyBlock

/-- The first loop among the open blocks is the innermost loop around the next operation. -/
theorem Nested.encloses_loop {inner : List OpenBlock} {b : OpenBlock} {start : Nat}
    (h : Nested ops ((inner ++ b :: bs).map OpenBlock.shape)) (hops : ops <+: prog)
    (hinner : ∀ x ∈ inner, x.isLoop = false) (hb : b.start = some start) :
    Encloses onlyLoops prog start ops.length := by
  obtain ⟨hlt, hnest⟩ := h (inner.map OpenBlock.shape) start b.isLoop (bs.map OpenBlock.shape)
    (by rw [List.map_append, List.map_cons, OpenBlock.shape, hb])
  refine ⟨hlt, ?_⟩
  rw [← List.prefix_iff_eq_take.1 hops, hnest onlyLoops, Option.some.injEq, List.countP_eq_zero]
  intro s hs
  obtain ⟨x, hx, rfl⟩ := List.mem_map.1 hs
  simpa [onlyLoops, OpenBlock.shape] using hinner x hx

/-- A `BREAK` is an exit of the first loop among the open blocks. -/
theorem coherent_addExits (hop : op.place? = some ops.length)
    (hat : Keyword.breakKw.StandsAt prog ops.length)
    (hloop : ∀ (inner : List OpenBlock) (b : OpenBlock) (outer : List OpenBlock) (start : Nat),
      bs = inner ++ b :: outer → (∀ x ∈ inner, x.isLoop = false) → b.start = some start →
      Encloses onlyLoops prog start ops.length)
    (h : ∀ b ∈ bs, ∃ start, b.Coherent prog start) :
    ∀ b ∈ addExits [op] bs, ∃ start, b.Coherent prog start := by
  induction bs with
  | nil => exact h
  | cons b bs ih =>
    obtain ⟨⟨start, hb⟩, hrest⟩ := List.forall_mem_cons.1 h
    cases hl : b.isLoop with
    | true =>
      rw [addExits_loop hl]
      refine List.forall_mem_cons.2 ⟨⟨start, ?_⟩, hrest⟩
      have hexit : Keyword.breakKw.BelongsTo onlyLoops prog start ops.length :=
        ⟨hat, hloop [] b bs start rfl nofun hb.starts⟩
      refine { hb with
        branches := fun hl' => absurd (hl.symm.trans hl') (by decide)
        breaks := fun _ => List.forall_mem_append.2 ⟨hb.breaks hl, ?_⟩ }
      intro place hplace
      exact ⟨_, (List.mem_singleton.1 hplace).trans hop, hexit⟩
    | false =>
      rw [addExits_cond hl]
      refine List.forall_mem_cons.2 ⟨⟨start, hb⟩, ih ?_ hrest⟩
      intro inner b' outer start' heq hinner hb'
      exact hloop (b :: inner) b' outer start' (by rw [heq]; rfl)
        (List.forall_mem_cons.2 ⟨hl, hinner⟩) hb'

/-- **One operation** keeps the open blocks coherent. -/
theorem coherent_moves (hops : ops <+: prog) (hop : op.place? = some ops.length)
    (hat : prog[ops.length]? = some op) (hn : Nested ops (bs.map OpenBlock.shape))
    (h : ∀ b ∈ bs, ∃ start, b.Coherent prog start) (hm : Moves op bs bs') :
    ∀ b ∈ bs', ∃ start, b.Coherent prog start := by
  have hstands {k : Keyword} (hact : op.action = .keyword k) : k.StandsAt prog ops.length := by
    rw [Keyword.StandsAt, hat, Option.map_some, hact]
  cases hm with
  | plain => exact h
  | opening isLoop hact =>
    refine List.forall_mem_cons.2 ⟨⟨ops.length, ?_⟩, h⟩
    refine ⟨hop, hstands hact, fun i hi => .inl ?_, nofun, ?_, nofun, fun _ => nofun, fun _ => nofun⟩
    · exact Option.some.inj (hi.symm.trans hop)
    · rw [hop]
      rfl
  | test hact hwaits =>
    obtain ⟨⟨start, hb⟩, hrest⟩ := List.forall_mem_cons.1 h
    obtain ⟨-, helse⟩ := hb.of_awaiting hwaits
    refine List.forall_mem_cons.2 ⟨⟨start, ?_⟩, hrest⟩
    refine { hb with awaiting := nofun, test := fun i hi => ?_, phase := ?_ }
    · obtain rfl : i = ops.length := Option.some.inj (hi.symm.trans hop)
      exact ⟨hstands hact, hn.encloses_head hops hb.starts⟩
    · rw [hop, helse]
      rfl
  | branch isElse hact hcond hfirst htested =>
    obtain ⟨⟨start, hb⟩, hrest⟩ := List.forall_mem_cons.1 h
    have hencl := hn.encloses_head hops hb.starts
    refine List.forall_mem_cons.2 ⟨⟨start, ?_⟩, hrest⟩
    refine { hb with
      awaiting := fun i hi => ?_
      test := nofun
      phase := ?_
      sawElse := fun _ => hcond
      branches := fun _ => List.forall_mem_append.2 ⟨hb.branches hcond, fun place hplace => ?_⟩
      breaks := fun hl => absurd (hcond.symm.trans hl) (by decide) }
    · cases isElse with
      | true => cases hi
      | false =>
        obtain rfl : i = ops.length := Option.some.inj (hi.symm.trans hop)
        exact .inr ⟨hcond, hstands hact, hencl⟩
    · cases isElse with
      | true => rfl
      | false =>
        simp only [hop]
        rfl
    · refine ⟨_, (List.mem_singleton.1 hplace).trans hop, ?_⟩
      cases isElse with
      | true => exact .inr ⟨hstands hact, hencl⟩
      | false => exact .inl ⟨hstands hact, hencl⟩
  | closing => exact (List.forall_mem_cons.1 h).2
  | exit hact =>
    refine coherent_addExits hop (hstands hact) ?_ h
    rintro inner b outer start rfl hinner hb
    exact hn.encloses_loop hops hinner hb

end

/-- **What holds when the resolver has taken some operations**: the open blocks are coherent and
nested as the operations say, and where the last structural one may have a `DO`, the innermost block
awaits it. -/
structure Tracks (prog : Program) (ops : List Operation) (st : State) : Prop where
  within : st.Within prog
  nested : Nested ops (st.blocks.map OpenBlock.shape)
  coherent : ∀ b ∈ st.blocks, ∃ start, b.Coherent prog start
  ready : ∀ (place : Nat) (op : Operation), st.last = some place → prog[place]? = some op →
    opensTest op.action = true → ∃ b bs, st.blocks = b :: bs ∧ b.awaiting = some place

theorem tracks_start (prog : Program) : Tracks prog [] (start prog) := by
  refine ⟨within_start prog, ?_, fun b hb => ?_, fun place op hlast => ?_⟩
  · intro inner start isLoop outer heq
    cases inner <;> cases heq
  · cases hb
  · cases hlast

theorem last_of_step {prog : Program} {st st' : State} {op : Operation}
    (h : step prog st op = .ok st') :
    st'.last = if op.action.isStructural then op.place? else st.last := by
  unfold step at h
  split at h
  · rename_i hs
    obtain ⟨st₁, -, rfl⟩ := Failure.of_map_ok h
    rw [if_pos hs]
  · rename_i hs
    obtain rfl := Except.ok.inj h
    rw [if_neg hs]

/-- The innermost block awaits the `DO` of an operation that may have one. -/
theorem Moves.awaits {op : Operation} {bs bs' : List OpenBlock} (h : Moves op bs bs')
    (ho : opensTest op.action = true) : ∃ b rest, bs' = b :: rest ∧ b.awaiting = op.place? := by
  cases h with
  | plain hs =>
    cases ha : op.action with
    | keyword k => simp [ha, Action.isStructural] at hs
    | _ => simp [ha, opensTest] at ho
  | opening => exact ⟨_, _, rfl, rfl⟩
  | branch isElse hact =>
    cases isElse with
    | false => exact ⟨_, _, rfl, rfl⟩
    | true => simp [hact, opensTest] at ho
  | @closing b _ hact => cases hl : b.isLoop <;> simp [hact, hl, opensTest] at ho
  | test hact | exit hact => simp [hact, opensTest] at ho

section
variable {prog : Program} (hi : prog.Indexed)
include hi

theorem place?_of_indexed {op : Operation} {k : Nat} (hat : prog[k]? = some op) :
    op.place? = some k := by
  rw [(hi.placed (List.mem_of_getElem? hat)).1, Operation.place, hi k op hat]
  rfl

variable {ops : List Operation} {st st' : State} {op : Operation}

/-- **A step keeps all of it.** -/
theorem Tracks.next (h : Tracks prog ops st) (hops : ops <+: prog)
    (hat : prog[ops.length]? = some op) (hs : step prog st op = .ok st') :
    Tracks prog (ops ++ [op]) st' := by
  have hplace := place?_of_indexed hi hat
  have hmoves := moves_of_step hs
  refine ⟨(ends_step h.within (hi.placed (List.mem_of_getElem? hat))).of_ok hs,
    h.nested.moves hplace hmoves, coherent_moves hops hplace hat h.nested h.coherent hmoves, ?_⟩
  intro place previous hlast hprevious ho
  rw [last_of_step hs] at hlast
  split at hlast
  · obtain rfl : ops.length = place := Option.some.inj (hplace.symm.trans hlast)
    obtain rfl : op = previous := Option.some.inj (hat.symm.trans hprevious)
    obtain ⟨b, rest, hb, hawaits⟩ := hmoves.awaits ho
    exact ⟨b, rest, hb, hawaits.trans hplace⟩
  · rename_i hplain
    rw [step_plain ⟨op, Bool.eq_false_iff.2 hplain⟩, Except.ok.injEq] at hs
    exact hs ▸ h.ready place previous hlast hprevious ho

/-- **So does a run.** -/
theorem tracks_run {done : List Operation} (h : Tracks prog done st) (hops : done ++ ops <+: prog)
    (hr : run prog st ops = .ok st') : Tracks prog (done ++ ops) st' := by
  induction ops generalizing done st with
  | nil =>
    obtain rfl := Except.ok.inj hr
    rwa [List.append_nil]
  | cons op ops ih =>
    obtain ⟨st₁, hs, hr⟩ := of_run_cons hr
    have hat : prog[done.length]? = some op := by
      obtain ⟨rest, rfl⟩ := hops
      simp
    have hnext := h.next hi ((List.prefix_append _ _).trans hops) hat hs
    rw [List.append_cons] at hops ⊢
    exact ih hnext hops hr

end

/-! ## Refusals -/

/-- A failure that is an error at an operation, and not the one that an opener has a `DO` already. -/
def RefusedAt (op : Operation) (f : Failure) : Prop :=
  ∃ cause, f = Cause.at cause op.loc ∧ ∀ previous, cause ≠ .doRepeated previous

theorem eq_do_of_ambiguousDo {a : Action} (h : .ambiguousDo ∈ refusalKinds a) :
    a = .keyword .doKw := by
  unfold refusalKinds at h
  split at h <;> first | rfl | simp at h

/-- A failed run has come to an operation that fails. -/
theorem exists_of_run_error {prog : Program} {ops : List Operation} {st : State} {f : Failure}
    (h : run prog st ops = .error f) : ∃ done op rest st₁, ops = done ++ op :: rest ∧
      run prog st done = .ok st₁ ∧ step prog st₁ op = .error f := by
  induction ops generalizing st with
  | nil => cases h
  | cons op ops ih =>
    cases hs : step prog st op with
    | error f' =>
      simp only [run, List.foldlM_cons, hs] at h
      exact ⟨[], op, ops, st, rfl, rfl, hs.trans h⟩
    | ok st' =>
      rw [run_cons hs] at h
      obtain ⟨done, op', rest, st₁, rfl, hrun, hstep⟩ := ih h
      exact ⟨op :: done, op', rest, st₁, rfl, (run_cons hs).trans hrun, hstep⟩

section
variable {prog : Program} {ops : List Operation} {st : State} {op : Operation}

/-- **No `DO` comes twice**: after an opener the innermost block awaits it. -/
theorem Tracks.refused_test (h : Tracks prog ops st) (hop : Placed prog op) {f : Failure}
    (hf : takeTest prog op st = .error f) : RefusedAt op f := by
  unfold takeTest at hf
  split at hf
  · exact ⟨_, (Except.error.inj hf).symm, by simp⟩
  rename_i place hlast
  have hbelow := h.within.last (by rw [hlast]; exact Option.some_ne_none _)
  obtain ⟨previous, -, hat⟩ := operationAt_of_placeBelow (hlast ▸ hbelow)
  rw [hat] at hf
  dsimp only at hf
  split at hf
  · exact ⟨_, (Except.error.inj hf).symm, by simp⟩
  rename_i hopens
  have hprevious : prog[place]? = some previous := by
    unfold operationAt at hat
    split at hat
    · rename_i hget
      exact hget.trans (congrArg some (Except.ok.inj hat))
    · cases hat
  obtain ⟨b, bs, hb, hawaits⟩ := h.ready place previous hlast hprevious (by simpa using hopens)
  rw [hb] at hf
  simp only [hawaits, ne_eq, not_true_eq_false, if_false] at hf
  have hset : Ends (fun _ => False) (BlockTable.Fits · prog)
      (st.table.setOpener op.place? (some place)) := h.within.table.ends_setOpener hop.placeBelow
  exact (hset.of_error (Failure.of_map_error hf)).elim

/-- **What a step fails for** is an error at its operation. -/
theorem Tracks.refused_step (h : Tracks prog ops st) (hop : Placed prog op) {f : Failure}
    (hf : step prog st op = .error f) : RefusedAt op f := by
  by_cases hdo : op.action = .keyword .doKw
  · rw [step_mark ⟨op, hdo⟩] at hf
    have hvisit := Failure.of_map_error hf
    simp only [visit, hdo] at hvisit
    exact h.refused_test hop hvisit
  · obtain ⟨cause, rfl, hkind⟩ := (ends_step h.within hop).of_error hf
    refine ⟨cause, rfl, ?_⟩
    rintro previous rfl
    exact hdo (eq_do_of_ambiguousDo hkind)

end

/-! ## Targets of tests -/

theorem getElem?_setTarget {t t' : BlockTable} {place value : Option Nat}
    (h : t.setTarget place value = .ok t') (j : Nat) :
    t'.targets[j]? = if place = some j then some value else t.targets[j]? := by
  obtain ⟨a, ha, rfl⟩ := Failure.of_map_ok h
  unfold BlockTable.setEntry at ha
  split at ha
  · cases ha
  · rename_i i
    split at ha
    · rename_i hi
      obtain rfl := Except.ok.inj ha
      simp only [Array.getElem?_set, Option.some.injEq]
    · cases ha

theorem getElem?_setTargets {places : List (Option Nat)} {t t' : BlockTable} {value : Option Nat}
    (h : t.setTargets places value = .ok t') (j : Nat) :
    t'.targets[j]? = if some j ∈ places then some value else t.targets[j]? := by
  induction places generalizing t with
  | nil =>
    obtain rfl := Except.ok.inj h
    simp
  | cons place places ih =>
    cases hs : t.setTarget place value with
    | error f =>
      simp only [BlockTable.setTargets, List.foldlM_cons, hs] at h
      cases h
    | ok t₁ =>
      simp only [BlockTable.setTargets, List.foldlM_cons, hs] at h
      rw [ih h, getElem?_setTarget hs]
      by_cases hj : some j ∈ places <;> simp [hj, eq_comm]

/-- The actions that end the branch of a `DO`, whose target they become. -/
def branchEnds : List Action := [.keyword .elifKw, .keyword .elseKw, .keyword .doneKw]

section
variable {prog : Program} {ops : List Operation} {st st' : State} {op : Operation} {k : Nat}

/-- The target of the branch's `DO` is written where the branch ends. The other places that a `DONE`
writes to hold no `DO`, or get the same target. -/
theorem target_of_step (hop : op.place? = some k) (hat : prog[k]? = some op)
    (h : ∀ b ∈ st.blocks, ∃ start, b.Coherent prog start) (hact : op.action ∈ branchEnds)
    (hs : step prog st op = .ok st') :
    ∃ b bs i, st.blocks = b :: bs ∧ b.test = some i ∧ i < prog.length ∧
      st'.table.target? i = some k := by
  have hbranch (isElse : Bool) (hv : visit prog op st = takeBranch prog isElse op st)
      {kw : Keyword} (hkw : op.action = .keyword kw) : ∃ b bs i, st.blocks = b :: bs ∧
        b.test = some i ∧ i < prog.length ∧ st'.table.target? i = some k := by
    obtain ⟨b, bs, hb, -, helse, hawaits, -, hset⟩ :=
      step_branch_inv (m := ⟨op, hkw⟩) isElse hv hs
    obtain ⟨start, hco⟩ := h b (by simp [hb])
    obtain ⟨i, htest⟩ := hco.exists_test hawaits helse
    refine ⟨b, bs, i, hb, htest, (hco.test i htest).1.lt, ?_⟩
    change st'.table.targets[i]?.join = some k
    rw [getElem?_setTarget hset, if_pos htest]
    exact hop
  simp only [branchEnds, List.mem_cons, List.not_mem_nil, or_false] at hact
  rcases hact with hact | hact | hact
  · exact hbranch false (by simp [visit, hact]) hact
  · exact hbranch true (by simp [visit, hact]) hact
  · obtain ⟨b, hb, hloop, hawaits, ⟨t₁, t₂, h1, h2, h3⟩, -⟩ := step_done_inv (m := ⟨op, hact⟩) hs
    obtain ⟨start, hco⟩ := h b (by simp [hb])
    have helse : b.sawElse = false := by
      rw [Bool.eq_false_iff]
      intro he
      exact absurd (hloop.symm.trans (hco.sawElse he)) (by decide)
    obtain ⟨i, htest⟩ := hco.exists_test hawaits helse
    have hstands := (hco.test i htest).1
    have hne : op.place? ≠ some i := by
      intro hi
      obtain rfl : k = i := Option.some.inj (hop.symm.trans hi)
      rw [Keyword.StandsAt, hat, Option.map_some, hact] at hstands
      cases hstands
    refine ⟨b, st'.blocks, i, hb, htest, hstands.lt, ?_⟩
    change st'.table.targets[i]?.join = some k
    rw [getElem?_setTargets h3, getElem?_setTarget h2, if_neg hne, getElem?_setTarget h1,
      if_pos htest, ite_self]
    exact hop

end

/-- **The resolver keeps its open blocks coherent and stays in its table**, on every program whose
indices are its positions, however its blocks are nested. Whenever it has taken some of the
operations, each open block is coherent. When it fails at the next operation, it does so for an error
at that operation: it has used no place outside the table or the program, and has not found that an
opener has a `DO` already. When it takes an `ELIF`, an `ELSE` or a `DONE`, the branch that ends there
has a `DO`, and that is given its target. So a whole program is refused for an error at one of its
operations. -/
theorem open_blocks_coherent {prog : Program} (hi : prog.Indexed) :
    (∀ (ops : List Operation) (st : State), ops <+: prog → run prog (start prog) ops = .ok st →
      (∀ b ∈ st.blocks, ∃ start, b.Coherent prog start) ∧
      ∀ op, prog[ops.length]? = some op →
        (∀ f, step prog st op = .error f → RefusedAt op f) ∧
        ∀ st', step prog st op = .ok st' → op.action ∈ branchEnds →
          ∃ b bs i, st.blocks = b :: bs ∧ b.test = some i ∧ i < prog.length ∧
            st'.table.target? i = some ops.length) ∧
    ∀ f, resolve prog = .error f → ∃ op ∈ prog, RefusedAt op f := by
  have htracks (ops : List Operation) (st : State) (hops : ops <+: prog)
      (hr : run prog (start prog) ops = .ok st) : Tracks prog ops st :=
    tracks_run hi (tracks_start prog) hops hr
  constructor
  · intro ops st hops hr
    have h := htracks ops st hops hr
    refine ⟨h.coherent, fun op hat => ⟨fun f hf => ?_, fun st' hs hact => ?_⟩⟩
    · exact h.refused_step (hi.placed (List.mem_of_getElem? hat)) hf
    · exact target_of_step (place?_of_indexed hi hat) hat h.coherent hact hs
  · intro f hf
    unfold resolve at hf
    split at hf
    · rename_i f' hrun
      obtain rfl := Except.error.inj hf
      obtain ⟨done, op, rest, st₁, hprog, hdone, hstep⟩ := exists_of_run_error hrun
      have hmem : op ∈ prog := by simp [hprog]
      exact ⟨op, hmem, (htracks done st₁ ⟨_, hprog.symm⟩ hdone).refused_step (hi.placed hmem) hstep⟩
    · rename_i st hrun
      split at hf
      · cases hf
      · rename_i b bs hbs
        obtain ⟨start, hco⟩ := (htracks prog st (List.prefix_refl _) hrun).coherent b (by simp [hbs])
        obtain ⟨opener, hmem, hat⟩ := operationAt_of_placeBelow ⟨start, rfl, hco.opener.lt⟩
        simp only [hco.starts, hat] at hf
        exact ⟨opener, hmem, _, (Except.error.inj hf).symm, by simp⟩

/-- A loop whose `DONE` comes in a branch of a conditional that is still open. -/
def crossing : Program := Program.ofActions
  [.keyword .whileKw, .keyword .doKw, .keyword .ifKw, .keyword .doKw, .keyword .breakKw,
    .keyword .elifKw, .keyword .doKw, .keyword .doneKw]

theorem open_blocks_coherent_crossing : crossing.Indexed ∧ ∃ st f,
    run crossing (start crossing) (crossing.take 7) = .ok st ∧
    st.blocks = [⟨some 2, false, none, some 6, false, [some 5]⟩,
      ⟨some 0, true, none, some 1, false, [some 4]⟩] ∧
    (∀ b ∈ st.blocks, ∃ start, b.Coherent crossing start) ∧
    resolve crossing = .error f ∧ ∃ op ∈ crossing, RefusedAt op f := by
  have hi : crossing.Indexed := by decide
  obtain ⟨hmoments, hrefused⟩ := open_blocks_coherent hi
  exact ⟨hi, _, _, rfl, rfl, (hmoments _ _ (List.take_prefix 7 _) rfl).1, rfl, hrefused _ rfl⟩

end Blocks

end StackLang
