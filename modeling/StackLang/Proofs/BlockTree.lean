import StackLang.Blocks

/-!
# Block trees

The shape of a well-formed program: a sequence of items, each a plain operation, a conditional with
its chain of branches, a loop, or, inside a loop, a `BREAK`. A tree holds the operations themselves,
so `Code.flatten` gives back the program.

- `Code`, `Chain`: the grammar. The conditions of branches hold plain operations only, and the flag
  of a sequence says whether it lies in the body of a loop, where alone a `BREAK` may stand.
- `Code.flatten_inj`: a program has one tree at most.
- `Code.openers`, `Code.targets`: which operations of a tree belong together, by its shape alone.
-/

set_option autoImplicit false

namespace StackLang

/-- **Indices are positions**, as in every program made from tokens. -/
def Program.Indexed (prog : Program) : Prop :=
  ∀ (i : Nat) (op : Operation), prog[i]? = some op → op.index = i

theorem Program.indexed_iff {prog : Program} :
    prog.Indexed ↔ ∀ i : Fin prog.length, (prog.get i).index = i.val := by
  constructor
  · intro h i
    exact h i.val _ (List.getElem?_eq_getElem i.isLt)
  · intro h i op hop
    obtain ⟨hlt, rfl⟩ := List.getElem?_eq_some_iff.1 hop
    exact h ⟨i, hlt⟩

instance (prog : Program) : Decidable prog.Indexed :=
  decidable_of_iff _ Program.indexed_iff.symm

/-- The actions as a program without a source. -/
def Program.ofActions (actions : List Action) : Program :=
  actions.mapIdx fun i a => ⟨i, a, ⟨.word, [], ⟨[], 0, 0⟩⟩⟩

/-- A loop with a chain of branches in it, one of which leaves the loop. -/
def leavingLoop : Program := Program.ofActions
  [.pushInt, .keyword .whileKw, .primitive .dup, .keyword .doKw, .keyword .ifKw, .keyword .doKw,
    .keyword .breakKw, .keyword .elifKw, .pushInt, .keyword .doKw, .keyword .elseKw,
    .primitive .drop, .keyword .endifKw, .keyword .doneKw]

namespace BlockTree

/-- An operation with the given keyword. -/
abbrev Mark (k : Keyword) := { op : Operation // op.action = .keyword k }

/-- An operation that takes no part in the block structure. -/
abbrev Plain := { op : Operation // op.action.isStructural = false }

/-- The start of a branch: its opener, its condition and its `DO`. -/
structure Head (k : Keyword) where
  opener : Mark k
  condition : List Plain
  test : Mark .doKw

/-- The operations of a branch's start. -/
def Head.ops {k : Keyword} (h : Head k) : List Operation :=
  h.opener.1 :: (h.condition.map (·.1) ++ [h.test.1])

mutual

/-- A sequence of items; the flag says whether it lies in the body of a loop. -/
inductive Code : Bool → Type
  | nil {inLoop : Bool} : Code inLoop
  | plain {inLoop : Bool} (op : Plain) (rest : Code inLoop) : Code inLoop
  /-- A `BREAK`. -/
  | leave (op : Mark .breakKw) (rest : Code true) : Code true
  | cond {inLoop : Bool} (head : Head .ifKw) (body : Code inLoop) (chain : Chain inLoop)
      (rest : Code inLoop) : Code inLoop
  | loop {inLoop : Bool} (head : Head .whileKw) (body : Code true) (done : Mark .doneKw)
      (rest : Code inLoop) : Code inLoop

/-- What follows a branch of a conditional. -/
inductive Chain : Bool → Type
  | close {inLoop : Bool} (endif : Mark .endifKw) : Chain inLoop
  | otherwise {inLoop : Bool} (op : Mark .elseKw) (body : Code inLoop) (endif : Mark .endifKw) :
      Chain inLoop
  | elif {inLoop : Bool} (head : Head .elifKw) (body : Code inLoop) (chain : Chain inLoop) :
      Chain inLoop

end

/-- Induction along the branches of a chain; their bodies are left as they are. -/
theorem Chain.induct {motive : (l : Bool) → Chain l → Prop}
    (close : ∀ {l : Bool} (endif : Mark .endifKw), motive l (.close endif))
    (otherwise : ∀ {l : Bool} (op : Mark .elseKw) (body : Code l) (endif : Mark .endifKw),
      motive l (.otherwise op body endif))
    (elif : ∀ {l : Bool} (head : Head .elifKw) (body : Code l) (chain : Chain l),
      motive l chain → motive l (.elif head body chain)) {l : Bool} (chain : Chain l) :
    motive l chain :=
  @Chain.rec (fun _ _ => True) motive trivial (fun _ _ _ => trivial) (fun _ _ _ => trivial)
    (fun _ _ _ _ _ _ _ => trivial) (fun _ _ _ _ _ _ => trivial) close
    (fun op body endif _ => otherwise op body endif)
    (fun head body chain _ h => elif head body chain h) l chain

mutual

/-- The operations of a sequence in order. -/
def Code.flatten {l : Bool} : Code l → List Operation
  | .nil => []
  | .plain op rest => op.1 :: rest.flatten
  | .leave op rest => op.1 :: rest.flatten
  | .cond head body chain rest => head.ops ++ (body.flatten ++ (chain.flatten ++ rest.flatten))
  | .loop head body done rest => head.ops ++ (body.flatten ++ done.1 :: rest.flatten)

/-- The operations of a chain in order. -/
def Chain.flatten {l : Bool} : Chain l → List Operation
  | .close endif => [endif.1]
  | .otherwise op body endif => op.1 :: (body.flatten ++ [endif.1])
  | .elif head body chain => head.ops ++ (body.flatten ++ chain.flatten)

end

/-- The `ENDIF` of a chain. -/
def Chain.endif {l : Bool} : Chain l → Operation
  | .close endif => endif.1
  | .otherwise _ _ endif => endif.1
  | .elif _ _ chain => chain.endif

/-- The operation that a chain starts with: where control goes when the test before it fails. -/
def Chain.first {l : Bool} : Chain l → Operation
  | .close endif => endif.1
  | .otherwise op _ _ => op.1
  | .elif head _ _ => head.opener.1

/-! ## Partners -/

/-- An operation with the one it is tied to. -/
abbrev Link := Operation × Operation

mutual

/-- Each `DO` of a sequence with its opener, in order. -/
def Code.openers {l : Bool} : Code l → List Link
  | .nil => []
  | .plain _ rest => rest.openers
  | .leave _ rest => rest.openers
  | .cond head body chain rest =>
    (head.test.1, head.opener.1) :: (body.openers ++ (chain.openers ++ rest.openers))
  | .loop head body _ rest =>
    (head.test.1, head.opener.1) :: (body.openers ++ rest.openers)

/-- Each `DO` of a chain with its opener, in order. -/
def Chain.openers {l : Bool} : Chain l → List Link
  | .close _ => []
  | .otherwise _ body _ => body.openers
  | .elif head body chain =>
    (head.test.1, head.opener.1) :: (body.openers ++ chain.openers)

end

mutual

/-- Where control goes from the structural operations of a sequence, in their order; `exit` is the
`DONE` of the innermost loop around it. A `DO` goes to the operation after its branch, a `WHILE` and
its `DONE` to each other, a `BREAK` to the exit. -/
def Code.targets {l : Bool} (exit : Option Operation) : Code l → List Link
  | .nil => []
  | .plain _ rest => rest.targets exit
  | .leave op rest => exit.toList.map (op.1, ·) ++ rest.targets exit
  | .cond head body chain rest =>
    (head.test.1, chain.first)
      :: (body.targets exit ++ (chain.targets exit ++ rest.targets exit))
  | .loop head body done rest =>
    (head.opener.1, done.1) :: (head.test.1, done.1)
      :: (body.targets (some done.1) ++ (done.1, head.opener.1) :: rest.targets exit)

/-- Where control goes from the structural operations of a chain, in their order. An `ELIF` and an
`ELSE`, reached from the branch before them, go to the `ENDIF`. -/
def Chain.targets {l : Bool} (exit : Option Operation) : Chain l → List Link
  | .close _ => []
  | .otherwise op body endif => (op.1, endif.1) :: body.targets exit
  | .elif head body chain =>
    (head.opener.1, chain.endif) :: (head.test.1, chain.first)
      :: (body.targets exit ++ chain.targets exit)

end

/-! ## One tree for a program -/

theorem mark_ne {k k' : Keyword} (a : Mark k) (b : Mark k') (h : k ≠ k') : a.1 ≠ b.1 := by
  intro he
  have := a.2
  rw [he, b.2] at this
  simp only [Action.keyword.injEq] at this
  exact h this.symm

theorem plain_ne_mark {k : Keyword} (p : Plain) (m : Mark k) : p.1 ≠ m.1 := by
  intro he
  have := p.2
  rw [he, m.2] at this
  simp [Action.isStructural] at this

theorem mark_ne_plain {k : Keyword} (p : Plain) (m : Mark k) : m.1 ≠ p.1 :=
  (plain_ne_mark p m).symm

/-- The keywords that end a sequence. -/
def closers : List Action :=
  [.keyword .elifKw, .keyword .elseKw, .keyword .endifKw, .keyword .doneKw]

/-- Nothing follows, or an operation that ends a sequence. -/
def Stops (r : List Operation) : Prop := ∀ op ∈ r.head?, op.action ∈ closers

theorem stops_nil : Stops [] := by simp [Stops]

theorem stops_mark {k : Keyword} (m : Mark k) (r : List Operation)
    (h : .keyword k ∈ closers) : Stops (m.1 :: r) := by
  simpa [Stops, m.2] using h

theorem not_stops_mark {k : Keyword} (m : Mark k) (r : List Operation)
    (h : .keyword k ∉ closers) : ¬ Stops (m.1 :: r) := by
  simpa [Stops, m.2] using h

theorem not_stops_plain (p : Plain) (r : List Operation) : ¬ Stops (p.1 :: r) := by
  intro h
  have hs := p.2
  have := h p.1 rfl
  simp only [closers, List.mem_cons, List.not_mem_nil, or_false] at this
  rcases this with h | h | h | h <;> simp [h, Action.isStructural] at hs

theorem Chain.stops_flatten {l : Bool} (chain : Chain l) (r : List Operation) :
    Stops (chain.flatten ++ r) := by
  cases chain with
  | close endif => exact stops_mark endif _ (by decide)
  | otherwise op body endif => exact stops_mark op _ (by decide)
  | elif head body chain => exact stops_mark head.opener _ (by decide)

/-- A condition ends at its `DO`. -/
theorem condition_append_inj {ps ps' : List Plain} {t t' : Mark .doKw} {r r' : List Operation}
    (h : ps.map (·.1) ++ t.1 :: r = ps'.map (·.1) ++ t'.1 :: r') : ps = ps' ∧ t = t' ∧ r = r' := by
  induction ps generalizing ps' with
  | nil =>
    cases ps' with
    | nil =>
      simp only [List.map_nil, List.nil_append, List.cons.injEq] at h
      exact ⟨rfl, Subtype.ext h.1, h.2⟩
    | cons p' ps' =>
      simp only [List.map_nil, List.nil_append, List.map_cons, List.cons_append,
        List.cons.injEq] at h
      exact absurd h.1 (mark_ne_plain p' t)
  | cons p ps ih =>
    cases ps' with
    | nil =>
      simp only [List.map_nil, List.nil_append, List.map_cons, List.cons_append,
        List.cons.injEq] at h
      exact absurd h.1 (plain_ne_mark p t')
    | cons p' ps' =>
      simp only [List.map_cons, List.cons_append, List.cons.injEq] at h
      obtain ⟨rfl, ht, hr⟩ := ih h.2
      exact ⟨by rw [Subtype.ext h.1], ht, hr⟩

theorem Head.append_inj {k : Keyword} {h h' : Head k} {r r' : List Operation}
    (he : h.ops ++ r = h'.ops ++ r') : h = h' ∧ r = r' := by
  obtain ⟨o, c, t⟩ := h
  obtain ⟨o', c', t'⟩ := h'
  simp only [Head.ops, List.cons_append, List.append_assoc, List.cons.injEq, List.nil_append] at he
  obtain ⟨rfl, rfl, hr⟩ := condition_append_inj he.2
  exact ⟨by rw [Subtype.ext he.1], hr⟩

/-- Only the empty sequence is followed at once by what ends one. -/
theorem Code.eq_nil_of_stops {l : Bool} {c : Code l} {r : List Operation}
    (h : Stops (c.flatten ++ r)) : c = .nil := by
  cases c with
  | nil => rfl
  | plain p rest => exact absurd h (not_stops_plain p _)
  | leave m rest => exact absurd h (not_stops_mark m _ (by decide))
  | cond hd body chain rest => exact absurd h (not_stops_mark hd.opener _ (by decide))
  | loop hd body done rest => exact absurd h (not_stops_mark hd.opener _ (by decide))

mutual

/-- A sequence and what follows it can be told apart. -/
theorem Code.append_inj {l : Bool} (c c' : Code l) {r r' : List Operation} (hr : Stops r)
    (hr' : Stops r') (h : c.flatten ++ r = c'.flatten ++ r') : c = c' ∧ r = r' := by
  match c, c' with
  | .nil, c' =>
    have hc : c' = .nil := Code.eq_nil_of_stops (h ▸ hr : Stops (c'.flatten ++ r'))
    subst hc
    exact ⟨rfl, h⟩
  | c, .nil =>
    have hc : c = .nil := Code.eq_nil_of_stops (h ▸ hr' : Stops (c.flatten ++ r))
    subst hc
    exact ⟨rfl, h⟩
  | .plain p rest, .plain p' rest' =>
    simp only [Code.flatten, List.cons_append, List.cons.injEq] at h
    obtain ⟨rfl, h2⟩ := Code.append_inj rest rest' hr hr' h.2
    exact ⟨by rw [Subtype.ext h.1], h2⟩
  | .leave m rest, .leave m' rest' =>
    simp only [Code.flatten, List.cons_append, List.cons.injEq] at h
    obtain ⟨rfl, h2⟩ := Code.append_inj rest rest' hr hr' h.2
    exact ⟨by rw [Subtype.ext h.1], h2⟩
  | .cond hd body chain rest, .cond hd' body' chain' rest' =>
    simp only [Code.flatten, List.append_assoc] at h
    obtain ⟨rfl, h1⟩ := Head.append_inj h
    obtain ⟨rfl, h2⟩ := Code.append_inj body body' (chain.stops_flatten _)
      (chain'.stops_flatten _) h1
    obtain ⟨rfl, h3⟩ := Chain.append_inj chain chain' h2
    obtain ⟨rfl, h4⟩ := Code.append_inj rest rest' hr hr' h3
    exact ⟨rfl, h4⟩
  | .loop hd body done rest, .loop hd' body' done' rest' =>
    simp only [Code.flatten, List.append_assoc, List.cons_append] at h
    obtain ⟨rfl, h1⟩ := Head.append_inj h
    obtain ⟨rfl, h2⟩ := Code.append_inj body body' (stops_mark done _ (by decide))
      (stops_mark done' _ (by decide)) h1
    simp only [List.cons.injEq] at h2
    obtain ⟨rfl, h3⟩ := Code.append_inj rest rest' hr hr' h2.2
    exact ⟨by rw [Subtype.ext h2.1], h3⟩
  | .plain p _, .leave m _ => exact absurd (List.cons.inj h).1 (plain_ne_mark p m)
  | .plain p _, .cond hd _ _ _ => exact absurd (List.cons.inj h).1 (plain_ne_mark p hd.opener)
  | .plain p _, .loop hd _ _ _ => exact absurd (List.cons.inj h).1 (plain_ne_mark p hd.opener)
  | .leave m _, .plain p _ => exact absurd (List.cons.inj h).1 (mark_ne_plain p m)
  | .leave m _, .cond hd _ _ _ =>
    exact absurd (List.cons.inj h).1 (mark_ne m hd.opener (by decide))
  | .leave m _, .loop hd _ _ _ =>
    exact absurd (List.cons.inj h).1 (mark_ne m hd.opener (by decide))
  | .cond hd _ _ _, .plain p _ => exact absurd (List.cons.inj h).1 (mark_ne_plain p hd.opener)
  | .cond hd _ _ _, .leave m _ =>
    exact absurd (List.cons.inj h).1 (mark_ne hd.opener m (by decide))
  | .cond hd _ _ _, .loop hd' _ _ _ =>
    exact absurd (List.cons.inj h).1 (mark_ne hd.opener hd'.opener (by decide))
  | .loop hd _ _ _, .plain p _ => exact absurd (List.cons.inj h).1 (mark_ne_plain p hd.opener)
  | .loop hd _ _ _, .leave m _ =>
    exact absurd (List.cons.inj h).1 (mark_ne hd.opener m (by decide))
  | .loop hd _ _ _, .cond hd' _ _ _ =>
    exact absurd (List.cons.inj h).1 (mark_ne hd.opener hd'.opener (by decide))

/-- A chain and what follows it can be told apart. -/
theorem Chain.append_inj {l : Bool} (c c' : Chain l) {r r' : List Operation}
    (h : c.flatten ++ r = c'.flatten ++ r') : c = c' ∧ r = r' := by
  match c, c' with
  | .close m, .close m' =>
    simp only [Chain.flatten, List.cons_append, List.nil_append, List.cons.injEq] at h
    exact ⟨by rw [Subtype.ext h.1], h.2⟩
  | .otherwise op body endif, .otherwise op' body' endif' =>
    simp only [Chain.flatten, List.cons_append, List.nil_append, List.append_assoc,
      List.cons.injEq] at h
    obtain ⟨rfl, h2⟩ := Code.append_inj body body' (stops_mark endif _ (by decide))
      (stops_mark endif' _ (by decide)) h.2
    simp only [List.cons.injEq] at h2
    exact ⟨by rw [Subtype.ext h.1, Subtype.ext h2.1], h2.2⟩
  | .elif hd body chain, .elif hd' body' chain' =>
    simp only [Chain.flatten, List.append_assoc] at h
    obtain ⟨rfl, h1⟩ := Head.append_inj h
    obtain ⟨rfl, h2⟩ := Code.append_inj body body' (chain.stops_flatten _)
      (chain'.stops_flatten _) h1
    obtain ⟨rfl, h3⟩ := Chain.append_inj chain chain' h2
    exact ⟨rfl, h3⟩
  | .close m, .otherwise op _ _ => exact absurd (List.cons.inj h).1 (mark_ne m op (by decide))
  | .close m, .elif hd _ _ => exact absurd (List.cons.inj h).1 (mark_ne m hd.opener (by decide))
  | .otherwise op _ _, .close m => exact absurd (List.cons.inj h).1 (mark_ne op m (by decide))
  | .otherwise op _ _, .elif hd _ _ =>
    exact absurd (List.cons.inj h).1 (mark_ne op hd.opener (by decide))
  | .elif hd _ _, .close m => exact absurd (List.cons.inj h).1 (mark_ne hd.opener m (by decide))
  | .elif hd _ _, .otherwise op _ _ =>
    exact absurd (List.cons.inj h).1 (mark_ne hd.opener op (by decide))

end

/-- **A program has one tree at most.** -/
theorem Code.flatten_inj {l : Bool} {c c' : Code l} (h : c.flatten = c'.flatten) : c = c' :=
  (Code.append_inj c c' stops_nil stops_nil (by simpa using h)).1

end BlockTree

end StackLang
