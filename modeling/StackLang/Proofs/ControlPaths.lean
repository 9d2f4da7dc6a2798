import StackLang.Proofs.CheckSoundness

/-!
# The stack along the paths of control

The check goes through a program once, in the order of its operations, while control jumps. Control
comes to an operation in order or by a jump, with some number of values on the stack; the check has a
depth of its own at each place.

- `Reaches`: where control can come, and with how many values, by the block table alone.
- `Steady`: no jump leads to a place where the check has more values than where it leaves.
- `depthAt_le_of_reaches`: control has at least the values of the check, if the jumps on its way had.
- `Covered`, `advances_advance`: so has a run of a steady program, which runs out of operands nowhere
  but at a `GET_NTH`, whose index need not be the one that the check saw.
-/

set_option autoImplicit false

namespace StackLang.Check

open Machine BlockTree
open Source (Item)
open Codegen (written)

/-! ## The walk of the check -/

/-- The abstract stack before the operation at a place. -/
def stackAt (prog : Program) (i : Nat) : Stack :=
  match steps (prog.take i) [] with
  | .ok stack => stack
  | .error _ => []

/-- The depth that the check has before the operation at a place. -/
def depthAt (prog : Program) (i : Nat) : Nat := (stackAt prog i).length

/-- The number of values that an operation requires where it finds an abstract stack. A `GET_NTH` also
requires those down to the one that it picks. -/
def required (op : Operation) (stack : Stack) : Nat :=
  match op.action, stack with
  | .primitive .getNth, .int (some n) :: _ => n.toInt.toNat + 2
  | a, _ => (patterns a).length

theorem required_le {op : Operation} {stack next : Stack} (h : step op stack = .ok next) :
    required op stack ≤ stack.length := by
  unfold required
  split
  · rename_i n rest ha
    obtain ⟨-, vs, rest', hstack, -, ⟨-, index, v, rfl, hnth, -⟩ | ⟨hget, -⟩⟩ := step_cases h
    · obtain ⟨rfl, rfl⟩ := List.cons.inj hstack
      obtain ⟨m, hm, -, hentry⟩ := nth_ok hnth
      obtain rfl : n = m := by simpa using hm
      have hlt := (List.getElem?_eq_some_iff.1 hentry).1
      exact Nat.succ_le_succ hlt
    · exact absurd ha hget
  · exact (length_step h).1

section
variable {prog : Program} {final : Stack} (hs : steps prog [] = .ok final)
include hs

/-- The check takes one step at each place. -/
theorem step_stackAt {i : Nat} {op : Operation} (hop : prog[i]? = some op) :
    step op (stackAt prog i) = .ok (stackAt prog (i + 1)) := by
  obtain ⟨hlt, rfl⟩ := List.getElem?_eq_some_iff.1 hop
  have hsplit : steps prog [] = (steps (prog.take i) []).bind (steps (prog.drop i)) := by
    conv_lhs => rw [← List.take_append_drop i prog]
    exact List.foldlM_append
  rw [hs] at hsplit
  cases htake : steps (prog.take i) [] with
  | error e => simp [htake, Except.bind] at hsplit
  | ok stack =>
    rw [htake, List.drop_eq_getElem_cons hlt] at hsplit
    obtain ⟨next, hnext, -⟩ := steps_cons_ok hsplit.symm
    have htake' : steps (prog.take (i + 1)) [] = .ok next := by
      rw [List.take_succ_eq_append_getElem hlt, steps, List.foldlM_append]
      change (steps (prog.take i) []).bind _ = _
      simp [htake, Except.bind, hnext, bind, pure, Except.pure]
    simp only [stackAt, htake, htake']
    exact hnext

/-- The depths of the check before and after an operation. -/
theorem depthAt_succ {i : Nat} {op : Operation} (hop : prog[i]? = some op) :
    (patterns op.action).length ≤ depthAt prog i ∧
      depthAt prog (i + 1) + (patterns op.action).length = depthAt prog i + pushes op.action :=
  length_step (step_stackAt hs hop)

end

/-! ## Paths -/

/-- Where control is: the place of an operation, whether a jump led there, and the number of values on
the stack. -/
structure Spot where
  place : Nat
  landed : Bool
  depth : Nat

/-- Whether control can go from an operation to the target of it. An `ELIF`, an `ELSE` and a `DONE`
jump when control comes to them from the operation before. -/
def jumps (landed : Bool) : Action → Bool
  | .keyword .doKw | .keyword .breakKw => true
  | .keyword .elifKw | .keyword .elseKw | .keyword .doneKw => !landed
  | _ => false

theorem jumps_in_order {landed : Bool} {a : Action} (h : jumps landed a = true) :
    jumps false a = true := by
  unfold jumps at h ⊢
  split at h
  all_goals first | rfl | exact h

theorem jumps_chain {a : Action} (h : a ∈ [.keyword .elifKw, .keyword .elseKw]) :
    jumps false a = true := by
  simp only [List.mem_cons, List.not_mem_nil, or_false] at h
  rcases h with rfl | rfl <;> rfl

/-- Whether control can go from an operation to the next one. -/
def passes (landed : Bool) : Action → Bool
  | .keyword .breakKw => false
  | .keyword .elifKw | .keyword .elseKw | .keyword .doneKw => landed
  | _ => true

/-- The number of values that an operation takes before it jumps. -/
def popped : Action → Nat
  | .keyword .doKw => 2
  | _ => 0

/-- **Where control can come** from the start of a program, on jumps that land where `ok` holds. -/
inductive Reaches (prog : Program) (table : BlockTable) (ok : Spot → Prop) : Spot → Prop
  | start : Reaches prog table ok ⟨0, false, 0⟩
  | pass {s : Spot} {op : Operation} (h : Reaches prog table ok s) (hop : prog[s.place]? = some op)
      (hpass : passes s.landed op.action = true) : Reaches prog table ok
        ⟨s.place + 1, false, s.depth + pushes op.action - (patterns op.action).length⟩
  | jump {s : Spot} {op : Operation} {j : Nat} (h : Reaches prog table ok s)
      (hop : prog[s.place]? = some op) (hjump : jumps s.landed op.action = true)
      (ht : table.target? s.place = some j) (hok : ok ⟨j, true, s.depth - popped op.action⟩) :
      Reaches prog table ok ⟨j, true, s.depth - popped op.action⟩

/-- There are at least as many values as the check has. -/
def Spot.Backed (prog : Program) (s : Spot) : Prop := depthAt prog s.place ≤ s.depth

/-- **No jump gains values**: the check has at the target of a jump at most what is left at the jump. -/
def Steady (prog : Program) (table : BlockTable) : Prop :=
  ∀ (i j : Nat) (op : Operation), prog[i]? = some op → jumps false op.action = true →
    table.target? i = some j → depthAt prog j + popped op.action ≤ depthAt prog i

theorem steady_iff {prog : Program} {table : BlockTable} :
    Steady prog table ↔ ∀ i : Fin prog.length, jumps false (prog.get i).action = true →
      ∀ j ∈ table.target? i.val, depthAt prog j + popped (prog.get i).action ≤ depthAt prog i := by
  constructor
  · intro h i hjump j hj
    exact h i j _ (List.getElem?_eq_getElem i.isLt) hjump hj
  · intro h i j op hop hjump hj
    obtain ⟨hlt, rfl⟩ := List.getElem?_eq_some_iff.1 hop
    exact h ⟨i, hlt⟩ hjump j hj

instance (prog : Program) (table : BlockTable) : Decidable (Steady prog table) :=
  decidable_of_iff _ steady_iff.symm

section
variable {prog : Program} {table : BlockTable} {final : Stack} (hs : steps prog [] = .ok final)
  {s : Spot}
include hs

/-- One operation in order. -/
theorem Spot.Backed.pass {op : Operation} (h : s.Backed prog) (hop : prog[s.place]? = some op) :
    Spot.Backed prog ⟨s.place + 1, false, s.depth + pushes op.action - (patterns op.action).length⟩ := by
  have hdepth := depthAt_succ hs hop
  unfold Spot.Backed at h ⊢
  dsimp only
  omega

/-- **Control has the values of the check** if it had them wherever it jumped to. -/
theorem depthAt_le_of_reaches (h : Reaches prog table (Spot.Backed prog) s) : s.Backed prog := by
  induction h with
  | start => exact Nat.le_refl 0
  | pass _ hop _ ih => exact ih.pass hs hop
  | jump _ _ _ _ hok _ => exact hok

/-- In a steady program every jump lands so. -/
theorem reaches_of_steady (hst : Steady prog table) (h : Reaches prog table (fun _ => True) s) :
    Reaches prog table (Spot.Backed prog) s := by
  induction h with
  | start => exact .start
  | pass _ hop hpass ih => exact ih.pass hop hpass
  | jump _ hop hjump ht _ ih =>
    refine ih.jump hop hjump ht ?_
    have hback := depthAt_le_of_reaches hs ih
    have hle := hst _ _ _ hop (jumps_in_order hjump) ht
    unfold Spot.Backed at hback ⊢
    dsimp only
    omega

theorem required_le_depth {op : Operation} (h : s.Backed prog) (hop : prog[s.place]? = some op) :
    required op (stackAt prog s.place) ≤ s.depth :=
  (required_le (step_stackAt hs hop)).trans h

end

/-! ## Operations that are run -/

/-- So many values are on the stack after an operation, if it has not ended the run. -/
def Leaves (n : Nat) : Outcome Source.State → Prop
  | .running st => st.stack.length = n
  | .ended | .faulted => True
  | .failed => False

theorem exists_cons {α : Type} {n : Nat} {l : List α} (h : n + 1 ≤ l.length) :
    ∃ a as, l = a :: as ∧ n ≤ as.length := by
  cases l with
  | nil => cases h
  | cons a as => exact ⟨a, as, rfl, Nat.le_of_succ_le_succ h⟩

section
variable {w : World} {st : Source.State}

theorem leaves_call {calls n : Nat} {f : Word → List Word} (h : ∀ v, (f v).length = n) :
    Leaves n (Source.call w calls f) := by
  unfold Source.call
  split
  · trivial
  · exact h _

theorem leaves_divide {a b : Word} {calls n : Nat} {f : Word → Word → List Word}
    (h : ∀ q r, (f q r).length = n) : Leaves n (Source.divide a b calls f) := by
  unfold Source.divide
  split
  · trivial
  · exact h _ _

/-- **Primitives**, but for the one that picks an entry, need no more than the check says. -/
theorem leaves_primitive {p : Primitive} {index : Int} (hp : p ≠ .getNth)
    (hknown : isUnknown (.primitive p) = false)
    (h : (patterns (.primitive p)).length ≤ st.stack.length) :
    Leaves (st.stack.length + pushes (.primitive p) - (patterns (.primitive p)).length)
      (Source.primitive w index p st) := by
  obtain ⟨stack, calls⟩ := st
  cases p with
  | plus | minus | mul | pow | eq | ne | gt | ge | lt | le | and | or =>
    obtain ⟨b, _, rfl, h'⟩ := exists_cons h
    obtain ⟨a, rest, rfl, -⟩ := exists_cons h'
    exact rfl
  | div | mod | divmod =>
    obtain ⟨b, _, rfl, h'⟩ := exists_cons h
    obtain ⟨a, rest, rfl, -⟩ := exists_cons h'
    exact leaves_divide fun _ _ => rfl
  | dup | drop =>
    obtain ⟨a, rest, rfl, -⟩ := exists_cons h
    exact rfl
  | dup2 | «over» | swap =>
    obtain ⟨b, _, rfl, h'⟩ := exists_cons h
    obtain ⟨a, rest, rfl, -⟩ := exists_cons h'
    exact rfl
  | rot =>
    obtain ⟨c, _, rfl, h'⟩ := exists_cons h
    obtain ⟨b, _, rfl, h''⟩ := exists_cons h'
    obtain ⟨a, rest, rfl, -⟩ := exists_cons h''
    exact rfl
  | swap2 =>
    obtain ⟨d, _, rfl, h1⟩ := exists_cons h
    obtain ⟨c, _, rfl, h2⟩ := exists_cons h1
    obtain ⟨b, _, rfl, h3⟩ := exists_cons h2
    obtain ⟨a, rest, rfl, -⟩ := exists_cons h3
    exact rfl
  | printInt =>
    obtain ⟨a, rest, rfl, -⟩ := exists_cons h
    exact leaves_call fun _ => rfl
  | puts =>
    obtain ⟨b, _, rfl, h'⟩ := exists_cons h
    obtain ⟨a, rest, rfl, -⟩ := exists_cons h'
    exact leaves_call fun _ => rfl
  | input => exact leaves_call fun _ => rfl
  | exit =>
    obtain ⟨a, rest, rfl, -⟩ := exists_cons h
    trivial
  | argc | argv => exact rfl
  | syscall args =>
    obtain ⟨number, rest, rfl, h'⟩ := exists_cons h
    rw [List.length_replicate] at h'
    simp only [Source.primitive, if_neg (Nat.not_lt.2 h')]
    split
    · trivial
    · refine leaves_call fun _ => ?_
      simp only [List.length_cons, List.length_drop, patterns, pushes, List.length_replicate]
      omega
  | getNth => exact absurd rfl hp
  | unassigned code => cases hknown

/-- A plain operation that the check accepts on some stack. -/
theorem leaves_plain {op : Operation} {stack next : Stack} (hplain : op.action.isStructural = false)
    (hget : op.action ≠ .primitive .getNth) (hstep : step op stack = .ok next)
    (h : stack.length ≤ st.stack.length) :
    Leaves (st.stack.length + pushes op.action - (patterns op.action).length)
      (Source.plain w op st) := by
  have hle := (length_step hstep).1.trans h
  obtain ⟨hknown, vs, rest, -, -, ⟨hpick, -⟩ | ⟨-, rs, hr, -⟩⟩ := step_cases hstep
  · exact absurd hpick hget
  unfold Source.plain
  unfold results at hr
  cases ha : op.action with
  | keyword k =>
    rw [ha] at hplain
    cases hplain
  | unassigned code =>
    rw [ha] at hknown
    cases hknown
  | primitive p =>
    rw [ha] at hle hget hknown
    exact leaves_primitive (fun hp => hget (congrArg _ hp)) hknown hle
  | pushInt | pushCString | pushArray => exact rfl
  | pushString =>
    rw [ha] at hr
    cases hbytes : Literal.unquote op.token.text with
    | error e => simp [hbytes] at hr
    | ok bytes => exact rfl

end

/-! ## Runs -/

/-- Whether an item lies in the body of a loop that is under way. -/
def inLoop : Item → Bool
  | .code (l := l) _ | .test (l := l) _ _ _ | .pass (l := l) _ => l
  | .plain _ | .guard _ _ _ | .again _ _ _ => false

/-- What lies in the body of a loop is followed by the end of one. -/
def Nested : List Item → Prop
  | [] => True
  | i :: work => (inLoop i = true → (Source.innermost work).isSome = true) ∧ Nested work

theorem Nested.cons {i : Item} {work : List Item} (hi : inLoop i = false) (h : Nested work) :
    Nested (i :: work) :=
  ⟨fun hin => absurd (hi.symm.trans hin) Bool.false_ne_true, h⟩

theorem Nested.plains {work : List Item} (h : Nested work) (ps : List Plain) :
    Nested (ps.map Item.plain ++ work) := by
  induction ps with
  | nil => exact h
  | cons p ps ih => exact .cons rfl ih

theorem Nested.behind {work rest : List Item} {done : Operation}
    (hin : Source.innermost work = some (done, rest)) (h : Nested work) : Nested rest := by
  induction work with
  | nil => cases hin
  | cons i work ih =>
    cases i with
    | again head body d =>
      obtain ⟨-, rfl⟩ := Prod.mk.inj (Option.some.inj hin)
      exact h.2
    | _ => exact ih hin h.2

/-- A run has at least the values of the check where it goes on. -/
def Covered (c : Code false) (cfg : Source.Config) : Prop :=
  ∃ before, c.flatten = before ++ cfg.work.flatMap opsOf ∧ Anchored c cfg.work ∧ Nested cfg.work ∧
    depthAt c.flatten before.length ≤ cfg.state.stack.length

/-- A step goes on covered, or runs out of operands at a `GET_NTH`. -/
def Advances (c : Code false) : List Visit × Outcome Source.Config → Prop
  | (_, .running cfg) => Covered c cfg
  | (shown, .failed) => ∃ op ∈ c.flatten, op.action = .primitive .getNth ∧
      ∃ st, shown.getLast? = some (Source.visit op st)
  | _ => True

section
variable {w : World} {c : Code false} {table : BlockTable} {final : Stack}
  (hs : steps c.flatten [] = .ok final) {before : List Operation} {work : List Item}
  {st : Source.State}

theorem getElem?_length {prog after : List Operation} {op : Operation}
    (hp : prog = before ++ op :: after) : prog[before.length]? = some op := by
  rw [hp]
  simp

/-- Goes on with what is left on the stack. -/
theorem advances_proceed {n : Nat} {o : Outcome Source.State} (shown : List Visit)
    (hp : c.flatten = before ++ work.flatMap opsOf) (ha : Anchored c work) (hn : Nested work)
    (h : depthAt c.flatten before.length ≤ n) (ho : Leaves n o) :
    Advances c (shown, Source.proceed work o) := by
  cases o with
  | running st =>
    obtain rfl : st.stack.length = n := ho
    exact ⟨before, hp, ha, hn, h⟩
  | ended | faulted => trivial
  | failed => exact ho.elim

include hs

theorem advances_plain {op : Plain} (hp : c.flatten = before ++ op.1 :: work.flatMap opsOf)
    (ha : Anchored c work) (hn : Nested work)
    (h : depthAt c.flatten before.length ≤ st.stack.length) :
    Advances c ([Source.visit op.1 st], Source.proceed work (Source.plain w op.1 st)) := by
  have hop := getElem?_length hp
  have hdepth := depthAt_succ hs hop
  have hnext : c.flatten = (before ++ [op.1]) ++ work.flatMap opsOf := by simpa using hp
  by_cases hget : op.1.action = .primitive .getNth
  · have hnet : pushes op.1.action = 1 ∧ (patterns op.1.action).length = 1 := by
      rw [hget]
      exact ⟨rfl, rfl⟩
    obtain ⟨stack, calls⟩ := st
    dsimp only at h
    obtain ⟨n, rest, rfl, hle⟩ := exists_cons (hnet.2 ▸ hdepth.1.trans h)
    simp only [Source.plain, hget, Source.primitive, Source.rearrange]
    cases hentry : rest[n.toNat]? with
    | none => exact ⟨op.1, List.mem_of_getElem? hop, hget, _, rfl⟩
    | some v =>
      refine ⟨before ++ [op.1], hnext, ha, hn, ?_⟩
      rw [List.length_append, List.length_singleton]
      simp only [List.length_cons] at h ⊢
      omega
  · refine advances_proceed _ hnext ha hn ?_ (leaves_plain op.2 hget (step_stackAt hs hop) h)
    rw [List.length_append, List.length_singleton]
    omega

/-- An opener duplicates the top of the stack. -/
theorem advances_condition {k : Keyword} {head : Head k}
    (hk : patterns (.keyword k) = [.any] ∧ pushes (.keyword k) = 2) (shown : List Visit)
    (hp : c.flatten = before ++ head.opener.1 :: (head.condition.map (·.1) ++ work.flatMap opsOf))
    (ha : Anchored c work) (hn : Nested work)
    (h : depthAt c.flatten before.length ≤ st.stack.length) :
    Advances c (shown, Source.proceed (Source.condition head ++ work) (Source.duplicate st)) := by
  have hdepth := depthAt_succ hs (getElem?_length hp)
  rw [head.opener.2, hk.1, hk.2] at hdepth
  obtain ⟨stack, calls⟩ := st
  obtain ⟨a, rest, rfl, -⟩ := exists_cons (hdepth.1.trans h)
  refine ⟨before ++ [head.opener.1], ?_, ha.plains head.condition, hn.plains head.condition, ?_⟩
  · rw [Source.condition, flatMap_opsOf_plains]
    simpa using hp
  · rw [List.length_append, List.length_singleton]
    simp only [List.length_cons, List.length_nil] at h hdepth ⊢
    omega

/-- Control goes on behind an operation that only marks a place. -/
theorem depthAt_mark {t : Operation} {after : List Operation}
    (hk : t.action ∈ [.keyword .elseKw, .keyword .endifKw, .keyword .doneKw])
    (hp : c.flatten = before ++ t :: after) :
    depthAt c.flatten (before ++ [t]).length = depthAt c.flatten before.length := by
  have hdepth := depthAt_succ hs (getElem?_length hp)
  have hnet : (patterns t.action).length = 0 ∧ pushes t.action = 0 := by
    simp only [List.mem_cons, List.not_mem_nil, or_false] at hk
    rcases hk with hk | hk | hk <;> rw [hk] <;> exact ⟨rfl, rfl⟩
  rw [List.length_append, List.length_singleton]
  omega

/-- The rest of a conditional, reached from a test before it. -/
theorem advances_enter {l : Bool} {chain : Chain l} (shown : List Visit)
    (hp : c.flatten = before ++ (chain.flatten ++ work.flatMap opsOf)) (ha : Anchored c work) (hn : Nested work)
    (hlinks : chain.targets ((Source.innermost work).map (·.1)) ⊆ c.targets none)
    (hl : l = true → (Source.innermost work).isSome = true)
    (h : depthAt c.flatten before.length ≤ st.stack.length) :
    Advances c (shown, Source.enter chain work st) := by
  cases chain with
  | close endif =>
    have hmark := depthAt_mark hs (t := endif.1) (by simp [endif.2]) hp
    exact ⟨before ++ [endif.1], by simpa [Chain.flatten] using hp, ha, hn, hmark ▸ h⟩
  | otherwise op body endif =>
    have hmark := depthAt_mark hs (t := op.1) (by simp [op.2]) hp
    exact ⟨before ++ [op.1], by simpa [opsOf, Chain.flatten] using hp, ha.otherwise hlinks,
      ⟨hl, hl, hn⟩, hmark ▸ h⟩
  | elif head body chain =>
    refine advances_condition hs ⟨rfl, rfl⟩ shown ?_ (ha.elif hlinks) ⟨hl, hn⟩ h
    simpa [Chain.flatten, Head.ops, opsOf] using hp

variable (hi : Program.Indexed c.flatten) (hr : Blocks.resolve c.flatten = .ok table)
  (hst : Steady c.flatten table)
include hi hr hst

omit hs in
/-- A jump of the tree gains no values. -/
theorem depthAt_jump {op t : Operation} {after b a : List Operation}
    (ht : (op, t) ∈ c.targets none) (hp : c.flatten = before ++ op :: after)
    (hpt : c.flatten = b ++ t :: a) (hj : jumps false op.action = true) :
    depthAt c.flatten b.length + popped op.action ≤ depthAt c.flatten before.length := by
  have hop := getElem?_length hp
  have hland := getElem?_length hpt
  refine hst _ _ op hop hj ((Blocks.target?_iff hi hr _ _).2 ⟨(op, t), ht, ?_, ?_⟩)
  · rw [Operation.place, hi _ _ hop, Int.toNat_natCast]
  · rw [Operation.place, hi _ _ hland, Int.toNat_natCast]

/-- A `DO`: both its ways are covered. -/
theorem advances_branch {test : Mark .doKw} {t : Operation} {after b a : List Operation}
    (ht : (test.1, t) ∈ c.targets none) (hp : c.flatten = before ++ test.1 :: after)
    (hpt : c.flatten = b ++ t :: a) {yes no : Source.State → List Visit × Outcome Source.Config}
    (hyes : ∀ st', depthAt c.flatten (before ++ [test.1]).length ≤ st'.stack.length →
      ∀ shown, Advances c (shown, (yes st').2))
    (hno : ∀ st', depthAt c.flatten b.length ≤ st'.stack.length →
      ∀ shown, Advances c (shown, (no st').2))
    (h : depthAt c.flatten before.length ≤ st.stack.length) :
    Advances c (Source.branch test.1 st yes no) := by
  have hdepth := depthAt_succ hs (getElem?_length hp)
  have hjump := depthAt_jump hi hr hst ht hp hpt (by rw [test.2]; rfl)
  have hnet : (patterns test.1.action).length = 2 ∧ pushes test.1.action = 0 ∧
      popped test.1.action = 2 := by
    rw [test.2]
    exact ⟨rfl, rfl, rfl⟩
  obtain ⟨stack, calls⟩ := st
  obtain ⟨v, _, rfl, hle⟩ := exists_cons (hnet.1 ▸ hdepth.1.trans h)
  obtain ⟨x, rest, rfl, -⟩ := exists_cons hle
  simp only [List.length_cons] at h
  simp only [Source.branch]
  by_cases hv : v = 0#64
  · simp only [if_pos hv]
    exact hno _ (by dsimp only; omega) _
  · simp only [if_neg hv]
    exact hyes _ (by simp only [List.length_append, List.length_singleton]; omega) _

omit hs in
/-- A jump that takes nothing lands covered. -/
theorem landing_covered {op t : Operation} {after b a : List Operation}
    (ht : (op, t) ∈ c.targets none) (hp : c.flatten = before ++ op :: after)
    (hpt : c.flatten = b ++ t :: a) (hj : jumps false op.action = true)
    (h : depthAt c.flatten before.length ≤ st.stack.length) :
    depthAt c.flatten b.length ≤ st.stack.length := by
  have hjump := depthAt_jump hi hr hst ht hp hpt hj
  omega

/-! The operations of the block structure, each where its item comes next. -/

section
variable (hn : Nested work) (h : depthAt c.flatten before.length ≤ st.stack.length)
include hn h

theorem advances_pass {l : Bool} {chain : Chain l}
    (hp : c.flatten = before ++ (Item.pass chain :: work).flatMap opsOf)
    (ha : Anchored c (.pass chain :: work)) :
    Advances c (Source.advance w (.pass chain :: work) st) := by
  obtain ⟨tail, htail⟩ := chain.flatten_first
  obtain ⟨ops, hops, hend⟩ := chain.flatten_endif
  have hfirst : c.flatten = before ++ chain.first :: (tail ++ work.flatMap opsOf) := by
    simpa [opsOf, htail] using hp
  have hlast : c.flatten = (before ++ ops) ++ chain.endif :: work.flatMap opsOf := by
    simpa [opsOf, hops] using hp
  refine ⟨before ++ ops ++ [chain.endif], by simpa using hlast, ha.2.2, hn, ?_⟩
  rw [depthAt_mark hs (by simp [hend]) hlast]
  -- either the `ENDIF` itself comes next, or the operation that does jumps to it
  rcases chain.first_endif ((Source.innermost work).map (·.1)) with ⟨-, hflat⟩ | ⟨hmem, hjump⟩
  · obtain rfl : ops = [] := by simpa [hops] using hflat
    simpa using h
  · exact landing_covered hi hr hst (ha.1 hmem) hfirst hlast (jumps_chain hjump) h

theorem advances_again {head : Head .whileKw} {body : Code true} {done : Mark .doneKw}
    (hp : c.flatten = before ++ (Item.again head body done :: work).flatMap opsOf)
    (ha : Anchored c (.again head body done :: work)) :
    Advances c (Source.advance w (.again head body done :: work) st) := by
  obtain ⟨hlinks, hloop, hrest⟩ := ha
  obtain ⟨b, hb⟩ := hloop _ rfl
  have hopen : c.flatten = b ++ head.opener.1 :: (head.condition.map (·.1) ++
      (Item.guard head body done :: work).flatMap opsOf) := by
    simpa [Head.ops, opsOf] using hb.symm
  have hle := landing_covered hi hr hst (hlinks (by simp [linksOf])) hp hopen (by rw [done.2]; rfl) h
  exact advances_condition hs ⟨rfl, rfl⟩ _ hopen ⟨hlinks, hloop, hrest⟩ (.cons rfl hn) hle

theorem advances_test {l : Bool} {test : Mark .doKw} {body : Code l} {chain : Chain l}
    (hl : l = true → (Source.innermost work).isSome = true)
    (hp : c.flatten = before ++ (Item.test test body chain :: work).flatMap opsOf)
    (ha : Anchored c (.test test body chain :: work)) :
    Advances c (Source.advance w (.test test body chain :: work) st) := by
  obtain ⟨hlink, hchain, hbody⟩ := ha.test
  obtain ⟨ops, hops⟩ := chain.flatten_first
  have hnext : c.flatten = (before ++ test.1 :: body.flatten) ++
      (chain.flatten ++ work.flatMap opsOf) := by
    simpa [opsOf] using hp
  have hfirst : c.flatten = (before ++ test.1 :: body.flatten) ++
      chain.first :: (ops ++ work.flatMap opsOf) := by
    simpa [hops] using hnext
  refine advances_branch hs hi hr hst hlink hp hfirst (fun st' hle shown => ?_)
    (fun st' hle shown => advances_enter hs shown hnext ha.2.2 hn hchain hl hle) h
  exact ⟨before ++ [test.1], by simpa [opsOf] using hp, hbody, ⟨hl, hl, hn⟩, hle⟩

theorem advances_guard {head : Head .whileKw} {body : Code true} {done : Mark .doneKw}
    (hp : c.flatten = before ++ (Item.guard head body done :: work).flatMap opsOf)
    (ha : Anchored c (.guard head body done :: work)) :
    Advances c (Source.advance w (.guard head body done :: work) st) := by
  obtain ⟨hlink, hbody⟩ := ha.guard
  have hdone : c.flatten = (before ++ head.test.1 :: body.flatten) ++
      done.1 :: work.flatMap opsOf := by
    simpa [opsOf] using hp
  refine advances_branch hs hi hr hst hlink hp hdone (fun st' hle shown => ?_)
    (fun st' hle shown => ?_) h
  · exact ⟨before ++ [head.test.1], by simpa [opsOf] using hp, hbody, ⟨fun _ => rfl, .cons rfl hn⟩, hle⟩
  · refine ⟨before ++ head.test.1 :: body.flatten ++ [done.1], by simpa using hdone, ha.2.2, hn, ?_⟩
    rw [depthAt_mark hs (by simp [done.2]) hdone]
    exact hle

theorem advances_leave {op : Mark .breakKw} {rest : Code true}
    (hl : (Source.innermost work).isSome = true)
    (hp : c.flatten = before ++ (Item.code (.leave op rest) :: work).flatMap opsOf)
    (ha : Anchored c (.code (.leave op rest) :: work)) :
    Advances c (Source.advance w (.code (.leave op rest) :: work) st) := by
  have hbreak : c.flatten = before ++ op.1 :: (rest.flatten ++ work.flatMap opsOf) := by
    simpa [opsOf, Code.flatten] using hp
  obtain ⟨⟨done, behind⟩, hin⟩ := Option.isSome_iff_exists.1 hl
  obtain ⟨ops, hops, hact, hwork⟩ := innermost_spec hin ha.2.2
  have hdone : c.flatten = (before ++ op.1 :: (rest.flatten ++ ops)) ++
      done :: behind.flatMap opsOf := by
    rw [hbreak, hops]
    simp
  have hlink : (op.1, done) ∈ c.targets none := ha.1 (by simp [linksOf, Code.targets, hin])
  simp only [Source.advance, hin]
  refine ⟨before ++ op.1 :: (rest.flatten ++ ops) ++ [done], by simpa using hdone, hwork,
    hn.behind hin, ?_⟩
  rw [depthAt_mark hs (by simp [hact]) hdone]
  exact landing_covered hi hr hst hlink hbreak hdone (by rw [op.2]; rfl) h

end

/-- **One step of a steady program**, whatever comes next. -/
theorem advances_advance (hp : c.flatten = before ++ work.flatMap opsOf) (ha : Anchored c work)
    (hn : Nested work) (h : depthAt c.flatten before.length ≤ st.stack.length) :
    Advances c (Source.advance w work st) := by
  induction work with
  | nil => trivial
  | cons i work ih =>
    have hrest := ha.2.2
    obtain ⟨hl, hn⟩ := hn
    cases i with
    | plain op => exact advances_plain hs hp hrest hn h
    | pass chain => exact advances_pass hs hi hr hst hn h hp ha
    | again head body done => exact advances_again hs hi hr hst hn h hp ha
    | test test body chain => exact advances_test hs hi hr hst hn h hl hp ha
    | guard head body done => exact advances_guard hs hi hr hst hn h hp ha
    | code code =>
      cases code with
      | nil => exact ih hp hrest hn
      | plain op rest =>
        have hwork : Anchored c (.code rest :: work) := .cons ha.1 rfl hrest
        exact advances_plain hs (by simpa [opsOf, Code.flatten] using hp) hwork ⟨hl, hn⟩ h
      | cond head body chain rest =>
        refine advances_condition hs ⟨rfl, rfl⟩ _ ?_ ha.cond ⟨hl, hl, hn⟩ h
        simpa [opsOf, Code.flatten, Head.ops] using hp
      | loop head body done rest =>
        refine advances_condition hs ⟨rfl, rfl⟩ _ ?_ (ha.loop hp) (.cons rfl ⟨hl, hn⟩) h
        simpa [opsOf, Code.flatten, Head.ops] using hp
      | leave op rest => exact advances_leave hs hi hr hst hn h (hl rfl) hp ha

/-- **A run of a steady program** runs out of operands at a `GET_NTH` only. -/
theorem getNth_of_failed {cfg : Source.Config} (hc : Covered c cfg) {n : Nat}
    (hf : (Source.visits w).after n cfg = .failed) :
    ∃ op ∈ c.flatten, op.action = .primitive .getNth ∧
      ∃ st, ((Source.visits w).trace n cfg).getLast? = some (Source.visit op st) := by
  induction n generalizing cfg with
  | zero => cases hf
  | succ n ih =>
    obtain ⟨before, hp, ha, hn, h⟩ := hc
    have hone : Advances c (Source.visits w cfg) := advances_advance hs hi hr hst hp ha hn h
    obtain ⟨shown, o, hstep⟩ : ∃ shown o, Source.visits w cfg = (shown, o) := ⟨_, _, rfl⟩
    rw [hstep] at hone
    cases o with
    | running cfg' =>
      rw [System.after_succ_running hstep] at hf
      obtain ⟨op, ho, hop, st, hlast⟩ := ih hone hf
      refine ⟨op, ho, hop, st, ?_⟩
      rw [System.trace_succ_running hstep, List.getLast?_append, hlast]
      rfl
    | failed =>
      obtain ⟨op, ho, hop, st, hlast⟩ := hone
      exact ⟨op, ho, hop, st, by simpa [System.trace, hstep] using hlast⟩
    | ended | faulted => simp [System.after, hstep] at hf

end

/-- **The stack on the paths of control.** Where control comes in an accepted program on jumps that
land with at least the values that the check has there, it has what the next operation requires. So it
is on every path when the program is steady; and then a run of the program runs out of operands at a
`GET_NTH` only. -/
theorem stack_safe_on_paths {lib : Library} {file source : Text} {size : Int} {r : Compiled}
    (h : compile lib file source size = .ok r) :
    (∀ s op, Reaches r.program r.blocks (Spot.Backed r.program) s → r.program[s.place]? = some op →
      required op (stackAt r.program s.place) ≤ s.depth) ∧
    (Steady r.program r.blocks →
      (∀ s op, Reaches r.program r.blocks (fun _ => True) s → r.program[s.place]? = some op →
        required op (stackAt r.program s.place) ≤ s.depth) ∧
      ∃ c : Code false, c.flatten = r.program ∧ ∀ w n,
        (Source.visits w).after n (Source.start c) = .failed →
        ∃ op ∈ r.program, op.action = .primitive .getNth ∧
          ∃ st, ((Source.visits w).trace n (Source.start c)).getLast? = some (Source.visit op st)) := by
  obtain ⟨-, hmade⟩ := compile_eq_ok_iff.1 h
  obtain ⟨final, hs, -⟩ := Failure.of_map_ok hmade.analysis
  refine ⟨fun s op hreach => required_le_depth hs (depthAt_le_of_reaches hs hreach), fun hst => ⟨?_, ?_⟩⟩
  · intro s op hreach
    exact required_le_depth hs (depthAt_le_of_reaches hs (reaches_of_steady hs hst hreach))
  · obtain ⟨c, hc⟩ := Blocks.exists_flatten_of_resolve hmade.indexed hmade.blocks
    refine ⟨c, hc, fun w n hf => ?_⟩
    rw [← hc] at hs hst ⊢
    refine getNth_of_failed hs (hc ▸ hmade.indexed) (hc ▸ hmade.blocks) hst ⟨[], ?_, ?_, ?_, ?_⟩ hf
    · simp [Source.start, opsOf]
    · exact .cons (List.Subset.refl _) rfl trivial
    · exact .cons rfl trivial
    · exact Nat.le_refl 0

/-- Counts down from two, and leaves the loop while there is something left. -/
def descending : Program :=
  [written 0 .pushInt .integer "2" 1, written 1 (.keyword .whileKw) .keyword "WHILE" 3,
   written 2 (.primitive .dup) .word "DUP" 9, written 3 (.keyword .doKw) .keyword "DO" 13,
   written 4 .pushInt .integer "1" 16, written 5 (.primitive .minus) .word "MINUS" 18,
   written 6 (.keyword .ifKw) .keyword "IF" 24, written 7 (.primitive .dup) .word "DUP" 27,
   written 8 (.keyword .doKw) .keyword "DO" 31, written 9 (.keyword .breakKw) .keyword "BREAK" 34,
   written 10 (.keyword .endifKw) .keyword "ENDIF" 40,
   written 11 (.keyword .doneKw) .keyword "DONE" 46,
   written 12 (.primitive .printInt) .word "PRINT_INT" 51]

def descendingBlocks : BlockTable :=
  ⟨#[none, none, none, some 1, none, none, none, none, some 6, none, none, none, none],
   #[none, some 11, none, some 11, none, none, none, none, some 10, some 11, none, some 1, none]⟩

theorem stack_safe_on_paths_descending : ∃ r,
    compile (.ofList "/" []) "a" "2 WHILE DUP DO 1 MINUS IF DUP DO BREAK ENDIF DONE PRINT_INT" 0 = .ok r ∧
    Steady r.program r.blocks ∧
    (∀ s op, Reaches r.program r.blocks (fun _ => True) s → r.program[s.place]? = some op →
      required op (stackAt r.program s.place) ≤ s.depth) ∧
    ∃ c : Code false, c.flatten = r.program ∧
      ∀ w n, (Source.visits w).after n (Source.start c) ≠ .failed := by
  have hl : Lexer.tokens "a" "2 WHILE DUP DO 1 MINUS IF DUP DO BREAK ENDIF DONE PRINT_INT" =
      .ok (descending.map (·.token)) := by decide +kernel
  have hp : Program.ofTokens (descending.map (·.token)) = .ok descending := by decide +kernel
  have hb : Blocks.resolve descending = .ok descendingBlocks := by decide +kernel
  obtain ⟨a, hr⟩ := exists_compile (.ofList "/" []) (source_of_tokens hl (by decide)) hp rfl hb 0
  have hst : Steady descending descendingBlocks := by decide +kernel
  obtain ⟨hpaths, c, hc, hfail⟩ := (stack_safe_on_paths hr).2 hst
  refine ⟨_, hr, hst, hpaths, c, hc, fun w n hf => ?_⟩
  obtain ⟨op, ho, hop, -⟩ := hfail w n hf
  have hnone : ∀ op ∈ descending, op.action ≠ .primitive .getNth := by decide
  exact hnone op ho hop

/-- Skips the branch that would leave a value for the last operation. -/
def skipping : Code false :=
  .plain ⟨written 0 .pushInt .integer "0" 1, rfl⟩ <|
  .cond ⟨⟨written 1 (.keyword .ifKw) .keyword "IF" 3, rfl⟩, [],
      ⟨written 2 (.keyword .doKw) .keyword "DO" 6, rfl⟩⟩
    (.plain ⟨written 3 .pushInt .integer "5" 9, rfl⟩ .nil)
    (.close ⟨written 4 (.keyword .endifKw) .keyword "ENDIF" 11, rfl⟩) <|
  .plain ⟨written 5 (.primitive .printInt) .word "PRINT_INT" 17, rfl⟩ .nil

def skippingBlocks : BlockTable :=
  ⟨#[none, none, some 1, none, none, none],
   #[none, none, some 4, none, none, none]⟩

/-- Picks an entry by a number that grows in a loop. -/
def picking : Code false :=
  .plain ⟨written 0 .pushInt .integer "7" 1, rfl⟩ <|
  .plain ⟨written 1 .pushInt .integer "1" 3, rfl⟩ <|
  .loop ⟨⟨written 2 (.keyword .whileKw) .keyword "WHILE" 5, rfl⟩,
      [⟨written 3 (.primitive .dup) .word "DUP" 11, rfl⟩],
      ⟨written 4 (.keyword .doKw) .keyword "DO" 15, rfl⟩⟩
    (.plain ⟨written 5 (.primitive .dup) .word "DUP" 18, rfl⟩ <|
     .plain ⟨written 6 (.primitive .getNth) .word "GET_NTH" 22, rfl⟩ <|
     .plain ⟨written 7 (.primitive .drop) .word "DROP" 30, rfl⟩ <|
     .plain ⟨written 8 .pushInt .integer "1" 35, rfl⟩ <|
     .plain ⟨written 9 (.primitive .plus) .word "PLUS" 37, rfl⟩ .nil)
    ⟨written 10 (.keyword .doneKw) .keyword "DONE" 42, rfl⟩ .nil

def pickingBlocks : BlockTable :=
  ⟨#[none, none, none, none, some 2, none, none, none, none, none, none],
   #[none, none, some 10, none, some 10, none, none, none, none, none, some 2]⟩

/-- **The check does not see every path.** A branch that is skipped does not leave the value that the
check counts on, and where all jumps are steady, an index may still have become another one. -/
theorem underflow_of_accepted :
    (∃ r, compile (.ofList "/" []) "a" "0 IF DO 5 ENDIF PRINT_INT" 0 = .ok r ∧
      r.program = skipping.flatten ∧
      (∃ s op, Reaches r.program r.blocks (fun _ => True) s ∧ r.program[s.place]? = some op ∧
        s.depth < required op (stackAt r.program s.place)) ∧
      ∀ w, (Source.visits w).after 4 (Source.start skipping) = .failed) ∧
    ∃ r, compile (.ofList "/" []) "a" "7 1 WHILE DUP DO DUP GET_NTH DROP 1 PLUS DONE" 0 = .ok r ∧
      r.program = picking.flatten ∧ Steady r.program r.blocks ∧
      ∀ w, (Source.visits w).after 15 (Source.start picking) = .failed := by
  constructor
  · have hl : Lexer.tokens "a" "0 IF DO 5 ENDIF PRINT_INT" =
        .ok (skipping.flatten.map (·.token)) := by decide +kernel
    have hp : Program.ofTokens (skipping.flatten.map (·.token)) = .ok skipping.flatten := by
      decide +kernel
    have hb : Blocks.resolve skipping.flatten = .ok skippingBlocks := by decide +kernel
    obtain ⟨a, hr⟩ := exists_compile (.ofList "/" []) (source_of_tokens hl (by decide)) hp rfl
      hb 0
    have hstart : Reaches skipping.flatten skippingBlocks (fun _ => True) ⟨0, false, 0⟩ := .start
    have hif := hstart.pass (rfl : _ = some (written 0 .pushInt .integer "0" 1)) rfl
    have hdo := hif.pass (rfl : _ = some (written 1 (.keyword .ifKw) .keyword "IF" 3)) rfl
    have hendif := hdo.jump (rfl : _ = some (written 2 (.keyword .doKw) .keyword "DO" 6)) rfl
      (rfl : _ = some 4) trivial
    have hprint := hendif.pass
      (rfl : _ = some (written 4 (.keyword .endifKw) .keyword "ENDIF" 11)) rfl
    have hneeds : 0 < required (written 5 (.primitive .printInt) .word "PRINT_INT" 17)
        (stackAt skipping.flatten 5) := by decide +kernel
    exact ⟨_, hr, rfl, ⟨_, _, hprint, rfl, hneeds⟩, fun w => rfl⟩
  · have hl : Lexer.tokens "a" "7 1 WHILE DUP DO DUP GET_NTH DROP 1 PLUS DONE" =
        .ok (picking.flatten.map (·.token)) := by decide +kernel
    have hp : Program.ofTokens (picking.flatten.map (·.token)) = .ok picking.flatten := by
      decide +kernel
    have hb : Blocks.resolve picking.flatten = .ok pickingBlocks := by decide +kernel
    obtain ⟨a, hr⟩ := exists_compile (.ofList "/" []) (source_of_tokens hl (by decide)) hp rfl
      hb 0
    have hst : Steady picking.flatten pickingBlocks := by decide +kernel
    exact ⟨_, hr, rfl, hst, fun w => rfl⟩

end StackLang.Check
