import Mathlib.Data.List.Forall2
import StackLang.Stack.Check

/-!
# The effect of operations on the depth of the stack

What the check takes from the abstract stack and what it leaves, for each action.

- `operands_ok`: the operands of a step lie on top of the stack and satisfy their patterns.
- `fold_ok`, `division_ok`: what is computed from numbers.
- `step_cases`: what a step does.
- `length_step`: how many entries a step finds and how many it leaves.
-/

set_option autoImplicit false

namespace StackLang.Check

/-! ## Operands -/

theorem operands_ok {op : Operation} {ps : List Pattern} {stack rest : Stack} {vs : List Value}
    (h : operands op ps stack = .ok (vs, rest)) :
    stack = vs ++ rest ∧ List.Forall₂ (fun p v => Pattern.accepts p v = true) ps vs := by
  unfold operands at h
  split at h
  · cases h
  · rename_i hlen
    split at h
    · cases h
    · rename_i hfind
      obtain ⟨rfl, rfl⟩ := Prod.mk.inj (Except.ok.inj h)
      refine ⟨(List.take_append_drop _ _).symm, ?_⟩
      clear h
      induction ps generalizing stack with
      | nil => exact .nil
      | cons p ps ih =>
        cases stack with
        | nil => simp at hlen
        | cons v stack =>
          rw [List.zip_cons_cons, List.find?_cons] at hfind
          cases hp : p.accepts v with
          | false => simp [hp] at hfind
          | true =>
            simp only [hp, Bool.not_true] at hfind
            exact .cons hp (ih (by simpa using hlen) hfind)

/-- An operand that has to be a number is one. -/
theorem int_of_accepts {v : Value} (h : Pattern.accepts .int v = true) : ∃ n, v = .int n := by
  cases v with
  | int n => exact ⟨n, rfl⟩
  | ptr t => cases h

/-- The operands of a pattern list, the top of the stack first. -/
theorem cons_of_accepts {p : Pattern} {ps : List Pattern} {vs : List Value}
    (h : List.Forall₂ (fun p v => Pattern.accepts p v = true) (p :: ps) vs) :
    ∃ v us, vs = v :: us ∧ p.accepts v = true ∧
      List.Forall₂ (fun p v => Pattern.accepts p v = true) ps us := by
  cases h with
  | cons hv h => exact ⟨_, _, rfl, hv, h⟩

theorem nil_of_accepts {vs : List Value}
    (h : List.Forall₂ (fun p v => Pattern.accepts p v = true) [] vs) : vs = [] := by
  cases h
  rfl

theorem ints_of_accepts {vs : List Value}
    (h : List.Forall₂ (fun p v => Pattern.accepts p v = true) [.int, .int] vs) :
    ∃ b a, vs = [.int b, .int a] := by
  obtain ⟨v, us, rfl, hv, h⟩ := cons_of_accepts h
  obtain ⟨v', us, rfl, hv', h⟩ := cons_of_accepts h
  obtain rfl := nil_of_accepts h
  obtain ⟨b, rfl⟩ := int_of_accepts hv
  obtain ⟨a, rfl⟩ := int_of_accepts hv'
  exact ⟨b, a, rfl⟩

variable {op : Operation}

/-! ## Results -/

/-- The primitives that compute one number from two are folded when both are known. -/
theorem fold_ok {p : Primitive} {a b : Option Int64} {rs : List Value}
    (hr : primitiveResults op p [.int b, .int a] = .ok rs)
    (hp : ∀ m n, (Fold.binary? p m n).isSome = true) :
    rs = [.int (a.bind fun a => b.bind fun b => Fold.binary? p a b)] := by
  refine (Except.ok.inj (hr.symm.trans ?_))
  cases p with
  | plus | minus | mul | pow | eq | ne | gt | ge | lt | le | and | or =>
    cases a <;> cases b <;> rfl
  | _ => cases hp 0 0

/-- What a division leaves, the top of the stack first. -/
def quotients {α : Type} (p : Primitive) (quotient remainder : α) : List α :=
  match p with
  | .div => [quotient]
  | .mod => [remainder]
  | _ => [remainder, quotient]

theorem division_ok {p : Primitive} (hp : p ∈ [.div, .mod, .divmod]) {a b : Option Int64}
    {rs : List Value} (hr : division op p a b = .ok rs) :
    rs = quotients p (.int (a.bind fun a => b.map (a / ·))) (.int (a.bind fun a => b.map (a % ·))) := by
  simp only [List.mem_cons, List.not_mem_nil, or_false] at hp
  unfold division at hr
  split at hr
  · split at hr
    · cases hr
    · rcases hp with rfl | rfl | rfl <;> exact (Except.ok.inj hr).symm
  · rename_i hnone
    have hq : ∀ f : Int64 → Int64 → Int64, (a.bind fun a => b.map (f a)) = none := by
      intro f
      cases a with
      | none => rfl
      | some a =>
        cases b with
        | none => rfl
        | some b => exact absurd rfl (hnone a b rfl)
    rw [hq, hq]
    rcases hp with rfl | rfl | rfl <;> exact (Except.ok.inj hr).symm

/-- A picked entry: its index is known and positive. -/
theorem nth_ok {index v : Value} {stack : Stack} (h : nth op index stack = .ok v) :
    ∃ n : Int64, index = .int (some n) ∧ 1 ≤ n.toInt ∧ stack[n.toInt.toNat]? = some v := by
  unfold nth at h
  split at h
  · rename_i n
    split at h
    · cases h
    · rename_i hn
      have hpos : ¬ n.toInt < 1 := fun hlt => hn (Int64.lt_iff_toInt_lt.2 hlt)
      split at h
      · rename_i v' hv
        obtain rfl := Except.ok.inj h
        exact ⟨n, rfl, by omega, hv⟩
      · cases h
  · cases h

/-- **What a step does**: it takes operands that satisfy the patterns of its action, and leaves the
entry that an index picks below them, or results in their place. -/
theorem step_cases {stack next : Stack} (h : step op stack = .ok next) :
    isUnknown op.action = false ∧ ∃ vs rest, stack = vs ++ rest ∧
      List.Forall₂ (fun p v => Pattern.accepts p v = true) (patterns op.action) vs ∧
      ((op.action = .primitive .getNth ∧ ∃ index v, vs = [index] ∧ nth op index rest = .ok v ∧
          next = v :: rest) ∨
        (op.action ≠ .primitive .getNth ∧ ∃ rs, results op vs = .ok rs ∧ next = rs ++ rest)) := by
  unfold step at h
  split at h
  · cases h
  rename_i hknown
  split at h
  · cases h
  rename_i vs rest hops
  obtain ⟨rfl, hv⟩ := operands_ok hops
  refine ⟨Bool.eq_false_iff.2 hknown, vs, rest, rfl, hv, ?_⟩
  split at h
  · rename_i hget
    rw [hget] at hv
    obtain ⟨index, us, rfl, -, hv⟩ := cons_of_accepts hv
    obtain rfl := nil_of_accepts hv
    obtain ⟨v, hnth, rfl⟩ := Failure.of_map_ok h
    exact .inl ⟨hget, index, v, rfl, hnth, rfl⟩
  · rename_i hget
    obtain ⟨rs, hr, rfl⟩ := Failure.of_map_ok h
    exact .inr ⟨hget, rs, hr, rfl⟩

/-! ## Depth -/

/-- The number of entries that an action leaves in place of its operands. -/
def pushes : Action → Nat
  | .keyword .ifKw | .keyword .elifKw | .keyword .whileKw => 2
  | .keyword _ => 0
  | .pushInt | .pushCString | .pushArray => 1
  | .pushString => 2
  | .primitive p =>
    match p with
    | .plus | .minus | .mul | .pow | .eq | .ne | .gt | .ge | .lt | .le | .and | .or => 1
    | .div | .mod => 1
    | .divmod => 2
    | .dup | .swap | .input => 2
    | .dup2 | .swap2 => 4
    | .over | .rot => 3
    | .drop | .printInt | .puts | .exit | .unassigned _ => 0
    | .getNth | .argc | .argv | .syscall _ => 1
  | .unassigned _ => 0

theorem length_primitiveResults {p : Primitive} {vs rs : List Value} (hp : p ≠ .getNth)
    (hknown : isUnknown (.primitive p) = false)
    (hv : List.Forall₂ (fun p v => Pattern.accepts p v = true) (patterns (.primitive p)) vs)
    (hr : primitiveResults op p vs = .ok rs) : rs.length = pushes (.primitive p) := by
  cases p with
  | plus | minus | mul | pow | eq | ne | gt | ge | lt | le | and | or =>
    obtain ⟨b, a, rfl⟩ := ints_of_accepts hv
    rw [fold_ok hr (by intros; rfl)]
    rfl
  | div | mod | divmod =>
    obtain ⟨b, a, rfl⟩ := ints_of_accepts hv
    rw [division_ok (by decide) hr]
    rfl
  | dup | drop | printInt | exit =>
    obtain _ | ⟨-, ⟨⟩⟩ := hv
    obtain rfl := Except.ok.inj hr
    rfl
  | dup2 | «over» | swap | puts =>
    obtain _ | ⟨-, _ | ⟨-, ⟨⟩⟩⟩ := hv
    obtain rfl := Except.ok.inj hr
    rfl
  | rot =>
    obtain _ | ⟨-, _ | ⟨-, _ | ⟨-, ⟨⟩⟩⟩⟩ := hv
    obtain rfl := Except.ok.inj hr
    rfl
  | swap2 =>
    obtain _ | ⟨-, _ | ⟨-, _ | ⟨-, _ | ⟨-, ⟨⟩⟩⟩⟩⟩ := hv
    obtain rfl := Except.ok.inj hr
    rfl
  | input | argc | argv | syscall args =>
    obtain rfl := Except.ok.inj hr
    rfl
  | getNth => exact absurd rfl hp
  | unassigned code => cases hknown

/-- **What a step takes and leaves**: there are operands enough, and so many entries replace them. -/
theorem length_step {stack next : Stack} (h : step op stack = .ok next) :
    (patterns op.action).length ≤ stack.length ∧
      next.length + (patterns op.action).length = stack.length + pushes op.action := by
  obtain ⟨hknown, vs, rest, rfl, hv, hnext⟩ := step_cases h
  have hlen := hv.length_eq
  rw [List.length_append]
  obtain ⟨hget, index, v, rfl, -, rfl⟩ | ⟨hget, rs, hr, rfl⟩ := hnext
  · rw [hget]
    simp only [List.length_cons, List.length_nil, patterns, pushes]
    omega
  · suffices hrs : rs.length = pushes op.action by
      rw [List.length_append]
      omega
    unfold results at hr
    cases ha : op.action with
    | keyword k =>
      rw [ha] at hr hv
      cases k with
      | ifKw | elifKw | whileKw =>
        obtain _ | ⟨-, ⟨⟩⟩ := hv
        obtain rfl := Except.ok.inj hr
        rfl
      | _ =>
        obtain rfl := Except.ok.inj hr
        rfl
    | unassigned code =>
      rw [ha] at hknown
      cases hknown
    | primitive p =>
      rw [ha] at hr hv hget hknown
      exact length_primitiveResults (fun hp => hget (congrArg _ hp)) hknown hv hr
    | pushInt | pushCString | pushArray =>
      rw [ha] at hr
      obtain rfl := Except.ok.inj hr
      rfl
    | pushString =>
      rw [ha] at hr
      dsimp only at hr
      split at hr
      · cases hr
      · obtain rfl := Except.ok.inj hr
        rfl

/-- The first of several steps. -/
theorem steps_cons_ok {prog : Program} {stack final : Stack} (h : steps (op :: prog) stack = .ok final) :
    ∃ next, step op stack = .ok next ∧ steps prog next = .ok final := by
  unfold steps at h
  rw [List.foldlM_cons] at h
  cases hs : step op stack with
  | error e => simp [hs, bind, Except.bind] at h
  | ok next =>
    rw [hs] at h
    exact ⟨next, rfl, h⟩

end StackLang.Check
