import StackLang.Error

/-!
# Programs from tokens

Every token becomes one operation, with its position as its index.

- `Program.index_ofTokens`: the index of an operation is its position.
-/

set_option autoImplicit false

namespace StackLang

/-- The action of a token. -/
def Action.ofToken (t : Token) : Except Failure Action :=
  match t.kind with
  | .keyword =>
    match Keyword.ofName? t.text with
    | some k => .ok (.keyword k)
    | none => .error ((Cause.unexpectedKeyword t.text).at t.loc)
  | .integer | .boolean =>
    match Number.decimal t.text with
    | .ok _ => .ok .pushInt
    | .error _ => .error ((Cause.invalidInteger t.text).at t.loc)
  | .string => .ok .pushString
  | .cstring => .ok .pushCString
  | .array => .ok .pushArray
  | .word =>
    match Primitive.ofName? t.text with
    | some p => .ok (.primitive p)
    | none => .error ((Cause.unknownWord t.text).at t.loc)
  | .unassigned code => .error ((Cause.unsupportedToken (.unassigned code)).at t.loc)

namespace Program

/-- The operations of tokens, the first of which has the index `start`. -/
def ofTokensFrom (start : Nat) : List Token → Except Failure Program
  | [] => .ok []
  | t :: ts =>
    match Action.ofToken t with
    | .error e => .error e
    | .ok action => (ofTokensFrom (start + 1) ts).map (⟨start, action, t⟩ :: ·)

/-- The program of a list of tokens. -/
def ofTokens (tokens : List Token) : Except Failure Program := ofTokensFrom 0 tokens

theorem index_ofTokensFrom {start : Nat} {ts : List Token} {prog : Program}
    (h : ofTokensFrom start ts = .ok prog) {i : Nat} {op : Operation} (hi : prog[i]? = some op) :
    op.index = (start + i : Nat) := by
  induction ts generalizing start prog i with
  | nil =>
    cases h
    simp at hi
  | cons t ts ih =>
    unfold ofTokensFrom at h
    split at h
    · simp at h
    · cases hr : ofTokensFrom (start + 1) ts with
      | error e => simp [hr, Except.map] at h
      | ok rest =>
        simp only [hr, Except.map, Except.ok.injEq] at h
        subst h
        cases i with
        | zero => simp at hi; simp [← hi]
        | succ i =>
          rw [ih hr (by simpa using hi)]
          congr 1
          omega

/-- **Indices are positions** in a program made from tokens. -/
theorem index_ofTokens {ts : List Token} {prog : Program} (h : ofTokens ts = .ok prog) {i : Nat}
    {op : Operation} (hi : prog[i]? = some op) : op.index = i := by
  simpa using index_ofTokensFrom h hi

end Program

end StackLang
