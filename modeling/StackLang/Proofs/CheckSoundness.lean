import StackLang.Proofs.GeneratedCode
import StackLang.Proofs.StackEffect

/-!
# What the check knows of the stack

The abstract stack of the check describes the words that a running program has on its stack, as long
as control goes through the operations in their order.

- `Value.Describes`: what an abstract value says of a word.
- `Check.step_sound`: what one operation leaves is described by what the check leaves.
- `Check.run_straight`: so it is for a program without structural operations, which never runs out of
  operands.
-/

set_option autoImplicit false

namespace StackLang

open Machine

/-- What an abstract value says of a word: a known number is that number, and a pointer the address
of what it points to. -/
def Value.Describes (w : World) : Value → Word → Prop
  | .int none, _ => True
  | .int (some v), x => x = v.toBitVec
  | .ptr .argv, x => x = w.base + 8#64
  | .ptr (.data sym), x => x = w.address sym.name

namespace Check

/-- The abstract stack describes a stack of words, entry by entry. -/
abbrev Describes (w : World) (stack : Stack) (words : List Word) : Prop :=
  List.Forall₂ (Value.Describes w) stack words

/-- What is said of the run after an operation. -/
def Keeps (w : World) (next : Stack) : Outcome Source.State → Prop
  | .running st => Describes w next st.stack
  | .ended | .faulted => True
  | .failed => False

section
variable {w : World} {op : Operation} {rest : Stack} {st : Source.State}

/-- The word that an entry describes. -/
theorem Describes.uncons {v : Value} {vs : Stack} {words : List Word}
    (h : Describes w (v :: vs) words) :
    ∃ x xs, words = x :: xs ∧ v.Describes w x ∧ Describes w vs xs := by
  cases h with
  | cons hx h => exact ⟨_, _, rfl, hx, h⟩

/-! ## Primitives -/

theorem arithmetic_sound {p : Primitive} {a b : Option Int64} {x y : Word}
    (ha : Value.Describes w (.int a) x) (hb : Value.Describes w (.int b) y) {rs : List Value}
    (hr : primitiveResults op p [.int b, .int a] = .ok rs)
    (hp : ∀ m n, (Fold.binary? p m n).isSome = true) :
    ∃ v z, rs = [v] ∧ Source.arithmetic p x y = some z ∧ v.Describes w z := by
  obtain rfl := fold_ok hr hp
  obtain ⟨n, hn⟩ := Option.isSome_iff_exists.1 (hp (.ofBitVec x) (.ofBitVec y))
  refine ⟨_, n.toBitVec, rfl, congrArg (Option.map _) hn, ?_⟩
  cases a with
  | none => trivial
  | some a =>
    cases b with
    | none => trivial
    | some b =>
      obtain rfl : x = a.toBitVec := ha
      obtain rfl : y = b.toBitVec := hb
      have hfold : Fold.binary? p a b = some n := hn
      simp only [Option.bind_some, hfold]
      rfl

theorem division_sound {f : Int64 → Int64 → Int64} {g : Word → Word → Word}
    (hf : ∀ a b, (f a b).toBitVec = g a.toBitVec b.toBitVec) {a b : Option Int64} {x y : Word}
    (ha : Value.Describes w (.int a) x) (hb : Value.Describes w (.int b) y) :
    Value.Describes w (.int (a.bind fun a => b.map (f a))) (g x y) := by
  cases a with
  | none => trivial
  | some a =>
    cases b with
    | none => trivial
    | some b =>
      obtain rfl : x = a.toBitVec := ha
      obtain rfl : y = b.toBitVec := hb
      exact (hf a b).symm

/-- A system call leaves what is described, whatever it returns. -/
theorem call_sound {calls : Nat} {next : Stack} {f : Word → List Word}
    (h : ∀ x, Describes w next (f x)) : Keeps w next (Source.call w calls f) := by
  unfold Source.call
  split
  · trivial
  · exact h _

theorem describes_drop {vs : List Value} {words : List Word} (h : Describes w (vs ++ rest) words) :
    vs.length ≤ words.length ∧ Describes w rest (words.drop vs.length) := by
  induction vs generalizing words with
  | nil => exact ⟨Nat.zero_le _, h⟩
  | cons v vs ih =>
    obtain ⟨x, xs, rfl, -, h⟩ := h.uncons
    obtain ⟨hlen, hrest⟩ := ih h
    exact ⟨Nat.succ_le_succ hlen, hrest⟩

/-- **Primitives**, but for the one that picks an entry. -/
theorem primitive_sound {p : Primitive} {vs rs : List Value} (hp : p ≠ .getNth)
    (hknown : isUnknown (.primitive p) = false)
    (hv : List.Forall₂ (fun p v => Pattern.accepts p v = true) (patterns (.primitive p)) vs)
    (hr : primitiveResults op p vs = .ok rs) (hd : Describes w (vs ++ rest) st.stack) :
    Keeps w (rs ++ rest) (Source.primitive w op.index p st) := by
  obtain ⟨stack, calls⟩ := st
  cases p with
  | plus | minus | mul | pow | eq | ne | gt | ge | lt | le | and | or =>
    obtain ⟨b, a, rfl⟩ := ints_of_accepts hv
    obtain ⟨y, _, rfl, hy, hd⟩ := hd.uncons
    obtain ⟨x, xs, rfl, hx, hd⟩ := hd.uncons
    obtain ⟨v, z, rfl, hz, hvz⟩ := arithmetic_sound hx hy hr (by intros; rfl)
    simp only [Source.primitive, Source.rearrange, hz]
    exact .cons hvz hd
  | div | mod | divmod =>
    obtain ⟨b, a, rfl⟩ := ints_of_accepts hv
    obtain ⟨y, _, rfl, hy, hd⟩ := hd.uncons
    obtain ⟨x, xs, rfl, hx, hd⟩ := hd.uncons
    have hq : Value.Describes w (.int (a.bind fun a => b.map (a / ·))) (x.sdiv y) :=
      division_sound (fun _ _ => Int64.toBitVec_div) hx hy
    have hm : Value.Describes w (.int (a.bind fun a => b.map (a % ·))) (x.srem y) :=
      division_sound (fun _ _ => Int64.toBitVec_mod) hx hy
    rw [division_ok (by decide) hr]
    simp only [Source.primitive, Source.divide]
    split
    · trivial
    · first
      | exact .cons hm (.cons hq hd)
      | exact .cons hq hd
      | exact .cons hm hd
  | dup =>
    obtain _ | ⟨-, ⟨⟩⟩ := hv
    obtain _ | ⟨hx, hd⟩ := hd
    obtain rfl := Except.ok.inj hr
    exact .cons hx (.cons hx hd)
  | dup2 =>
    obtain _ | ⟨-, _ | ⟨-, ⟨⟩⟩⟩ := hv
    obtain _ | ⟨hy, _ | ⟨hx, hd⟩⟩ := hd
    obtain rfl := Except.ok.inj hr
    exact .cons hy (.cons hx (.cons hy (.cons hx hd)))
  | drop =>
    obtain _ | ⟨-, ⟨⟩⟩ := hv
    obtain _ | ⟨-, hd⟩ := hd
    obtain rfl := Except.ok.inj hr
    exact hd
  | «over» =>
    obtain _ | ⟨-, _ | ⟨-, ⟨⟩⟩⟩ := hv
    obtain _ | ⟨hy, _ | ⟨hx, hd⟩⟩ := hd
    obtain rfl := Except.ok.inj hr
    exact .cons hx (.cons hy (.cons hx hd))
  | rot =>
    obtain _ | ⟨-, _ | ⟨-, _ | ⟨-, ⟨⟩⟩⟩⟩ := hv
    obtain _ | ⟨hz, _ | ⟨hy, _ | ⟨hx, hd⟩⟩⟩ := hd
    obtain rfl := Except.ok.inj hr
    exact .cons hx (.cons hz (.cons hy hd))
  | swap =>
    obtain _ | ⟨-, _ | ⟨-, ⟨⟩⟩⟩ := hv
    obtain _ | ⟨hy, _ | ⟨hx, hd⟩⟩ := hd
    obtain rfl := Except.ok.inj hr
    exact .cons hx (.cons hy hd)
  | swap2 =>
    obtain _ | ⟨-, _ | ⟨-, _ | ⟨-, _ | ⟨-, ⟨⟩⟩⟩⟩⟩ := hv
    obtain _ | ⟨hd', _ | ⟨hc, _ | ⟨hb, _ | ⟨ha, hd⟩⟩⟩⟩ := hd
    obtain rfl := Except.ok.inj hr
    exact .cons hb (.cons ha (.cons hd' (.cons hc hd)))
  | getNth => exact absurd rfl hp
  | printInt =>
    obtain _ | ⟨-, ⟨⟩⟩ := hv
    obtain _ | ⟨-, hd⟩ := hd
    obtain rfl := Except.ok.inj hr
    exact call_sound fun _ => hd
  | puts =>
    obtain _ | ⟨-, _ | ⟨-, ⟨⟩⟩⟩ := hv
    obtain _ | ⟨-, _ | ⟨-, hd⟩⟩ := hd
    obtain rfl := Except.ok.inj hr
    exact call_sound fun _ => hd
  | input =>
    obtain ⟨⟩ := hv
    obtain rfl := Except.ok.inj hr
    exact call_sound fun _ => .cons rfl (.cons trivial hd)
  | exit =>
    obtain _ | ⟨-, ⟨⟩⟩ := hv
    obtain _ | ⟨-, hd⟩ := hd
    trivial
  | argc =>
    obtain ⟨⟩ := hv
    obtain rfl := Except.ok.inj hr
    exact .cons trivial hd
  | argv =>
    obtain ⟨⟩ := hv
    obtain rfl := Except.ok.inj hr
    exact .cons rfl hd
  | syscall args =>
    obtain rfl := Except.ok.inj hr
    obtain ⟨number, us, rfl, -, hv⟩ := cons_of_accepts hv
    obtain ⟨x, xs, rfl, -, hd⟩ := hd.uncons
    obtain ⟨hle, hd⟩ := describes_drop hd
    rw [← hv.length_eq, List.length_replicate] at hle hd
    simp only [Source.primitive, if_neg (Nat.not_lt.2 hle)]
    split
    · trivial
    · exact call_sound fun _ => .cons trivial hd
  | unassigned code => cases hknown

theorem Describes.entry {stack : Stack} {xs : List Word} (hd : Describes w stack xs) {i : Nat}
    {v : Value} (h : stack[i]? = some v) : ∃ z, xs[i]? = some z ∧ v.Describes w z := by
  induction hd generalizing i with
  | nil => simp at h
  | cons hx _ ih =>
    cases i with
    | zero =>
      obtain rfl := Option.some.inj h
      exact ⟨_, rfl, hx⟩
    | succ i => exact ih h

/-- An entry that is picked by a known index. -/
theorem nth_sound {index v : Value} {x : Word} {xs : List Word} (hx : index.Describes w x)
    (hd : Describes w rest xs) (h : nth op index rest = .ok v) :
    ∃ z, xs[x.toNat]? = some z ∧ v.Describes w z := by
  obtain ⟨n, rfl, hpos, hv⟩ := nth_ok h
  obtain rfl : x = n.toBitVec := hx
  -- a positive number is its own unsigned value
  have hcond : n.toInt = _ := n.toBitVec.toInt_eq_toNat_cond
  have hlt := n.toBitVec.isLt
  have hindex : n.toInt.toNat = n.toBitVec.toNat := by
    split at hcond <;> omega
  rw [← hindex]
  exact hd.entry hv

/-! ## Operations -/

/-- **One operation.** What it leaves on the stack is described by what the check leaves, and there are
operands enough. -/
theorem step_sound {stack next : Stack} (hplain : op.action.isStructural = false)
    (h : step op stack = .ok next) (hd : Describes w stack st.stack) :
    Keeps w next (Source.plain w op st) := by
  obtain ⟨hknown, vs, rest, rfl, hv, hnext⟩ := step_cases h
  obtain ⟨hget, index, v, rfl, hnth, rfl⟩ | ⟨hget, rs, hr, rfl⟩ := hnext
  · obtain ⟨stack, calls⟩ := st
    obtain ⟨x, xs, rfl, hx, hd⟩ := hd.uncons
    obtain ⟨z, hz, hvz⟩ := nth_sound hx hd hnth
    simp only [Source.plain, hget, Source.primitive, Source.rearrange, hz]
    exact .cons hvz hd
  · unfold Source.plain
    unfold results at hr
    cases ha : op.action with
    | keyword k =>
      rw [ha] at hplain
      cases hplain
    | unassigned code =>
      rw [ha] at hknown
      cases hknown
    | primitive p =>
      rw [ha] at hr hv hget hknown
      exact primitive_sound (fun hp => hget (congrArg _ hp)) hknown hv hr hd
    | pushInt | pushCString | pushArray =>
      rw [ha] at hr hv
      obtain ⟨⟩ := hv
      obtain rfl := Except.ok.inj hr
      exact .cons rfl hd
    | pushString =>
      rw [ha] at hr hv
      obtain ⟨⟩ := hv
      cases hbytes : Literal.unquote op.token.text with
      | error e => simp [hbytes] at hr
      | ok bytes =>
        simp only [hbytes] at hr
        obtain rfl := Except.ok.inj hr
        refine .cons rfl (.cons ?_ hd)
        exact (BitVec.ofInt_natCast 64 bytes.length).symm

/-! ## Programs without structural operations -/

/-- What is seen of a run within `bound` words, at the end of which `final` describes the stack. -/
def Expected (w : World) (final : Stack) (bound : Nat) : Visit → Prop
  | .seen .finish words => Describes w final words ∧ words.length ≤ bound
  | .seen _ words => words.length ≤ bound
  | .breach _ => False

theorem Expected.mono {final : Stack} {m n : Nat} (hmn : m ≤ n) {v : Visit}
    (h : Expected w final m v) : Expected w final n v := by
  unfold Expected at h ⊢
  split at h
  · exact ⟨h.1, by omega⟩
  · omega
  · exact h

theorem Expected.depth_le {final : Stack} {n : Nat} {v : Visit} (h : Expected w final n v) :
    v.depth ≤ n := by
  unfold Expected at h
  split at h
  · exact h.2
  · exact h
  · exact h.elim

theorem pushes_le (a : Action) : pushes a ≤ (patterns a).length + 2 := by
  cases a with
  | keyword k => cases k <;> decide
  | primitive p => cases p <;> simp [pushes, patterns]
  | _ => simp [pushes, patterns]

/-- **A run straight through a program** shows what the check expects, never runs out of operands, and
comes to an end. -/
theorem run_straight {l : Bool} {c : BlockTree.Code l} {stack final : Stack}
    (hplain : ∀ op ∈ c.flatten, op.action.isStructural = false)
    (hs : steps c.flatten stack = .ok final) (hd : Describes w stack st.stack) (n : Nat) :
    (∀ v ∈ (Source.visits w).trace n ⟨[.code c], st⟩,
      Expected w final (st.stack.length + 2 * c.flatten.length) v) ∧
    (Source.visits w).after n ⟨[.code c], st⟩ ≠ .failed ∧
    (c.flatten.length < n → ∀ cfg, (Source.visits w).after n ⟨[.code c], st⟩ ≠ .running cfg) := by
  induction n generalizing c stack st with
  | zero => exact ⟨by simp [System.trace], by simp [System.after], by simp⟩
  | succ n ih =>
    cases c with
    | nil =>
      obtain rfl := Except.ok.inj hs
      have hlast : Source.visits w ⟨[.code (.nil : BlockTree.Code l)], st⟩ =
          ([.seen .finish st.stack], .ended) := rfl
      simp only [System.trace, System.after, hlast]
      exact ⟨by simpa [Expected] using hd, by simp, by simp⟩
    | plain op rest =>
      have hop : op.1.action.isStructural = false := hplain op.1 (by simp [BlockTree.Code.flatten])
      obtain ⟨next, hnext, hs⟩ := steps_cons_ok hs
      have hkeeps := step_sound hop hnext hd
      have hlen := length_step hnext
      have hle := pushes_le op.1.action
      have hlength := hd.length_eq
      have hone : Source.visits w ⟨[.code (.plain op rest)], st⟩ =
          ([Source.visit op.1 st], Source.proceed [.code rest] (Source.plain w op.1 st)) := rfl
      have hseen : Expected w final (st.stack.length + 2 * (rest.flatten.length + 1))
          (Source.visit op.1 st) := by
        change st.stack.length ≤ _
        omega
      simp only [System.trace, System.after, hone, BlockTree.Code.flatten, List.length_cons]
      cases hplainOp : Source.plain w op.1 st with
      | running st' =>
        rw [hplainOp] at hkeeps
        have hlength' := List.Forall₂.length_eq (hkeeps : Describes w next st'.stack)
        obtain ⟨htrace, hfail, hend⟩ := ih (fun o ho => hplain o (List.mem_cons_of_mem _ ho)) hs hkeeps
        simp only [Source.proceed, List.singleton_append, List.forall_mem_cons]
        refine ⟨⟨hseen, fun v hv => (htrace v hv).mono (by omega)⟩, hfail, fun hn => hend (by omega)⟩
      | ended | faulted =>
        simp only [Source.proceed, List.append_nil, List.forall_mem_singleton]
        exact ⟨hseen, by simp, by simp⟩
      | failed =>
        rw [hplainOp] at hkeeps
        exact hkeeps.elim
    | leave op rest =>
      have hop := hplain op.1 (by simp [BlockTree.Code.flatten])
      rw [op.2] at hop
      cases hop
    | cond head body chain rest =>
      have hop := hplain head.opener.1 (by simp [BlockTree.Code.flatten, BlockTree.Head.ops])
      rw [head.opener.2] at hop
      cases hop
    | loop head body done rest =>
      have hop := hplain head.opener.1 (by simp [BlockTree.Code.flatten, BlockTree.Head.ops])
      rw [head.opener.2] at hop
      cases hop

/-- A program without structural operations is a tree of its own. -/
theorem exists_straight {prog : Program} (h : ∀ op ∈ prog, op.action.isStructural = false) :
    ∃ c : BlockTree.Code false, c.flatten = prog := by
  induction prog with
  | nil => exact ⟨.nil, rfl⟩
  | cons op prog ih =>
    obtain ⟨hop, hprog⟩ := List.forall_mem_cons.1 h
    obtain ⟨c, rfl⟩ := ih hprog
    exact ⟨.plain ⟨op, hop⟩ c, rfl⟩

end

/-- **The abstract stack of the check is right** for programs without structural operations. In
whatever surroundings the generated code runs, no instruction goes past the bottom of the stack; where
the run comes to the end of the program, the stack has the depth that the check says, known numbers
are on it, and pointers are the addresses they should be; and the run ends, or a division faults. -/
theorem run_sound {tokens : List Token} {prog : Program} {analysis : Analysis}
    (hprog : Program.ofTokens tokens = .ok prog) (hcheck : run prog = .ok analysis)
    (hplain : ∀ op ∈ prog, op.action.isStructural = false) :
    ∃ table, Blocks.resolve prog = .ok table ∧
      ∀ wish a, Codegen.generate prog table analysis wish = .ok a → a.code.size < 2 ^ 64 →
        (∀ op ∈ prog, op.action = .pushString →
          ∀ bytes, Literal.unquote op.token.text = .ok bytes → bytes.length < 2 ^ 31) →
        ∀ (w : World) (room : Nat) (d : Data), w.Sane room → 2 * prog.length + 16 ≤ room →
          d.regs .rsp = w.base → d.mem.load 8 w.base = w.argc →
          ∃ s, boot a.code.toList d = some s ∧
            (∀ k i, .breach i ∉ (visits w prog a.code.toList).trace k s) ∧
            (∀ k words, .seen .finish words ∈ (visits w prog a.code.toList).trace k s →
              Describes w analysis.stack words) ∧
            ∃ k, (visits w prog a.code.toList).after k s = .ended ∨
              (visits w prog a.code.toList).after k s = .faulted := by
  have hi : prog.Indexed := fun i op hop => Program.index_ofTokens hprog hop
  obtain ⟨c, rfl⟩ := exists_straight hplain
  have hblocks := Blocks.resolve_flatten hi
  refine ⟨_, hblocks, fun wish a hgen hsize hfits w room d hw hroom hsp hargc => ?_⟩
  obtain ⟨c', hc', rfl, hb⟩ := Codegen.built_of_generate hprog hcheck hblocks hgen hsize hfits
  obtain rfl := BlockTree.Code.flatten_inj hc'.symm
  obtain ⟨stack, hsteps, rfl⟩ := Failure.of_map_ok hcheck
  obtain ⟨s, hboot, hrun⟩ := answers_run hw hb hsp hargc
  have hempty : Describes w [] (⟨[], 0⟩ : Source.State).stack := .nil
  have hstraight := run_straight hplain hsteps hempty
  have hanswers := fun n => hrun n fun v hv => by
    have hdepth := ((hstraight n).1 v hv).depth_le
    simp only [List.length_nil] at hdepth
    omega
  -- what the machine has shown after `k` lines the source has shown after `k` operations
  have hshown : ∀ k v, v ∈ (visits w c.flatten (textOf c _ _)).trace k s → Expected w stack _ v :=
    fun k v hv => (hstraight k).1 v
      (((hanswers k).isPrefix (Nat.le_refl k) (hstraight k).2.1).subset hv)
  refine ⟨s, hboot, fun k i hv => hshown k _ hv, fun k words hv => (hshown k _ hv).1, ?_⟩
  obtain ⟨-, hfail, hend⟩ := hstraight (c.flatten.length + 1)
  obtain ⟨k, -, hagrees⟩ := (hanswers (c.flatten.length + 1)).agrees
  cases hafter : (Source.visits w).after (c.flatten.length + 1) (Source.start c) with
  | running cfg => exact absurd hafter (hend (Nat.lt_succ_self _) cfg)
  | ended =>
    rw [hafter] at hagrees
    exact ⟨k, .inl hagrees.eq_ended⟩
  | faulted =>
    rw [hafter] at hagrees
    exact ⟨k, .inr hagrees.eq_faulted⟩
  | failed => exact absurd hafter hfail

/-- Leaves a negative number, a string and a pointer to the arguments. -/
def leaving : Program :=
  [Codegen.operation 0 .integer "7" .pushInt, Codegen.operation 1 .integer "10" .pushInt,
   Codegen.operation 2 .word "MINUS" (.primitive .minus),
   Codegen.operation 3 .string "\"ab\"" .pushString, Codegen.operation 4 .word "ARGV" (.primitive .argv)]

theorem run_sound_leaving : ∃ analysis table a s,
    Program.ofTokens (leaving.map (·.token)) = .ok leaving ∧ run leaving = .ok analysis ∧
    Blocks.resolve leaving = .ok table ∧ Codegen.generate leaving table analysis 0 = .ok a ∧
    boot a.code.toList Codegen.idleData = some s ∧
    (∀ k words, .seen .finish words ∈ (visits Codegen.idle leaving a.code.toList).trace k s →
      words = [0x10008#64, 0x2000#64, 2#64, -3#64]) ∧
    ∃ k, (visits Codegen.idle leaving a.code.toList).after k s = .ended ∨
      (visits Codegen.idle leaving a.code.toList).after k s = .faulted := by
  have hp : Program.ofTokens (leaving.map (·.token)) = .ok leaving := by decide +kernel
  have hbytes : Literal.unquote "\"ab\"" = .ok "ab" := rfl
  have hsound : Program.Sound leaving := by
    simp [Program.Sound, leaving, Codegen.operation, Operation.Sound, hbytes]
  have hi : Program.Indexed leaving := by decide
  have hcheck : run leaving = .ok ⟨[.ptr .argv, .ptr (.data (.string 3)), .known 2, .known (-3)],
      statics leaving⟩ := rfl
  obtain ⟨table, hblocks, hall⟩ := run_sound hp hcheck (by decide)
  obtain rfl := Except.ok.inj (hblocks.symm.trans rfl)
  have hgen := Codegen.generate_eq_layout hsound hi hblocks (statics_of_run hcheck) 0
  have hfits : ∀ op ∈ leaving, op.action = .pushString →
      ∀ bytes, Literal.unquote op.token.text = .ok bytes → bytes.length < 2 ^ 31 := by
    intro op ho ha bytes hb
    simp only [leaving, List.mem_cons, List.not_mem_nil, or_false] at ho
    rcases ho with rfl | rfl | rfl | rfl | rfl
    all_goals cases ha
    obtain rfl := Except.ok.inj (hbytes.symm.trans hb)
    decide
  obtain ⟨s, hboot, -, hend, hended⟩ := hall 0 _ hgen (by decide +kernel) hfits Codegen.idle 64
    Codegen.idleData Codegen.idle_sane (by decide) rfl (Memory.load_store (n := 8) _ (by decide) _ _)
  refine ⟨_, _, _, s, hp, hcheck, hblocks, hgen, hboot, fun k words hw => ?_, hended⟩
  obtain _ | ⟨rfl, _ | ⟨rfl, _ | ⟨rfl, _ | ⟨rfl, ⟨⟩⟩⟩⟩⟩ := hend k words hw
  decide +kernel

end Check

end StackLang
