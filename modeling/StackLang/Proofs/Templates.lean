import StackLang.Proofs.Layout
import StackLang.Proofs.PowerLoop

/-!
# The lines of an operation

What the machine does with the lines of one operation that takes no part in the block structure: on
the operand stack it does what the operation means, and it goes on behind the lines.

- `exec_rearrange`: the primitives that concern the stack alone.
- `run_power`: the loop of a power.
- `answers_primitive`: every primitive. `answers_template`: every such operation.
-/

set_option autoImplicit false

namespace StackLang.Machine

open Assembly Codegen

/-! ## Lines on lists -/

/-- The lines do to every view with the stack `st` what makes it `st'`. -/
def Turns (w : World) (ls : List Line) (st st' : List Word) : Prop :=
  ∀ v : View, v.stack = st → ∃ v', View.execAll w ls v = some v' ∧ v'.stack = st'

theorem turns_of (w : World) {ls : List Line} {st st' : List Word}
    (h : ∀ regs flags, ∃ v', View.execAll w ls ⟨regs, flags, st⟩ = some v' ∧ v'.stack = st') :
    Turns w ls st st' := by
  rintro ⟨regs, flags, stack⟩ rfl
  exact h regs flags

theorem execAll_cons {w : World} {i : Instruction} {ls : List Line} {v v1 v' : View}
    (h : View.exec w i v = some v1) (h' : View.execAll w ls v1 = some v') :
    View.execAll w (.instruction i :: ls) v = some v' :=
  Option.bind_eq_some_iff.2 ⟨v1, h, h'⟩

/-- The byte that a comparison sets, in a register that was cleared. -/
theorem set_byte (x : BitVec 32) (t : Bool) :
    ((x ^^^ x).setWidth 64).extractLsb' 8 56 ++ (if t then 1#8 else 0#8)
      = if t then 1#64 else 0#64 := by
  rw [BitVec.xor_self]
  cases t <;> decide

theorem turns_compare (w : World) (c : Condition) (a b : Word) (s : List Word) :
    Turns w (compare c) (b :: a :: s) ((if compares a b c then 1#64 else 0#64) :: s) := by
  refine turns_of w fun regs flags => ⟨_, rfl, ?_⟩
  rw [← holds_sub]
  exact congrArg (· :: s) (set_byte ((regs .rcx).setWidth 32) _)

theorem exec_idiv (w : World) {a b : Word} (h : Source.faults a b = false) {v : View}
    (hrax : v.regs .rax = a) (hrdx : v.regs .rdx = if a.msb then BitVec.allOnes 64 else 0#64)
    (hrbx : v.regs .rbx = b) : View.exec w (.unary .idiv (q .rbx)) v =
      some ⟨(v.regs.set .rax (a.sdiv b)).set .rdx (a.srem b), none, v.stack⟩ := by
  have hdiv := divide_signed h (v.data fun _ => 0#8)
  rw [← toInt_extended a, ← hrdx, ← hrbx] at hdiv
  subst hrax hrbx
  exact Option.map_eq_some_iff.2 ⟨_, hdiv, rfl⟩

theorem exec_arithmetic (w : World) {p : Primitive} {a b x : Word}
    (h : Source.arithmetic p a b = some x) (hp : p ≠ .pow) (size index : Int) (s : List Word) :
    ∃ ls, primitive size index p = some ls ∧ ls.length ≤ 16 ∧ Turns w ls (b :: a :: s) (x :: s) := by
  cases p with
  | plus | minus | mul | and | or =>
    obtain rfl := Option.some.inj h
    exact ⟨_, rfl, by decide, turns_of w fun _ _ => ⟨_, rfl, rfl⟩⟩
  | eq | ne | gt | ge | lt | le =>
    rw [arithmetic_compare rfl] at h
    obtain rfl := Option.some.inj h
    exact ⟨_, rfl, by decide, turns_compare w _ a b s⟩
  | pow => exact absurd rfl hp
  | _ => cases h

/-- **Rearranging and computing.** -/
theorem exec_rearrange (w : World) {p : Primitive} {st st' : List Word}
    (h : Source.rearrange p st = some st') (hp : p ≠ .pow) (size index : Int) :
    ∃ ls, primitive size index p = some ls ∧ ls.length ≤ 16 ∧ Turns w ls st st' := by
  unfold Source.rearrange at h
  split at h
  case h_8 n s =>
    obtain ⟨x, hx, rfl⟩ := Option.map_eq_some_iff.1 h
    refine ⟨_, rfl, by decide, turns_of w fun regs flags => ?_⟩
    exact ⟨_, execAll_cons rfl (execAll_cons (Option.map_eq_some_iff.2 ⟨x, hx, rfl⟩) rfl), rfl⟩
  case h_9 =>
    obtain ⟨x, hx, rfl⟩ := Option.map_eq_some_iff.1 h
    exact exec_arithmetic w hx hp size index _
  case h_10 => cases h
  all_goals
    obtain rfl := Option.some.inj h
    exact ⟨_, rfl, by decide, turns_of w fun _ _ => ⟨_, rfl, rfl⟩⟩

/-! ## Pushes -/

theorem turns_pushNumber (w : World) (n : Int64) (s : List Word) :
    Turns w (pushNumber n) s (n.toBitVec :: s) ∧ (pushNumber n).length ≤ 16 := by
  have hn : BitVec.ofInt 64 n.toInt = n.toBitVec := BitVec.ofInt_toInt
  unfold pushNumber
  split
  · rename_i hf
    simp only [fitsPush, Bool.and_eq_true, decide_eq_true_eq] at hf
    refine ⟨turns_of w fun _ _ => ⟨_, rfl, ?_⟩, by simp⟩
    rw [← hn, ← immediate_of_fits (by omega) (by omega)]
    rfl
  · refine ⟨turns_of w fun _ _ => ⟨_, rfl, ?_⟩, by simp⟩
    rw [← hn]
    rfl

theorem turns_pushAddress (w : World) (sym : Text) (s : List Word) :
    Turns w (pushAddress sym) s (w.address sym :: s) :=
  turns_of w fun _ _ => ⟨_, rfl, rfl⟩

theorem turns_pushLength (w : World) (sym : Text) (n : Int) (s : List Word) :
    Turns w (op1 .push (.imm n) :: pushAddress sym) s
      (w.address sym :: Data.immediate false n .qword :: s) :=
  turns_of w fun _ _ => ⟨_, rfl, rfl⟩

theorem turns_pushString (w : World) (sym : Text) {n : Nat} (hn : n < 2 ^ 31) (s : List Word) :
    Turns w (op1 .push (.imm n) :: pushAddress sym) s
      (w.address sym :: BitVec.ofNat 64 n :: s) := by
  have himm : Data.immediate false n .qword = BitVec.ofNat 64 n := by
    rw [immediate_of_fits (by omega) (by omega), BitVec.ofInt_natCast]
  rw [← himm]
  exact turns_pushLength w sym n s

/-! ## Lines of the machine -/

/-- The machine is about to run a line, with the stack of a state of the source. -/
def Matches (w : World) (room line : Nat) (st : Source.State) (s : State) : Prop :=
  ∃ v m, s = ⟨line, v.data m, st.calls⟩ ∧ Backs w room m v ∧ v.stack = st.stack

/-- What is used of the text that a program is part of: it starts with the frame, labels lead to
their lines, and comments and labels mark the operations of the program and nothing else. -/
structure Linked (prog : Program) (code : List Line) : Prop where
  frame : preamble <+: code
  short : code.length < 2 ^ 64
  resolves : ∀ (j : Nat) (name : Text), code[j]? = some (.label name) →
    name.head? ≠ some (Text.byte '.') → ∀ pc, destination code pc name = some j
  quiet : ∀ l ∈ preamble, point? prog l = none
  quiet_power : ∀ i : Nat, point? prog (.label ("POW_" ++ Text.ofInt i ++ "_loop")) = none ∧
    point? prog (.label ("POW_" ++ Text.ofInt i ++ "_done")) = none
  start : ∀ op ∈ prog, point? prog (.comment (remark op)) = some (.start op)
  label : ∀ op ∈ prog, BlockTree.isLanding op.action = true →
    point? prog (.label op.label) = some (.label op)

section
variable {w : World} {room : Nat} {prog : Program} {code : List Line} (hw : w.Sane room)
include hw

/-- Lines that turn one stack into another. -/
theorem run_turns {ls : List Line} {pc : Nat} {st : Source.State} {stack : List Word} {s : State}
    (hat : ls <+: code.drop pc) (ht : Turns w ls st.stack stack) (hm : Matches w room pc st s)
    (hr : st.stack.length + ls.length ≤ room) :
    ∃ s', (visits w prog code).Reaches 0 s [] (.running s') ∧
      Matches w room (pc + ls.length) { st with stack } s' := by
  obtain ⟨v, m, rfl, hb, hst⟩ := hm
  obtain ⟨v', he, hst'⟩ := ht v hst
  obtain ⟨m', hrun, hb'⟩ := run_block prog hw st.calls hat hb (by rw [hst]; exact hr) he
  exact ⟨_, hrun, v', m', rfl, hb', hst'⟩

/-- Lines with a system call of number `n` between others. -/
theorem answers_call (ls : List Line) (n : Word) (mid : List Word) {ms : List Line} {pc : Nat}
    {st : Source.State} {f : Word → List Word} {s : State}
    (hat : ls ++ syscall :: ms <+: code.drop pc)
    (hbefore : ∀ v : View, v.stack = st.stack →
      ∃ v', View.execAll w ls v = some v' ∧ v'.stack = mid ∧ v'.regs .rax = n)
    (hafter : ∀ (x : Word) (v : View), v.regs .rax = x → v.stack = mid →
      ∃ v', View.execAll w ms v = some v' ∧ v'.stack = f x)
    (hm : Matches w room pc st s) (hr : st.stack.length + ls.length ≤ room)
    (hr' : mid.length + ms.length ≤ room) :
    System.Answers (visits w prog code) (Matches w room (pc + (ls ++ syscall :: ms).length)) 0 s []
      (if n = 60#64 then .ended else Source.call w st.calls f) := by
  obtain ⟨v, m, rfl, hb, hst⟩ := hm
  obtain ⟨v1, he1, hst1, hrax⟩ := hbefore v hst
  obtain ⟨hls, hms⟩ := isPrefix_append hat
  obtain ⟨hsys, hms⟩ := head_of_isPrefix hms
  obtain ⟨m1, hrun1, hb1⟩ := run_block prog hw st.calls hls hb (by rw [hst]; exact hr) he1
  split
  · rename_i hn
    exact (hrun1.trans (run_syscall_ended hsys (.inl (hrax.trans hn)))).mono (Nat.zero_le _)
  rename_i hn
  unfold Source.call
  cases hx : w.reply st.calls with
  | none => exact (hrun1.trans (run_syscall_ended hsys (.inr hx))).mono (Nat.zero_le _)
  | some x =>
    obtain ⟨m2, regs, hreg, hrun2, hb2⟩ := run_syscall hw hsys hb1 (hrax ▸ hn) hx
    obtain ⟨v3, he3, hst3⟩ := hafter x ⟨regs, none, v1.stack⟩ hreg hst1
    obtain ⟨m3, hrun3, hb3⟩ := run_block prog hw (st.calls + 1) hms hb2 (by rw [hst1]; exact hr') he3
    have hend : pc + ls.length + 1 + ms.length = pc + (ls ++ syscall :: ms).length := by
      rw [List.length_append, List.length_cons]
      omega
    refine ⟨_, ((hrun1.trans hrun2).trans hrun3).mono (Nat.zero_le _), v3, m3, ?_, hb3, hst3⟩
    rw [hend]

/-! ## Powers -/

omit hw in
/-- The lines of the loop of a power show nothing. -/
theorem shown_loopLines (hc : Linked prog code) {index : Nat} {d : Data} {l : Line}
    (hl : l ∈ loopLines index) : shown w prog d l = [] := by
  obtain ⟨hloop, hdone⟩ := hc.quiet_power index
  simp only [loopLines, power, List.drop_succ_cons, List.drop_zero, List.take_succ_cons,
    List.take_zero, List.mem_cons, List.not_mem_nil, or_false] at hl
  rcases hl with rfl | rfl | rfl | rfl | rfl | rfl | rfl
  · simp only [shown, hloop, Option.toList_none, List.map_nil]
  · rfl
  · rfl
  · rfl
  · rfl
  · rfl
  · simp only [shown, hdone, Option.toList_none, List.map_nil]

omit hw in
/-- The loop of a power, from its label to behind its end. -/
theorem run_powerLoop (hc : Linked prog code) {index pc : Nat}
    (hat : power index <+: code.drop pc) (calls : Nat) {v : View} {m : Memory}
    (hb : Backs w room m v) :
    ∃ v', (visits w prog code).Reaches 0 ⟨pc + 3, v.data m, calls⟩ []
        (.running ⟨pc + 10, v'.data m, calls⟩) ∧ Backs w room m v' ∧ v'.stack = v.stack ∧
      v'.regs .rax = v.regs .rax * v.regs .rbx ^ (v.regs .rcx).toInt.toNat := by
  obtain ⟨⟨regs, flags, m'⟩, hrun, hrsp, rfl, hrax⟩ :=
    runs_powerLoop (w := w) (powerAt_of_resolves hat hc.resolves) calls _ (d := v.data m) rfl
  exact ⟨⟨regs, flags, v.stack⟩, hrun.reaches fun d l hl => shown_loopLines hc hl,
    hb.regs hrsp flags, rfl, hrax⟩

/-- **The lines of a power.** -/
theorem run_power (hc : Linked prog code) {index pc : Nat} (hat : power index <+: code.drop pc)
    {st : Source.State} {a e : Word} {stack : List Word} (hst : st.stack = e :: a :: stack)
    {s : State} (hm : Matches w room pc st s) (hr : st.stack.length + 16 ≤ room) :
    ∃ s', (visits w prog code).Reaches 0 s [] (.running s') ∧
      Matches w room (pc + (power index).length)
        { st with stack := a ^ e.toInt.toNat :: stack } s' := by
  obtain ⟨⟨regs, flags, _⟩, m, rfl, hb, rfl⟩ := hm
  rw [hst] at hb hr
  have hfirst : [pop .rcx, pop .rbx, op2 .mov (d .rax) (.imm 1)] <+: code.drop pc :=
    part_of_isPrefix (i := 0) hat ⟨_, rfl⟩
  have hlast : [push .rax] <+: code.drop (pc + 10) := part_of_isPrefix hat ⟨_, rfl⟩
  obtain ⟨v1, he1, rfl, rfl, rfl, hone⟩ : ∃ v1,
      View.execAll w [pop .rcx, pop .rbx, op2 .mov (d .rax) (.imm 1)] ⟨regs, flags, e :: a :: stack⟩
        = some v1 ∧ v1.stack = stack ∧ v1.regs .rcx = e ∧ v1.regs .rbx = a ∧ v1.regs .rax = 1#64 :=
    ⟨_, rfl, rfl, rfl, rfl, rfl⟩
  simp only [List.length_cons] at hr
  obtain ⟨m1, h1, hb1⟩ := run_block prog hw st.calls hfirst hb (by simp; omega) he1
  obtain ⟨v2, h2, hb2, hst2, hrax⟩ := run_powerLoop hc hat st.calls hb1
  have he3 : View.execAll w [push .rax] v2 = some (v2.push (v2.regs .rax)) := rfl
  obtain ⟨m3, h3, hb3⟩ := run_block prog hw st.calls hlast hb2 (by rw [hst2]; simp; omega) he3
  refine ⟨_, ((h1.trans h2).trans h3).mono (Nat.zero_le _), _, m3, rfl, hb3, ?_⟩
  have hproduct : v2.regs .rax = v1.regs .rbx ^ (v1.regs .rcx).toInt.toNat := by
    rw [hrax, hone]
    exact BitVec.one_mul _
  rw [View.push, hst2, hproduct]

/-! ## Pops -/

omit hw in
theorem exec_pop {r : Register} (hr : r ≠ .rsp) (regs : Registers) (flags : Option Flags) (x : Word)
    (stack : List Word) : View.exec w (.unary .pop (q r)) ⟨regs, flags, x :: stack⟩
      = some ⟨(regs.set .rsp (regs .rsp + 8#64)).set r x, flags, stack⟩ := by
  cases r <;> first | rfl | exact absurd rfl hr

omit hw in
/-- Pops into registers other than the stack pointer and `rax`. -/
theorem exec_pops {rs : List Register} (hrs : ∀ r ∈ rs, r ≠ .rsp ∧ r ≠ .rax) {v : View}
    (hlen : rs.length ≤ v.stack.length) : ∃ v', View.execAll w (rs.map pop) v = some v' ∧
      v'.stack = v.stack.drop rs.length ∧ v'.regs .rax = v.regs .rax := by
  induction rs generalizing v with
  | nil => exact ⟨v, rfl, rfl, rfl⟩
  | cons r rs ih =>
    obtain ⟨⟨hsp, hax⟩, hrs⟩ := List.forall_mem_cons.1 hrs
    obtain ⟨regs, flags, stack⟩ := v
    cases stack with
    | nil => simp at hlen
    | cons x stack =>
      obtain ⟨v', he, hst, hrax⟩ := ih hrs (v := ⟨_, flags, stack⟩) (by simpa using hlen)
      refine ⟨v', execAll_cons (exec_pop hsp regs flags x stack) he, hst, hrax.trans ?_⟩
      dsimp only
      rw [Registers.set_of_ne _ hax.symm, Registers.set_of_ne _ (by decide)]

/-! ## Primitives -/

section
variable {pc : Nat} {st : Source.State} {s : State} (hm : Matches w room pc st s)
  (hr : st.stack.length + 16 ≤ room)
include hm hr

/-- Lines that turn the stack answer a run that goes on with it. -/
theorem answers_turns {ls : List Line} {stack : List Word} (hat : ls <+: code.drop pc)
    (ht : Turns w ls st.stack stack) (hlen : ls.length ≤ 16) :
    System.Answers (visits w prog code) (Matches w room (pc + ls.length)) 0 s []
      (.running { st with stack }) :=
  run_turns hw hat ht hm (by omega)

/-- Lines that divide: the registers that are pushed hold what is left on the stack. -/
theorem answers_divide {a b : Word} {stack : List Word} (hst : st.stack = b :: a :: stack)
    (wanted : List Register) (hlen : wanted.length ≤ 2) (f : Word → Word → List Word)
    (hpush : ∀ v : View, v.stack = stack → ∃ v', View.execAll w (wanted.map push) v = some v' ∧
      v'.stack = f (v.regs .rax) (v.regs .rdx))
    (hat : divide wanted <+: code.drop pc) :
    System.Answers (visits w prog code) (Matches w room (pc + (divide wanted).length)) 0 s []
      (Source.divide a b st.calls f) := by
  unfold Source.divide
  split
  · rename_i hf
    obtain ⟨⟨regs, flags, _⟩, m, rfl, hb, rfl⟩ := hm
    rw [hst] at hb hr
    simp only [List.length_cons] at hr
    obtain ⟨v1, he1, hrax, hrdx, hrbx⟩ : ∃ v1, View.execAll w [pop .rbx, pop .rax, op0 .cqo]
        ⟨regs, flags, b :: a :: stack⟩ = some v1 ∧ v1.regs .rax = a ∧
        v1.regs .rdx = (if a.msb then BitVec.allOnes 64 else 0#64) ∧ v1.regs .rbx = b :=
      ⟨_, rfl, rfl, rfl, rfl⟩
    have hfirst : [pop .rbx, pop .rax, op0 .cqo] <+: code.drop pc :=
      part_of_isPrefix (i := 0) hat ⟨_, rfl⟩
    obtain ⟨m1, h1, -⟩ := run_block prog hw st.calls hfirst hb (by simp; omega) he1
    have hdiv := divide_faults hf (v1.data m1)
    rw [← toInt_extended a, ← hrdx, ← hrbx] at hdiv
    subst hrax
    have hline : code[pc + 3]? = some (.instruction (.unary .idiv (q .rbx))) :=
      line_of_isPrefix hat rfl
    exact (h1.trans (run_fault hline rfl hdiv)).mono (Nat.zero_le _)
  · rename_i hf
    have ht : Turns w (divide wanted) st.stack (f (a.sdiv b) (a.srem b)) := by
      rw [hst]
      refine turns_of w fun regs flags => ?_
      obtain ⟨v', hv, hv'⟩ := hpush ⟨_, none, stack⟩ rfl
      exact ⟨v', execAll_cons rfl (execAll_cons rfl (execAll_cons rfl
        (execAll_cons (exec_idiv w (Bool.eq_false_iff.2 hf) rfl rfl rfl) hv))), hv'⟩
    exact answers_turns hw hm hr hat ht (by simp [divide]; omega)

theorem answers_printInt (hc : Linked prog code) {x : Word} {stack : List Word}
    (hst : st.stack = x :: stack)
    (hat : [pop .rdi, .instruction (.call printInt)] <+: code.drop pc) :
    System.Answers (visits w prog code) (Matches w room (pc + 2)) 0 s []
      (Source.call w st.calls fun _ => stack) := by
  rw [hst] at hr
  simp only [List.length_cons] at hr
  have hpop : Turns w [pop .rdi] st.stack stack := by
    rw [hst]
    exact turns_of w fun _ _ => ⟨_, rfl, rfl⟩
  obtain ⟨s1, h1, v, m, rfl, hb, hv⟩ : ∃ s1, (visits w prog code).Reaches 0 s [] (.running s1) ∧
      Matches w room (pc + 1) { st with stack } s1 :=
    run_turns hw (part_of_isPrefix (i := 0) hat ⟨_, rfl⟩) hpop hm (by rw [hst]; simp; omega)
  obtain ⟨rest, rfl⟩ := hc.frame
  obtain ⟨hnone, hsome⟩ := run_print rest hc.quiet hw hc.short (line_of_isPrefix hat (i := 1) rfl) hb
    (by rw [hv]; dsimp only; omega)
  unfold Source.call
  cases hx : w.reply st.calls with
  | none => exact (h1.trans (hnone hx)).mono (Nat.zero_le _)
  | some y =>
    obtain ⟨m', regs, flags, h2, hb'⟩ := hsome y hx
    exact ⟨_, (h1.trans h2).mono (Nat.zero_le _), _, m', rfl, hb', hv⟩

theorem answers_puts {a n : Word} {stack : List Word} (hst : st.stack = a :: n :: stack)
    {size index : Int} {ls : List Line} (hls : primitive size index .puts = some ls)
    (hat : ls <+: code.drop pc) :
    System.Answers (visits w prog code) (Matches w room (pc + ls.length)) 0 s []
      (Source.call w st.calls fun _ => stack) := by
  obtain rfl := Option.some.inj hls
  rw [hst] at hr
  simp only [List.length_cons] at hr
  refine answers_call hw [_, _, _, _] 1#64 stack hat ?_ ?_ hm ?_ ?_
  · rintro ⟨regs, flags, _⟩ rfl
    rw [hst]
    exact ⟨_, rfl, rfl, rfl⟩
  · rintro x v - rfl
    exact ⟨v, rfl, rfl⟩
  · rw [hst]
    simp
    omega
  · simp
    omega

theorem answers_input {size : Int} {index : Int} {ls : List Line}
    (hls : primitive size index .input = some ls) (hat : ls <+: code.drop pc) :
    System.Answers (visits w prog code) (Matches w room (pc + ls.length)) 0 s []
      (Source.call w st.calls fun x => w.address (Symbol.input index).name :: x :: st.stack) := by
  obtain rfl := Option.some.inj hls
  refine answers_call hw [_, _, _, _] 0#64 st.stack hat ?_ ?_ hm ?_ ?_
  · rintro ⟨regs, flags, _⟩ rfl
    have hzero : ((regs .rax).setWidth 32 ^^^ (regs .rax).setWidth 32).setWidth 64 = 0#64 := by
      rw [BitVec.xor_self]
      rfl
    exact ⟨_, rfl, rfl, hzero⟩
  · rintro x ⟨regs, flags, _⟩ rfl rfl
    exact ⟨_, rfl, rfl⟩
  · simp
    omega
  · change st.stack.length + 3 ≤ room
    omega

theorem answers_syscall {args : Fin 7} {number : Word} {stack : List Word}
    (hst : st.stack = number :: stack) (hlen : args ≤ stack.length)
    {size index : Int} {ls : List Line} (hls : primitive size index (.syscall args) = some ls)
    (hat : ls <+: code.drop pc) :
    System.Answers (visits w prog code) (Matches w room (pc + ls.length)) 0 s []
      (if number = 60#64 then .ended else Source.call w st.calls fun x => x :: stack.drop args) := by
  obtain rfl := Option.some.inj hls
  rw [hst] at hr
  simp only [List.length_cons] at hr
  have hregs : ∀ r ∈ (argumentRegisters.take args).reverse, r ≠ .rsp ∧ r ≠ .rax := by
    intro r hm
    have hall : ∀ r ∈ argumentRegisters, r ≠ .rsp ∧ r ≠ .rax := by decide
    exact hall r (List.mem_of_mem_take (List.mem_reverse.1 hm))
  have hargs : (argumentRegisters.take args).reverse.length = args := by
    rw [List.length_reverse, List.length_take]
    exact Nat.min_eq_left (Nat.le_of_lt_succ args.isLt)
  refine answers_call hw _ number (stack.drop args) hat ?_ ?_ hm ?_ ?_
  · rintro ⟨regs, flags, _⟩ rfl
    obtain ⟨v', he, hst', hrax⟩ := exec_pops (w := w)
      (v := ⟨(regs.set .rsp (regs .rsp + 8#64)).set .rax number, flags, stack⟩) hregs
      (by rw [hargs]; exact hlen)
    rw [hst]
    refine ⟨v', execAll_cons rfl he, ?_, hrax⟩
    rw [hst', hargs]
  · rintro x ⟨regs, flags, _⟩ rfl rfl
    exact ⟨_, rfl, rfl⟩
  · rw [hst]
    simp only [List.length_append, List.length_cons, List.length_nil, List.length_map, hargs]
    omega
  · simp only [List.length_drop, List.length_cons, List.length_nil]
    omega

theorem answers_exit {x : Word} {stack : List Word} (hst : st.stack = x :: stack)
    {size index : Int} {ls : List Line} (hls : primitive size index .exit = some ls)
    (hat : ls <+: code.drop pc) :
    System.Answers (visits w prog code) (Matches w room (pc + ls.length)) 0 s [] .ended := by
  obtain rfl := Option.some.inj hls
  rw [hst] at hr
  simp only [List.length_cons] at hr
  refine answers_call (f := fun _ => stack) hw [_, _] 60#64 stack hat ?_ ?_ hm ?_ ?_
  · rintro ⟨regs, flags, _⟩ rfl
    rw [hst]
    exact ⟨_, rfl, rfl, rfl⟩
  · rintro x v - rfl
    exact ⟨v, rfl, rfl⟩
  · rw [hst]
    simp
    omega
  · simp
    omega

theorem answers_rearrange (hc : Linked prog code) {size : Int} {index : Nat} {p : Primitive}
    {stack : List Word} (hre : Source.rearrange p st.stack = some stack)
    {ls : List Line} (hls : primitive size index p = some ls) (hat : ls <+: code.drop pc) :
    System.Answers (visits w prog code) (Matches w room (pc + ls.length)) 0 s []
      (.running { st with stack }) := by
  by_cases hp : p = .pow
  · subst hp
    obtain rfl := Option.some.inj hls
    obtain ⟨e, a, rest, hst⟩ : ∃ e a rest, st.stack = e :: a :: rest := by
      rcases hst : st.stack with _ | ⟨e, _ | ⟨a, rest⟩⟩
      · rw [hst] at hre
        cases hre
      · rw [hst] at hre
        cases hre
      · exact ⟨e, a, rest, rfl⟩
    have hpow : Source.rearrange .pow (e :: a :: rest) = some (a ^ e.toInt.toNat :: rest) :=
      congrArg (Option.map (· :: rest)) (arithmetic_pow a e)
    rw [hst, hpow] at hre
    obtain rfl := Option.some.inj hre
    exact run_power hw hc hat hst hm hr
  · obtain ⟨ls', hls', hlen, ht⟩ := exec_rearrange w hre hp size index
    obtain rfl := Option.some.inj (hls.symm.trans hls')
    exact answers_turns hw hm hr hat ht hlen

/-- **The lines of a primitive.** -/
theorem answers_primitive (hc : Linked prog code) {size : Int} {index : Nat} {p : Primitive}
    {ls : List Line} (hls : primitive size index p = some ls) (hat : ls <+: code.drop pc) :
    System.Answers (visits w prog code) (Matches w room (pc + ls.length)) 0 s []
      (Source.primitive w index p st) := by
  unfold Source.primitive
  split
  case h_1 b a stack hst | h_2 b a stack hst | h_3 b a stack hst =>
    obtain rfl := Option.some.inj hls
    refine answers_divide hw hm hr hst _ (by decide) _ ?_ hat
    rintro ⟨regs, flags, _⟩ rfl
    exact ⟨_, rfl, rfl⟩
  case h_4 x stack hst =>
    obtain rfl := Option.some.inj hls
    exact answers_printInt hw hm hr hc hst hat
  case h_5 a n stack hst => exact answers_puts hw hm hr hst hls hat
  case h_6 stack => exact answers_input hw hm hr hls hat
  case h_7 x stack hst => exact answers_exit hw hm hr hst hls hat
  case h_8 stack =>
    obtain rfl := Option.some.inj hls
    refine answers_turns hw hm hr hat (turns_of w fun regs flags => ?_) (by decide)
    exact ⟨_, execAll_cons (if_pos rfl)
      (execAll_cons (Option.map_eq_some_iff.2 ⟨w.argc, if_pos rfl, rfl⟩) rfl), rfl⟩
  case h_9 stack =>
    obtain rfl := Option.some.inj hls
    refine answers_turns hw hm hr hat (turns_of w fun regs flags => ?_) (by decide)
    exact ⟨_, execAll_cons (if_pos rfl) rfl, rfl⟩
  case h_10 args number stack hst =>
    split
    · exact ⟨_, .refl _ _⟩
    · exact answers_syscall hw hm hr hst (by omega) hls hat
  case h_11 =>
    split
    · exact ⟨_, .refl _ _⟩
    · rename_i stack hre
      exact answers_rearrange hw hm hr hc hre hls hat

/-- **The lines of an operation** that takes no part in the block structure. -/
theorem answers_template (hc : Linked prog code) {table : BlockTable} {size : Int} {op : Operation}
    (hs : op.Sound) (hidx : op.index = op.place)
    (hfit : op.action = .pushString →
      ∀ bytes, Literal.unquote op.token.text = .ok bytes → bytes.length < 2 ^ 31)
    (hat : template prog table size op <+: code.drop pc) :
    System.Answers (visits w prog code) (Matches w room (pc + (template prog table size op).length))
      0 s [] (Source.plain w op st) := by
  unfold Source.plain
  unfold template Codegen.code at hat ⊢
  unfold Operation.Sound at hs
  cases ha : op.action with
  | keyword k => exact ⟨_, .refl _ _⟩
  | unassigned code => exact ⟨_, .refl _ _⟩
  | pushInt =>
    simp only [ha] at hat ⊢
    obtain ⟨ht, hlen⟩ := turns_pushNumber w op.intValue st.stack
    exact answers_turns hw hm hr hat ht hlen
  | pushString =>
    rw [ha] at hs
    obtain ⟨bytes, hd⟩ := hs
    simp only [ha, hd] at hat ⊢
    exact answers_turns hw hm hr hat (turns_pushString w _ (hfit ha bytes hd) st.stack)
      (by simp [pushAddress])
  | pushCString =>
    simp only [ha] at hat ⊢
    exact answers_turns hw hm hr hat (turns_pushAddress w _ st.stack) (by simp [pushAddress])
  | pushArray =>
    simp only [ha] at hat ⊢
    exact answers_turns hw hm hr hat (turns_pushAddress w _ st.stack) (by simp [pushAddress])
  | primitive p =>
    simp only [ha] at hs hat ⊢
    rw [hidx] at hat ⊢
    cases hls : primitive size op.place p with
    | none =>
      cases p with
      | unassigned code => exact hs.elim
      | _ => cases hls
    | some ls =>
      simp only [hls] at hat ⊢
      exact answers_primitive hw hm hr hc hls hat

end

end

end StackLang.Machine
