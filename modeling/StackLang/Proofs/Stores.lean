import StackLang.Proofs.StackView

/-!
# What lines store

Where a line stores to can be told before it runs, from the line and the registers. All other memory
is left, so what a run keeps follows from what is known of each of its lines.

- `Data.target`: the bytes that a line stores to. `mem_of_step`: all others stay.
- `Runs`: a run of the machine through lines that all have some property.
- `Runs.mem_eq`: what no line of a run stores to stays. `Runs.reaches`: a run that shows nothing.
-/

set_option autoImplicit false

namespace StackLang.Machine

open Assembly

/-! ## Targets -/

namespace Data

/-- The memory of an operand: its first address and its number of bytes. -/
def place (d : Data) (w : World) (n : Width) : Operand → Option (Word × Nat)
  | .memory _ a => some (d.effective w a, bits n / 8)
  | .reg _ _ | .imm _ | .char _ | .symbol _ => none

/-- The memory that an instruction stores to: its first address and its number of bytes. -/
def instructionTarget (d : Data) (w : World) : Instruction → Option (Word × Nat)
  | .binary .lea _ _ | .binary .test _ _ | .binary .cmp _ _ => none
  | .binary _ dst src => ((width? dst).or (width? src)).bind fun n => d.place w n dst
  | .unary .push _ | .call _ => some (d.regs .rsp - 8#64, 8)
  | .unary .pop dst =>
    place { d with regs := d.regs.set .rsp (d.regs .rsp + 8#64) } w .qword dst
  | .unary .neg x | .unary .inc x | .unary .dec x => (width? x).bind fun n => d.place w n x
  | .set _ dst => d.place w .byte dst
  | .unary .div _ | .unary .idiv _ | .bare _ | .jump _ | .jumpIf _ _ => none

/-- The memory that a line stores to. -/
def target (d : Data) (w : World) : Line → Option (Word × Nat)
  | .instruction i => d.instructionTarget w i
  | .label _ | .verbatim _ | .comment _ | .exported _ | .blank => none

end Data

/-- An address outside some memory, if any. -/
def Outside (x : Word) (part : Option (Word × Nat)) : Prop := ∀ p ∈ part, p.2 ≤ (x - p.1).toNat

section
variable {w : World} {d d' : Data} {x : Word}

theorem Memory.write_of_le (m : Memory) {a : Word} {n : Width} (v : BitVec (bits n))
    (h : bits n / 8 ≤ (x - a).toNat) : m.write a n v x = m x := by
  cases n with
  | byte => exact Memory.store_apply_of_le (n := 1) m v h
  | dword => exact Memory.store_apply_of_le (n := 4) m v h
  | qword => exact Memory.store_apply_of_le (n := 8) m v h

theorem mem_of_assign {n : Width} {v : BitVec (bits n)} {o : Operand}
    (h : d.assign w n v o = some d') (hx : Outside x (d.place w n o)) : d'.mem x = d.mem x := by
  cases o with
  | reg r n' =>
    simp only [Data.assign] at h
    split at h
    · cases h
      rfl
    · cases h
  | memory n' a =>
    simp only [Data.assign] at h
    split at h
    · cases h
      exact Memory.write_of_le d.mem v (hx _ rfl)
    · cases h
  | imm _ | char _ | symbol _ => cases h

theorem mem_of_divide {fits : Int → Bool} {a b : Int} (h : d.divide fits a b = some d') :
    d'.mem = d.mem := by
  unfold Data.divide at h
  split at h
  · cases h
  · dsimp only at h
    split at h
    · cases h
      rfl
    · cases h

theorem mem_of_lea {dst src : Operand} (h : Data.exec w (.binary .lea dst src) d = some d') :
    d'.mem = d.mem := by
  cases dst with
  | reg r n =>
    cases src with
    | memory n' a =>
      cases n with
      | qword =>
        cases h
        rfl
      | byte | dword => cases h
    | reg _ _ | imm _ | char _ | symbol _ => cases n <;> cases h
  | imm _ | char _ | symbol _ | memory _ _ => cases h

theorem mem_of_exec {i : Instruction} (h : Data.exec w i d = some d')
    (hx : Outside x (d.instructionTarget w i)) : d'.mem x = d.mem x := by
  cases i with
  | binary o dst src =>
    by_cases ho : o = .lea
    · subst ho
      rw [mem_of_lea h]
    · rw [exec_binary ho] at h
      obtain ⟨n, hn, h⟩ := Option.bind_eq_some_iff.1 h
      obtain ⟨a, -, h⟩ := Option.bind_eq_some_iff.1 h
      obtain ⟨b, -, h⟩ := Option.bind_eq_some_iff.1 h
      split at h
      · cases h
        rfl
      · rename_i v flags hv
        have hdst : Outside x (d.place w n dst) := by
          cases o with
          | lea => exact absurd rfl ho
          | test | cmp => cases hv
          | _ => simpa only [Data.instructionTarget, hn, Option.bind_some] using hx
        exact mem_of_assign (d := ⟨d.regs, flags, d.mem⟩) h hdst
  | unary o y =>
    cases o with
    | push =>
      obtain ⟨v, -, rfl⟩ := Option.map_eq_some_iff.1 h
      exact Memory.store_apply_of_le (n := 8) d.mem v (hx _ rfl)
    | pop => exact mem_of_assign (d := ⟨d.regs.set .rsp (d.regs .rsp + 8#64), d.flags, d.mem⟩) h hx
    | div | idiv =>
      obtain ⟨b, -, h⟩ := Option.bind_eq_some_iff.1 h
      rw [mem_of_divide h]
    | neg | inc | dec =>
      obtain ⟨n, hn, h⟩ := Option.bind_eq_some_iff.1 h
      obtain ⟨a, -, h⟩ := Option.bind_eq_some_iff.1 h
      obtain ⟨⟨v, flags⟩, -, h⟩ := Option.bind_eq_some_iff.1 h
      have hdst : Outside x (d.place w n y) := by
        simpa only [Data.instructionTarget, hn, Option.bind_some] using hx
      exact mem_of_assign (d := ⟨d.regs, some flags, d.mem⟩) (n := n) (v := v) h hdst
  | set c y =>
    obtain ⟨f, -, h⟩ := Option.bind_eq_some_iff.1 h
    exact mem_of_assign h hx
  | bare o =>
    cases o with
    | cqo =>
      cases h
      rfl
    | ret | syscall => cases h
  | jump _ | jumpIf _ _ | call _ => cases h

/-- **A line changes no memory but its target**, unless it calls the system. -/
theorem mem_of_step {code : List Line} {s s' : State} {l : Line} (hl : code[s.pc]? = some l)
    (hcall : l ≠ Codegen.syscall) (h : step w code s = .running s')
    (hx : Outside x (s.data.target w l)) : s'.data.mem x = s.data.mem x := by
  unfold step at h
  rw [hl] at h
  cases l with
  | label _ | comment _ | exported _ | blank =>
    cases h
    rfl
  | verbatim _ => cases h
  | instruction i =>
    have hgoto {target : Text} {d : Data} (hg : s.goto code target d = .running s') :
        s'.data = d := by
      unfold State.goto at hg
      split at hg
      · cases hg
      · cases hg
        rfl
    cases he : Data.exec w i s.data with
    | some d =>
      have hs : s.execute w code i = .running (s.next d) := execute_of_exec he
      rw [show s.execute w code i = .running s' from h, Outcome.running.injEq] at hs
      rw [hs]
      exact mem_of_exec he hx
    | none =>
      cases i with
      | jump target => rw [hgoto h]
      | jumpIf c target =>
        simp only [State.execute] at h
        split at h
        · cases h
        · split at h
          · rw [hgoto h]
          · cases h
            rfl
      | call target =>
        rw [hgoto h]
        exact Memory.store_apply_of_le (n := 8) s.data.mem _ (hx _ rfl)
      | bare o =>
        cases o with
        | ret =>
          cases h
          rfl
        | syscall => exact absurd rfl hcall
        | cqo => cases he
      | binary _ _ _ | set _ _ => simp [State.execute, he] at h
      | unary o _ => cases o <;> simp [State.execute, he] at h

end

/-! ## Runs -/

/-- A run from one state to another, through lines that have the property `P`. -/
inductive Runs (w : World) (code : List Line) (P : Data → Line → Prop) : State → State → Prop
  | refl (s : State) : Runs w code P s s
  | step {s s' s'' : State} {l : Line} (line : code[s.pc]? = some l) (allowed : P s.data l)
    (next : Machine.step w code s = .running s') (rest : Runs w code P s' s'') : Runs w code P s s''

namespace Runs

variable {w : World} {code : List Line} {P Q : Data → Line → Prop} {s s' s'' : State}

theorem single {l : Line} (hl : code[s.pc]? = some l) (hp : P s.data l)
    (hs : Machine.step w code s = .running s') : Runs w code P s s' := .step hl hp hs (.refl s')

theorem trans (h : Runs w code P s s') (h' : Runs w code P s' s'') : Runs w code P s s'' := by
  induction h with
  | refl => exact h'
  | step hl hp hs hrest ih => exact .step hl hp hs (ih h')

theorem mono (h : Runs w code P s s') (himp : ∀ d l, P d l → Q d l) : Runs w code Q s s' := by
  induction h with
  | refl => exact .refl _
  | step hl hp hs hrest ih => exact .step hl (himp _ _ hp) hs ih

/-- **A run keeps** what none of its lines stores to. -/
theorem mem_eq (h : Runs w code P s s') {x : Word}
    (hout : ∀ d l, P d l → l ≠ Codegen.syscall ∧ Outside x (d.target w l)) :
    s'.data.mem x = s.data.mem x := by
  induction h with
  | refl => rfl
  | step hl hp hs hrest ih =>
    obtain ⟨hcall, hx⟩ := hout _ _ hp
    rw [ih, mem_of_step hl hcall hs hx]

/-- A run through lines that show nothing. -/
theorem reaches {prog : Program} (h : Runs w code P s s')
    (hquiet : ∀ d l, P d l → shown w prog d l = []) :
    (visits w prog code).Reaches 0 s [] (.running s') := by
  induction h with
  | refl => exact .refl _ _
  | @step s s' s'' l hl hp hs hrest ih =>
    have hvisit : visits w prog code s = ([], .running s') := by
      simp [visits, hl, hs, hquiet _ _ hp]
    exact (System.Reaches.head hvisit ih).mono (Nat.zero_le _)

end Runs

end StackLang.Machine
