import StackLang.Proofs.DataSection

/-!
# Printed numbers

What the routine at the start of every compiled program does when it is called, whatever the state of
the machine: it writes the number in `rdi` in decimal, and leaves all memory but its own frame.

- `runs_return`: the routine after its system call.
- `printed_numbers_are_decimal`: a whole call, for every number.
-/

set_option autoImplicit false

namespace StackLang.Machine

open Assembly Codegen

section
variable {w : World} {top : Word}

/-- Addresses from the return address on are not in the frame, as far as the memory goes round. -/
theorem not_inFrame_add (top : Word) {k : Nat} (h : k + 40 < 2 ^ 64) :
    ¬ InFrame top (top + BitVec.ofNat 64 k) := by
  have hlt := top.isLt
  unfold InFrame
  rw [BitVec.toNat_sub, BitVec.toNat_sub, BitVec.toNat_add]
  simp only [BitVec.toNat_ofNat]
  omega

/-- Where the frame does not go round, all higher addresses are outside. -/
theorem not_inFrame_of_le {x : Word} (htop : 40 ≤ top.toNat) (hx : top.toNat ≤ x.toNat) :
    ¬ InFrame top x := by
  have hlt := x.isLt
  have hx' : x = top + BitVec.ofNat 64 (x.toNat - top.toNat) := by
    apply BitVec.eq_of_toNat_eq
    rw [BitVec.toNat_add, BitVec.toNat_ofNat]
    omega
  rw [hx']
  exact not_inFrame_add top (by omega)

/-- The frame is left, and the routine goes back to where it was called from. -/
theorem runs_return (rest : List Line) (calls : Nat) {d : Data} (hrsp : d.regs .rsp = top - 40#64) :
    ∃ d', Runs w (preamble ++ rest) (Confined w top) ⟨leaveLine, d, calls⟩
        ⟨(d.mem.load 8 top).toNat, d', calls⟩ ∧
      d'.regs .rsp = top + 8#64 ∧ d'.mem = d.mem := by
  have hconfined {d : Data} {l : Line} (hl : l ∈ [op2 .add (q .rsp) (.imm 40), op0 .ret]) :
      Confined w top d l := by
    have hall : ∀ l ∈ [op2 .add (q .rsp) (.imm 40), op0 .ret], l ≠ syscall := by decide
    refine ⟨hall l hl, fun x _ p hp => ?_⟩
    rcases List.mem_cons.1 hl with rfl | hl
    · cases hp
    · cases List.mem_singleton.1 hl
      cases hp
  obtain ⟨d1, he, hrsp1, hmem1⟩ : ∃ d1, Data.exec w (.binary .add (q .rsp) (.imm 40)) d = some d1 ∧
      d1.regs .rsp = d.regs .rsp + 40#64 ∧ d1.mem = d.mem := ⟨_, rfl, rfl, rfl⟩
  rw [hrsp, BitVec.sub_add_cancel] at hrsp1
  have h1 : Runs w (preamble ++ rest) (Confined w top) ⟨leaveLine, d, calls⟩
      ⟨leaveLine + 1, d1, calls⟩ :=
    runs_exec calls rfl (hconfined List.mem_cons_self) he
  obtain ⟨d2, hstep, hrsp2, hmem2⟩ : ∃ d2, step w (preamble ++ rest) ⟨leaveLine + 1, d1, calls⟩
      = .running ⟨(d1.mem.load 8 (d1.regs .rsp)).toNat, d2, calls⟩ ∧
      d2.regs .rsp = d1.regs .rsp + 8#64 ∧ d2.mem = d1.mem := ⟨_, rfl, rfl, rfl⟩
  rw [hmem1, hrsp1] at hstep
  refine ⟨d2, h1.trans (.single (l := op0 .ret) rfl (hconfined (by simp)) hstep), ?_, ?_⟩
  · rw [hrsp2, hrsp1]
  · rw [hmem2, hmem1]

end

/-- **Printed numbers are decimal.** Every compiled program has the routine at one place, which its name
leads to from everywhere. Called there with any number in `rdi`, in any state, it comes to a system
call that is to write the decimal text of the number and a line break to the standard output; when that
call returns and changes no memory, the routine returns. Before and after the call no line calls the
system or stores to anything but the forty bytes below the return address, so all other memory is as
it was, and the stack pointer is behind the return address. -/
theorem printed_numbers_are_decimal {lib : Library} {file source : Text} {size : Int} {r : Compiled}
    (h : compile lib file source size = .ok r) :
    ∃ entry, (∀ pc, destination r.artifact.code.toList pc printInt = some entry) ∧
      ∀ (w : World) (d : Data) (calls : Nat) (v : Int64) (reply : Word),
        d.regs .rdi = v.toBitVec → w.reply calls = some reply →
        (∀ d', w.effect calls d' = d'.mem) →
        ∃ s₁ s₂ d',
          Runs w r.artifact.code.toList (Confined w (d.regs .rsp)) ⟨entry, d, calls⟩ s₁ ∧
          r.artifact.code.toList[s₁.pc]? = some syscall ∧
          s₁.data.regs .rax = 1#64 ∧ s₁.data.regs .rdi = 1#64 ∧
          s₁.data.mem.bytes (s₁.data.regs .rdx).toNat (s₁.data.regs .rsi)
            = Text.ofInt v.toInt ++ [Text.byte '\n'] ∧
          (v ≠ 0 → (Text.ofNat v.toInt.natAbs).head? ≠ some (Text.byte '0')) ∧
          step w r.artifact.code.toList s₁ = .running s₂ ∧
          Runs w r.artifact.code.toList (Confined w (d.regs .rsp)) s₂
            ⟨(d.mem.load 8 (d.regs .rsp)).toNat, d', calls + 1⟩ ∧
          d'.regs .rsp = d.regs .rsp + 8#64 ∧
          (∀ x, ¬ InFrame (d.regs .rsp) x → d'.mem x = d.mem x) ∧
          (40 ≤ (d.regs .rsp).toNat →
            ∀ x, (d.regs .rsp).toNat ≤ x.toNat → d'.mem x = d.mem x) := by
  obtain ⟨-, hr⟩ := compile_eq_ok_iff.1 h
  obtain ⟨-, hlayout⟩ := layout_of_made hr
  have hcode : r.artifact.code.toList = preamble ++
      (r.program.flatMap (opLines r.program r.blocks (bufferSizeFor size)) ++ epilogue) := by
    rw [hlayout]
    rfl
  rw [hcode]
  generalize r.program.flatMap (opLines r.program r.blocks (bufferSizeFor size)) ++ epilogue = rest
  refine ⟨printLine, fun pc => rfl, fun w d calls v reply hrdi hreply heffect => ?_⟩
  obtain ⟨d1, hbody, hrsp1, hrax1, hrdi1, hbytes⟩ :=
    runs_body (w := w) rest calls d
  have hout {x : Word} (hx : ¬ InFrame (d.regs .rsp) x) : d1.mem x = d.mem x :=
    hbody.mem_eq fun d' l htame => ⟨htame.confined.1, htame.confined.2 x hx⟩
  have hstep : step w (preamble ++ rest) ⟨callLine, d1, calls⟩ = .running
      ⟨leaveLine, ⟨(d1.regs.set .rax reply).set .rcx (w.scratch calls), none, d1.mem⟩, calls + 1⟩ := by
    have hne : d1.regs .rax ≠ 60#64 := by
      rw [hrax1]
      decide
    change State.system ⟨callLine, d1, calls⟩ w = _
    simp only [State.system, if_neg hne, hreply, heffect]
  obtain ⟨d3, hreturn, hrsp3, hmem3⟩ := runs_return (w := w) rest (calls + 1)
    (d := ⟨(d1.regs.set .rax reply).set .rcx (w.scratch calls), none, d1.mem⟩) hrsp1
  have hback : d1.mem.load 8 (d.regs .rsp) = d.mem.load 8 (d.regs .rsp) :=
    Memory.load_congr fun i hi => hout (not_inFrame_add _ (by omega))
  have hkept {x : Word} (hx : ¬ InFrame (d.regs .rsp) x) : d3.mem x = d.mem x := by
    rw [hmem3]
    exact hout hx
  rw [hback] at hreturn
  rw [hrdi] at hbytes
  refine ⟨_, _, d3, hbody.mono fun _ _ htame => htame.confined, rfl, hrax1, hrdi1, hbytes, ?_, hstep,
    hreturn, hrsp3, fun x hx => hkept hx, fun htop x hx => hkept (not_inFrame_of_le htop hx)⟩
  intro hv
  apply Text.head_ofNat
  have hne : v.toInt ≠ 0 := fun h0 => hv (Int64.toInt_inj.1 h0)
  omega

/-- Registers at a call that is to print the least number. -/
def leastData : Data :=
  ⟨fun r => if r = .rdi then Int64.minValue.toBitVec else idle.base, none, fun _ => 0#8⟩

theorem printed_numbers_are_decimal_least : ∃ r entry s₁,
    compile (.ofList "/" []) "a" "" 0 = .ok r ∧ leastData.regs .rdi = Int64.minValue.toBitVec ∧
    idle.reply 0 = some 0#64 ∧ (∀ d, idle.effect 0 d = d.mem) ∧
    Runs idle r.artifact.code.toList (Confined idle idle.base) ⟨entry, leastData, 0⟩ s₁ ∧
    r.artifact.code.toList[s₁.pc]? = some syscall ∧
    s₁.data.mem.bytes (s₁.data.regs .rdx).toNat (s₁.data.regs .rsi) = "-9223372036854775808\n" := by
  have hl : Lexer.tokens "a" "" = .ok [] := by decide +kernel
  have hp : Program.ofTokens [] = .ok [] := rfl
  have hsteps : Check.steps [] [] = .ok [] := rfl
  have hb : Blocks.resolve [] = .ok (.empty 0) := by decide +kernel
  obtain ⟨a, hr⟩ := exists_compile (.ofList "/" []) (source_of_tokens hl (by simp)) hp
    (Check.run_of_steps hsteps) hb 0
  obtain ⟨entry, -, hprint⟩ := printed_numbers_are_decimal hr
  obtain ⟨s₁, s₂, d', hrun, hcall, -, -, hbytes, -⟩ :=
    hprint idle leastData 0 Int64.minValue 0#64 rfl rfl fun _ => rfl
  have htext : Text.ofInt Int64.minValue.toInt ++ [Text.byte '\n'] = "-9223372036854775808\n" := by
    decide +kernel
  exact ⟨_, entry, s₁, hr, rfl, rfl, fun _ => rfl, hrun, hcall, hbytes.trans htext⟩

end StackLang.Machine
