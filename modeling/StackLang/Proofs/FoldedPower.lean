import StackLang.Proofs.DataSection
import StackLang.Proofs.Linking

/-!
# Powers that are folded and powers that are run

The check raises known numbers to powers by squaring, compiled programs by a loop that multiplies.
Both give the power of the numbers, brought back to the signed words.

- `powerAt_of_made`: the lines of every power of a compiled program stand in its code.
- `folded_powers_agree`: the value of a folded power is what the lines leave on the stack.
-/

set_option autoImplicit false

namespace StackLang.Machine

open Assembly Codegen

/-- The lines of a power stand in the code of its program, and its jumps lead to their labels. -/
theorem powerAt_of_made {size : Int} {r : Compiled} (h : r.Made size) {op : Operation}
    (ho : op ∈ r.program) (hop : op.action = .primitive .pow) :
    ∃ pc, PowerAt r.artifact.code.toList op.index pc := by
  obtain ⟨hs, hlayout⟩ := layout_of_made h
  obtain ⟨c, hc⟩ := Blocks.exists_flatten_of_resolve h.indexed h.blocks
  obtain ⟨before, after, hsplit⟩ := List.append_of_mem ho
  have htemplate : template r.program r.blocks (bufferSizeFor size) op = power op.index := by
    simp only [template, code, hop, primitive]
  obtain ⟨-, hat⟩ := head_of_isPrefix (opLines_isPrefix hsplit)
  rw [htemplate] at hat
  rw [hlayout]
  refine ⟨_, powerAt_of_resolves hat ?_⟩
  rw [← hc] at hs ⊢
  exact fun j name hj hg =>
    destination_layout (hc ▸ h.indexed) hs _ (hc ▸ h.blocks) hj hg

/-- **Squaring and multiplying equals the loop.** Raising a signed word to a power by squaring gives
one when the exponent is not positive, and otherwise the power of the numbers modulo `2 ^ 64`, in
the signed range. In every compiled program, the lines of each power, run in any state with an
exponent on top of the stack and a base below it, leave just that number in their place: control
stays in these lines until it is behind them, and no other memory changes. -/
theorem folded_powers_agree :
    (∀ base exp : Int64, (Fold.power base exp).toInt =
      if exp ≤ 0 then 1 else (base.toInt ^ exp.toInt.toNat).bmod (2 ^ 64)) ∧
    ∀ (lib : Library) (file source : Text) (size : Int) (r : Compiled),
      compile lib file source size = .ok r →
      ∀ op ∈ r.program, op.action = .primitive .pow →
        ∃ pc, power op.index <+: r.artifact.code.toList.drop pc ∧
          ∀ (w : World) (d : Data) (calls : Nat) (base exp : Int64),
            d.mem.load 8 (d.regs .rsp) = exp.toBitVec →
            d.mem.load 8 (d.regs .rsp + 8#64) = base.toBitVec →
            ∃ d', Runs w r.artifact.code.toList (fun _ l => l ∈ power op.index) ⟨pc, d, calls⟩
                ⟨pc + (power op.index).length, d', calls⟩ ∧
              d'.regs .rsp = d.regs .rsp + 8#64 ∧
              d'.mem.load 8 (d'.regs .rsp) = (Fold.power base exp).toBitVec ∧
              ∀ x, 8 ≤ (x - d'.regs .rsp).toNat → d'.mem x = d.mem x := by
  refine ⟨toInt_power, fun lib file source size r hr op ho hop => ?_⟩
  obtain ⟨pc, hp⟩ := powerAt_of_made (compile_eq_ok_iff.1 hr).2 ho hop
  refine ⟨pc, hp.lines, fun w d calls base exp hexp hbase => ?_⟩
  obtain ⟨d', hrun, hrsp, hmem⟩ := runs_power (w := w) hp calls d
  have hpower : d.mem.load 8 (d.regs .rsp + 8#64) ^ (d.mem.load 8 (d.regs .rsp)).toInt.toNat
      = (Fold.power base exp).toBitVec := by
    rw [toBitVec_power, hexp, hbase]
    rfl
  rw [hpower] at hmem
  refine ⟨d', hrun, hrsp, ?_, fun x hx => ?_⟩
  · rw [hmem, hrsp, Memory.load_store _ (by decide)]
  · rw [hmem]
    exact Memory.store_apply_of_le (n := 8) _ _ (hrsp ▸ hx)

/-- Raises a negative number to a power that does not fit a word. -/
def raising : Program :=
  [written 0 .pushInt .integer "-3" 1, written 1 .pushInt .integer "41" 4,
   written 2 (.primitive .pow) .word "POW" 7]

/-- Registers and memory when its operands are on the stack. -/
def raisingData : Data :=
  ⟨fun _ => idle.base, none, (Memory.store (fun _ => 0#8) 8 (idle.base + 8#64) (-3#64)).store 8
    idle.base 41#64⟩

theorem folded_powers_agree_raising : ∃ r pc d',
    compile (.ofList "/" []) "a" "-3 41 POW" 0 = .ok r ∧
    written 2 (.primitive .pow) .word "POW" 7 ∈ r.program ∧
    power 2 <+: r.artifact.code.toList.drop pc ∧
    raisingData.mem.load 8 (raisingData.regs .rsp) = (41 : Int64).toBitVec ∧
    raisingData.mem.load 8 (raisingData.regs .rsp + 8#64) = (-3 : Int64).toBitVec ∧
    Runs idle r.artifact.code.toList (fun _ l => l ∈ power 2) ⟨pc, raisingData, 0⟩
      ⟨pc + 11, d', 0⟩ ∧
    d'.mem.load 8 (d'.regs .rsp) = 420491770248316829#64 := by
  have hl : Lexer.tokens "a" "-3 41 POW" = .ok (raising.map (·.token)) := by decide +kernel
  have hp : Program.ofTokens (raising.map (·.token)) = .ok raising := by decide +kernel
  have hc : Check.run raising = .ok ⟨[.known (Fold.power (-3) 41)], []⟩ := rfl
  have hr := compile_eq_layout (.ofList "/" []) (source_of_tokens hl (by decide)) hp hc rfl 0
  obtain ⟨hvalue, hlines⟩ := folded_powers_agree
  have ho : written 2 (.primitive .pow) .word "POW" 7 ∈ raising := by decide
  obtain ⟨pc, hat, hrun⟩ := hlines _ _ _ _ _ hr _ ho rfl
  have hexp : raisingData.mem.load 8 (raisingData.regs .rsp) = (41 : Int64).toBitVec := by decide
  have hbase : raisingData.mem.load 8 (raisingData.regs .rsp + 8#64) = (-3 : Int64).toBitVec := by
    decide
  obtain ⟨d', hruns, -, htop, -⟩ := hrun idle raisingData 0 (-3) 41 hexp hbase
  have hpower : Fold.power (-3) 41 = 420491770248316829 := by
    apply Int64.toInt_inj.1
    rw [hvalue]
    decide +kernel
  rw [hpower] at htop
  exact ⟨_, pc, d', hr, ho, hat, hexp, hbase, hruns, htop⟩

end StackLang.Machine
