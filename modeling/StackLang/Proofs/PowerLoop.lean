import StackLang.Proofs.PrintRoutine

/-!
# The loop of a power

The lines of a power take the exponent and the base from the stack, multiply by the base as often as
the exponent can be counted down while it is positive, and push the product. They ask nothing of the
state that they start in.

- `PowerAt`: the lines stand in a text, whose jumps find their labels.
- `runs_powerLoop`: the loop multiplies by a power of the base.
- `runs_power`: the lines as a whole, with the one word that they store.
-/

set_option autoImplicit false

namespace StackLang.Machine

open Assembly Codegen

/-- The lines of a power stand at a line of a text, and its jumps lead to their labels. -/
structure PowerAt (code : List Line) (index : Int) (pc : Nat) : Prop where
  lines : power index <+: code.drop pc
  labels : ∀ (j : Nat) (name : Text), (power index)[j]? = some (.label name) →
    ∀ i, destination code i name = some (pc + j)

/-- In a text whose labels are all found, those of a power are: they are no local ones. -/
theorem powerAt_of_resolves {code : List Line} {index : Int} {pc : Nat}
    (hat : power index <+: code.drop pc)
    (hres : ∀ (j : Nat) (name : Text), code[j]? = some (.label name) →
      name.head? ≠ some (Text.byte '.') → ∀ i, destination code i name = some j) :
    PowerAt code index pc where
  lines := hat
  labels j name hj := by
    refine hres _ _ (line_of_isPrefix hat hj) ?_
    have hmem := List.mem_of_getElem? hj
    simp only [power, List.mem_cons, List.not_mem_nil, or_false, Line.label.injEq, reduceCtorEq,
      false_or, pop, push, op1, op2, jump, jumpIf] at hmem
    rcases hmem with rfl | rfl <;> rintro ⟨⟩

/-- The lines between the pops and the push. -/
def loopLines (index : Int) : List Line := ((power index).drop 3).take 7

theorem loopLines_subset (index : Int) : loopLines index ⊆ power index :=
  fun _ hl => List.mem_of_mem_drop (List.mem_of_mem_take hl)

theorem toNat_toInt_pred {e : Word} {n : Nat} (h : e.toInt.toNat = n + 1) :
    (e - 1#64).toInt.toNat = n := by
  have hlt := e.toInt_lt
  have hone : (1#64 : Word).toInt = 1 := rfl
  rw [BitVec.toInt_sub, hone, Int.bmod_eq_of_le (by omega) (by omega)]
  omega

section
variable {w : World} {code : List Line} {index : Int} {pc : Nat} (hp : PowerAt code index pc)
include hp

/-- A line of the loop, where it stands. -/
theorem PowerAt.line {j : Nat} {l : Line} (hl : (loopLines index)[j]? = some l) :
    code[pc + (3 + j)]? = some l ∧ l ∈ loopLines index := by
  refine ⟨line_of_isPrefix hp.lines ?_, List.mem_of_getElem? hl⟩
  rw [loopLines, List.getElem?_take, List.getElem?_drop] at hl
  split at hl
  · exact hl
  · cases hl

/-- The test of the loop, from the loop's label: only the flags change. -/
theorem runs_powerTest (calls : Nat) (d : Data) :
    ∃ flags, Runs w code (fun _ l => l ∈ loopLines index) ⟨pc + 3, d, calls⟩
      ⟨if (d.regs .rcx).toInt.toNat = 0 then pc + 9 else pc + 6, { d with flags }, calls⟩ := by
  obtain ⟨hlabel, hlabelIn⟩ := hp.line (j := 0) rfl
  obtain ⟨htest, htestIn⟩ := hp.line (j := 1) rfl
  obtain ⟨hexit, hexitIn⟩ := hp.line (j := 2) rfl
  have hcond : holds (.of (d.regs .rcx &&& d.regs .rcx) false) .le
      = decide ((d.regs .rcx).toInt.toNat = 0) := by
    rw [holds_test, compares, BitVec.slt_eq_decide, BitVec.toInt_zero, Bool.eq_iff_iff]
    simp
  have h1 : Runs w code (fun _ l => l ∈ loopLines index) ⟨pc + 3, d, calls⟩ ⟨pc + 5,
      { d with flags := some (.of (d.regs .rcx &&& d.regs .rcx) false) }, calls⟩ :=
    (runs_label calls hlabel hlabelIn).trans (runs_exec calls htest htestIn rfl)
  have h2 := h1.trans (runs_jumpIf calls hexit hexitIn rfl (hp.labels 9 _ rfl _))
  simp only [hcond, decide_eq_true_eq] at h2
  exact ⟨_, h2⟩

/-- **The loop**, from its label to behind its end. -/
theorem runs_powerLoop (calls n : Nat) {d : Data} (hn : (d.regs .rcx).toInt.toNat = n) :
    ∃ d', Runs w code (fun _ l => l ∈ loopLines index) ⟨pc + 3, d, calls⟩ ⟨pc + 10, d', calls⟩ ∧
      d'.regs .rsp = d.regs .rsp ∧ d'.mem = d.mem ∧
      d'.regs .rax = d.regs .rax * d.regs .rbx ^ n := by
  obtain ⟨hmul, hmulIn⟩ := hp.line (j := 3) rfl
  obtain ⟨hdec, hdecIn⟩ := hp.line (j := 4) rfl
  obtain ⟨hback, hbackIn⟩ := hp.line (j := 5) rfl
  obtain ⟨hdone, hdoneIn⟩ := hp.line (j := 6) rfl
  induction n generalizing d with
  | zero =>
    obtain ⟨flags, h1⟩ := runs_powerTest (w := w) hp calls d
    rw [if_pos hn] at h1
    refine ⟨_, h1.trans (runs_label calls hdone hdoneIn), rfl, rfl, ?_⟩
    rw [pow_zero, mul_one]
  | succ n ih =>
    obtain ⟨flags, h1⟩ := runs_powerTest (w := w) hp calls d
    rw [if_neg (by omega)] at h1
    -- One round: the product takes a factor, and the exponent goes down.
    obtain ⟨d2, he2, hrsp2, hmem2, hrax2, hrbx2, hrcx2⟩ : ∃ d2,
        Data.execAll w [op2 .imul (q .rax) (q .rbx), op1 .dec (q .rcx)] { d with flags } = some d2 ∧
        d2.regs .rsp = d.regs .rsp ∧ d2.mem = d.mem ∧
        d2.regs .rax = d.regs .rax * d.regs .rbx ∧ d2.regs .rbx = d.regs .rbx ∧
        d2.regs .rcx = d.regs .rcx - 1#64 := ⟨_, rfl, rfl, rfl, rfl, rfl, rfl⟩
    have hround : [op2 .imul (q .rax) (q .rbx), op1 .dec (q .rcx)] <+: code.drop (pc + 6) :=
      part_of_isPrefix hp.lines ⟨_, rfl⟩
    have h2 := runs_lines (P := fun _ l => l ∈ loopLines index) calls hround
      (fun _ => by simp [hmulIn, hdecIn]) he2
    have h3 := (h1.trans h2).trans (runs_jump calls hback hbackIn (hp.labels 3 _ rfl _))
    obtain ⟨d', h4, hrsp, hmem, hrax⟩ := ih (d := d2) (by rw [hrcx2]; exact toNat_toInt_pred hn)
    refine ⟨d', h3.trans h4, hrsp.trans hrsp2, hmem.trans hmem2, ?_⟩
    rw [hrax, hrax2, hrbx2, pow_succ', mul_assoc]

/-- **The lines of a power**, in any state: the two words on top of the stack give way to one, and
nothing else is stored. -/
theorem runs_power (calls : Nat) (d : Data) :
    ∃ d', Runs w code (fun _ l => l ∈ power index) ⟨pc, d, calls⟩
        ⟨pc + (power index).length, d', calls⟩ ∧
      d'.regs .rsp = d.regs .rsp + 8#64 ∧
      d'.mem = d.mem.store 8 (d.regs .rsp + 8#64) (d.mem.load 8 (d.regs .rsp + 8#64) ^
        (d.mem.load 8 (d.regs .rsp)).toInt.toNat) := by
  have hfirst : [pop .rcx, pop .rbx, op2 .mov (Codegen.d .rax) (.imm 1)] <+: code.drop pc :=
    part_of_isPrefix (i := 0) hp.lines ⟨_, rfl⟩
  have hlast : code[pc + 10]? = some (push .rax) := line_of_isPrefix hp.lines rfl
  obtain ⟨d1, he1, hrsp1, hmem1, hrax1, hrbx1, hrcx1⟩ : ∃ d1,
      Data.execAll w [pop .rcx, pop .rbx, op2 .mov (Codegen.d .rax) (.imm 1)] d = some d1 ∧
      d1.regs .rsp = d.regs .rsp + 8#64 + 8#64 ∧ d1.mem = d.mem ∧ d1.regs .rax = 1#64 ∧
      d1.regs .rbx = d.mem.load 8 (d.regs .rsp + 8#64) ∧
      d1.regs .rcx = d.mem.load 8 (d.regs .rsp) := ⟨_, rfl, rfl, rfl, rfl, rfl, rfl⟩
  have h1 := runs_lines (P := fun _ l => l ∈ power index) calls hfirst
    (fun _ l hl => List.mem_of_mem_take (i := 3) hl) he1
  obtain ⟨d2, h2, hrsp2, hmem2, hrax2⟩ := runs_powerLoop (w := w) hp calls _ (d := d1) rfl
  have h3 : Runs w code (fun _ l => l ∈ power index) ⟨pc + 10, d2, calls⟩
      ⟨pc + 11, d2.push (d2.regs .rax), calls⟩ :=
    runs_exec calls hlast (List.mem_of_getElem? (i := 10) rfl) rfl
  have htop : d2.regs .rsp - 8#64 = d.regs .rsp + 8#64 := by
    rw [hrsp2, hrsp1, BitVec.add_sub_cancel]
  refine ⟨_, (h1.trans (h2.mono fun _ l hl => loopLines_subset index hl)).trans h3, htop, ?_⟩
  change d2.mem.store 8 (d2.regs .rsp - 8#64) (d2.regs .rax) = _
  rw [htop, hmem2, hmem1, hrax2, hrax1, hrbx1, hrcx1, BitVec.one_mul]

end

end StackLang.Machine
