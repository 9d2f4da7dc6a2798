import Mathlib.Data.BitVec
import StackLang.Proofs.SourceSemantics

/-!
# Arithmetic of words

How the machine computes what the primitives mean: conditions from the flags of a subtraction,
signed division from a double word, powers by repeated multiplication, and immediates.

- `holds_sub`: the conditions after a comparison. `arithmetic_compare`: the primitives they serve.
- `divide_signed`, `divide_faults`: a division that does not fault, and one that does.
- `toBitVec_power`: a power is a product. `toInt_power`: its value.
-/

set_option autoImplicit false

namespace StackLang.Machine

open Assembly

/-! ## Conditions -/

theorem sub_beq_zero (a b : Word) : (a - b == 0#64) = (a == b) := by
  rw [Bool.eq_iff_iff, beq_iff_eq, beq_iff_eq]
  exact sub_eq_zero

/-- After a subtraction the sign is wrong exactly when it overflows. -/
theorem sign_bne_overflow (a b : Word) : ((a - b).msb != a.ssubOverflow b) = a.slt b := by
  have ha := a.toInt_lt
  have ha' := a.le_toInt
  have hb := b.toInt_lt
  have hb' := b.le_toInt
  rw [BitVec.msb_eq_toInt, BitVec.toInt_sub, BitVec.ssubOverflow, BitVec.slt_eq_decide,
    Int.bmod_def, ← Bool.decide_or, Bool.eq_iff_iff]
  simp only [bne_iff_ne, ne_eq, decide_eq_decide, decide_eq_true_eq, ge_iff_le]
  split <;> omega

/-- The order that a condition tests. -/
def compares (a b : Word) : Condition → Bool
  | .e | .z => a == b
  | .ne | .nz => a != b
  | .g => b.slt a
  | .ge => !a.slt b
  | .l => a.slt b
  | .le => !b.slt a
  | .ns => !(a - b).msb

theorem slt_total (a b : Word) : (a == b || a.slt b) = !b.slt a := by
  rw [BitVec.slt_eq_decide, BitVec.slt_eq_decide, Bool.eq_iff_iff]
  simp only [Bool.or_eq_true, beq_iff_eq, decide_eq_true_eq, Bool.not_eq_true', decide_eq_false_iff_not,
    ← BitVec.toInt_inj]
  omega

theorem holds_sub (a b : Word) (c : Condition) :
    holds (.of (a - b) (a.ssubOverflow b)) c = compares a b c := by
  have hsign := sign_bne_overflow a b
  have hbeq : ((a - b).msb == a.ssubOverflow b) = !a.slt b := by
    rw [← hsign, bne, Bool.not_not]
  have htotal := slt_total a b
  cases c with
  | e | z => exact sub_beq_zero a b
  | ne | nz => exact congrArg (!·) (sub_beq_zero a b)
  | l => exact hsign
  | ge => exact hbeq
  | le =>
    simp only [holds, Flags.of, compares, sub_beq_zero, hsign]
    exact htotal
  | g =>
    simp only [holds, Flags.of, compares, sub_beq_zero, hbeq]
    rw [← Bool.not_or, htotal, Bool.not_not]
  | ns => rfl

/-- The conditions after a test of a word with itself. -/
theorem holds_test (a : Word) (c : Condition) :
    holds (.of (a &&& a) false) c = compares a 0#64 c := by
  rw [← holds_sub, BitVec.sub_zero, BitVec.and_self]
  congr 2
  have := a.toInt_lt
  have := a.le_toInt
  simp only [BitVec.ssubOverflow, BitVec.toInt_zero, ge_iff_le, ← Bool.decide_or]
  exact (decide_eq_false (by omega)).symm

/-- The condition that a comparing primitive tests. -/
def condition? : Primitive → Option Condition
  | .eq => some .e
  | .ne => some .ne
  | .gt => some .g
  | .ge => some .ge
  | .lt => some .l
  | .le => some .le
  | _ => none

theorem toBitVec_ofBool (t : Bool) : (Fold.ofBool t).toBitVec = if t then 1#64 else 0#64 := by
  cases t <;> rfl

theorem arithmetic_compare {p : Primitive} {c : Condition} (h : condition? p = some c) (a b : Word) :
    Source.arithmetic p a b = some (if compares a b c then 1#64 else 0#64) := by
  have hlt : ∀ x y : Word, decide (Int64.ofBitVec x < Int64.ofBitVec y) = x.slt y := fun x y => by
    rw [Bool.eq_iff_iff, decide_eq_true_iff, Int64.lt_iff_toBitVec_slt]
    rfl
  have hle : ∀ x y : Word, decide (Int64.ofBitVec x ≤ Int64.ofBitVec y) = !y.slt x := fun x y => by
    rw [← slt_total, Bool.eq_iff_iff, decide_eq_true_iff, Int64.le_iff_toBitVec_sle,
      BitVec.sle_eq_decide, BitVec.slt_eq_decide]
    simp only [Bool.or_eq_true, beq_iff_eq, decide_eq_true_eq, ← BitVec.toInt_inj]
    exact le_iff_eq_or_lt
  have heq : ∀ x y : Word, (Int64.ofBitVec x == Int64.ofBitVec y) = (x == y) := fun x y => by
    rw [Bool.eq_iff_iff, beq_iff_eq, beq_iff_eq, ← Int64.toBitVec_inj]
    rfl
  unfold condition? at h
  split at h
  all_goals cases h
  all_goals simp only [Source.arithmetic, Fold.binary?, Option.map_some, toBitVec_ofBool, compares,
    hlt, hle, heq, bne]
  all_goals rfl

/-! ## Division -/

/-- The double word that `cqo` makes of a word has the same value. -/
theorem toInt_extended (a : Word) :
    (if a.msb then BitVec.allOnes 64 else 0#64).toInt * 2 ^ 64 + a.toNat = a.toInt := by
  have := a.isLt
  have hcond := BitVec.toInt_eq_msb_cond a
  have hones : (BitVec.allOnes 64).toInt = -1 := by decide
  split at hcond
  · rw [if_pos (by assumption), hones, hcond]
    omega
  · rw [if_neg (by assumption), hcond, BitVec.toInt_zero]
    omega

/-- Quotients are in range unless the least number is divided by minus one. -/
theorem isSigned_tdiv {a b : Word} (h : Source.faults a b = false) :
    b.toInt ≠ 0 ∧ Data.isSigned (a.toInt.tdiv b.toInt) = true := by
  simp only [Source.faults, Bool.or_eq_false_iff, decide_eq_false_iff_not, Bool.and_eq_false_iff] at h
  obtain ⟨hb, hmin⟩ := h
  have hb0 : b.toInt ≠ 0 := fun h0 => hb (BitVec.eq_of_toInt_eq h0)
  have ha := a.toInt_lt
  have ha' := a.le_toInt
  refine ⟨hb0, ?_⟩
  have habs : (a.toInt.tdiv b.toInt).natAbs = a.toInt.natAbs / b.toInt.natAbs :=
    Int.natAbs_tdiv ..
  have hle : a.toInt.natAbs / b.toInt.natAbs ≤ a.toInt.natAbs := Nat.div_le_self _ _
  -- Only the least number is too large when its sign is changed.
  rcases hmin with hmin | hmin
  · have hne : a.toInt ≠ -2 ^ 63 := fun h0 => hmin (BitVec.eq_of_toInt_eq h0)
    simp only [Data.isSigned, Bool.and_eq_true, decide_eq_true_eq]
    omega
  · have hne : b.toInt ≠ -1 := fun h0 => hmin (BitVec.eq_of_toInt_eq h0)
    simp only [Data.isSigned, Bool.and_eq_true, decide_eq_true_eq]
    by_cases h1 : b.toInt = 1
    · rw [h1, Int.tdiv_one]
      omega
    · have h2 : 2 ≤ b.toInt.natAbs := by omega
      have hhalf : a.toInt.natAbs / b.toInt.natAbs ≤ a.toInt.natAbs / 2 :=
        Nat.div_le_div_left h2 (by decide)
      omega

/-- A signed division that does not fault. -/
theorem divide_signed {a b : Word} (h : Source.faults a b = false) (d : Data) :
    d.divide Data.isSigned a.toInt b.toInt = some { d with
      regs := (d.regs.set .rax (a.sdiv b)).set .rdx (a.srem b)
      flags := none } := by
  obtain ⟨hb, hfits⟩ := isSigned_tdiv h
  have hq : BitVec.ofInt 64 (a.toInt.tdiv b.toInt) = a.sdiv b :=
    BitVec.eq_of_toInt_eq (by rw [BitVec.toInt_ofInt, BitVec.toInt_sdiv])
  have hr : BitVec.ofInt 64 (a.toInt.tmod b.toInt) = a.srem b := by
    rw [← BitVec.toInt_srem, BitVec.ofInt_toInt]
  simp only [Data.divide, if_neg hb, hfits, if_true, hq, hr]

/-- A division that faults has no result. -/
theorem divide_faults {a b : Word} (h : Source.faults a b = true) (d : Data) :
    d.divide Data.isSigned a.toInt b.toInt = none := by
  simp only [Source.faults, Bool.or_eq_true, decide_eq_true_eq, Bool.and_eq_true] at h
  rcases h with rfl | ⟨rfl, rfl⟩
  · rfl
  · rfl

/-! ## Powers -/

/-- Squaring and multiplying makes a product of equal factors. -/
theorem toBitVec_squareMultiply (r b : Int64) (n : Nat) :
    (Fold.squareMultiply r b n).toBitVec = r.toBitVec * b.toBitVec ^ n := by
  fun_induction Fold.squareMultiply r b n with
  | case1 r b => simp
  | case2 r b n hn ih =>
    simp only [dite_eq_ite] at ih
    rw [ih, Int64.toBitVec_mul, ← sq, ← pow_mul]
    split
    · rw [Int64.toBitVec_mul, mul_assoc, ← pow_succ', show 2 * (n / 2) + 1 = n by omega]
    · rw [show 2 * (n / 2) = n by omega]

/-- A power is a product, empty when the exponent is not positive. -/
theorem toBitVec_power (base exp : Int64) :
    (Fold.power base exp).toBitVec = base.toBitVec ^ exp.toInt.toNat := by
  unfold Fold.power
  split
  · rw [toBitVec_squareMultiply]
    exact one_mul _
  · rename_i hpos
    have hexp : exp.toInt ≤ 0 := Int64.le_iff_toInt_le.1 (Int64.not_lt.1 hpos)
    rw [Int.toNat_of_nonpos hexp, pow_zero]
    rfl

theorem arithmetic_pow (a e : Word) : Source.arithmetic .pow a e = some (a ^ e.toInt.toNat) :=
  congrArg some (toBitVec_power (.ofBitVec a) (.ofBitVec e))

/-- The value of a power: that of the numbers, brought back to the signed words. -/
theorem toInt_power (base exp : Int64) :
    (Fold.power base exp).toInt =
      if exp ≤ 0 then 1 else (base.toInt ^ exp.toInt.toNat).bmod (2 ^ 64) := by
  split
  · rename_i hexp
    rw [Fold.power, if_neg (Int64.not_lt.2 hexp)]
    rfl
  · have hbase : base.toBitVec = BitVec.ofInt 64 base.toInt := (BitVec.ofInt_toInt).symm
    have hcast : BitVec.ofInt 64 (base.toInt ^ exp.toInt.toNat)
        = base.toBitVec ^ exp.toInt.toNat := by
      rw [hbase]
      exact Int.cast_pow _ _
    rw [← Int64.toInt_toBitVec, toBitVec_power, ← hcast, BitVec.toInt_ofInt]

/-! ## Immediates -/

/-- An immediate of half a word keeps its value when it is extended. -/
theorem immediate_of_fits {v : Int} (h : -2 ^ 31 ≤ v) (h' : v < 2 ^ 31) :
    Data.immediate false v .qword = BitVec.ofInt 64 v := by
  refine BitVec.eq_of_toInt_eq ?_
  change ((BitVec.ofInt 32 v).signExtend 64).toInt = (BitVec.ofInt 64 v).toInt
  rw [BitVec.toInt_signExtend_of_le (by decide), BitVec.toInt_ofInt, BitVec.toInt_ofInt,
    Int.bmod_def, Int.bmod_def]
  split <;> split <;> omega

end StackLang.Machine
