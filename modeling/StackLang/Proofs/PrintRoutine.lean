import StackLang.Proofs.AsciiText
import StackLang.Proofs.Stores
import StackLang.Proofs.WordArithmetic

/-!
# The routine that prints a number

The routine takes forty bytes below the stack for the digits, fills them from their end, writes them
by a system call and returns. Whatever the number, its digits, its sign and the line break fit, so
that nothing of the operand stack changes.

- `Filled`: what the frame holds between two bytes. `runs_put`: another byte in front.
- `runs_digits`: the loop that divides by ten writes a number in decimal.
- `runs_body`: the routine up to its system call, which is given the number's text.
- `run_print`: a call of the routine.
-/

set_option autoImplicit false

namespace StackLang.Machine

open Assembly Codegen

/-! ## Lines of instructions -/

/-- Lines of instructions, with memory. -/
def Data.execAll (w : World) : List Line → Data → Option Data
  | [], d => some d
  | .instruction i :: ls, d => (Data.exec w i d).bind (Data.execAll w ls)
  | _ :: _, _ => none

/-- Whether a line leaves the values on the stack alone. -/
def Data.passesBy (d : Data) : Line → Bool
  | .instruction i => d.reach i = 0
  | _ => true

section
variable {w : World} {code : List Line} {P : Data → Line → Prop}

theorem Data.execAll_append (ls ms : List Line) (d : Data) :
    Data.execAll w (ls ++ ms) d = (Data.execAll w ls d).bind (Data.execAll w ms) := by
  induction ls generalizing d with
  | nil => rfl
  | cons l ls ih =>
    cases l with
    | instruction i =>
      simp only [List.cons_append, Data.execAll, Option.bind_assoc]
      exact Option.bind_congr fun d _ => ih d
    | _ => rfl

theorem runs_exec {pc : Nat} {d d' : Data} {i : Instruction} (calls : Nat)
    (hl : code[pc]? = some (.instruction i)) (hp : P d (.instruction i))
    (he : Data.exec w i d = some d') : Runs w code P ⟨pc, d, calls⟩ ⟨pc + 1, d', calls⟩ := by
  refine .single hl hp ?_
  simp only [step, hl]
  exact execute_of_exec (s := ⟨pc, d, calls⟩) he

theorem runs_lines {ls : List Line} {pc : Nat} {d d' : Data} (calls : Nat)
    (hat : ls <+: code.drop pc) (hp : ∀ d, ∀ l ∈ ls, P d l) (he : Data.execAll w ls d = some d') :
    Runs w code P ⟨pc, d, calls⟩ ⟨pc + ls.length, d', calls⟩ := by
  induction ls generalizing pc d with
  | nil =>
    obtain rfl := Option.some.inj he
    exact .refl _
  | cons l ls ih =>
    obtain ⟨hl, hls⟩ := head_of_isPrefix hat
    cases l with
    | instruction i =>
      obtain ⟨d1, h1, he⟩ := Option.bind_eq_some_iff.1 he
      have hrest := ih hls (fun d l hl => hp d l (List.mem_cons_of_mem _ hl)) he
      rw [List.length_cons, Nat.add_comm ls.length 1, ← Nat.add_assoc]
      exact (runs_exec calls hl (hp d _ List.mem_cons_self) h1).trans hrest
    | _ => cases he

theorem runs_label {pc : Nat} {d : Data} {name : Text} (calls : Nat)
    (hl : code[pc]? = some (.label name)) (hp : P d (.label name)) :
    Runs w code P ⟨pc, d, calls⟩ ⟨pc + 1, d, calls⟩ := by
  refine .single hl hp ?_
  simp only [step, hl]
  rfl

theorem runs_jumpIf {pc p : Nat} {d : Data} {c : Condition} {target : Text} {f : Flags}
    (calls : Nat) (hl : code[pc]? = some (Codegen.jumpIf c target))
    (hp : P d (Codegen.jumpIf c target)) (hf : d.flags = some f)
    (hdest : destination code pc target = some p) :
    Runs w code P ⟨pc, d, calls⟩ ⟨if holds f c then p else pc + 1, d, calls⟩ := by
  refine .single hl hp ?_
  simp only [step, hl, Codegen.jumpIf, State.execute, hf]
  split
  · simp only [State.goto, hdest]
  · rfl

theorem runs_jump {pc p : Nat} {d : Data} {target : Text} (calls : Nat)
    (hl : code[pc]? = some (Codegen.jump target)) (hp : P d (Codegen.jump target))
    (hdest : destination code pc target = some p) :
    Runs w code P ⟨pc, d, calls⟩ ⟨p, d, calls⟩ := by
  refine .single hl hp ?_
  simp only [step, hl, Codegen.jump, State.execute, State.goto, hdest]

end

/-! ## The frame of the routine -/

/-- The forty bytes below an address. -/
def InFrame (top x : Word) : Prop := (x - (top - 40#64)).toNat < 40

theorem inFrame_sub (top : Word) {k : Nat} (h : 0 < k) (hk : k ≤ 40) :
    InFrame top (top - BitVec.ofNat 64 k) := by
  unfold InFrame
  have := top.isLt
  rw [BitVec.toNat_sub, BitVec.toNat_sub, BitVec.toNat_sub]
  simp only [BitVec.toNat_ofNat]
  omega

/-- A line that does not call the system, and stores to nothing but the frame below `top`. -/
def Confined (w : World) (top : Word) (d : Data) (l : Line) : Prop :=
  l ≠ syscall ∧ ∀ x, ¬ InFrame top x → Outside x (d.target w l)

/-- The lines of the routine before its system call: they stay in the frame, and take nothing off the
stack. -/
structure Tame (w : World) (top : Word) (d : Data) (l : Line) : Prop where
  line : l ∈ preamble
  passesBy : d.passesBy l = true
  confined : Confined w top d l

/-- Whether a line stores to nothing, whatever the registers hold. -/
def isPlain (w : World) (d : Data) (l : Line) : Bool :=
  d.passesBy l && (d.target w l).isNone && l ≠ syscall

section
variable {w : World} {top : Word}

theorem tame_of_isPlain {ls : List Line} (hsub : ls ⊆ preamble)
    (h : ∀ d, ls.all (isPlain w d) = true) (d : Data) : ∀ l ∈ ls, Tame w top d l := by
  intro l hl
  have hplain := List.all_eq_true.1 (h d) l hl
  simp only [isPlain, Bool.and_eq_true, decide_eq_true_eq, Option.isNone_iff_eq_none] at hplain
  refine ⟨hsub hl, hplain.1.1, hplain.2, fun x _ p hp => ?_⟩
  rw [hplain.1.2] at hp
  cases hp

/-- A line that stores one byte of the frame. -/
theorem tame_of_byte {d : Data} {i : Instruction} {a : Word} (hl : .instruction i ∈ preamble)
    (hby : d.passesBy (.instruction i) = true) (hcall : .instruction i ≠ syscall)
    (ht : d.instructionTarget w i = some (a, 1)) (ha : InFrame top a) :
    Tame w top d (.instruction i) := by
  refine ⟨hl, hby, hcall, fun x hx p hp => ?_⟩
  obtain rfl : (a, 1) = p := Option.some.inj (ht.symm.trans hp)
  have hne : x - a ≠ 0#64 := fun h0 => hx (sub_eq_zero.1 h0 ▸ ha)
  have hpos : (x - a).toNat ≠ 0 := fun h0 => hne (BitVec.eq_of_toNat_eq h0)
  change 1 ≤ (x - a).toNat
  omega

end

/-! ## Bytes -/

/-- The bytes from an address on. -/
def Memory.bytes (m : Memory) : Nat → Word → Text
  | 0, _ => []
  | n + 1, a => ⟨m a⟩ :: m.bytes n (a + 1#64)

theorem Memory.bytes_congr {m m' : Memory} {n : Nat} {a : Word}
    (h : ∀ i < n, m (a + BitVec.ofNat 64 i) = m' (a + BitVec.ofNat 64 i)) :
    m.bytes n a = m'.bytes n a := by
  induction n generalizing a with
  | zero => rfl
  | succ n ih =>
    have h0 := h 0 (by omega)
    rw [BitVec.add_zero] at h0
    rw [bytes, bytes, h0, ih]
    intro i hi
    have hs := h (i + 1) (by omega)
    rwa [Nat.add_comm i 1, BitVec.ofNat_add, ← BitVec.add_assoc] at hs

/-- A byte in front of others. -/
theorem Memory.bytes_store (m : Memory) {n : Nat} (hn : n + 1 < 2 ^ 64) (a : Word) (v : BitVec 8) :
    (m.store 1 a v).bytes (n + 1) a = ⟨v⟩ :: m.bytes n (a + 1#64) := by
  have hself : m.store 1 a v a = v := by simp [store]
  suffices hrest : (m.store 1 a v).bytes n (a + 1#64) = m.bytes n (a + 1#64) by
    rw [bytes, hself, hrest]
  refine bytes_congr fun i hi => Memory.store_apply_of_le (n := 1) m v ?_
  have hoff : a + 1#64 + BitVec.ofNat 64 i - a = BitVec.ofNat 64 (1 + i) := by
    rw [BitVec.ofNat_add, BitVec.add_assoc, BitVec.add_comm, BitVec.add_sub_cancel]
  rw [hoff, BitVec.toNat_ofNat, Nat.mod_eq_of_lt (by omega)]
  omega

/-- The frame holds a text at its end, with its start in `r8` and its length in `rcx`. -/
structure Filled (top : Word) (text : Text) (d : Data) : Prop where
  rsp : d.regs .rsp = top - 40#64
  start : d.regs .r8 = top - BitVec.ofNat 64 text.length
  count : d.regs .rcx = BitVec.ofNat 64 text.length
  bytes : d.mem.bytes text.length (d.regs .r8) = text

theorem Filled.congr {top : Word} {text : Text} {d d' : Data} (h : Filled top text d)
    (hrsp : d'.regs .rsp = d.regs .rsp) (hr8 : d'.regs .r8 = d.regs .r8)
    (hrcx : d'.regs .rcx = d.regs .rcx) (hmem : d'.mem = d.mem) : Filled top text d' :=
  ⟨hrsp.trans h.rsp, hr8.trans h.start, hrcx.trans h.count, by rw [hr8, hmem]; exact h.bytes⟩

section
variable {w : World} {top : Word} (rest : List Line)

/-- **A byte is put in front of the text**: the lines that step back, store and count. -/
theorem runs_put (pc calls : Nat) {d : Data} {i : Instruction} (value : Data → BitVec 8) {b : UInt8}
    {text : Text}
    (hat : [op1 .dec (q .r8), .instruction i, op1 .inc (q .rcx)] <+: (preamble ++ rest).drop pc)
    (hl : .instruction i ∈ preamble) (hcall : .instruction i ≠ syscall)
    (hby : ∀ d : Data, d.passesBy (.instruction i) = true)
    (ht : ∀ d : Data, d.instructionTarget w i = some (d.regs .r8 + 0#64, 1))
    (he : ∀ d : Data, Data.exec w i d
      = some { d with mem := d.mem.store 1 (d.regs .r8 + 0#64) (value d) })
    (hvalue : ∀ d' : Data, d'.regs .rdx = d.regs .rdx → value d' = b.toBitVec)
    (hf : Filled top text d) (hlen : text.length < 40) :
    ∃ d', Runs w (preamble ++ rest) (Tame w top) ⟨pc, d, calls⟩ ⟨pc + 3, d', calls⟩ ∧
      Filled top (b :: text) d' ∧ d'.regs .rax = d.regs .rax ∧ d'.regs .r9 = d.regs .r9 := by
  obtain ⟨hdec, hat⟩ := head_of_isPrefix hat
  obtain ⟨hstore, hat⟩ := head_of_isPrefix hat
  obtain ⟨hinc, -⟩ := head_of_isPrefix hat
  have hplain : ∀ d, ∀ l ∈ [op1 .dec (q .r8), op1 .inc (q .rcx)], Tame w top d l :=
    tame_of_isPlain (by decide) fun _ => rfl
  obtain ⟨d1, h1, hr8, hrsp, hrcx, hrax, hr9, hrdx, hmem⟩ : ∃ d1,
      Data.exec w (.unary .dec (q .r8)) d = some d1 ∧ d1.regs .r8 = d.regs .r8 - 1#64 ∧
      d1.regs .rsp = d.regs .rsp ∧ d1.regs .rcx = d.regs .rcx ∧ d1.regs .rax = d.regs .rax ∧
      d1.regs .r9 = d.regs .r9 ∧ d1.regs .rdx = d.regs .rdx ∧ d1.mem = d.mem :=
    ⟨_, rfl, rfl, rfl, rfl, rfl, rfl, rfl, rfl⟩
  obtain ⟨d3, h3, hr83, hrsp3, hrcx3, hrax3, hr93, hmem3⟩ : ∃ d3, Data.exec w (.unary .inc (q .rcx))
      { d1 with mem := d1.mem.store 1 (d1.regs .r8 + 0#64) (value d1) } = some d3 ∧
      d3.regs .r8 = d1.regs .r8 ∧ d3.regs .rsp = d1.regs .rsp ∧
      d3.regs .rcx = d1.regs .rcx + 1#64 ∧ d3.regs .rax = d1.regs .rax ∧
      d3.regs .r9 = d1.regs .r9 ∧ d3.mem = d1.mem.store 1 (d1.regs .r8 + 0#64) (value d1) :=
    ⟨_, rfl, rfl, rfl, rfl, rfl, rfl, rfl⟩
  have hback : d1.regs .r8 = top - BitVec.ofNat 64 (text.length + 1) := by
    rw [hr8, hf.start, BitVec.ofNat_add, BitVec.sub_sub]
  have htame : Tame w top d1 (.instruction i) := by
    refine tame_of_byte hl (hby d1) hcall (ht d1) ?_
    rw [BitVec.add_zero, hback]
    exact inFrame_sub top (by omega) (by omega)
  refine ⟨d3, ?_, ⟨?_, ?_, ?_, ?_⟩, hrax3.trans hrax, hr93.trans hr9⟩
  · have hlast : op1 .inc (q .rcx) ∈ [op1 .dec (q .r8), op1 .inc (q .rcx)] := by decide
    exact ((runs_exec calls hdec (hplain d _ List.mem_cons_self) h1).trans
      (runs_exec calls hstore htame (he d1))).trans (runs_exec calls hinc (hplain _ _ hlast) h3)
  · rw [hrsp3, hrsp, hf.rsp]
  · rw [hr83, hback]
    rfl
  · rw [hrcx3, hrcx, hf.count, List.length_cons, BitVec.ofNat_add]
  · rw [hmem3, hr83, BitVec.add_zero, List.length_cons, Memory.bytes_store _ (by omega),
      hvalue d1 hrdx, hr8, BitVec.sub_add_cancel, hmem, hf.bytes]

end

/-! ## Digits -/

theorem divide_unsigned (d : Data) {b : Word} (hb : b ≠ 0#64) (a : Word) :
    d.divide Data.isUnsigned ((0#64).toNat * 2 ^ 64 + a.toNat) b.toNat = some { d with
      regs := (d.regs.set .rax (a / b)).set .rdx (a % b)
      flags := none } := by
  have hb0 : (b.toNat : Int) ≠ 0 := by
    intro h0
    exact hb (BitVec.eq_of_toNat_eq (by simpa using h0))
  have ha : ((0#64).toNat : Int) * 2 ^ 64 + a.toNat = (a.toNat : Int) := by simp
  have hq : ((a.toNat : Int).tdiv b.toNat) = ((a.toNat / b.toNat : Nat) : Int) :=
    (Int.ofNat_tdiv ..).symm
  have hr : ((a.toNat : Int).tmod b.toNat) = ((a.toNat % b.toNat : Nat) : Int) :=
    (Int.ofNat_tmod ..).symm
  have hlt := a.isLt
  have hfits : ∀ k ≤ a.toNat, Data.isUnsigned (k : Int) = true := by
    intro k hk
    simp only [Data.isUnsigned, Bool.and_eq_true, decide_eq_true_eq]
    omega
  simp only [Data.divide, ha, if_neg hb0, hq, hr, hfits _ (Nat.div_le_self _ _), if_true,
    BitVec.ofInt_natCast, BitVec.udiv_def, BitVec.umod_def]

/-- The byte that a digit is written as. -/
theorem digit_byte (a : Word) :
    (a % 10#64).setWidth 8 + 48#8 = (UInt8.ofNat (0x30 + a.toNat % 10)).toBitVec := by
  apply BitVec.eq_of_toNat_eq
  rw [BitVec.toNat_add, BitVec.toNat_setWidth, BitVec.toNat_umod]
  change (a.toNat % 10 % 2 ^ 8 + 48) % 2 ^ 8 = (0x30 + a.toNat % 10) % 2 ^ 8
  omega

/-- The number is divided by ten, and the last digit is found in `dl`. -/
theorem exec_digit (w : World) (d : Data) : ∃ d',
    Data.execAll w ((preamble.drop (digitsLine + 1)).take 4) d = some d' ∧
    d'.regs .rax = d.regs .rax / 10#64 ∧
    (d'.regs .rdx).setWidth 8 = (UInt8.ofNat (0x30 + (d.regs .rax).toNat % 10)).toBitVec ∧
    d'.regs .rsp = d.regs .rsp ∧ d'.regs .r8 = d.regs .r8 ∧ d'.regs .rcx = d.regs .rcx ∧
    d'.regs .r9 = d.regs .r9 ∧ d'.mem = d.mem := by
  -- The lines before the division clear `rdx` and load the divisor.
  obtain ⟨d1, h1, hrax, hrdx, hr10, hrsp, hr8, hrcx, hr9, hmem⟩ : ∃ d1,
      Data.execAll w ((preamble.drop (digitsLine + 1)).take 2) d = some d1 ∧
      d1.regs .rax = d.regs .rax ∧
      d1.regs .rdx = 0#64 ∧ d1.regs .r10 = 10#64 ∧ d1.regs .rsp = d.regs .rsp ∧
      d1.regs .r8 = d.regs .r8 ∧ d1.regs .rcx = d.regs .rcx ∧ d1.regs .r9 = d.regs .r9 ∧
      d1.mem = d.mem := by
    refine ⟨_, rfl, rfl, ?_, rfl, rfl, rfl, rfl, rfl, rfl⟩
    change ((d.regs .rdx).setWidth 32 ^^^ (d.regs .rdx).setWidth 32).setWidth 64 = 0#64
    rw [BitVec.xor_self]
    rfl
  have h2 : Data.exec w (.unary .div (q .r10)) d1 = some { d1 with
      regs := (d1.regs.set .rax (d1.regs .rax / 10#64)).set .rdx (d1.regs .rax % 10#64)
      flags := none } := by
    rw [← divide_unsigned d1 (by decide) (d1.regs .rax), ← hrdx, ← hr10]
    rfl
  generalize hd2 : (⟨_, none, d1.mem⟩ : Data) = d2 at h2
  obtain ⟨d3, h3, hrdx3, hrest⟩ : ∃ d3, Data.exec w (.binary .add (b .rdx) (.char '0')) d2 = some d3 ∧
      (d3.regs .rdx).setWidth 8 = (d2.regs .rdx).setWidth 8 + 48#8 ∧ d3.regs .rax = d2.regs .rax ∧
      d3.regs .rsp = d2.regs .rsp ∧ d3.regs .r8 = d2.regs .r8 ∧ d3.regs .rcx = d2.regs .rcx ∧
      d3.regs .r9 = d2.regs .r9 ∧ d3.mem = d2.mem := by
    refine ⟨_, rfl, ?_, rfl, rfl, rfl, rfl, rfl, rfl⟩
    change ((d2.regs .rdx).extractLsb' 8 56 ++ ((d2.regs .rdx).setWidth 8 + 48#8)).setWidth 8 = _
    rw [BitVec.setWidth_append]
    simp
  have hsplit : (preamble.drop (digitsLine + 1)).take 4 = (preamble.drop (digitsLine + 1)).take 2 ++
      [.instruction (.unary .div (q .r10)), op2 .add (b .rdx) (.char '0')] := rfl
  refine ⟨d3, ?_, ?_⟩
  · rw [hsplit, Data.execAll_append, h1, Option.bind_some, Data.execAll, h2, Option.bind_some, op2,
      Data.execAll, h3]
    rfl
  · subst hd2
    rw [← hrax, ← hrsp, ← hr8, ← hrcx, ← hr9, ← hmem, ← digit_byte]
    exact ⟨hrest.1, hrdx3, hrest.2⟩

section
variable {w : World} {top : Word} (rest : List Line)

/-- One digit is written; the loop goes on while the number is not zero. -/
theorem runs_digit (calls : Nat) {d : Data} {text : Text} (hf : Filled top text d)
    (hlen : text.length < 40) :
    ∃ d', Runs w (preamble ++ rest) (Tame w top) ⟨digitsLine, d, calls⟩
        ⟨if d'.regs .rax = 0#64 then signLine else digitsLine, d', calls⟩ ∧
      d'.regs .rax = d.regs .rax / 10#64 ∧ d'.regs .r9 = d.regs .r9 ∧
      Filled top (UInt8.ofNat (0x30 + (d.regs .rax).toNat % 10) :: text) d' := by
  have hplain : ∀ d, ∀ l ∈ [.label ".digits"] ++ ((preamble.drop (digitsLine + 1)).take 4 ++
      [op2 .test (q .rax) (q .rax), jumpIf .nz ".digits"]), Tame w top d l :=
    tame_of_isPlain (by decide) fun _ => rfl
  have h1 : Runs w (preamble ++ rest) (Tame w top) ⟨digitsLine, d, calls⟩
      ⟨digitsLine + 1, d, calls⟩ :=
    runs_label calls rfl (hplain d _ (by simp))
  obtain ⟨d1, he1, hrax1, hrdx1, hrsp1, hr81, hrcx1, hr91, hmem1⟩ := exec_digit w d
  have h2 : Runs w (preamble ++ rest) (Tame w top) ⟨digitsLine + 1, d, calls⟩
      ⟨digitsLine + 5, d1, calls⟩ :=
    runs_lines calls ⟨_, rfl⟩ (fun d l hl => hplain d l (by simp [hl])) he1
  obtain ⟨d2, h3, hf2, hrax2, hr92⟩ := runs_put (w := w) rest (digitsLine + 5) calls
    (i := .binary .mov (at_ .r8 0) (b .rdx)) (fun d => (d.regs .rdx).setWidth 8)
    ⟨_, rfl⟩ (by decide) (by decide) (fun _ => rfl) (fun _ => rfl) (fun _ => rfl)
    (fun d' hd' => by rw [hd', hrdx1]) (hf.congr hrsp1 hr81 hrcx1 hmem1) hlen
  obtain ⟨d3, he3, hregs3, hmem3, hflags3⟩ : ∃ d3,
      Data.execAll w [op2 .test (q .rax) (q .rax)] d2 = some d3 ∧ d3.regs = d2.regs ∧
      d3.mem = d2.mem ∧ d3.flags = some (.of (d2.regs .rax &&& d2.regs .rax) false) :=
    ⟨_, rfl, rfl, rfl, rfl⟩
  have h4 : Runs w (preamble ++ rest) (Tame w top) ⟨digitsLine + 8, d2, calls⟩
      ⟨digitsLine + 9, d3, calls⟩ :=
    runs_lines calls ⟨_, rfl⟩ (fun d l hl => hplain d l (by simp [List.mem_singleton.1 hl])) he3
  have h5 : Runs w (preamble ++ rest) (Tame w top) ⟨digitsLine + 9, d3, calls⟩
      ⟨if d3.regs .rax = 0#64 then signLine else digitsLine, d3, calls⟩ := by
    have hjump : Runs w (preamble ++ rest) (Tame w top) ⟨digitsLine + 9, d3, calls⟩
        ⟨if holds (.of (d2.regs .rax &&& d2.regs .rax) false) .nz then digitsLine
          else signLine, d3, calls⟩ :=
      runs_jumpIf calls rfl (hplain d3 _ (by simp)) hflags3 rfl
    rw [holds_test, ← hregs3] at hjump
    by_cases h0 : d3.regs .rax = 0#64
    · simpa [compares, h0] using hjump
    · simpa [compares, h0] using hjump
  refine ⟨d3, (((h1.trans h2).trans h3).trans h4).trans h5, ?_, ?_, ?_⟩
  · rw [hregs3, hrax2, hrax1]
  · rw [hregs3, hr92, hr91]
  · exact hf2.congr (by rw [hregs3]) (by rw [hregs3]) (by rw [hregs3]) hmem3

/-- **The digits are written.** The loop puts a number of at most `n + 1` digits in front of what the
frame holds. -/
theorem runs_digits (calls : Nat) {n : Nat} {d : Data} {text : Text}
    (hn : (d.regs .rax).toNat < 10 ^ (n + 1)) (hf : Filled top text d)
    (hlen : text.length + n < 40) :
    ∃ d', Runs w (preamble ++ rest) (Tame w top) ⟨digitsLine, d, calls⟩ ⟨signLine, d', calls⟩ ∧
      d'.regs .r9 = d.regs .r9 ∧ Filled top (Text.ofNat (d.regs .rax).toNat ++ text) d' := by
  induction n generalizing d text with
  | zero =>
    obtain ⟨d', hrun, hrax, hr9, hf'⟩ := runs_digit (w := w) rest calls hf (by omega)
    have hzero : d'.regs .rax = 0#64 := by
      apply BitVec.eq_of_toNat_eq
      rw [hrax, BitVec.toNat_udiv]
      change (d.regs .rax).toNat / 10 = 0
      omega
    rw [if_pos hzero] at hrun
    rw [Text.ofNat_eq, if_pos (by omega)]
    exact ⟨d', hrun, hr9, hf'⟩
  | succ n ih =>
    obtain ⟨d', hrun, hrax, hr9, hf'⟩ := runs_digit (w := w) rest calls hf (by omega)
    have hdiv : (d'.regs .rax).toNat = (d.regs .rax).toNat / 10 := by
      rw [hrax, BitVec.toNat_udiv]
      rfl
    rw [Text.ofNat_eq]
    by_cases hzero : d'.regs .rax = 0#64
    · rw [if_pos hzero] at hrun
      rw [hzero] at hdiv
      have hsmall : (d.regs .rax).toNat < 10 := by
        change 0 = _ at hdiv
        omega
      rw [if_pos hsmall]
      exact ⟨d', hrun, hr9, hf'⟩
    · rw [if_neg hzero] at hrun
      have hlarge : ¬ (d.regs .rax).toNat < 10 := by
        intro hlt
        refine hzero (BitVec.eq_of_toNat_eq ?_)
        rw [hdiv]
        change _ = 0
        omega
      obtain ⟨d'', hrest, hr9', hf''⟩ := ih (d := d') (by rw [hdiv]; omega) hf' (by simp; omega)
      rw [if_neg hlarge, List.append_assoc, ← hdiv]
      exact ⟨d'', hrun.trans hrest, hr9'.trans hr9, hf''⟩

/-! ## The run of the routine -/

theorem compares_ns (a : Word) : compares a 0#64 .ns = decide (0 ≤ a.toInt) := by
  rw [compares, BitVec.sub_zero, BitVec.msb_eq_toInt, Bool.eq_iff_iff]
  simp

/-- A number and its negative, without signs: the least number is no exception. -/
theorem toNat_natAbs (a : Word) :
    (0 ≤ a.toInt → a.toNat = a.toInt.natAbs) ∧ (a.toInt < 0 → (-a).toNat = a.toInt.natAbs) := by
  have hlt := a.isLt
  have hcond := BitVec.toInt_eq_toNat_cond a
  rw [BitVec.toNat_neg]
  constructor
  · intro h
    split at hcond <;> omega
  · intro h
    split at hcond <;> omega

/-- The routine takes its frame, and finds the number without its sign. -/
theorem runs_entry (calls : Nat) {d : Data} (hrsp : d.regs .rsp = top) :
    ∃ d', Runs w (preamble ++ rest) (Tame w top) ⟨printLine, d, calls⟩ ⟨digitsLine, d', calls⟩ ∧
      Filled top [Text.byte '\n'] d' ∧ d'.regs .r9 = d.regs .rdi ∧
      (d'.regs .rax).toNat = (d.regs .rdi).toInt.natAbs := by
  have hplain : ∀ d, ∀ l ∈ [.label printInt] ++ ((preamble.drop (printLine + 1)).take 3 ++
      ((preamble.drop (printLine + 5)).take 3 ++ [jumpIf .ns ".digits", op1 .neg (q .rax)])),
        Tame w top d l :=
    tame_of_isPlain (by decide) fun _ => rfl
  have h1 : Runs w (preamble ++ rest) (Tame w top) ⟨printLine, d, calls⟩ ⟨printLine + 1, d, calls⟩ :=
    runs_label calls rfl (hplain d _ (by simp))
  obtain ⟨d1, he1, hrsp1, hr81, hrax1, hrdi1⟩ : ∃ d1,
      Data.execAll w ((preamble.drop (printLine + 1)).take 3) d = some d1 ∧
      d1.regs .rsp = top - 40#64 ∧
      d1.regs .r8 = top - 40#64 + 39#64 ∧ d1.regs .rax = d.regs .rdi ∧
      d1.regs .rdi = d.regs .rdi := by
    subst hrsp
    exact ⟨_, rfl, rfl, rfl, rfl, rfl⟩
  have h2 : Runs w (preamble ++ rest) (Tame w top) ⟨printLine + 1, d, calls⟩
      ⟨printLine + 4, d1, calls⟩ :=
    runs_lines calls ⟨_, rfl⟩ (fun d l hl => hplain d l (by simp [hl])) he1
  have hlast : d1.regs .r8 = top - BitVec.ofNat 64 1 := by
    have hlt := top.isLt
    apply BitVec.eq_of_toNat_eq
    rw [hr81, BitVec.toNat_add, BitVec.toNat_sub, BitVec.toNat_sub]
    simp only [BitVec.toNat_ofNat]
    omega
  have htame : Tame w top d1 (op2 .mov (.memory (some .byte) (.offset .r8 0)) (.imm 10)) := by
    refine tame_of_byte (a := d1.regs .r8 + 0#64) (by decide) rfl (by decide) rfl ?_
    rw [BitVec.add_zero, hlast]
    exact inFrame_sub top (by decide) (by decide)
  have h3 : Runs w (preamble ++ rest) (Tame w top) ⟨printLine + 4, d1, calls⟩
      ⟨printLine + 5, { d1 with mem := d1.mem.store 1 (d1.regs .r8 + 0#64) 10#8 }, calls⟩ :=
    runs_exec calls rfl htame rfl
  obtain ⟨d3, he3, hrsp3, hr83, hrcx3, hr93, hrax3, hmem3, hflags3⟩ : ∃ d3,
      Data.execAll w ((preamble.drop (printLine + 5)).take 3)
        { d1 with mem := d1.mem.store 1 (d1.regs .r8 + 0#64) 10#8 } = some d3 ∧
      d3.regs .rsp = d1.regs .rsp ∧ d3.regs .r8 = d1.regs .r8 ∧ d3.regs .rcx = 1#64 ∧
      d3.regs .r9 = d1.regs .rdi ∧ d3.regs .rax = d1.regs .rax ∧
      d3.mem = d1.mem.store 1 (d1.regs .r8 + 0#64) 10#8 ∧
      d3.flags = some (.of (d3.regs .rax &&& d3.regs .rax) false) :=
    ⟨_, rfl, rfl, rfl, rfl, rfl, rfl, rfl, rfl⟩
  have h4 : Runs w (preamble ++ rest) (Tame w top)
      ⟨printLine + 5, { d1 with mem := d1.mem.store 1 (d1.regs .r8 + 0#64) 10#8 }, calls⟩
      ⟨printLine + 8, d3, calls⟩ :=
    runs_lines calls ⟨_, rfl⟩ (fun d l hl => hplain d l (by simp [hl])) he3
  have hf3 : Filled top [Text.byte '\n'] d3 := by
    refine ⟨hrsp3.trans hrsp1, hr83.trans hlast, hrcx3, ?_⟩
    rw [hmem3, hr83, BitVec.add_zero, List.length_singleton, Memory.bytes_store _ (by decide)]
    rfl
  have h5 : Runs w (preamble ++ rest) (Tame w top) ⟨printLine + 8, d3, calls⟩
      ⟨if holds (.of (d3.regs .rax &&& d3.regs .rax) false) .ns then digitsLine
        else printLine + 9, d3, calls⟩ :=
    runs_jumpIf calls rfl (hplain d3 _ (by simp)) hflags3 rfl
  rw [holds_test, compares_ns] at h5
  have hstart := (((h1.trans h2).trans h3).trans h4).trans h5
  rw [hrax1] at hrax3
  rw [hrdi1] at hr93
  obtain ⟨hpos, hneg⟩ := toNat_natAbs (d.regs .rdi)
  by_cases hsign : 0 ≤ (d3.regs .rax).toInt
  · rw [decide_eq_true hsign, if_pos rfl] at hstart
    rw [hrax3] at hsign
    exact ⟨d3, hstart, hf3, hr93, by rw [hrax3]; exact hpos hsign⟩
  · rw [decide_eq_false hsign, if_neg (by decide)] at hstart
    rw [hrax3] at hsign
    obtain ⟨d4, he4, hrax4, hrsp4, hr84, hrcx4, hr94, hmem4⟩ : ∃ d4,
        Data.exec w (.unary .neg (q .rax)) d3 = some d4 ∧ d4.regs .rax = -d3.regs .rax ∧
        d4.regs .rsp = d3.regs .rsp ∧ d4.regs .r8 = d3.regs .r8 ∧ d4.regs .rcx = d3.regs .rcx ∧
        d4.regs .r9 = d3.regs .r9 ∧ d4.mem = d3.mem := ⟨_, rfl, rfl, rfl, rfl, rfl, rfl, rfl⟩
    have hneg' : Tame w top d3 (op1 .neg (q .rax)) := hplain d3 _ (by simp)
    refine ⟨d4, hstart.trans (runs_exec calls rfl hneg' he4), hf3.congr hrsp4 hr84 hrcx4 hmem4,
      hr94.trans hr93, ?_⟩
    rw [hrax4, hrax3]
    exact hneg (by omega)

/-- The sign is written, and the registers are set for the system call. -/
theorem runs_sign (calls : Nat) {d : Data} {text : Text} (hf : Filled top text d)
    (hlen : text.length < 40) :
    ∃ d', Runs w (preamble ++ rest) (Tame w top) ⟨signLine, d, calls⟩ ⟨callLine, d', calls⟩ ∧
      Filled top (if (d.regs .r9).toInt < 0 then Text.byte '-' :: text else text) d' ∧
      d'.regs .rax = 1#64 ∧ d'.regs .rdi = 1#64 ∧ d'.regs .rsi = d'.regs .r8 ∧
      d'.regs .rdx = d'.regs .rcx := by
  have hplain : ∀ d, ∀ l ∈ [op2 .test (q .r9) (q .r9), jumpIf .ns ".write", .label ".write"] ++
      (preamble.drop (writeLine + 1)).take 4, Tame w top d l :=
    tame_of_isPlain (by decide) fun _ => rfl
  obtain ⟨d1, he1, hregs1, hmem1, hflags1⟩ : ∃ d1,
      Data.exec w (.binary .test (q .r9) (q .r9)) d = some d1 ∧ d1.regs = d.regs ∧
      d1.mem = d.mem ∧ d1.flags = some (.of (d.regs .r9 &&& d.regs .r9) false) :=
    ⟨_, rfl, rfl, rfl, rfl⟩
  have htest : Tame w top d (op2 .test (q .r9) (q .r9)) := hplain d _ (by simp)
  have h1 : Runs w (preamble ++ rest) (Tame w top) ⟨signLine, d, calls⟩ ⟨signLine + 1, d1, calls⟩ :=
    runs_exec calls rfl htest he1
  have h2 : Runs w (preamble ++ rest) (Tame w top) ⟨signLine + 1, d1, calls⟩
      ⟨if holds (.of (d.regs .r9 &&& d.regs .r9) false) .ns then writeLine
        else signLine + 2, d1, calls⟩ :=
    runs_jumpIf calls rfl (hplain d1 _ (by simp)) hflags1 rfl
  rw [holds_test, compares_ns] at h2
  have hstart := h1.trans h2
  have hf1 : Filled top text d1 :=
    hf.congr (by rw [hregs1]) (by rw [hregs1]) (by rw [hregs1]) hmem1
  -- Both ways lead to the label in front of the system call.
  obtain ⟨d2, h3, hf2⟩ : ∃ d2,
      Runs w (preamble ++ rest) (Tame w top) ⟨signLine, d, calls⟩ ⟨writeLine, d2, calls⟩ ∧
      Filled top (if (d.regs .r9).toInt < 0 then Text.byte '-' :: text else text) d2 := by
    by_cases hsign : 0 ≤ (d.regs .r9).toInt
    · rw [decide_eq_true hsign, if_pos rfl] at hstart
      rw [if_neg (by omega)]
      exact ⟨d1, hstart, hf1⟩
    · rw [decide_eq_false hsign, if_neg (by decide)] at hstart
      rw [if_pos (by omega)]
      obtain ⟨d2, h3, hf2, -⟩ := runs_put (w := w) rest (signLine + 2) calls
        (i := .binary .mov (.memory (some .byte) (.offset .r8 0)) (.char '-'))
        (fun _ => 45#8) ⟨_, rfl⟩ (by decide) (by decide) (fun _ => rfl) (fun _ => rfl)
        (fun _ => rfl) (fun _ _ => rfl) hf1 hlen
      exact ⟨d2, hstart.trans h3, hf2⟩
  have h4 : Runs w (preamble ++ rest) (Tame w top) ⟨writeLine, d2, calls⟩
      ⟨writeLine + 1, d2, calls⟩ :=
    runs_label calls rfl (hplain d2 _ (by simp))
  obtain ⟨d3, he3, hrsp3, hr83, hrcx3, hmem3, hargs⟩ : ∃ d3,
      Data.execAll w ((preamble.drop (writeLine + 1)).take 4) d2 = some d3 ∧
      d3.regs .rsp = d2.regs .rsp ∧
      d3.regs .r8 = d2.regs .r8 ∧ d3.regs .rcx = d2.regs .rcx ∧ d3.mem = d2.mem ∧
      d3.regs .rax = 1#64 ∧ d3.regs .rdi = 1#64 ∧ d3.regs .rsi = d3.regs .r8 ∧
      d3.regs .rdx = d3.regs .rcx := ⟨_, rfl, rfl, rfl, rfl, rfl, rfl, rfl, rfl, rfl⟩
  have h5 : Runs w (preamble ++ rest) (Tame w top) ⟨writeLine + 1, d2, calls⟩ ⟨callLine, d3, calls⟩ :=
    runs_lines calls ⟨_, rfl⟩ (fun d l hl => hplain d l (List.mem_append_right _ hl)) he3
  exact ⟨d3, (h3.trans h4).trans h5, hf2.congr hrsp3 hr83 hrcx3 hmem3, hargs⟩

/-- **The routine up to its system call**, with the number in `rdi`: it is to write the number's text
and a line break to the standard output. -/
theorem runs_body (calls : Nat) (d : Data) :
    ∃ d', Runs w (preamble ++ rest) (Tame w (d.regs .rsp)) ⟨printLine, d, calls⟩ ⟨callLine, d', calls⟩ ∧
      d'.regs .rsp = d.regs .rsp - 40#64 ∧ d'.regs .rax = 1#64 ∧ d'.regs .rdi = 1#64 ∧
      d'.mem.bytes (d'.regs .rdx).toNat (d'.regs .rsi)
        = Text.ofInt (d.regs .rdi).toInt ++ [Text.byte '\n'] := by
  obtain ⟨d1, h1, hf1, hr91, hrax1⟩ := runs_entry (w := w) rest calls (d := d) rfl
  have hdigits : (d1.regs .rax).toNat < 10 ^ (19 + 1) := by
    have := (d1.regs .rax).isLt
    omega
  obtain ⟨d2, h2, hr92, hf2⟩ := runs_digits (w := w) rest calls hdigits hf1 (by decide)
  have hlen := Text.length_ofNat_le hdigits
  obtain ⟨d3, h3, hf3, hrax, hrdi, hrsi, hrdx⟩ := runs_sign (w := w) rest calls hf2 (by
    rw [List.length_append, List.length_singleton]
    omega)
  refine ⟨d3, (h1.trans h2).trans h3, hf3.rsp, hrax, hrdi, ?_⟩
  have htext : (if (d2.regs .r9).toInt < 0 then
      Text.byte '-' :: (Text.ofNat (d1.regs .rax).toNat ++ [Text.byte '\n'])
      else Text.ofNat (d1.regs .rax).toNat ++ [Text.byte '\n'])
        = Text.ofInt (d.regs .rdi).toInt ++ [Text.byte '\n'] := by
    rw [hr92, hr91, hrax1, Text.ofInt]
    split <;> rfl
  rw [htext] at hf3
  have hcount : (d3.regs .rdx).toNat
      = (Text.ofInt (d.regs .rdi).toInt ++ [Text.byte '\n']).length := by
    rw [hrdx, hf3.count, BitVec.toNat_ofNat, Nat.mod_eq_of_lt]
    rw [← htext]
    split <;> simp <;> omega
  rw [hcount, hrsi]
  exact hf3.bytes

end

/-! ## Calls of the routine -/

section
variable {w : World} {room : Nat} {top : Word} {prog : Program} (rest : List Line)

/-- The frame lies in the room of the stack. -/
structure Fits (w : World) (room : Nat) (top : Word) : Prop where
  sane : w.Sane room
  low : w.base.toNat + 40 ≤ top.toNat + 8 * room
  high : top.toNat + 8 ≤ w.base.toNat

theorem Fits.toNat_frame (h : Fits w room top) : (top - 40#64).toNat = top.toNat - 40 := by
  have hlow := h.low
  have hbelow := h.sane.below
  refine BitVec.toNat_sub_of_le ?_
  rw [BitVec.le_def]
  change 40 ≤ _
  omega

/-- Nothing in the frame is kept. -/
theorem Fits.not_inFrame (h : Fits w room top) {x : Word} (hx : w.Kept top x) :
    ¬ InFrame top x := by
  have hap := h.sane.apart
  have hlow := h.low
  have hhigh := h.high
  have hbelow := h.sane.below
  have hlt := x.isLt
  unfold InFrame
  rw [BitVec.toNat_sub, h.toNat_frame]
  rcases hx with hx | hx <;> omega

/-- The lines of the routine show nothing. -/
theorem Tame.shown (hq : ∀ l ∈ preamble, point? prog l = none) {d : Data} {l : Line}
    (h : Tame w top d l) : shown w prog d l = [] := by
  have hpoint := hq l h.line
  cases l with
  | instruction i =>
    have hreach : d.reach i = 0 := of_decide_eq_true h.passesBy
    simp [Machine.shown, breaches_of_reach hreach]
  | label _ | verbatim _ | comment _ | exported _ | blank => simp [Machine.shown, hpoint]

/-- A system call leaves what is kept as it is. -/
theorem Fits.kept_effect (h : Fits w room top) {d : Data} (hrsp : d.regs .rsp = top - 40#64)
    (calls : Nat) {x : Word} (hx : w.Kept top x) : w.effect calls d x = d.mem x := by
  have hframe := h.toNat_frame
  refine h.sane.keeps calls d x ?_
  rw [hrsp]
  rcases hx with hx | hx
  · exact .inl ⟨by omega, hx.2⟩
  · exact .inr hx

/-- The frame is left, and the return address is taken from the stack. -/
theorem run_return (prog : Program) {m : Memory} {v : View} (hfits : Fits w room (v.regs .rsp))
    (hb : Backs w room m v) {back : Word} {stack : List Word} (hst : v.stack = back :: stack)
    (calls : Nat) {d : Data} (hrsp : d.regs .rsp = v.regs .rsp - 40#64)
    (hkept : ∀ x, w.Kept (v.regs .rsp) x → d.mem x = m x) : ∃ m' regs flags,
      (visits w prog (preamble ++ rest)).Reaches 0 ⟨leaveLine, d, calls⟩ []
        (.running ⟨back.toNat, View.data ⟨regs, flags, stack⟩ m', calls⟩) ∧
      Backs w room m' ⟨regs, flags, stack⟩ := by
  have hlow := hfits.low
  have hhigh := hfits.high
  have hbelow := hfits.sane.below
  have hframe : (d.regs .rsp).toNat = (v.regs .rsp).toNat - 40 := by
    rw [hrsp, hfits.toNat_frame]
  obtain ⟨d1, he, hr, hm⟩ : ∃ d1, Data.exec w (.binary .add (q .rsp) (.imm 40)) d = some d1 ∧
      d1.regs .rsp = d.regs .rsp + 40#64 ∧ d1.mem = d.mem := ⟨_, rfl, rfl, rfl⟩
  have hin : d.breaches w (.binary .add (q .rsp) (.imm 40)) = false := by
    have hle : ¬ w.base.toNat < (d.regs .rsp).toNat + 40 := by omega
    simp [Data.breaches, Data.reach, q, hle]
  have h1 : visits w prog (preamble ++ rest) ⟨leaveLine, d, calls⟩
      = ([], .running ⟨leaveLine + 1, d1, calls⟩) :=
    visits_exec rfl hin he
  rw [hrsp, BitVec.sub_add_cancel] at hr
  have hin1 : d1.breaches w (.bare .ret) = false := by
    have hle : ¬ w.base.toNat < (d1.regs .rsp).toNat + 8 := by
      rw [hr]
      omega
    simp [Data.breaches, Data.reach, hle]
  have hback : Backs w room d1.mem v := hb.congr hfits.sane (by rw [hm]; exact hkept)
  have hr1 : d1.regs.set .rsp (d1.regs .rsp + 8#64) .rsp = v.regs .rsp + 8#64 := by
    rw [Registers.set_self, hr]
  obtain ⟨hload, hback, -⟩ := hback.pop hst hr1 d1.flags
  refine ⟨_, _, _, (System.Reaches.head h1 (.step ?_)).mono (Nat.zero_le _), hback⟩
  rw [visits_instruction (i := .bare .ret) rfl hin1, ← hload, ← hr]
  rfl

/-- **A call of the routine** returns with the operand stack as it was. -/
theorem run_print (hq : ∀ l ∈ preamble, point? prog l = none) (hw : w.Sane room)
    (hlen : (preamble ++ rest).length < 2 ^ 64) {pc calls : Nat}
    (hl : (preamble ++ rest)[pc]? = some (.instruction (.call printInt))) {v : View} {m : Memory}
    (hb : Backs w room m v) (hroom : v.stack.length + 6 ≤ room) :
    (w.reply calls = none →
      (visits w prog (preamble ++ rest)).Reaches 0 ⟨pc, v.data m, calls⟩ [] .ended) ∧
    ∀ x, w.reply calls = some x → ∃ m' regs flags,
      (visits w prog (preamble ++ rest)).Reaches 0 ⟨pc, v.data m, calls⟩ []
        (.running ⟨pc + 1, View.data ⟨regs, flags, v.stack⟩ m', calls + 1⟩) ∧
      Backs w room m' ⟨regs, flags, v.stack⟩ := by
  have hback := hb.push hw (by omega) (BitVec.ofNat 64 (pc + 1))
  have h1 : (visits w prog (preamble ++ rest)).Reaches 1 ⟨pc, v.data m, calls⟩ []
      (.running ⟨printLine, (v.push (BitVec.ofNat 64 (pc + 1))).data
        (m.store 8 (v.regs .rsp - 8#64) (BitVec.ofNat 64 (pc + 1))), calls⟩) := by
    refine .step ?_
    rw [visits_instruction (i := .call printInt) hl (breaches_of_reach rfl)]
    rfl
  have hst : (v.push (BitVec.ofNat 64 (pc + 1))).stack = BitVec.ofNat 64 (pc + 1) :: v.stack := rfl
  generalize v.push (BitVec.ofNat 64 (pc + 1)) = v1 at hback h1 hst
  generalize m.store 8 (v.regs .rsp - 8#64) (BitVec.ofNat 64 (pc + 1)) = m1 at hback h1
  have htop := hback.toNat_rsp hw
  have hbelow := hw.below
  have hfits : Fits w room (v1.regs .rsp) := by
    rw [hst, List.length_cons] at htop
    exact ⟨hw, by omega, by omega⟩
  obtain ⟨d, hbody, hrsp, hrax, -⟩ :=
    runs_body (w := w) rest calls (v1.data m1)
  have hmem : ∀ x, w.Kept (v1.regs .rsp) x → d.mem x = m1 x := fun x hx =>
    hbody.mem_eq fun d l htame =>
      ⟨htame.confined.1, htame.confined.2 x (hfits.not_inFrame hx)⟩
  have hne : d.regs .rax ≠ 60#64 := by
    rw [hrax]
    decide
  have h3 := (h1.trans (hbody.reaches fun d l htame => htame.shown hq)).mono (Nat.zero_le _)
  refine ⟨fun hx => (h3.trans (run_syscall_ended rfl (.inr hx))).mono (Nat.zero_le _), fun x hx => ?_⟩
  obtain ⟨hpc, -⟩ := List.getElem?_eq_some_iff.1 hl
  have hnext : (BitVec.ofNat 64 (pc + 1)).toNat = pc + 1 := by
    rw [BitVec.toNat_ofNat, Nat.mod_eq_of_lt (by omega)]
  have hkept : ∀ y, w.Kept (v1.regs .rsp) y → w.effect calls d y = m1 y := fun y hy =>
    (hfits.kept_effect hrsp calls hy).trans (hmem y hy)
  obtain ⟨m', regs, flags, h5, hback'⟩ := run_return rest prog hfits hback hst (calls + 1)
    (d := ⟨(d.regs.set .rax x).set .rcx (w.scratch calls), none, w.effect calls d⟩) hrsp hkept
  rw [hnext] at h5
  exact ⟨m', regs, flags,
    ((h3.trans (run_syscall_returns rfl hne hx)).trans h5).mono (Nat.zero_le _), hback'⟩

end

end StackLang.Machine
