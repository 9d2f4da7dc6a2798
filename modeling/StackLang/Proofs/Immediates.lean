import StackLang.Proofs.DataSection
import StackLang.Settings.Basic

/-!
# Numbers in instructions

An instruction may spell out a number. Half a register and the immediate of a push hold 32 bits, of
which a push extends the sign; only a move to a register takes 64. The code of a program spells out
the numbers of its literals, which always fit, the lengths of its strings, and the size of its input
buffers. The last two are written as they are, so beyond 31 and 32 bits the machine takes others.

- `isExact`: the immediates that are the numbers they spell. `isExact_iff`: their range.
- `inexact_opLines`: the lines of an operation whose immediates are not.
- `immediates_exact_up_to_sizes`: the lines of a compiled program whose immediates are not, and what
  literals push and `INPUT` passes to the system.
-/

set_option autoImplicit false

namespace StackLang

theorem Settings.size_pos_of_valid {settings : Settings} (h : settings.fault? = none) :
    0 < settings.inputBufferSize.toInt := by
  unfold fault? at h
  split at h
  · cases h
  · split at h
    · cases h
    · split at h
      · cases h
      · rename_i hsize
        rw [Int64.le_iff_toInt_le, Int64.toInt_zero] at hsize
        omega

/-! ## Integer literals -/

/-- Every operation has the action of its token. -/
theorem Program.action_ofTokensFrom {start : Nat} {ts : List Token} {prog : Program}
    (h : ofTokensFrom start ts = .ok prog) {op : Operation} (ho : op ∈ prog) :
    Action.ofToken op.token = .ok op.action := by
  induction ts generalizing start prog with
  | nil =>
    cases h
    cases ho
  | cons t ts ih =>
    unfold ofTokensFrom at h
    cases ha : Action.ofToken t with
    | error e => simp [ha] at h
    | ok action =>
      cases hr : ofTokensFrom (start + 1) ts with
      | error e => simp [ha, hr, Except.map] at h
      | ok rest =>
        simp only [ha, hr, Except.map, Except.ok.injEq] at h
        subst h
        rcases List.mem_cons.1 ho with rfl | ho
        · exact ha
        · exact ih hr ho

/-- The number that an operation pushes is that of its literal. -/
theorem Program.decimal_ofTokens {ts : List Token} {prog : Program} (h : ofTokens ts = .ok prog)
    {op : Operation} (ho : op ∈ prog) (ha : op.action = .pushInt) :
    Number.decimal op.token.text = .ok op.intValue := by
  have haction := action_ofTokensFrom h ho
  rw [ha] at haction
  rw [Operation.intValue, Number.clamped]
  unfold Action.ofToken at haction
  cases hd : Number.decimal op.token.text with
  | ok v => rfl
  | error fault =>
    exfalso
    cases hk : op.token.kind with
    | integer | boolean => simp [hk, hd] at haction
    | keyword => cases hn : Keyword.ofName? op.token.text <;> simp [hk, hn] at haction
    | word => cases hn : Primitive.ofName? op.token.text <;> simp [hk, hn] at haction
    | string | cstring | array | unassigned code => simp [hk] at haction

namespace Machine

open Assembly

/-! ## Exact immediates -/

/-- Whether an immediate is the number that it spells, with its sign or, where no sign is extended,
without. -/
def isExact (wide : Bool) (v : Int) (n : Width) : Bool :=
  (Data.immediate wide v n).toInt = v ||
    (n ≠ .qword || wide) && ((Data.immediate wide v n).toNat : Int) = v

/-- The numbers that an immediate can be, from the first to before the second. -/
def immediateRange (wide : Bool) : Width → Int × Int
  | .byte => (-2 ^ 7, 2 ^ 8)
  | .dword => (-2 ^ 31, 2 ^ 32)
  | .qword => if wide then (-2 ^ 63, 2 ^ 64) else (-2 ^ 31, 2 ^ 31)

/-- The numbers that a word of `k + 1` bits can be. -/
theorem ofInt_exact_iff (k : Nat) (v : Int) :
    (BitVec.ofInt (k + 1) v).toInt = v ∨ ((BitVec.ofInt (k + 1) v).toNat : Int) = v ↔
      -2 ^ k ≤ v ∧ v < 2 ^ (k + 1) := by
  have hpos : (0 : Int) < 2 ^ k := Int.pow_pos (by decide)
  have hdouble : ((2 ^ (k + 1) : Nat) : Int) = 2 * 2 ^ k := by
    rw [Nat.pow_succ, Nat.mul_comm]
    push_cast
    rfl
  have hmod : 0 ≤ v % ((2 ^ (k + 1) : Nat) : Int) := Int.emod_nonneg _ (by omega)
  have hlt : v % ((2 ^ (k + 1) : Nat) : Int) < ((2 ^ (k + 1) : Nat) : Int) :=
    Int.emod_lt_of_pos _ (by omega)
  rw [BitVec.toInt_ofInt, BitVec.toNat_ofInt, Int.toNat_of_nonneg hmod, Int.pow_succ]
  constructor
  · rintro (h | h)
    · have hle := Int.le_bmod (x := v) (m := 2 ^ (k + 1)) (by omega)
      have hlt := Int.bmod_lt (x := v) (m := 2 ^ (k + 1)) (by omega)
      omega
    · omega
  · rintro ⟨hle, hlt⟩
    by_cases hv : v < 2 ^ k
    · exact .inl (Int.bmod_eq_of_le (by omega) (by omega))
    · exact .inr (Int.emod_eq_of_lt (by omega) (by omega))

/-- **The range of exact immediates.** -/
theorem isExact_iff {wide : Bool} {v : Int} {n : Width} : isExact wide v n = true ↔
    (immediateRange wide n).1 ≤ v ∧ v < (immediateRange wide n).2 := by
  -- where no sign is extended, both readings count
  have hfull (h : n ≠ .qword ∨ wide = true) : isExact wide v n = true ↔
      (Data.immediate wide v n).toInt = v ∨ ((Data.immediate wide v n).toNat : Int) = v := by
    simp [isExact, h]
  cases n with
  | byte => exact (hfull (.inl (by decide))).trans (ofInt_exact_iff 7 v)
  | dword => exact (hfull (.inl (by decide))).trans (ofInt_exact_iff 31 v)
  | qword =>
    cases wide with
    | true => exact (hfull (.inr rfl)).trans (ofInt_exact_iff 63 v)
    | false =>
      have hnarrow : (Data.immediate false v .qword).toInt = v.bmod (2 ^ 32) := by
        change ((BitVec.ofInt 32 v).signExtend 64).toInt = _
        rw [BitVec.toInt_signExtend_of_le (by decide), BitVec.toInt_ofInt]
      have hsigned : isExact false v .qword = true ↔ v.bmod (2 ^ 32) = v := by
        simp [isExact, hnarrow]
      rw [hsigned, Int.bmod_def]
      change _ ↔ -2 ^ 31 ≤ v ∧ v < 2 ^ 31
      split <;> omega

/-! ## Lines -/

/-- The number that an operand spells out. -/
def number? : Operand → Option Int
  | .imm v => some v
  | .char c => some c.toNat
  | .reg _ _ | .symbol _ | .memory _ _ => none

/-- Whether an operand of a width is the number that it spells, if it spells one. -/
def operandExact (wide : Bool) (n : Option Width) (o : Operand) : Bool :=
  match number? o with
  | none => true
  | some v => n.any (isExact wide v)

/-- Whether the numbers that an instruction spells are what it takes. -/
def instructionExact : Instruction → Bool
  | .binary o dst src =>
    let n := (Data.width? dst).or (Data.width? src)
    operandExact false n dst && operandExact (Data.isWide o dst) n src
  | .unary .push x => operandExact false (some .qword) x
  | .unary _ x => operandExact false (Data.width? x) x
  | .set _ x => operandExact false (some .byte) x
  | .bare _ | .jump _ | .jumpIf _ _ | .call _ => true

/-- Whether all numbers of a line of code are known to be what the machine takes. -/
def lineExact : Line → Bool
  | .instruction i => instructionExact i
  | .verbatim _ => false
  | .label _ | .comment _ | .exported _ | .blank => true

theorem lineExact_push (v : Int) : lineExact (Codegen.op1 .push (.imm v)) = isExact false v .qword :=
  rfl

theorem lineExact_mov (r : Register) (n : Width) (v : Int) :
    lineExact (Codegen.op2 .mov (.reg r n) (.imm v)) = isExact true v n := rfl

end Machine

namespace Codegen

open Assembly Machine

/-! ## Operations -/

/-- The lines of an operation whose number is too large for the machine. -/
def oversized (size : Int) (op : Operation) : List Line :=
  match op.action with
  | .pushString =>
    match Literal.unquote op.token.text with
    | .ok bytes => if bytes.length < 2 ^ 31 then [] else [op1 .push (.imm bytes.length)]
    | .error _ => []
  | .primitive .input => if size < 2 ^ 32 then [] else [op2 .mov (d .rdx) (.imm size)]
  | _ => []

/-- The lines of code whose numbers are not what the machine takes. -/
def inexact (ls : List Line) : List Line := ls.filter (! lineExact ·)

theorem inexact_eq_nil {ls : List Line} (h : ls.all lineExact = true) : inexact ls = [] := by
  rw [inexact, List.filter_eq_nil_iff]
  intro l hl
  rw [List.all_eq_true.1 h l hl]
  decide

theorem exact_pushNumber (v : Int64) : (pushNumber v).all lineExact = true := by
  have hle := v.le_toInt
  have hlt := v.toInt_lt
  unfold pushNumber
  split
  · rename_i hfits
    simp only [fitsPush, Bool.and_eq_true, decide_eq_true_eq] at hfits
    have hexact : isExact false v.toInt .qword = true := by
      rw [isExact_iff]
      change -2 ^ 31 ≤ v.toInt ∧ v.toInt < 2 ^ 31
      omega
    rw [List.all_cons, lineExact_push, hexact]
    rfl
  · have hexact : isExact true v.toInt .qword = true := by
      rw [isExact_iff]
      change -2 ^ 63 ≤ v.toInt ∧ v.toInt < 2 ^ 64
      omega
    rw [List.all_cons, q, lineExact_mov, hexact]
    rfl

theorem exact_keyword {prog : Program} {table : BlockTable} {op : Operation} {k : Keyword}
    {ls : List Line} (h : keyword prog table op k = .ok ls) : ls.all lineExact = true := by
  cases k with
  | ifKw | whileKw | endifKw =>
    cases h
    rfl
  | endKw => cases h
  | elifKw | elseKw | doKw | doneKw | breakKw =>
    obtain ⟨target, -, rfl⟩ := Failure.of_map_ok h
    rfl

/-- Among the primitives, only `INPUT` spells out a number that is not fixed. -/
theorem exact_primitive {size index : Int} {p : Primitive} (hp : p ≠ .input) {ls : List Line}
    (h : primitive size index p = some ls) : ls.all lineExact = true := by
  cases p with
  | input => exact absurd rfl hp
  | unassigned code => cases h
  | syscall args =>
    obtain rfl := Option.some.inj h
    have hall : ∀ args : Fin 7, ([pop .rax] ++ (argumentRegisters.take args).reverse.map pop
        ++ [syscall, push .rax]).all lineExact = true := by decide
    exact hall args
  | _ =>
    obtain rfl := Option.some.inj h
    rfl

theorem inexact_cons (l : Line) (ls : List Line) :
    inexact (l :: ls) = if lineExact l then inexact ls else l :: inexact ls := by
  cases h : lineExact l <;> simp [inexact, h]

theorem inexact_pushLength (n : Nat) (sym : Text) : inexact (op1 .push (.imm n) :: pushAddress sym)
    = if n < 2 ^ 31 then [] else [op1 .push (.imm n)] := by
  have hexact : lineExact (op1 .push (.imm n)) = true ↔ n < 2 ^ 31 := by
    rw [lineExact_push, isExact_iff]
    change -2 ^ 31 ≤ (n : Int) ∧ (n : Int) < 2 ^ 31 ↔ _
    omega
  have hrest : inexact (pushAddress sym) = [] := inexact_eq_nil rfl
  simp only [inexact_cons, hexact, hrest]

/-- The lines that pass the address and the size of a buffer to the system. -/
def inputArguments (sym : Text) (size : Int) : List Line :=
  [op2 .xor (d .rax) (d .rax), op2 .xor (d .rdi) (d .rdi), op2 .mov (q .rsi) (.symbol sym),
   op2 .mov (d .rdx) (.imm size)]

theorem inexact_input {size : Int} (hsize : 0 < size) (sym : Text) :
    inexact (inputArguments sym size ++ syscall :: push .rax :: pushAddress sym)
      = if size < 2 ^ 32 then [] else [op2 .mov (d .rdx) (.imm size)] := by
  have hexact : lineExact (op2 .mov (d .rdx) (.imm size)) = true ↔ size < 2 ^ 32 := by
    rw [d, lineExact_mov, isExact_iff]
    change -2 ^ 31 ≤ size ∧ size < 2 ^ 32 ↔ _
    omega
  have hrest : inexact (syscall :: push .rax :: pushAddress sym) = [] := inexact_eq_nil rfl
  have hfirst : lineExact (op2 .xor (d .rax) (d .rax)) = true ∧
      lineExact (op2 .xor (d .rdi) (d .rdi)) = true ∧
      lineExact (op2 .mov (q .rsi) (.symbol sym)) = true := ⟨rfl, rfl, rfl⟩
  simp only [inputArguments, List.cons_append, List.nil_append, inexact_cons, hfirst, if_true, hexact,
    hrest]

/-- **The lines of an operation** whose numbers are not what the machine takes. -/
theorem inexact_opLines (prog : Program) (table : BlockTable) {size : Int} (hsize : 0 < size)
    (op : Operation) : inexact (opLines prog table size op) = oversized size op := by
  have hcomment : inexact (opLines prog table size op) = inexact (template prog table size op) := rfl
  rw [hcomment]
  unfold template code oversized
  cases ha : op.action with
  | keyword k =>
    dsimp only
    cases hk : keyword prog table op k with
    | error e => rfl
    | ok ls => exact inexact_eq_nil (exact_keyword hk)
  | pushInt => exact inexact_eq_nil (exact_pushNumber op.intValue)
  | pushString =>
    dsimp only
    cases Literal.unquote op.token.text with
    | error fault => rfl
    | ok bytes => exact inexact_pushLength bytes.length _
  | pushCString | pushArray => exact inexact_eq_nil rfl
  | unassigned code => rfl
  | primitive p =>
    by_cases hp : p = .input
    · subst hp
      exact inexact_input hsize _
    · dsimp only
      cases hls : primitive size op.index p with
      | none =>
        cases p with
        | input => exact absurd rfl hp
        | _ => rfl
      | some ls =>
        refine (inexact_eq_nil (exact_primitive hp hls)).trans ?_
        cases p with
        | input => exact absurd rfl hp
        | _ => rfl

theorem inexact_layout (prog : Program) (table : BlockTable) {size : Int} (hsize : 0 < size) :
    inexact (layout prog table size).code.toList = prog.flatMap (oversized size) := by
  have hcode : (layout prog table size).code.toList
      = preamble ++ (prog.flatMap (opLines prog table size) ++ epilogue) := rfl
  have hframe : inexact preamble = [] ∧ inexact epilogue = [] :=
    ⟨inexact_eq_nil (by decide), inexact_eq_nil (by decide)⟩
  have hops : inexact (prog.flatMap (opLines prog table size)) = prog.flatMap (oversized size) := by
    rw [inexact, List.filter_flatMap]
    exact congrArg (prog.flatMap ·) (funext fun op => inexact_opLines prog table hsize op)
  rw [hcode, inexact, List.filter_append, List.filter_append]
  change inexact preamble ++ (inexact (prog.flatMap _) ++ inexact epilogue) = _
  rw [hframe.1, hframe.2, hops, List.nil_append, List.append_nil]

/-! ## Programs -/

/-- What the system is given by `INPUT`: the number of the call, the standard input, the buffer, and
its size without the bits beyond 32. -/
theorem exec_inputArguments (w : World) (sym : Text) (size : Int) (data : Data) :
    ∃ data', Data.execAll w (inputArguments sym size) data = some data' ∧
      data'.regs .rax = 0#64 ∧ data'.regs .rdi = 0#64 ∧ data'.regs .rsi = w.address sym ∧
        ((data'.regs .rdx).toNat : Int) = size % 2 ^ 32 := by
  have hzero (x : BitVec 32) : (x ^^^ x).setWidth 64 = 0#64 := by
    rw [BitVec.xor_self]
    rfl
  refine ⟨_, rfl, hzero _, hzero _, rfl, ?_⟩
  have hnonneg : 0 ≤ size % 2 ^ 32 := Int.emod_nonneg _ (by decide)
  change (((BitVec.ofInt 32 size).setWidth 64).toNat : Int) = _
  rw [BitVec.toNat_setWidth_of_le (by decide), BitVec.toNat_ofInt]
  exact Int.toNat_of_nonneg hnonneg

/-- The only memory under the symbol of an input buffer has the size that was asked for. -/
theorem reserved_input {r : Compiled} {size : Int} (hr : r.Made size) (hsize : 0 < size)
    {op : Operation} (ho : op ∈ r.program) (ha : op.action = .primitive .input) :
    ⟨(Symbol.input op.index).name, size⟩ ∈ r.artifact.bss.toList ∧
      ∀ res ∈ r.artifact.bss.toList, res.sym = (Symbol.input op.index).name → res.size = size := by
  obtain ⟨-, hlayout⟩ := layout_of_made hr
  have hwish : bufferSizeFor size = size := if_neg (by omega)
  have hbss : r.artifact.bss.toList
      = ⟨argsPointer, 8⟩ :: r.program.flatMap (reservations size) := by
    rw [hlayout, hwish]
    rfl
  rw [hbss]
  constructor
  · refine List.mem_cons_of_mem _ (List.mem_flatMap.2 ⟨op, ho, ?_⟩)
    simp [reservations, ha]
  · intro res hres hsym
    rcases List.mem_cons.1 hres with rfl | hres
    · -- the cell of the arguments has another name
      have hother : argsPointer ∉ (r.program.flatMap declared).map (·.1) :=
        (List.nodup_cons.1 (nodup_declared hr.indexed)).1
      refine absurd (List.mem_map.2 ⟨((Symbol.input op.index).name, .bss), ?_, hsym.symm⟩) hother
      refine List.mem_flatMap.2 ⟨op, ho, ?_⟩
      simp [declared, ha]
    · obtain ⟨op', -, hres⟩ := List.mem_flatMap.1 hres
      unfold reservations at hres
      split at hres
      · rw [List.mem_singleton.1 hres]
      · cases hres

/-- **Immediates are what they spell, up to the size of strings and buffers.** Let a program be compiled
with settings that a build accepts. The lines whose numbers are not what the machine takes are the
pushes of lengths from `2 ^ 31` on, and the size that `INPUT` passes when it is at least `2 ^ 32`.
Every integer literal pushes its number. The length that a string pushes is that of its bytes unless
it is too large, and so is the size that `INPUT` passes that of its buffer; what is passed then are
its low 32 bits. -/
theorem immediates_exact_up_to_sizes {lib : Library} {file source : Text} {settings : Settings}
    {size : Int} (hvalid : settings.fault? = none) (hsize : settings.inputBufferSize.toInt = size)
    {r : Compiled} (h : compile lib file source size = .ok r) :
    inexact r.artifact.code.toList = r.program.flatMap (oversized size) ∧
    (∀ op ∈ r.program, op.action = .pushInt →
      Number.decimal op.token.text = .ok op.intValue ∧
      .comment (remark op) :: pushNumber op.intValue <:+: r.artifact.code.toList ∧
      ∀ w stack, Turns w (pushNumber op.intValue) stack (op.intValue.toBitVec :: stack)) ∧
    (∀ op ∈ r.program, op.action = .pushString → ∃ bytes lines, ∃ length : Word,
      Literal.unquote op.token.text = .ok bytes ∧
      .comment (remark op) :: lines <:+: r.artifact.code.toList ∧
      (∀ w stack, Turns w lines stack
        (w.address (Symbol.string op.index).name :: length :: stack)) ∧
      (length.toInt = bytes.length ↔ bytes.length < 2 ^ 31)) ∧
    ∀ op ∈ r.program, op.action = .primitive .input → ∃ lines rest,
      .comment (remark op) :: (lines ++ syscall :: rest) <:+: r.artifact.code.toList ∧
      ⟨(Symbol.input op.index).name, size⟩ ∈ r.artifact.bss.toList ∧
      (∀ res ∈ r.artifact.bss.toList, res.sym = (Symbol.input op.index).name → res.size = size) ∧
      ∀ w data, ∃ data', Data.execAll w lines data = some data' ∧
        data'.regs .rax = 0#64 ∧ data'.regs .rdi = 0#64 ∧
        data'.regs .rsi = w.address (Symbol.input op.index).name ∧
        ((data'.regs .rdx).toNat : Int) = size % 2 ^ 32 ∧
        (((data'.regs .rdx).toNat : Int) = size ↔ size < 2 ^ 32) := by
  obtain ⟨-, hr⟩ := compile_eq_ok_iff.1 h
  obtain ⟨hs, hlayout⟩ := layout_of_made hr
  have hpos : 0 < size := hsize ▸ Settings.size_pos_of_valid hvalid
  have hwish : bufferSizeFor size = size := if_neg (by omega)
  rw [hwish] at hlayout
  have hlines (op : Operation) (ho : op ∈ r.program) :
      .comment (remark op) :: template r.program r.blocks size op <:+: r.artifact.code.toList := by
    rw [hlayout]
    exact opLines_isInfix ho r.blocks size
  refine ⟨?_, fun op ho ha => ?_, fun op ho ha => ?_, fun op ho ha => ?_⟩
  · rw [hlayout]
    exact inexact_layout r.program r.blocks hpos
  · refine ⟨Program.decimal_ofTokens hr.program ho ha, ?_, fun w stack =>
      (turns_pushNumber w op.intValue stack).1⟩
    simpa only [template, code, ha] using hlines op ho
  · obtain ⟨bytes, hbytes⟩ : ∃ bytes, Literal.unquote op.token.text = .ok bytes := by
      simpa only [Operation.Sound, ha] using hs op ho
    refine ⟨bytes, _, _, hbytes, ?_, fun w stack => turns_pushLength w _ bytes.length stack, ?_⟩
    · simpa only [template, code, ha, hbytes] using hlines op ho
    · have hexact : isExact false bytes.length .qword = true ↔ bytes.length < 2 ^ 31 := by
        rw [isExact_iff]
        change -2 ^ 31 ≤ (bytes.length : Int) ∧ (bytes.length : Int) < 2 ^ 31 ↔ _
        omega
      rw [← hexact]
      simp [isExact]
  · obtain ⟨hmem, hall⟩ := reserved_input hr hpos ho ha
    refine ⟨inputArguments (Symbol.input op.index).name size,
      push .rax :: pushAddress (Symbol.input op.index).name, ?_, hmem, hall, fun w data => ?_⟩
    · have hcode := hlines op ho
      simp only [template, code, ha, primitive] at hcode
      exact hcode
    · obtain ⟨data', hexec, hrax, hrdi, hrsi, hrdx⟩ := exec_inputArguments w _ size data
      refine ⟨data', hexec, hrax, hrdi, hrsi, hrdx, ?_⟩
      rw [hrdx]
      omega

/-- Integers at the ends of their range and beyond 32 bits, a string, and a read. -/
def widest : Program :=
  [written 0 .pushInt .integer "9223372036854775807" 1, written 1 .pushInt .integer "-2147483649" 21,
   written 2 .pushString .string "\"ab\"" 33, written 3 (.primitive .input) .word "INPUT" 38]

/-- Settings with the largest buffers whose size half a register holds, and with larger ones. -/
def largeBuffers (size : Int64) : Settings := { inputBufferSize := size }

theorem immediates_exact_up_to_sizes_widest : ∃ r,
    (largeBuffers 4294967295).fault? = none ∧
    compile (.ofList "/" []) "a" "9223372036854775807 -2147483649 \"ab\" INPUT" 4294967295 = .ok r ∧
    inexact r.artifact.code.toList = [] ∧
    (∀ w stack, Turns w (pushNumber 9223372036854775807) stack (9223372036854775807#64 :: stack)) ∧
    ⟨"input_3", 4294967295⟩ ∈ r.artifact.bss.toList := by
  have hl : Lexer.tokens "a" "9223372036854775807 -2147483649 \"ab\" INPUT" =
      .ok (widest.map (·.token)) := by decide +kernel
  have hp : Program.ofTokens (widest.map (·.token)) = .ok widest := by decide +kernel
  have hsteps : Check.steps widest [] = .ok [.ptr (.data (.input 3)), .int none,
      .ptr (.data (.string 2)), .known 2, .known (-2147483649), .known 9223372036854775807] := by
    decide +kernel
  have hb : Blocks.resolve widest = .ok (.empty 4) := by decide +kernel
  obtain ⟨a, hr⟩ := exists_compile (.ofList "/" []) (source_of_tokens hl (by decide)) hp
    (Check.run_of_steps hsteps) hb 4294967295
  have hvalid : (largeBuffers 4294967295).fault? = none := by decide
  obtain ⟨hcode, hints, -, hinputs⟩ :=
    immediates_exact_up_to_sizes hvalid (by decide) hr
  obtain ⟨-, -, hturns⟩ := hints (written 0 .pushInt .integer "9223372036854775807" 1)
    List.mem_cons_self rfl
  obtain ⟨-, -, -, hmem, -⟩ := hinputs (written 3 (.primitive .input) .word "INPUT" 38)
    (by simp [widest]) rfl
  have hnone : widest.flatMap (oversized 4294967295) = [] := by decide +kernel
  exact ⟨_, hvalid, hr, hcode.trans hnone, hturns, hmem⟩

/-- A buffer of `2 ^ 32` bytes is accepted and reserved, and the system is told to read nothing. -/
theorem input_passes_zero : ∃ r, (largeBuffers 4294967296).fault? = none ∧
    compile (.ofList "/" []) "a" "INPUT" 4294967296 = .ok r ∧
    ⟨"input_0", 4294967296⟩ ∈ r.artifact.bss.toList ∧
    op2 .mov (d .rdx) (.imm 4294967296) ∈ r.artifact.code.toList ∧
    ∀ w data, ∃ data', Data.exec w (.binary .mov (d .rdx) (.imm 4294967296)) data = some data' ∧
      data'.regs .rdx = 0#64 := by
  have hl : Lexer.tokens "a" "INPUT" =
      .ok ([written 0 (.primitive .input) .word "INPUT" 1].map (·.token)) := by decide +kernel
  have hp : Program.ofTokens ([written 0 (.primitive .input) .word "INPUT" 1].map (·.token))
      = .ok [written 0 (.primitive .input) .word "INPUT" 1] := by decide +kernel
  have hsteps : Check.steps [written 0 (.primitive .input) .word "INPUT" 1] []
      = .ok [.ptr (.data (.input 0)), .int none] := by decide +kernel
  have hb : Blocks.resolve [written 0 (.primitive .input) .word "INPUT" 1] = .ok (.empty 1) := by
    decide +kernel
  have hr := compile_eq_layout (.ofList "/" []) (source_of_tokens hl (by decide)) hp
    (Check.run_of_steps hsteps) hb 4294967296
  refine ⟨_, by decide, hr, ?_, ?_, fun w data => ⟨_, rfl, rfl⟩⟩
  · decide +kernel
  · decide +kernel

end Codegen

end StackLang
