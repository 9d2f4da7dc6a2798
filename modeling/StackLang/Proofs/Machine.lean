import Mathlib.Algebra.Group.Int.Defs
import Mathlib.Algebra.Group.Nat.Defs
import StackLang.Codegen
import StackLang.Assembly.Verify
import StackLang.Proofs.BlockPartners
import StackLang.Proofs.Traces

/-!
# The machine

A 64-bit machine that runs the lines of a text section: registers with their low parts, the flags
that conditions look at, memory of bytes with the lowest byte of a number first, and a line number as
the instruction pointer. What the surroundings contribute is a `World`: where symbols lie, where the
stack starts, and what each system call returns and does to memory.

- `Data.exec`: the instructions that do not jump.
- `step`: one line.
- `Data.breaches`: when an instruction goes past the bottom of the operand stack.
- `visits`: the machine as a system that shows the operand stack where operations start, at their
  labels and at the end, and every instruction that goes past the bottom of the stack.
-/

set_option autoImplicit false

namespace StackLang.Machine

open Assembly Verify

/-- What a register holds. -/
abbrev Word := BitVec 64

/-! ## Memory -/

/-- A byte at each address. -/
abbrev Memory := Word → BitVec 8

namespace Memory

/-- The number in the `n` bytes from an address on. -/
def load (m : Memory) : (n : Nat) → Word → BitVec (8 * n)
  | 0, _ => 0#0
  | n + 1, a => m.load n (a + 1#64) ++ m a

/-- The memory with a number of `n` bytes at an address. -/
def store (m : Memory) (n : Nat) (a : Word) (v : BitVec (8 * n)) : Memory := fun x =>
  if (x - a).toNat < n then v.extractLsb' (8 * (x - a).toNat) 8 else m x

end Memory

/-- The number of bits that an operand covers. -/
@[reducible] def bits : Width → Nat
  | .byte => 8
  | .dword => 32
  | .qword => 64

/-- The number of a width at an address. -/
def Memory.read (m : Memory) (a : Word) : (n : Width) → BitVec (bits n)
  | .byte => m a
  | .dword => m.load 4 a
  | .qword => m.load 8 a

/-- The memory with a number of a width at an address. -/
def Memory.write (m : Memory) (a : Word) : (n : Width) → BitVec (bits n) → Memory
  | .byte, v => m.store 1 a v
  | .dword, v => m.store 4 a v
  | .qword, v => m.store 8 a v

/-! ## Registers and flags -/

/-- The low part of a word. -/
def low (v : Word) : (n : Width) → BitVec (bits n)
  | .byte => v.setWidth 8
  | .dword => v.setWidth 32
  | .qword => v

/-- A register after a write to its low part: a byte leaves the rest, half a register clears it. -/
def merge (old : Word) : (n : Width) → BitVec (bits n) → Word
  | .byte, v => old.extractLsb' 8 56 ++ v
  | .dword, v => v.setWidth 64
  | .qword, v => v

/-- The contents of the registers. -/
abbrev Registers := Register → Word

/-- The registers with another word in one of them. -/
def Registers.set (rs : Registers) (r : Register) (v : Word) : Registers :=
  fun r' => if r' = r then v else rs r'

/-- The flags that conditions look at. -/
structure Flags where
  zero : Bool
  sign : Bool
  overflow : Bool

/-- The flags after a result. -/
def Flags.of {n : Nat} (v : BitVec n) (overflow : Bool) : Flags := ⟨v == 0#n, v.msb, overflow⟩

/-- Whether a condition holds. -/
def holds (f : Flags) : Condition → Bool
  | .e | .z => f.zero
  | .ne | .nz => !f.zero
  | .g => !f.zero && f.sign == f.overflow
  | .ge => f.sign == f.overflow
  | .l => f.sign != f.overflow
  | .le => f.zero || f.sign != f.overflow
  | .ns => !f.sign

/-- What instructions act on. Flags that an instruction leaves undefined are absent. -/
structure Data where
  regs : Registers
  flags : Option Flags
  mem : Memory

/-- What a program meets. -/
structure World where
  /-- Where symbols lie. -/
  address : Text → Word
  /-- The stack pointer at the start. -/
  base : Word
  /-- The number of arguments. -/
  argc : Word
  /-- What the `n`-th system call returns; none when it does not return. -/
  reply : Nat → Option Word
  /-- What the `n`-th system call leaves in `rcx`. -/
  scratch : Nat → Word
  /-- The memory that the `n`-th system call leaves. -/
  effect : Nat → Data → Memory

/-! ## Operands -/

namespace Data

/-- The address that an operand names. -/
def effective (d : Data) (w : World) : Address → Word
  | .offset base distance => d.regs base + BitVec.ofNat 64 distance
  | .indexed base index => d.regs base + 8#64 * d.regs index
  | .symbol name => w.address name

/-- An immediate. Only a move to a register takes all bits of a word (`wide`); elsewhere the low half
is extended with its sign. -/
def immediate (wide : Bool) (v : Int) : (n : Width) → BitVec (bits n)
  | .byte => BitVec.ofInt 8 v
  | .dword => BitVec.ofInt 32 v
  | .qword => if wide then BitVec.ofInt 64 v else (BitVec.ofInt 32 v).signExtend 64

/-- The value of an operand. -/
def value (d : Data) (w : World) (wide : Bool) (n : Width) : Operand → Option (BitVec (bits n))
  | .reg r n' => if n' = n then some (low (d.regs r) n) else none
  | .imm v => some (immediate wide v n)
  | .char c => some (immediate wide c.toNat n)
  | .symbol name => some (low (w.address name) n)
  | .memory n' a => if n'.getD n = n then some (d.mem.read (d.effective w a) n) else none

/-- Writes to an operand. -/
def assign (d : Data) (w : World) (n : Width) (v : BitVec (bits n)) : Operand → Option Data
  | .reg r n' => if n' = n then some { d with regs := d.regs.set r (merge (d.regs r) n v) } else none
  | .memory n' a =>
    if n'.getD n = n then some { d with mem := d.mem.write (d.effective w a) n v } else none
  | .imm _ | .char _ | .symbol _ => none

/-! ## Instructions -/

/-- What a binary instruction makes of two numbers: the result, if it writes one, and the flags. -/
def binary {n : Nat} (flags : Option Flags) (a b : BitVec n) :
    BinaryOp → Option (BitVec n) × Option Flags
  | .mov | .lea => (some b, flags)
  | .add => (some (a + b), some (.of (a + b) (a.saddOverflow b)))
  | .sub => (some (a - b), some (.of (a - b) (a.ssubOverflow b)))
  | .imul => (some (a * b), none)
  | .and => (some (a &&& b), some (.of (a &&& b) false))
  | .or => (some (a ||| b), some (.of (a ||| b) false))
  | .xor => (some (a ^^^ b), some (.of (a ^^^ b) false))
  | .test => (none, some (.of (a &&& b) false))
  | .cmp => (none, some (.of (a - b) (a.ssubOverflow b)))

/-- Whether the source of an instruction may be an immediate of a whole word. -/
def isWide : BinaryOp → Operand → Bool
  | .mov, .reg _ _ => true
  | _, _ => false

/-- The width of an operand, when it has one of its own. -/
def width? : Operand → Option Width
  | .reg _ n => some n
  | .memory n _ => n
  | .imm _ | .char _ | .symbol _ => none

/-- Pushes a word. -/
def push (d : Data) (v : Word) : Data :=
  let top := d.regs .rsp - 8#64
  { d with regs := d.regs.set .rsp top, mem := d.mem.write top .qword v }

/-- Divides the double word in `rdx` and `rax`, given as a number, when the quotient fits. -/
def divide (d : Data) (fits : Int → Bool) (dividend divisor : Int) : Option Data :=
  if divisor = 0 then none
  else
    let quotient := dividend.tdiv divisor
    if fits quotient then
      some { d with
        regs := (d.regs.set .rax (BitVec.ofInt 64 quotient)).set .rdx
          (BitVec.ofInt 64 (dividend.tmod divisor))
        flags := none }
    else none

/-- Whether a number is a signed word. -/
def isSigned (v : Int) : Bool := -2 ^ 63 ≤ v && v < 2 ^ 63

/-- Whether a number is an unsigned word. -/
def isUnsigned (v : Int) : Bool := 0 ≤ v && v < 2 ^ 64

/-- An instruction with one operand that gives another number. -/
def unary {n : Nat} (a : BitVec n) : UnaryOp → Option (BitVec n × Flags)
  | .neg => some (-a, .of (-a) (a == BitVec.intMin n))
  | .inc => some (a + 1#n, .of (a + 1#n) (a == BitVec.intMax n))
  | .dec => some (a - 1#n, .of (a - 1#n) (a == BitVec.intMin n))
  | .push | .pop | .div | .idiv => none

/-- An instruction that goes on with the next line. Faults and what the machine does not define give
nothing. -/
def exec (w : World) : Instruction → Data → Option Data
  | .binary .lea (.reg r .qword) (.memory _ a), d =>
    some { d with regs := d.regs.set r (d.effective w a) }
  | .binary .lea _ _, _ => none
  | .binary o dst src, d => do
    let n ← (width? dst).or (width? src)
    let a ← d.value w false n dst
    let b ← d.value w (isWide o dst) n src
    match binary d.flags a b o with
    | (none, flags) => some { d with flags }
    | (some v, flags) => Data.assign { d with flags } w n v dst
  | .unary .push src, d => (d.value w false .qword src).map d.push
  | .unary .pop dst, d =>
    let v := d.mem.read (d.regs .rsp) .qword
    Data.assign { d with regs := d.regs.set .rsp (d.regs .rsp + 8#64) } w .qword v dst
  | .unary .div src, d => do
    let b ← d.value w false .qword src
    d.divide isUnsigned ((d.regs .rdx).toNat * 2 ^ 64 + (d.regs .rax).toNat) b.toNat
  | .unary .idiv src, d => do
    let b ← d.value w false .qword src
    d.divide isSigned ((d.regs .rdx).toInt * 2 ^ 64 + (d.regs .rax).toNat) b.toInt
  | .unary o dst, d => do
    let n ← width? dst
    let a ← d.value w false n dst
    let (v, flags) ← unary a o
    Data.assign { d with flags := some flags } w n v dst
  | .bare .cqo, d =>
    some { d with regs := d.regs.set .rdx (if (d.regs .rax).msb then BitVec.allOnes 64 else 0#64) }
  | .set c dst, d => do
    let f ← d.flags
    d.assign w .byte (if holds f c then 1#8 else 0#8) dst
  | .bare .ret, _ | .bare .syscall, _ | .jump _, _ | .jumpIf _ _, _ | .call _, _ => none

end Data

/-! ## Lines -/

/-- The machine between two lines. -/
structure State where
  /-- The line that comes next. -/
  pc : Nat
  data : Data
  /-- The number of system calls so far. -/
  calls : Nat

/-- The name that a line gives to its place. -/
def label? : Line → Option Text
  | .label name => some name
  | _ => none

/-- The last label before a line that does not start with a dot, which those with one belong to. -/
def scopeAt (code : List Line) (pc : Nat) : Text :=
  ((code.take pc).filterMap label?).foldl scopeAfter []

/-- The line of the label with a full name, when `scope` precedes the lines. -/
def findLabel (name : Text) : Text → List Line → Option Nat
  | _, [] => none
  | scope, l :: ls =>
    match label? l with
    | none => (findLabel name scope ls).map (· + 1)
    | some s =>
      if qualify s scope = name then some 0
      else (findLabel name (scopeAfter scope s) ls).map (· + 1)

/-- The line that a jump goes to. -/
def destination (code : List Line) (pc : Nat) (target : Text) : Option Nat :=
  findLabel (qualify target (scopeAt code pc)) [] code

namespace State

/-- Goes on with the next line. -/
def next (s : State) (d : Data) : State := { s with pc := s.pc + 1, data := d }

/-- Goes to a label. -/
def goto (s : State) (code : List Line) (target : Text) (d : Data) : Outcome State :=
  match destination code s.pc target with
  | none => .failed
  | some pc => .running { s with pc, data := d }

/-- Calls the system. Call 60 ends the program. -/
def system (s : State) (w : World) : Outcome State :=
  if s.data.regs .rax = 60#64 then .ended
  else
    match w.reply s.calls with
    | none => .ended
    | some v =>
      let regs := (s.data.regs.set .rax v).set .rcx (w.scratch s.calls)
      .running ⟨s.pc + 1, ⟨regs, none, w.effect s.calls s.data⟩, s.calls + 1⟩

/-- Executes an instruction. -/
def execute (s : State) (w : World) (code : List Line) : Instruction → Outcome State
  | .jump target => s.goto code target s.data
  | .jumpIf c target =>
    match s.data.flags with
    | none => .failed
    | some f => if holds f c then s.goto code target s.data else .running (s.next s.data)
  | .call target => s.goto code target (s.data.push (BitVec.ofNat 64 (s.pc + 1)))
  | .bare .ret =>
    let d := s.data
    let back := (d.mem.read (d.regs .rsp) .qword).toNat
    .running { s with pc := back, data := { d with regs := d.regs.set .rsp (d.regs .rsp + 8#64) } }
  | .bare .syscall => s.system w
  | i =>
    match Data.exec w i s.data with
    | some d => .running (s.next d)
    | none =>
      match i with
      | .unary .div _ | .unary .idiv _ => .faulted
      | _ => .failed

end State

/-- One line. Labels, comments and empty lines do nothing. -/
def step (w : World) (code : List Line) (s : State) : Outcome State :=
  match code[s.pc]? with
  | some (.instruction i) => s.execute w code i
  | some (.label _) | some (.comment _) | some (.exported _) | some .blank =>
    .running (s.next s.data)
  | some (.verbatim _) | none => .failed

/-- The machine at the start of a text, with what it finds in registers and memory. -/
def boot (code : List Line) (d : Data) : Option State :=
  (findLabel "_start" [] code).map fun pc => ⟨pc, d, 0⟩

/-! ## The bottom of the stack -/

namespace Data

/-- How far an operand reads from the stack pointer upward, in bytes. -/
def operandReach (d : Data) : Operand → Nat
  | .memory _ (.offset .rsp k) => k + 8
  | .memory _ (.indexed .rsp r) => 8 * (d.regs r).toNat + 8
  | _ => 0

/-- How far an instruction takes values off the stack or reads it, from the stack pointer upward. -/
def reach (d : Data) : Instruction → Nat
  | .unary .pop _ | .bare .ret => 8
  | .binary .add (.reg .rsp _) (.imm n) => n.toNat
  | .binary .lea _ _ => 0
  | .binary _ dst src => max (d.operandReach dst) (d.operandReach src)
  | .unary _ x | .set _ x => d.operandReach x
  | .bare _ | .jump _ | .jumpIf _ _ | .call _ => 0

/-- Whether an instruction pops, or reads relative to the stack pointer, past the bottom of the
operand stack. -/
def breaches (d : Data) (w : World) (i : Instruction) : Bool :=
  d.reach i ≠ 0 && w.base.toNat < (d.regs .rsp).toNat + d.reach i

end Data

/-! ## Observations -/

/-- Where control comes to: the start of an operation's lines, the label among them, or the end of the
program. -/
inductive Point where
  | start (op : Operation)
  | label (op : Operation)
  | finish

/-- What is seen of a run: a point with the operand stack there, top first, or an instruction that
goes past the bottom of the stack. -/
inductive Visit where
  | seen (point : Point) (stack : List Word)
  | breach (i : Instruction)

/-- The number of words on the stack that is seen. -/
def Visit.depth : Visit → Nat
  | .seen _ stack => stack.length
  | .breach _ => 0

/-- The operand stack: the words from the stack pointer up to its first value. -/
def operands (w : World) (d : Data) : List Word :=
  (List.range ((w.base - d.regs .rsp).toNat / 8)).map fun i =>
    d.mem.read (d.regs .rsp + BitVec.ofNat 64 (8 * i)) .qword

/-- The point of a program that a line marks: a comment stands at the start of its operation, another
one behind the last, and the operations that control can come to from elsewhere have labels. -/
def point? (prog : Program) : Line → Option Point
  | .comment t =>
    if Codegen.epilogue.head? = some (.comment t) then some .finish
    else (prog.find? fun op => Codegen.remark op = t).map .start
  | .label name =>
    (prog.find? fun op => BlockTree.isLanding op.action && op.label = name).map .label
  | _ => none

/-- What a line shows. -/
def shown (w : World) (prog : Program) (d : Data) : Line → List Visit
  | .instruction i => if d.breaches w i then [.breach i] else []
  | l => (point? prog l).toList.map (.seen · (operands w d))

/-- The machine, observed at the points of a program. -/
def visits (w : World) (prog : Program) (code : List Line) : System State Visit := fun s =>
  (code[s.pc]?.toList.flatMap (shown w prog s.data), step w code s)

end StackLang.Machine
