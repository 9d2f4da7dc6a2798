import StackLang.Assembly.Artifact
import StackLang.Blocks
import StackLang.Stack.Check

/-!
# Code generation

The operand stack of a program is the machine's stack. Every operation becomes a comment, the data
it needs and a few instructions of its own; jumps go to the labels of the operations that the block
table names. A routine that prints a number precedes the code of the program.

- `Codegen.code`: the instructions of one operation.
- `Codegen.generate`: the assembly of a program.
-/

set_option autoImplicit false

namespace StackLang.Codegen

open Assembly

/-! ## Short forms -/

/-- A whole register. -/
def q (r : Register) : Operand := .reg r .qword

/-- The low half of a register; writing it clears the other half. -/
def d (r : Register) : Operand := .reg r .dword

/-- The low byte of a register. -/
def b (r : Register) : Operand := .reg r .byte

/-- Memory at a distance from a register, with the width of the other operand. -/
def at_ (r : Register) (distance : Nat) : Operand := .memory none (.offset r distance)

/-- The entry of the operand stack at a depth in bytes. -/
def entry (depth : Nat) : Operand := .memory (some .qword) (.offset .rsp depth)

/-- A line with a binary instruction. -/
def op2 (o : BinaryOp) (dst src : Operand) : Line := .instruction (.binary o dst src)

/-- A line with a unary instruction. -/
def op1 (o : UnaryOp) (operand : Operand) : Line := .instruction (.unary o operand)

/-- A line with an instruction without operands. -/
def op0 (o : BareOp) : Line := .instruction (.bare o)

/-- Pops the top of the stack into a register. -/
def pop (r : Register) : Line := op1 .pop (q r)

/-- Pushes a register. -/
def push (r : Register) : Line := op1 .push (q r)

/-- Calls the system. -/
def syscall : Line := op0 .syscall

/-- Jumps to a label. -/
def jump (target : Text) : Line := .instruction (.jump target)

/-- Jumps to a label when a condition holds. -/
def jumpIf (c : Condition) (target : Text) : Line := .instruction (.jumpIf c target)

/-- Pushes the address of a symbol. -/
def pushAddress (sym : Text) : List Line := [op2 .mov (q .rax) (.symbol sym), push .rax]

/-! ## The frame around the program -/

/-- Holds the stack pointer at the start, above which the arguments lie. -/
def argsPointer : Text := "args_ptr"

/-- The name of the routine that prints a number. -/
def printInt : Text := "print_int"

/-- Writes the number in `rdi` in decimal and a line break, from a buffer on the stack that is
filled from its end. -/
def printRoutine : List Line :=
  [.label printInt,
   op2 .sub (q .rsp) (.imm 40),
   op2 .mov (q .rax) (q .rdi),
   op2 .lea (q .r8) (at_ .rsp 39),
   op2 .mov (.memory (some .byte) (.offset .r8 0)) (.imm 10),
   op2 .mov (d .rcx) (.imm 1),
   op2 .mov (q .r9) (q .rdi),
   op2 .test (q .rax) (q .rax),
   jumpIf .ns ".digits",
   op1 .neg (q .rax),
   .label ".digits",
   op2 .xor (d .rdx) (d .rdx),
   op2 .mov (q .r10) (.imm 10),
   op1 .div (q .r10),
   op2 .add (b .rdx) (.char '0'),
   op1 .dec (q .r8),
   op2 .mov (at_ .r8 0) (b .rdx),
   op1 .inc (q .rcx),
   op2 .test (q .rax) (q .rax),
   jumpIf .nz ".digits",
   op2 .test (q .r9) (q .r9),
   jumpIf .ns ".write",
   op1 .dec (q .r8),
   op2 .mov (.memory (some .byte) (.offset .r8 0)) (.char '-'),
   op1 .inc (q .rcx),
   .label ".write",
   op2 .mov (d .rax) (.imm 1),
   op2 .mov (d .rdi) (.imm 1),
   op2 .mov (q .rsi) (q .r8),
   op2 .mov (q .rdx) (q .rcx),
   syscall,
   op2 .add (q .rsp) (.imm 40),
   op0 .ret]

/-- The lines before the program. -/
def preamble : List Line :=
  [.exported "_start", .blank] ++ printRoutine
    ++ [.blank, .label "_start", op2 .mov (.memory none (.symbol argsPointer)) (q .rsp)]

/-! The lines of `preamble` that a run comes by, counted from zero. -/

/-- The label of the routine that prints a number. -/
abbrev printLine : Nat := 2

/-- The label of its loop over the digits. -/
abbrev digitsLine : Nat := 12

/-- The line after the loop, where the sign is looked at. -/
abbrev signLine : Nat := 22

/-- The label in front of the system call. -/
abbrev writeLine : Nat := 27

/-- The system call. -/
abbrev callLine : Nat := 32

/-- The line after the system call, where the routine gives its frame back. -/
abbrev leaveLine : Nat := 33

/-- The label where a program starts. -/
abbrev startLine : Nat := 36

/-- The lines after the program: it exits with status zero. -/
def epilogue : List Line :=
  [.comment "exit(0)", op2 .mov (d .rax) (.imm 60), op2 .xor (d .rdi) (d .rdi), syscall]

/-! ## Operations -/

/-- Pops two numbers, combines them and pushes the result. -/
def binary (o : BinaryOp) : List Line :=
  [pop .rbx, pop .rax, op2 o (q .rax) (q .rbx), push .rax]

/-- Divides and pushes the registers that hold what is wanted. -/
def divide (wanted : List Register) : List Line :=
  [pop .rbx, pop .rax, op0 .cqo, op1 .idiv (q .rbx)] ++ wanted.map push

/-- Compares two numbers and pushes one or zero. -/
def compare (c : Condition) : List Line :=
  [pop .rbx, pop .rax, op2 .xor (d .rcx) (d .rcx), op2 .cmp (q .rax) (q .rbx),
   .instruction (.set c (b .rcx)), push .rcx]

/-- Multiplies as often as the exponent says; none when it is not positive. -/
def power (index : Int) : List Line :=
  let loop : Text := "POW_" ++ Text.ofInt index ++ "_loop"
  let done : Text := "POW_" ++ Text.ofInt index ++ "_done"
  [pop .rcx, pop .rbx, op2 .mov (d .rax) (.imm 1), .label loop, op2 .test (q .rcx) (q .rcx),
   jumpIf .le done, op2 .imul (q .rax) (q .rbx), op1 .dec (q .rcx), jump loop, .label done,
   push .rax]

/-- The registers of a system call's arguments. -/
def argumentRegisters : List Register := [.rdi, .rsi, .rdx, .r10, .r8, .r9]

/-- The lines of a primitive with an index, where input buffers have the size `bufferSize`. -/
def primitive (bufferSize index : Int) : Primitive → Option (List Line)
  | .plus => some (binary .add)
  | .minus => some (binary .sub)
  | .mul => some (binary .imul)
  | .and => some (binary .and)
  | .or => some (binary .or)
  | .div => some (divide [.rax])
  | .mod => some (divide [.rdx])
  | .divmod => some (divide [.rax, .rdx])
  | .pow => some (power index)
  | .eq => some (compare .e)
  | .ne => some (compare .ne)
  | .gt => some (compare .g)
  | .ge => some (compare .ge)
  | .lt => some (compare .l)
  | .le => some (compare .le)
  | .dup => some [op1 .push (entry 0)]
  | .dup2 => some [op1 .push (entry 8), op1 .push (entry 8)]
  | .drop => some [op2 .add (q .rsp) (.imm 8)]
  | .over => some [op1 .push (entry 8)]
  | .rot => some [pop .rcx, pop .rbx, pop .rax, push .rbx, push .rcx, push .rax]
  | .swap => some [pop .rax, pop .rbx, push .rax, push .rbx]
  | .swap2 => some
    [pop .rdx, pop .rcx, pop .rbx, pop .rax, push .rcx, push .rdx, push .rax, push .rbx]
  | .getNth => some [pop .rax, op1 .push (.memory (some .qword) (.indexed .rsp .rax))]
  | .printInt => some [pop .rdi, .instruction (.call printInt)]
  | .puts => some
    [pop .rsi, pop .rdx, op2 .mov (d .rax) (.imm 1), op2 .mov (d .rdi) (.imm 1), syscall]
  | .input =>
    let sym := (Symbol.input index).name
    some ([op2 .xor (d .rax) (d .rax), op2 .xor (d .rdi) (d .rdi), op2 .mov (q .rsi) (.symbol sym),
      op2 .mov (d .rdx) (.imm bufferSize), syscall, push .rax] ++ pushAddress sym)
  | .exit => some [pop .rdi, op2 .mov (d .rax) (.imm 60), syscall]
  | .argc => some
    [op2 .mov (q .rax) (.memory none (.symbol argsPointer)),
     op1 .push (.memory (some .qword) (.offset .rax 0))]
  | .argv => some
    [op2 .mov (q .rax) (.memory none (.symbol argsPointer)), op2 .add (q .rax) (.imm 8), push .rax]
  | .syscall args => some
    ([pop .rax] ++ ((argumentRegisters.take args).reverse.map pop) ++ [syscall, push .rax])
  | .unassigned _ => none

/-- The label of the operation that the block table pairs with `op`. -/
def partner (prog : Program) (table : BlockTable) (op : Operation) : Except Failure Text :=
  match table.target? op.index with
  | none => .error ((Cause.noPartner op.action).at op.loc)
  | some place => (Blocks.operationAt prog place).map Operation.label

/-- Whether a number fits the immediate of a push. -/
def fitsPush (v : Int64) : Bool := -2147483648 ≤ v.toInt && v.toInt ≤ 2147483647

/-- The lines that push a number. -/
def pushNumber (v : Int64) : List Line :=
  if fitsPush v then [op1 .push (.imm v.toInt)]
  else [op2 .mov (q .rax) (.imm v.toInt), push .rax]

/-- The lines of a structural keyword. -/
def keyword (prog : Program) (table : BlockTable) (op : Operation) :
    Keyword → Except Failure (List Line)
  | .ifKw => .ok [op1 .push (entry 0)]
  | .whileKw => .ok [.label op.label, op1 .push (entry 0)]
  | .elifKw => (partner prog table op).map fun endif =>
    [jump endif, .label op.label, op1 .push (entry 0)]
  | .elseKw => (partner prog table op).map fun endif => [jump endif, .label op.label]
  | .endifKw => .ok [.label op.label]
  | .doKw => (partner prog table op).map fun target =>
    [pop .rax, op2 .add (q .rsp) (.imm 8), op2 .test (q .rax) (q .rax), jumpIf .z target]
  | .doneKw => (partner prog table op).map fun start => [jump start, .label op.label]
  | .breakKw => (partner prog table op).map fun done => [jump done]
  | .endKw => .error ((Cause.ungeneratable op.action).at op.loc)

/-- The lines of an operation. -/
def code (prog : Program) (table : BlockTable) (bufferSize : Int) (op : Operation) :
    Except Failure (List Line) :=
  match op.action with
  | .keyword k => keyword prog table op k
  | .pushInt => .ok (pushNumber op.intValue)
  | .pushString =>
    match Literal.unquote op.token.text with
    | .error fault => .error ((Cause.badLiteral fault).at op.loc)
    | .ok bytes =>
      .ok (op1 .push (.imm bytes.length) :: pushAddress (Symbol.string op.index).name)
  | .pushCString => .ok (pushAddress (Symbol.cstring op.index).name)
  | .pushArray => .ok (pushAddress (Symbol.array op.index).name)
  | .primitive p =>
    match primitive bufferSize op.index p with
    | some ls => .ok ls
    | none => .error ((Cause.ungeneratable op.action).at op.loc)
  | .unassigned _ => .error ((Cause.ungeneratable op.action).at op.loc)

/-! ## Data -/

/-- The artifact of a declaration that is not refused. -/
def accept (op : Operation) : Artifact.Declared → Except Failure Artifact
  | (a, none) => .ok a
  | (_, some fault) => .error ((Cause.undeclarable fault).at op.loc)

/-- The value of a literal that is not refused. -/
def literal {α : Type} (op : Operation) : Except Literal.Fault α → Except Failure α
  | .ok v => .ok v
  | .error fault => .error ((Cause.badLiteral fault).at op.loc)

/-- Declares the data that an operation needs under a symbol. -/
def declareKind (bufferSize : Int) (op : Operation) (sym : Text) (kind : DataKind) (a : Artifact) :
    Except Failure Artifact :=
  match kind with
  | .string =>
    match literal op (Literal.unquote op.token.text) with
    | .error e => .error e
    | .ok data => accept op (a.declareString sym data)
  | .cstring =>
    match literal op (Literal.unquote op.token.text) with
    | .error e => .error e
    | .ok data => accept op (a.declareCString sym data)
  | .array =>
    match literal op (Literal.elements op.token.text) with
    | .error e => .error e
    | .ok elements => accept op (a.declareArray sym elements)
  | .buffer => accept op (a.reserve sym bufferSize)
  | .unassigned code => .error ((Cause.unknownDataKind code).at op.loc)

/-- Declares the data of an operation that owns some. -/
def declareData (analysis : Analysis) (bufferSize : Int) (op : Operation) (a : Artifact) :
    Except Failure Artifact :=
  match op.symbol? with
  | none => .ok a
  | some sym =>
    match analysis.static? op.index with
    | none => .error ((Cause.noData sym).at op.loc)
    | some static => declareKind bufferSize op sym.name static.kind a

/-! ## Programs -/

/-- What a comment says of an operation. -/
def remark (op : Operation) : Text := Text.ofInt op.index ++ " " ++ Text.squeeze op.token.text

/-- Adds an operation to an artifact. -/
def emit (prog : Program) (table : BlockTable) (analysis : Analysis) (bufferSize : Int)
    (a : Artifact) (op : Operation) : Except Failure Artifact :=
  match declareData analysis bufferSize op (a.line (.comment (remark op))) with
  | .error e => .error e
  | .ok a => (code prog table bufferSize op).map a.lines

/-- The size of an input buffer when none is chosen. -/
def defaultBufferSize : Int := 256

/-- The size of input buffers for a wish; only positive sizes count. -/
def bufferSizeFor (wish : Int) : Int := if wish ≤ 0 then defaultBufferSize else wish

/-- The artifact before the first operation. -/
def start : Artifact :=
  ((Artifact.empty.reserve argsPointer 8).1).lines preamble

/-- The assembly of a program. -/
def generate (prog : Program) (table : BlockTable) (analysis : Analysis) (bufferSize : Int) :
    Except Failure Artifact :=
  (prog.foldlM (emit prog table analysis (bufferSizeFor bufferSize)) start).map
    (·.lines epilogue)

end StackLang.Codegen
