import StackLang.Text.Basic

/-!
# Instructions

The instructions that programs are made of, with their operands, and how they are written.
-/

set_option autoImplicit false

namespace StackLang.Assembly

/-- A general purpose register. -/
inductive Register where
  | rax
  | rbx
  | rcx
  | rdx
  | rsi
  | rdi
  | rsp
  | r8
  | r9
  | r10
  deriving DecidableEq, Repr

/-- How much of a register or of memory an operand covers. -/
inductive Width where
  | byte
  | dword
  | qword
  deriving DecidableEq, Repr

/-- The keyword of a width in front of a memory operand. -/
def Width.name : Width → Text
  | byte => "byte"
  | dword => "dword"
  | qword => "qword"

/-- The name of a register's low part of a width. -/
def Register.name : Register → Width → Text
  | rax, .qword => "rax"
  | rax, .dword => "eax"
  | rax, .byte => "al"
  | rbx, .qword => "rbx"
  | rbx, .dword => "ebx"
  | rbx, .byte => "bl"
  | rcx, .qword => "rcx"
  | rcx, .dword => "ecx"
  | rcx, .byte => "cl"
  | rdx, .qword => "rdx"
  | rdx, .dword => "edx"
  | rdx, .byte => "dl"
  | rsi, .qword => "rsi"
  | rsi, .dword => "esi"
  | rsi, .byte => "sil"
  | rdi, .qword => "rdi"
  | rdi, .dword => "edi"
  | rdi, .byte => "dil"
  | rsp, .qword => "rsp"
  | rsp, .dword => "esp"
  | rsp, .byte => "spl"
  | r8, .qword => "r8"
  | r8, .dword => "r8d"
  | r8, .byte => "r8b"
  | r9, .qword => "r9"
  | r9, .dword => "r9d"
  | r9, .byte => "r9b"
  | r10, .qword => "r10"
  | r10, .dword => "r10d"
  | r10, .byte => "r10b"

/-- An address in memory. -/
inductive Address where
  /-- A register plus a distance. -/
  | offset (base : Register) (distance : Nat)
  /-- A register plus eight times another. -/
  | indexed (base index : Register)
  /-- The address of a symbol. -/
  | symbol (name : Text)
  deriving DecidableEq, Repr

/-- An address in brackets. -/
def Address.render : Address → Text
  | offset base distance =>
    if distance = 0 then "[" ++ base.name .qword ++ "]"
    else "[" ++ base.name .qword ++ "+" ++ Text.ofNat distance ++ "]"
  | indexed base index => "[" ++ base.name .qword ++ "+" ++ index.name .qword ++ "*8]"
  | symbol name => "[" ++ name ++ "]"

/-- An operand of an instruction. -/
inductive Operand where
  | reg (r : Register) (w : Width)
  | imm (v : Int)
  /-- The code of a character. -/
  | char (c : Char)
  /-- The address of a symbol. -/
  | symbol (name : Text)
  /-- Memory, with its width where no register tells it. -/
  | memory (w : Option Width) (a : Address)
  deriving DecidableEq, Repr

/-- How an operand is written. -/
def Operand.render : Operand → Text
  | reg r w => r.name w
  | imm v => Text.ofInt v
  | char c => "'" ++ String.utf8EncodeChar c ++ "'"
  | symbol name => name
  | memory none a => a.render
  | memory (some w) a => w.name ++ " " ++ a.render

/-- An instruction with a destination and a source. -/
inductive BinaryOp where
  | mov
  | lea
  | add
  | sub
  | imul
  | and
  | or
  | xor
  | test
  | cmp
  deriving DecidableEq, Repr

/-- The mnemonic of a binary instruction. -/
def BinaryOp.name : BinaryOp → Text
  | mov => "mov"
  | lea => "lea"
  | add => "add"
  | sub => "sub"
  | imul => "imul"
  | and => "and"
  | or => "or"
  | xor => "xor"
  | test => "test"
  | cmp => "cmp"

/-- An instruction with one operand. -/
inductive UnaryOp where
  | push
  | pop
  | neg
  | inc
  | dec
  | div
  | idiv
  deriving DecidableEq, Repr

/-- The mnemonic of a unary instruction. -/
def UnaryOp.name : UnaryOp → Text
  | push => "push"
  | pop => "pop"
  | neg => "neg"
  | inc => "inc"
  | dec => "dec"
  | div => "div"
  | idiv => "idiv"

/-- An instruction without operands. -/
inductive BareOp where
  | cqo
  | ret
  | syscall
  deriving DecidableEq, Repr

/-- The mnemonic of an instruction without operands. -/
def BareOp.name : BareOp → Text
  | cqo => "cqo"
  | ret => "ret"
  | syscall => "syscall"

/-- A condition on the flags. -/
inductive Condition where
  | e
  | ne
  | g
  | ge
  | l
  | le
  | z
  | nz
  | ns
  deriving DecidableEq, Repr

/-- The ending of the mnemonics that depend on a condition. -/
def Condition.name : Condition → Text
  | e => "e"
  | ne => "ne"
  | g => "g"
  | ge => "ge"
  | l => "l"
  | le => "le"
  | z => "z"
  | nz => "nz"
  | ns => "ns"

/-- A machine instruction. -/
inductive Instruction where
  | binary (op : BinaryOp) (dst src : Operand)
  | unary (op : UnaryOp) (operand : Operand)
  | bare (op : BareOp)
  /-- Sets a byte to one or zero by a condition. -/
  | set (c : Condition) (dst : Operand)
  | jump (target : Text)
  | jumpIf (c : Condition) (target : Text)
  | call (target : Text)
  deriving DecidableEq, Repr

/-- How an instruction is written. -/
def Instruction.render : Instruction → Text
  | binary op dst src => op.name ++ " " ++ dst.render ++ ", " ++ src.render
  | unary op operand => op.name ++ " " ++ operand.render
  | bare op => op.name
  | set c dst => "set" ++ c.name ++ " " ++ dst.render
  | jump target => "jmp " ++ target
  | jumpIf c target => "j" ++ c.name ++ " " ++ target
  | call target => "call " ++ target

end StackLang.Assembly
