import StackLang.Text.Basic

/-!
# Flags of the command line

Each flag has a name, may have a one-letter form, and takes a text, a number or a truth value. A
flag for a truth value needs no value.

- `Flag.usage`: the text that lists the flags.
-/

set_option autoImplicit false

namespace StackLang.CommandLine

/-- What a flag takes. -/
inductive FlagKind where
  | text
  | switch
  | number
  deriving DecidableEq, Repr

/-- The name of a value in the list of flags. -/
def FlagKind.placeholder : FlagKind → Text
  | text => " string"
  | switch => []
  | number => " int"

/-- The flags. -/
inductive Flag where
  | config
  | emitAsm
  | help
  | inputBufferSize
  | keepAsm
  | logToStderr
  | noColor
  | output
  | run
  | verbose
  deriving DecidableEq, Repr

namespace Flag

/-- The flags in the order of their names. -/
def all : List Flag :=
  [config, emitAsm, help, inputBufferSize, keepAsm, logToStderr, noColor, output, run, verbose]

/-- The name of a flag, without the dashes. -/
def name : Flag → Text
  | config => "config"
  | emitAsm => "emit-asm"
  | help => "help"
  | inputBufferSize => "input-buffer-size"
  | keepAsm => "keep-asm"
  | logToStderr => "logtostderr"
  | noColor => "no-color"
  | output => "output"
  | run => "run"
  | verbose => "verbose"

/-- The letter of a flag. -/
def letter? : Flag → Option UInt8
  | help => some (Text.byte 'h')
  | keepAsm => some (Text.byte 'S')
  | output => some (Text.byte 'o')
  | run => some (Text.byte 'r')
  | verbose => some (Text.byte 'v')
  | config | emitAsm | inputBufferSize | logToStderr | noColor => none

/-- What a flag takes. -/
def kind : Flag → FlagKind
  | config | output => .text
  | inputBufferSize | verbose => .number
  | emitAsm | help | keepAsm | logToStderr | noColor | run => .switch

/-- What a flag is for. -/
def purpose : Flag → Text
  | config => "Read build settings from this file instead of stackc.yaml"
  | emitAsm => "Only write the generated assembly; do not assemble or link"
  | help => "help for stackc"
  | inputBufferSize => "Size in bytes of each INPUT buffer"
  | keepAsm => "Keep the generated assembly next to the executable"
  | logToStderr => "Log to stderr instead of to files"
  | noColor => "Disable colored diagnostics"
  | output => "Write the executable (or assembly, with --emit-asm) to this path"
  | run => "Run the executable after building it"
  | verbose => "Enable verbose logging (e.g., v=3); anything >3 is very verbose"

/-- The flag with a name. -/
def ofName? (name : Text) : Option Flag := all.find? fun f => f.name = name

/-- The flag with a letter. -/
def ofLetter? (b : UInt8) : Option Flag := all.find? fun f => f.letter? = some b

theorem ofName?_name (f : Flag) : ofName? f.name = some f := by cases f <;> decide

/-- The forms of a flag, as messages name them. -/
def forms (f : Flag) : Text :=
  match f.letter? with
  | some b => "-" ++ [b] ++ ", --" ++ f.name
  | none => "--" ++ f.name

/-! ## The list of flags -/

/-- The forms of a flag in the list, where the names stand in one column. -/
def listed (f : Flag) : Text :=
  let start : Text := if f.letter?.isSome then "  " else "      "
  start ++ f.forms ++ f.kind.placeholder

/-- The column of the purposes. -/
def purposeColumn : Nat := all.foldl (fun n f => max n f.listed.length) 0 + 3

/-- The line of a flag. -/
def line (f : Flag) : Text :=
  Text.padTo purposeColumn f.listed.length f.listed ++ f.purpose ++ "\n"

/-- What the command does. -/
def introduction : Text :=
  "stackc compiles a stack language source file to NASM assembly, then assembles\n"
    ++ "and links it into a Linux x86-64 executable.\n\n"

/-- How the command is called. -/
def call : Text :=
  "Usage:\n  stackc <source> [-- program arguments] [flags]\n\nFlags:\n"

/-- The text that tells how the command is used. -/
def usage : Text := introduction ++ call ++ all.flatMap line

end Flag

end StackLang.CommandLine
