import StackLang.Path
import StackLang.Text.Space

/-!
# Settings

Which programs assemble and link, how large the input buffers are, and where results go.

- `Settings.fault?`: what no build can run with.
- `Settings.Decoder`, `Settings.decode`: settings from a document, whatever its language.
- `Settings.outputFor`: the executable of a source.
- `Outputs.ofExecutable`: the files that a build of an executable writes.
-/

set_option autoImplicit false

namespace StackLang

/-- A program and the arguments that come before the names of its files. -/
structure Tool where
  command : Text
  args : List Text := []
  deriving DecidableEq, Repr

/-- The settings of a build. The default is to assemble with `nasm` and to link with `ld`. -/
structure Settings where
  assembler : Tool := ⟨"nasm", ["-felf64"]⟩
  linker : Tool := ⟨"ld", []⟩
  /-- The size of each input buffer in bytes. -/
  inputBufferSize : Int64 := 256
  /-- Whether the assembly text stays beside the executable. -/
  keepAsm : Bool := false
  /-- The path of the result, when it is not empty. -/
  output : Text := []
  deriving DecidableEq, Repr

namespace Settings

/-- What no build can run with. -/
inductive Fault where
  | noAssembler
  | noLinker
  | badBufferSize (size : Int64)
  deriving DecidableEq, Repr

/-- The wording of a fault. -/
def Fault.message : Fault → Text
  | noAssembler => "assembler command is empty"
  | noLinker => "linker command is empty"
  | badBufferSize size => "input_buffer_size must be positive, got " ++ Text.ofInt size.toInt

/-- The first fault of the settings. -/
def fault? (s : Settings) : Option Fault :=
  if Text.isBlank s.assembler.command then some .noAssembler
  else if Text.isBlank s.linker.command then some .noLinker
  else if s.inputBufferSize ≤ 0 then some (.badBufferSize s.inputBufferSize)
  else none

/-- What comes of reading a text onto settings. -/
inductive Decoded where
  | settings (s : Settings)
  /-- The text holds no document. -/
  | nothing
  /-- The document does not count; the wording of what is wrong. -/
  | faulty (message : Text)
  deriving DecidableEq, Repr

/-- A reader of documents: what it makes of settings and a text. -/
abbrev Decoder := Settings → Text → Decoded

/-- The settings after a text; without a document they stay as they are. -/
def decode (s : Settings) (decoder : Decoder) (text : Text) : Except Text Settings :=
  match decoder s text with
  | .settings s => .ok s
  | .nothing => .ok s
  | .faulty message => .error message

/-- The executable of a source: the configured output, or the source without its extension. -/
def outputFor (s : Settings) (source : Text) : Text :=
  if s.output ≠ [] then s.output
  else
    let ext := Path.extension source
    if ext = [] then source ++ ".out" else source.take (source.length - ext.length)

end Settings

/-- The files of one build. -/
structure Outputs where
  executable : Text
  assembly : Text
  object : Text
  deriving DecidableEq, Repr

/-- The files of the build of an executable. -/
def Outputs.ofExecutable (path : Text) : Outputs := ⟨path, path ++ ".asm", path ++ ".o"⟩

end StackLang
