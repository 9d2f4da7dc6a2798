import StackLang.Assembly.Verify
import StackLang.Codegen
import StackLang.Include
import StackLang.Program

/-!
# Compiling

From a source to its assembly: tokens, operations, the check of the stack, the block table, the
code, and the check of the finished text. The first failure ends it.
-/

set_option autoImplicit false

namespace StackLang

/-- What compiling a source yields. -/
structure Compiled where
  tokens : List Token
  program : Program
  analysis : Analysis
  blocks : BlockTable
  artifact : Assembly.Artifact

/-- Compiles the tokens of a file. -/
def compileTokens (file : Text) (bufferSize : Int) (tokens : List Token) :
    Except Failure Compiled := do
  let program ← Program.ofTokens tokens
  let analysis ← Check.run program
  let blocks ← Blocks.resolve program
  let artifact ← Codegen.generate program blocks analysis bufferSize
  match Assembly.verify artifact.render with
  | some fault => .error (.inconsistent file fault)
  | none => .ok ⟨tokens, program, analysis, blocks, artifact⟩

/-- Compiles a source. -/
def compile (lib : Library) (file source : Text) (bufferSize : Int) : Except Failure Compiled :=
  match (Reading.source lib {} file source).1 with
  | .error e => .error e
  | .ok tokens => compileTokens file bufferSize tokens

end StackLang
