import StackLang.Build
import StackLang.CommandLine.Completion
import StackLang.Compile

/-!
# The command

A run of the command reads its options, the source and the settings, compiles, and then writes the
assembly text, builds, or builds and runs. The first thing that goes wrong is reported and ends it. The
language of the settings is not known here: their reader is one of the surroundings of a run.

- `Command.body`: what the command does once its options are read.
- `Command.launch`: the same with its report and exit status.
- `Command.complete`: the answer to a shell that completes a command line.
- `Command.execute`: a run, with its exit status.
-/

set_option autoImplicit false

namespace StackLang.Command

open CommandLine (Options UsageFault Flag Request)

/-- What ends a run of the command. -/
inductive Fault where
  | usage (fault : UsageFault)
  | unreadableSource (arg : Text) (refusal : Refusal)
  | sourceIsDirectory (arg : Text)
  | unreadableSettings (path : Text) (refusal : Refusal)
  | unusableDocument (path message : Text)
  | invalidSettings (path : Text) (fault : Settings.Fault)
  | invalidOptions (fault : Settings.Fault)
  | uncompilable (failure : Failure)
  | unbuildable (result : BuildResult)
  deriving DecidableEq, Repr

/-- The problem to report. -/
def Fault.problem : Fault → Problem
  | usage fault => .plain fault.message
  | unreadableSource arg refusal =>
    .during ("could not read source " ++ arg) (.plain refusal.message)
  | sourceIsDirectory arg => .plain ("source " ++ arg ++ " is a directory")
  | unreadableSettings path refusal =>
    .during ("could not read configuration " ++ path) (.plain refusal.message)
  | unusableDocument path message => .during ("could not parse " ++ path) (.plain message)
  | invalidSettings path fault => .during ("invalid configuration " ++ path) (.plain fault.message)
  | invalidOptions fault => .plain fault.message
  | uncompilable failure => .ofFailure failure
  | unbuildable result => result.problem

/-- What surrounds a run. -/
structure Surroundings where
  /-- What can be read from the standard input. -/
  stdin : Text := []
  /-- Whether reports may be coloured. -/
  colored : Bool := false
  /-- The reader of settings. -/
  decoder : Settings.Decoder
  /-- The external programs. -/
  programs : Programs

/-- The name of the file with settings that stands beside a source. -/
def settingsName : Text := "stackc.yaml"

/-- The text of a source. -/
def readSource (d : Disk) (arg : Text) : Except Fault Text :=
  let path := Path.absolute d.cwd arg
  match d.stat path with
  | .error refusal => .error (.unreadableSource arg refusal)
  | .ok .directory => .error (.sourceIsDirectory arg)
  | .ok (.file _) => (d.read path).mapError (.unreadableSource arg)

/-- The file with the settings: the one at `explicit` or, when that is empty, the one in `dir`. -/
def settingsPath (explicit dir : Text) : Text :=
  if explicit = [] then Path.join dir settingsName else explicit

/-- The settings of a source in `dir`. The file may be missing unless it is named. -/
def loadSettings (decoder : Settings.Decoder) (d : Disk) (explicit dir : Text) :
    Except Fault Settings := do
  let path := settingsPath explicit dir
  let settings ←
    match d.read path with
    | .ok text => (Settings.decode {} decoder text).mapError (.unusableDocument path)
    | .error refusal =>
      if explicit = [] ∧ refusal.fault = .noEntry then pure {}
      else throw (.unreadableSettings path refusal)
  match settings.fault? with
  | some fault => throw (.invalidSettings path fault)
  | none => return settings

/-- The settings with what the command line says. -/
def overrideSettings (settings : Settings) (o : Options) : Settings :=
  { settings with
    output := if o.output = [] then settings.output else o.output
    keepAsm := o.keepAsm.getD settings.keepAsm
    inputBufferSize := o.inputBufferSize.getD settings.inputBufferSize }

/-- What is known before anything is written: the settings, and the text to assemble. -/
structure Plan where
  settings : Settings
  assembly : Text

/-- Reads the source and the settings, and compiles. -/
def plan (decoder : Settings.Decoder) (d : Disk) (o : Options) (source : Text) :
    Except Fault Plan := do
  let text ← readSource d source
  let loaded ← loadSettings decoder d o.config (Path.dir (Path.absolute d.cwd source))
  let settings := overrideSettings loaded o
  match settings.fault? with
  | some fault => throw (.invalidOptions fault)
  | none =>
    match compile d.library source text settings.inputBufferSize.toInt with
    | .error failure => throw (.uncompilable failure)
    | .ok compiled => return ⟨settings, compiled.artifact.render⟩

/-- Where the assembly text goes when nothing else is asked for. -/
def emitPath (settings : Settings) (source : Text) : Text :=
  if settings.output = [] then (Outputs.ofExecutable (settings.outputFor source)).assembly
  else settings.output

/-- Writes the assembly text and does nothing else. -/
def emit (s : Session) (plan : Plan) (source : Text) : Session × Except Fault Int :=
  match s.write (emitPath plan.settings source) plan.assembly with
  | (s, some fault) => (s, .error (.unbuildable ⟨some fault, []⟩))
  | (s, none) => (s, .ok 0)

/-- The files of a build. -/
def outputs (cwd : Text) (settings : Settings) (source : Text) : Outputs :=
  .ofExecutable (Path.absolute cwd (settings.outputFor source))

/-- Builds and, where the options say so, runs. -/
def buildAndRun (env : Surroundings) (s : Session) (o : Options) (plan : Plan) (source : Text)
    (args : List Text) : Session × Except Fault Int :=
  let files := outputs s.disk.cwd plan.settings source
  match s.build env.programs plan.settings plan.assembly files with
  | (s, result) =>
    if ¬ result.succeeded then (s, .error (.unbuildable result))
    else if ¬ o.run then (s, .ok 0)
    else
      match s.run env.programs files.executable args env.stdin with
      | (s, .ok code) => (s, .ok code)
      | (s, .error fault) => (s, .error (.unbuildable ⟨some fault, []⟩))

/-- What the command does with a source, once its options are read. -/
def body (env : Surroundings) (s : Session) (o : Options) (source : Text) (args : List Text) :
    Session × Except Fault Int :=
  match plan env.decoder s.disk o source with
  | .error fault => (s, .error fault)
  | .ok plan => if o.emitAsm then emit s plan source else buildAndRun env s o plan source args

/-- Reports a fault, or passes on the exit status. -/
def conclude (env : Surroundings) (o : Options) : Session × Except Fault Int → Session × Int
  | (s, .ok code) => (s, code)
  | (s, .error fault) =>
    let style : Report.Style := ⟨s.disk.cwd, env.colored && !o.noColor⟩
    ({ s with stderr := s.stderr ++ style.render fault.problem }, 1)

/-- A run whose options are read, and its exit status. -/
def launch (env : Surroundings) (s : Session) (o : Options) (source : Text) (args : List Text) :
    Session × Int :=
  conclude env o (body env s o source args)

/-- Answers a request of the shell. -/
def complete (env : Surroundings) (s : Session) (r : Request) : Session × Int :=
  match r.reply with
  | some (words, remark) => ({ s with stdout := words, stderr := remark }, 0)
  | none => conclude env {} (s, .error (.usage .noArguments))

/-- What the command does, and its exit status. -/
def perform (env : Surroundings) (s : Session) (args : List Text) : Session × Int :=
  match Options.read args with
  | (o, .error fault) => conclude env o (s, .error (.usage fault))
  | (o, .ok args) =>
    if o.help then ({ s with stdout := Flag.usage }, 0)
    else
      match args with
      | [] => conclude env o (s, .error (.usage .noArguments))
      | source :: args => launch env s o source args

/-- A run of the command, and its exit status. -/
def execute (env : Surroundings) (args : List Text) (d : Disk) : Session × Int :=
  let s : Session := { disk := d }
  match Request.find? args with
  | some r => complete env s r
  | none => perform env s args

/-- The paths that a run looks at, as far as the files of `d` tell: whatever else is on the disk, a
run looks at these. -/
def wanted (decoder : Settings.Decoder) (d : Disk) (o : Options) (source : Text) : List Text :=
  let path := Path.absolute d.cwd source
  [path, settingsPath o.config (Path.dir path)] ++
    match plan decoder d o source with
    | .error (.uncompilable (.unreadable _ included _)) => [included]
    | .error _ => []
    | .ok plan =>
      if o.emitAsm then [emitPath plan.settings source]
      else
        let files := outputs d.cwd plan.settings source
        [files.executable, files.assembly, files.object]

end StackLang.Command
