import StackLang.Disk
import StackLang.Report
import StackLang.Settings.Basic

/-!
# Building an executable

A build writes the assembly text, calls the assembler and the linker, and removes what is not asked
for, whatever the two programs did. A text that cannot be written ends it at once. External programs
are given as a function from a call and a disk to what the call leaves behind, so a build is a function
as well.

- `Session.write`: a text gets into a file, or a fault tells why not.
- `Session.build`: one build.
- `Session.run`: a call of what was built.
-/

set_option autoImplicit false

namespace StackLang

/-- A call of an external program. -/
structure Call where
  program : Text
  args : List Text
  /-- What the program can read, when it has an input. -/
  stdin : Option Text
  deriving DecidableEq, Repr

/-- How a call fails. -/
inductive RunFault where
  /-- The program ended with a status other than zero. -/
  | status (code : Int)
  /-- The program could not be started or was broken off. -/
  | broken (message : Text)
  deriving DecidableEq, Repr

/-- The wording of a fault. -/
def RunFault.message : RunFault → Text
  | status code => "exit status " ++ Text.ofInt code
  | broken message => message

/-- What a call leaves behind. -/
structure Ran where
  /-- The files and directories after the call. -/
  entries : List (Address × Entry)
  stdout : Text := []
  stderr : Text := []
  fault : Option RunFault := none

/-- What external programs do. -/
abbrev Programs := Call → Disk → Ran

/-- What a run of the command has done so far. -/
structure Session where
  disk : Disk
  /-- The calls of external programs in their order. -/
  calls : List Call := []
  stdout : Text := []
  stderr : Text := []

/-- The two steps of a build. -/
inductive BuildStep where
  | assemble
  | link
  deriving DecidableEq, Repr

/-- The name of a step. -/
def BuildStep.name : BuildStep → Text
  | assemble => "assemble"
  | link => "link"

/-- What could not be done with a file, as the faults of a build tell it. -/
def DiskAction.verb : DiskAction → Text
  | create => "create"
  | action => action.name

/-- What goes wrong in a build. -/
inductive BuildFault where
  /-- A file could not be created, written or closed. -/
  | unwritten (path : Text) (refusal : Refusal)
  | toolFailed (step : BuildStep) (command : Text) (fault : RunFault)
  | undeletable (path : Text) (refusal : Refusal)
  | unrunnable (path : Text) (fault : RunFault)
  deriving DecidableEq, Repr

/-- The wording of a fault. -/
def BuildFault.message : BuildFault → Text
  | unwritten path refusal =>
    "could not " ++ refusal.action.verb ++ " " ++ path ++ ": " ++ refusal.message
  | toolFailed step command fault =>
    step.name ++ " failed (" ++ command ++ "): " ++ fault.message
  | undeletable path refusal => "failed to delete " ++ path ++ ": " ++ refusal.message
  | unrunnable path fault => "could not run " ++ path ++ ": " ++ fault.message

/-- How a build ends. -/
structure BuildResult where
  /-- The fault that ended it. -/
  failed : Option BuildFault := none
  /-- The files that could not be removed. -/
  leftovers : List BuildFault := []
  deriving DecidableEq, Repr

namespace BuildResult

/-- Whether everything went well. -/
def succeeded (r : BuildResult) : Bool := r.failed.isNone && r.leftovers.isEmpty

/-- The problem that a result is. -/
def problem (r : BuildResult) : Problem :=
  match r.failed, r.leftovers with
  | some fault, [] => .plain fault.message
  | some fault, leftovers => .several ((fault :: leftovers).map BuildFault.message)
  | none, leftovers => .several (leftovers.map BuildFault.message)

end BuildResult

namespace Session

/-- Gives a file its contents. -/
def write (s : Session) (path text : Text) : Session × Option BuildFault :=
  match s.disk.write path text with
  | (disk, refusal?) => ({ s with disk := disk }, refusal?.map (.unwritten path))

/-- Calls the program of one step. What it prints is for users, so all of it goes to the error
stream. -/
def invoke (s : Session) (programs : Programs) (step : BuildStep) (tool : Tool)
    (operands : List Text) : Session × Option BuildFault :=
  let call : Call := ⟨tool.command, tool.args ++ operands, none⟩
  let ran := programs call s.disk
  ({ s with
      disk := { s.disk with entries := ran.entries }
      calls := s.calls ++ [call]
      stderr := s.stderr ++ ran.stdout ++ ran.stderr },
    ran.fault.map (.toolFailed step tool.command))

/-- Assembles, and links what was assembled. -/
def assembleAndLink (s : Session) (programs : Programs) (settings : Settings) (o : Outputs) :
    Session × Option BuildFault :=
  match s.invoke programs .assemble settings.assembler ["-o", o.object, o.assembly] with
  | (s, some fault) => (s, some fault)
  | (s, none) => s.invoke programs .link settings.linker ["-o", o.executable, o.object]

/-- Removes files; a missing one counts as removed. -/
def clean (s : Session) : List Text → Session × List BuildFault
  | [] => (s, [])
  | path :: rest =>
    match s.disk.remove path with
    | .ok disk => clean { s with disk := disk } rest
    | .error refusal =>
      let (s, faults) := clean s rest
      (s, if refusal.fault = .noEntry then faults else .undeletable path refusal :: faults)

/-- The files that a build removes at its end. -/
def temporaries (settings : Settings) (o : Outputs) : List Text :=
  o.object :: if settings.keepAsm then [] else [o.assembly]

/-- Builds an executable from an assembly text. -/
def build (s : Session) (programs : Programs) (settings : Settings) (text : Text) (o : Outputs) :
    Session × BuildResult :=
  match s.write o.assembly text with
  | (s, some fault) => (s, ⟨some fault, []⟩)
  | (s, none) =>
    let (s, failed) := s.assembleAndLink programs settings o
    let (s, leftovers) := s.clean (temporaries settings o)
    (s, ⟨failed, leftovers⟩)

/-- Calls an executable, and gives its exit status. A negative status counts as a failure to run. -/
def run (s : Session) (programs : Programs) (executable : Text) (args : List Text) (stdin : Text) :
    Session × Except BuildFault Int :=
  let call : Call := ⟨executable, args, some stdin⟩
  let ran := programs call s.disk
  let s := { s with
    disk := { s.disk with entries := ran.entries }
    calls := s.calls ++ [call]
    stdout := s.stdout ++ ran.stdout
    stderr := s.stderr ++ ran.stderr }
  match ran.fault with
  | none => (s, .ok 0)
  | some (.status code) =>
    if 0 ≤ code then (s, .ok code) else (s, .error (.unrunnable executable (.status code)))
  | some fault => (s, .error (.unrunnable executable fault))

end Session

end StackLang
