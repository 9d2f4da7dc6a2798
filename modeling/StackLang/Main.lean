import StackLang.Command
import StackLang.Settings.Overlay

/-!
# The command line

Loads the files that a run looks at, executes the command on them and writes back what it changed.
External programs are not started from here, so a build ends at its assembler with a report, and
`--emit-asm` writes the text for it.
-/

set_option autoImplicit false

namespace StackLang.Main

open CommandLine (Options)

/-- A text as a string. -/
def toString? (t : Text) : Option String := String.fromUTF8? ⟨t.toArray⟩

/-- What stands at a path. -/
def entryAt (path : Text) : IO (Option Entry) :=
  match toString? path with
  | none => return none
  | some name =>
    try
      return some (.file (← IO.FS.readBinFile name).toList)
    catch
      | .noFileOrDirectory .. => return none
      | _ => return some .directory

/-- The disk with the directories that lead to a path, and with what stands there. -/
def fetch (d : Disk) (path : Text) : IO Disk := do
  let mut d := d
  let mut address : Address := []
  for part in Path.parts (Path.absolute d.cwd path) do
    address := part :: address
    match ← entryAt (Disk.pathOf address) with
    | some .directory => d := d.put address .directory
    | some e =>
      d := d.put address e
      break
    | none => break
  return d

/-- The disk with all that a run looks at. -/
partial def load (d : Disk) (o : Options) (source : Text) (known : List Text) : IO Disk := do
  match (Command.wanted Settings.ofDocument d o source).filter (· ∉ known) with
  | [] => return d
  | path :: _ => load (← fetch d path) o source (path :: known)

/-- Writes the files that a run changed, and removes those that it removed. -/
def writeBack (before after : Disk) : IO Unit := do
  for (address, e) in after.entries do
    match e, toString? (Disk.pathOf address) with
    | .file content, some name =>
      if before.find? address ≠ some e then IO.FS.writeBinFile name ⟨content.toArray⟩
    | _, _ => pure ()
  for (address, _) in before.entries do
    match after.find? address, toString? (Disk.pathOf address) with
    | none, some name => IO.FS.removeFile name
    | _, _ => pure ()

/-- Whether reports may be coloured. -/
def colored : IO Bool := do
  let plain := (← IO.getEnv "NO_COLOR").isSome || (← IO.getEnv "TERM") = some "dumb"
  return !plain && (← (← IO.getStderr).isTty)

/-- External programs are out of reach. -/
def programs : Programs := fun _ d =>
  { entries := d.entries, fault := some (.broken "external programs cannot be started") }

/-- The disk at the current directory. -/
def currentDisk : IO Disk := do
  let cwd : Text := (← IO.currentDir).toString
  if h : Path.isAbsolute cwd = true then return { cwd := cwd, cwd_absolute := h } else return {}

end StackLang.Main

open StackLang in
/-- Runs the command. -/
def main (args : List String) : IO UInt32 := do
  let args := args.map Text.ofString
  let empty ← Main.currentDisk
  let here ← Main.fetch empty empty.cwd
  let disk ←
    match CommandLine.Options.read args with
    | (o, .ok (source :: _)) => if o.help then pure here else Main.load here o source []
    | _ => pure here
  let env : Command.Surroundings :=
    { colored := ← Main.colored, decoder := Settings.ofDocument, programs := Main.programs }
  let (session, status) := Command.execute env args disk
  Main.writeBack disk session.disk
  (← IO.getStdout).write ⟨session.stdout.toArray⟩
  (← IO.getStderr).write ⟨session.stderr.toArray⟩
  return status.toNat.toUInt32
