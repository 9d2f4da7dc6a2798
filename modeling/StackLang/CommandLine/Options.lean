import StackLang.CommandLine.Flag
import StackLang.Text.Number
import StackLang.Text.Quoted

/-!
# Options of the command line

Flags and arguments may be mixed. `--name=value`, `--name value`, `-xvalue`, `-x=value` and
`-x value` give a flag its value; letters of switches may share one dash; after `--` everything is
an argument. The first fault ends the reading, and the flags before it have taken effect.

- `Options.read`: the options and arguments of a command line.
-/

set_option autoImplicit false

namespace StackLang.CommandLine

/-- What the flags of a command line say. Flags about logging are checked and have no effect. -/
structure Options where
  /-- The path of the result, when it is not empty. -/
  output : Text := []
  run : Bool := false
  /-- Whether to keep the assembly text, when the command line says so. -/
  keepAsm : Option Bool := none
  emitAsm : Bool := false
  /-- The path of the settings, when it is not empty. -/
  config : Text := []
  /-- The size of the input buffers, when the command line gives one. -/
  inputBufferSize : Option Int64 := none
  noColor : Bool := false
  help : Bool := false
  /-- The flags that were given a value, last first. -/
  given : List Flag := []
  deriving DecidableEq, Repr

/-- What is wrong with the value of a flag. -/
inductive ValueFault where
  | notBool
  | notInt
  | outOfRange
  deriving DecidableEq, Repr

/-- The wording of a fault of the value `value`. -/
def ValueFault.message (value : Text) : ValueFault → Text
  | notBool => "strconv.ParseBool: parsing " ++ Quoted.text value ++ ": invalid syntax"
  | notInt => "strconv.ParseInt: parsing " ++ Quoted.text value ++ ": invalid syntax"
  | outOfRange => "strconv.ParseInt: parsing " ++ Quoted.text value ++ ": value out of range"

/-- What is wrong with a command line. -/
inductive UsageFault where
  | badForm (arg : Text)
  | unknownFlag (name : Text)
  | unknownLetter (letter : UInt8) (letters : Text)
  /-- The value of a flag is missing; `shown` is how the flag is written. -/
  | noValue (shown : Text)
  | badValue (flag : Flag) (value : Text) (fault : ValueFault)
  | noArguments
  deriving DecidableEq, Repr

/-- A letter as messages show it. -/
def shownLetter (letter : UInt8) (letters : Text) : Text :=
  Quoted.char (Char.ofNat letter.toNat) ++ " in -" ++ letters

/-- The wording of a fault. -/
def UsageFault.message : UsageFault → Text
  | badForm arg => "bad flag syntax: " ++ arg
  | unknownFlag name => "unknown flag: --" ++ name
  | unknownLetter letter letters => "unknown shorthand flag: " ++ shownLetter letter letters
  | noValue shown => "flag needs an argument: " ++ shown
  | badValue flag value fault =>
    "invalid argument " ++ Quoted.text value ++ " for " ++ Quoted.text flag.forms ++ " flag: "
      ++ fault.message value
  | noArguments => "requires at least 1 arg(s), only received 0"

/-! ## Values -/

/-- A truth value as written on the command line. -/
def bool? (t : Text) : Option Bool :=
  if t ∈ List.map Text.ofString ["1", "t", "T", "TRUE", "true", "True"] then some true
  else if t ∈ List.map Text.ofString ["0", "f", "F", "FALSE", "false", "False"] then some false
  else none

namespace Options

/-- Sets a switch. -/
def setSwitch (o : Options) (b : Bool) : Flag → Options
  | .run => { o with run := b }
  | .keepAsm => { o with keepAsm := some b }
  | .emitAsm => { o with emitAsm := b }
  | .noColor => { o with noColor := b }
  | .help => { o with help := b }
  | .config | .inputBufferSize | .logToStderr | .output | .verbose => o

/-- Sets a number. -/
def setNumber (o : Options) (n : Int64) : Flag → Options
  | .inputBufferSize => { o with inputBufferSize := some n }
  | _ => o

/-- Sets a text. -/
def setText (o : Options) (t : Text) : Flag → Options
  | .output => { o with output := t }
  | .config => { o with config := t }
  | _ => o

/-- Notes that a flag was given a value. -/
def note (o : Options) (f : Flag) : Options := { o with given := f :: o.given }

/-- Gives a flag its value. A switch with a faulty value is off. -/
def set (o : Options) (f : Flag) (value : Text) : Options × Option UsageFault :=
  match f.kind with
  | .text => ((o.setText value f).note f, none)
  | .switch =>
    match bool? value with
    | some b => ((o.setSwitch b f).note f, none)
    | none => (o.setSwitch false f, some (.badValue f value .notBool))
  | .number =>
    match Number.anyBase value with
    | .ok n => ((o.setNumber n f).note f, none)
    | .error .malformed => (o, some (.badValue f value .notInt))
    | .error (.outOfRange _) => (o, some (.badValue f value .outOfRange))

/-! ## Reading -/

/-- The options after an argument with flags, and the flag that takes the next argument as its
value, with the way it is written. -/
abbrev Taken := Options × Except UsageFault (Option (Flag × Text))

/-- Gives a flag its value and asks for nothing more. -/
def taken (o : Options) (f : Flag) (value : Text) : Taken :=
  match o.set f value with
  | (o, some fault) => (o, .error fault)
  | (o, none) => (o, .ok none)

/-- Takes the letters after a dash. Letters that start with `test.` are passed over. -/
def takeLetters (o : Options) : Text → Taken
  | [] => (o, .ok none)
  | b :: more =>
    if List.isPrefixOf ("test." : Text) (b :: more) then (o, .ok none)
    else
      match Flag.ofLetter? b with
      | none => (o, .error (.unknownLetter b (b :: more)))
      | some f =>
        if more.head? = some (Text.byte '=') ∧ 1 < more.length then o.taken f more.tail
        else if f.kind = .switch then
          match o.set f "true" with
          | (o, some fault) => (o, .error fault)
          | (o, none) => takeLetters o more
        else if more ≠ [] then o.taken f more
        else (o, .ok (some (f, shownLetter b [b])))

/-- Takes a flag by its name, where `arg` is the whole argument and `body` what follows its
dashes. -/
def takeName (o : Options) (arg body : Text) : Taken :=
  if body.head? = some (Text.byte '-') ∨ body.head? = some (Text.byte '=') then
    (o, .error (.badForm arg))
  else
    let (name, value?) :=
      match Text.cut? (Text.byte '=') body with
      | some (name, value) => (name, some value)
      | none => (body, none)
    match Flag.ofName? name, value? with
    | none, _ => (o, .error (.unknownFlag name))
    | some f, some value => o.taken f value
    | some f, none => if f.kind = .switch then o.taken f "true" else (o, .ok (some (f, arg)))

/-- Reads on in a command line, where `args` are the arguments so far, last first. -/
def readFrom (o : Options) (args : List Text) : List Text → Options × Except UsageFault (List Text)
  | [] => (o, .ok args.reverse)
  | arg :: rest =>
    if arg = "--" then (o, .ok (args.reverse ++ rest))
    else if arg.head? ≠ some (Text.byte '-') ∨ arg = "-" then readFrom o (arg :: args) rest
    else
      let step :=
        match Text.dropStart? "--" arg with
        | some body => o.takeName arg body
        | none => o.takeLetters arg.tail
      match step with
      | (o, .error fault) => (o, .error fault)
      | (o, .ok none) => readFrom o args rest
      | (o, .ok (some (f, shown))) =>
        match rest with
        | [] => (o, .error (.noValue shown))
        | value :: rest =>
          match o.set f value with
          | (o, some fault) => (o, .error fault)
          | (o, none) => readFrom o args rest

/-- The options of a command line, and its arguments. -/
def read (args : List Text) : Options × Except UsageFault (List Text) := readFrom {} [] args

end Options

end StackLang.CommandLine
