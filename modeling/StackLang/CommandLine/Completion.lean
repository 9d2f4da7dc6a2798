import StackLang.CommandLine.Options

/-!
# Completion of a command line

A shell may ask which words can stand next: it gives the words so far after a command of its own,
`__complete` or `__completeNoDesc`, and the last one is the word to complete. Only the names of
flags are offered; any other word is left to the shell, which knows the files.

- `Request.find?`: the request that a command line makes.
- `Request.reply`: what is offered.
-/

set_option autoImplicit false

namespace StackLang.CommandLine

/-- Whether a text holds an equals sign. -/
def holdsEquals (t : Text) : Bool := t.contains (Text.byte '=')

/-- Whether a text starts with a dash. -/
def startsWithDash (t : Text) : Bool := t.head? = some (Text.byte '-')

/-- A request for completion. -/
structure Request where
  /-- Whether the offered words come with descriptions. -/
  described : Bool
  words : List Text
  deriving DecidableEq, Repr

/-- What the shell may do beside offering the words of a reply. -/
inductive Directive where
  /-- It may offer files. -/
  | anything
  | noFiles
  deriving DecidableEq, Repr

namespace Directive

/-- The name of a directive. -/
def name : Directive → Text
  | anything => "ShellCompDirectiveDefault"
  | noFiles => "ShellCompDirectiveNoFileComp"

/-- The number of a directive. -/
def code : Directive → Text
  | anything => "0"
  | noFiles => "4"

end Directive

namespace Request

/-! ## Finding a request -/

/-- Whether a flag takes no value from the next word. The help flag does not count: it is not known
before the command is. -/
def standsAlone (f? : Option Flag) : Bool := f?.any fun f => f.kind = .switch && f ≠ .help

/-- Whether a word takes the next one as its value. -/
def takesNext (word : Text) : Bool :=
  !holdsEquals word &&
    match word with
    | dash :: rest =>
      dash = Text.byte '-' &&
        match rest with
        | [] => false
        | [letter] => !standsAlone (Flag.ofLetter? letter)
        | second :: name => second = Text.byte '-' && !standsAlone (Flag.ofName? name)
    | [] => false

/-- The request in a command line, where `before` are the words passed, last first. The command is
the first word that is neither a flag nor the value of one. -/
def findFrom (before : List Text) : List Text → Option Request
  | [] => none
  | word :: rest =>
    if word = "--" then none
    else if takesNext word then
      match rest with
      | value :: next :: rest => findFrom (value :: word :: before) (next :: rest)
      | _ => none
    else if word = [] ∨ startsWithDash word then findFrom (word :: before) rest
    else if word = "__complete" then some ⟨true, before.reverse ++ rest⟩
    else if word = "__completeNoDesc" then some ⟨false, before.reverse ++ rest⟩
    else none

/-- The request that a command line makes. -/
def find? (args : List Text) : Option Request := findFrom [] args

/-! ## Answering a request -/

/-- What is to be completed. -/
structure Aim where
  /-- The words before it. -/
  before : List Text
  word : Text
  /-- Whether it is the value of a flag. -/
  isValue : Bool := false
  /-- Whether it would be the value of a flag that does not exist. -/
  stray : Bool := false
  deriving DecidableEq, Repr

/-- The flag with a name, or with a letter. -/
def flagNamed? : Text → Option Flag
  | [letter] => Flag.ofLetter? letter
  | name => Flag.ofName? name

/-- The name of the flag whose value may follow a word: a long name, or the last of its letters. -/
def pendingFlag? (word : Text) : Option Text :=
  if holdsEquals word then none
  else
    match Text.dropStart? "--" word with
    | some name => if name = [] then none else some name
    | none =>
      if startsWithDash word ∧ 1 < word.length then some (word.drop (word.length - 1)) else none

/-- The aim of a word that does not name a flag itself, where `shown` is the word as it is written.
A value after an equals sign (`joined`) may also belong to a switch. -/
def aimAtWord (before : List Text) (word shown : Text) (joined : Bool) : Aim :=
  match before.getLast?.bind pendingFlag? with
  | none => { before, word }
  | some name =>
    match flagNamed? name with
    | none => { before, word := shown, stray := true }
    | some f =>
      if f.kind = .switch ∧ ¬ joined then { before, word }
      else { before := before.dropLast, word, isValue := true }

/-- The name of the flag in front of an equals sign: a long name, or the last of its letters. -/
def namePart (front : Text) : Text :=
  match Text.dropStart? "--" front with
  | some name => name
  | none => front.drop (front.length - 1)

/-- What is to be completed by a word after others. -/
def aim (before : List Text) (word : Text) : Aim :=
  if ¬ startsWithDash word then aimAtWord before word word false
  else
    match Text.cut? (Text.byte '=') word with
    | none => { before, word }
    | some (front, value) =>
      if namePart front = [] then aimAtWord before value word true
      else
        match flagNamed? (namePart front) with
        | none => { before, word, stray := true }
        | some _ => { before, word := value, isValue := true }

/-- Whether flags can still follow some words: none can after `--`. -/
def flagsFollow (before : List Text) (args : List Text) : Bool :=
  match (Options.read (before ++ [("--" : Text)])).2 with
  | .ok longer => longer.length ≤ args.length
  | .error _ => true

/-- The forms of a flag that start with a word. -/
def formsFrom (word : Text) (f : Flag) : List Text :=
  let long : Text := "--" ++ f.name
  let short : List Text := f.letter?.toList.map fun b => [Text.byte '-', b]
  (long :: short).filter word.isPrefixOf

/-- The flags that are offered for a word, with their purposes, when `given` are set already. -/
def offers (word : Text) (given : List Flag) : List (Text × Text) :=
  (Flag.all.filter (· ∉ given)).flatMap fun f =>
    (formsFrom word f).map fun form => (form, f.purpose)

/-- The words that are offered for an aim. -/
def answer (a : Aim) : List (Text × Text) × Directive :=
  match Options.read a.before with
  | (_, .error _) => ([], .anything)
  | (o, .ok args) =>
    let follow := flagsFollow a.before args
    if a.stray ∧ follow then ([], .anything)
    else if .help ∈ o.given then ([], .noFiles)
    else if ¬ a.isValue ∧ startsWithDash a.word ∧ ¬ holdsEquals a.word ∧ follow then
      (offers a.word o.given, .noFiles)
    else ([], .anything)

/-- One offered word on a line. -/
def line (r : Request) (offer : Text × Text) : Text :=
  if r.described then offer.1 ++ "\t" ++ offer.2 ++ "\n" else offer.1 ++ "\n"

/-- The reply to a request: what is printed for the shell, and what is told to the user. A request
without words has none. -/
def reply (r : Request) : Option (Text × Text) :=
  r.words.getLast?.map fun word =>
    let (offered, directive) := answer (aim r.words.dropLast word)
    (offered.flatMap r.line ++ ":" ++ directive.code ++ "\n",
      "Completion ended with directive: " ++ directive.name ++ "\n")

end Request

end StackLang.CommandLine
