import StackLang.Error
import StackLang.Path

/-!
# Reports

A problem is what a run can end with: an error at a place, a bare message, several messages, or one
of these inside a context. `Problem.message` is its text as one message among others, and
`Report.Style.render` is the report that users see, where an error at a place keeps its kind and
place through every context and several messages are numbered.
-/

set_option autoImplicit false

namespace StackLang

/-- What went wrong, as far as a report tells. -/
inductive Problem where
  /-- An error of the source. -/
  | located (kind : ErrorKind) (message : Text) (loc : Location)
  /-- A message. -/
  | plain (message : Text)
  /-- Messages of equal rank. -/
  | several (messages : List Text)
  /-- A problem met while doing something. -/
  | during (doing : Text) (inner : Problem)
  deriving DecidableEq, Repr

namespace Problem

/-- The problem that a failed compilation is. -/
def ofFailure : Failure → Problem
  | .error e => located e.cause.kind e.cause.message e.loc
  | f => plain f.message

/-- How many errors a list is headed by. -/
def occurred (n : Nat) : Text :=
  if n = 1 then "1 error occurred:" else Text.ofNat n ++ " errors occurred:"

/-- The problem in one text. -/
def message : Problem → Text
  | located kind message loc => Error.render kind message loc
  | plain message => message
  | several messages =>
    occurred messages.length ++ "\n\t" ++ Text.join "\n\t" (messages.map ("* " ++ ·)) ++ "\n\n"
  | during doing inner => doing ++ ": " ++ inner.message

/-- The error of the source inside a problem. -/
def located? : Problem → Option (ErrorKind × Text × Location)
  | located kind message loc => some (kind, message, loc)
  | plain _ | several _ => none
  | during _ inner => inner.located?

/-- The problem as the body of a report: several messages are numbered, one of them stands alone. -/
def body : Problem → Text
  | several [message] => message
  | several messages =>
    messages.zipIdx.foldl
      (fun t (message, i) => t ++ "\n    " ++ Text.ofNat (i + 1) ++ ") " ++ message)
      (Text.ofNat messages.length ++ " errors occurred:")
  | p => p.message

end Problem

namespace Report

/-- How reports look. -/
structure Style where
  /-- The directory that file names are shown relative to, when it is not empty. -/
  pwd : Text := []
  /-- Whether the place and the tag are coloured. -/
  colored : Bool := false
  deriving DecidableEq, Repr

namespace Style

/-- A terminal's control sequence with the given parameters. -/
def sequence (parameters : Text) : Text := "\x1b[" ++ parameters ++ "m"

/-- A tag, bold and red. -/
def tag (style : Style) (t : Text) : Text :=
  if style.colored then sequence "31;1" ++ t ++ sequence "0;22" else t

/-- The file of a place as it is shown. -/
def file (style : Style) (path : Text) : Text :=
  if style.pwd ≠ [] ∧ Path.isAbsolute path then (Path.relative? style.pwd path).getD path else path

/-- A place, cyan. -/
def place (style : Style) (loc : Location) : Text :=
  let t := Location.text { loc with file := style.file loc.file }
  if style.colored then sequence "36" ++ t ++ sequence "0" else t

/-- The report of a problem, which ends its line. -/
def render (style : Style) (p : Problem) : Text :=
  match p.located? with
  | some (kind, message, loc) =>
    let place : Text := if loc.isNowhere then [] else style.place loc ++ ": "
    place ++ style.tag ("error[" ++ kind.name ++ "]") ++ ": " ++ message ++ "\n"
  | none => style.tag "error" ++ ": " ++ p.body ++ "\n"

end Style

end Report

/-- Reports written so far. -/
structure Report where
  style : Report.Style := {}
  text : Text := []
  errors : Nat := 0
  deriving DecidableEq, Repr

namespace Report

/-- Whether nothing was reported. -/
def succeeded (r : Report) : Bool := r.errors = 0

/-- Reports one problem more. -/
def add (r : Report) (p : Problem) : Report :=
  { r with text := r.text ++ r.style.render p, errors := r.errors + 1 }

end Report

end StackLang
