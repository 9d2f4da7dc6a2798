import StackLang.Assembly.Fault
import StackLang.Literal
import StackLang.Stack.Value

/-!
# Errors

A compile error is a cause and a place. The cause says what is wrong in the terms of the stage that
found it; `Cause.kind` sorts causes into the kinds that users see and `Cause.message` words them.
Failures that are not the source's fault (an included file that cannot be read, an inconsistent
assembly text) carry no kind.
-/

set_option autoImplicit false

namespace StackLang

/-- The kind of a compile error. A code outside the assigned ones is kept as it is. -/
inductive ErrorKind where
  | unknownOperation
  | notImplemented
  | ambiguousDo
  | ambiguousBreak
  | stackUnderflow
  | operandTypeMismatch
  | divisionByZero
  | stackIndexError
  | invalidLiteral
  | recursiveMacro
  | unterminatedMacro
  | circularInclude
  | unbalancedBlock
  | unassigned (code : Int)
  deriving DecidableEq, Repr

namespace ErrorKind

/-- The kinds in the order of their codes. -/
def all : List ErrorKind :=
  [unknownOperation, notImplemented, ambiguousDo, ambiguousBreak, stackUnderflow,
   operandTypeMismatch, divisionByZero, stackIndexError, invalidLiteral, recursiveMacro,
   unterminatedMacro, circularInclude, unbalancedBlock]

/-- The kind with a code. -/
def ofCode (code : Int) : ErrorKind :=
  if code < 0 then unassigned code else all.getD code.toNat (unassigned code)

/-- The name of a kind. -/
def name : ErrorKind → Text
  | unknownOperation => "UnknownOperation"
  | notImplemented => "NotImplemented"
  | ambiguousDo => "AmbiguousDo"
  | ambiguousBreak => "AmbiguousBreak"
  | stackUnderflow => "StackUnderflow"
  | operandTypeMismatch => "OperandTypeMismatch"
  | divisionByZero => "DivisionByZero"
  | stackIndexError => "StackIndexError"
  | invalidLiteral => "InvalidLiteral"
  | recursiveMacro => "RecursiveMacro"
  | unterminatedMacro => "UnterminatedMacro"
  | circularInclude => "CircularInclude"
  | unbalancedBlock => "UnbalancedBlock"
  | unassigned code => "ErrorKind(" ++ Text.ofInt code ++ ")"

end ErrorKind

/-- What is wrong with a program. -/
inductive Cause where
  -- reading tokens
  | unterminatedLiteral (text : Text)
  | unterminatedArray
  | badLiteral (fault : Literal.Fault)
  | integerOutOfRange (text : Text)
  -- macros and included files
  | includeWithoutName
  | circularInclude (name : Text)
  | macroWithoutName
  | badMacroName (text : Text)
  | keywordInMacro (keyword name : Text)
  | macroWithoutEnd (name : Text)
  | recursiveMacro (name : Text)
  -- making operations
  | unexpectedKeyword (text : Text)
  | invalidInteger (text : Text)
  | unknownWord (text : Text)
  | unsupportedToken (kind : TokenKind)
  -- the abstract stack
  | underflow (action : Action) (needed found : Nat)
  | mismatch (action : Action) (expected : Pattern) (got : Value)
  | divisionByZero (primitive : Primitive) (dividend : Int64)
  | badIndex (got : Value)
  | indexTooDeep (index : Int64) (found : Nat)
  | uncheckable (action : Action)
  -- blocks
  | doWithoutOpener
  | doAfter (previous : Operation)
  | doRepeated (previous : Operation)
  | withoutIf (closer : Action)
  | afterElse (closer : Action)
  | missingDo (opener : Operation) (closer : Action)
  | withoutWhile
  | breakOutside
  | endOutside
  | neverClosed (opener : Action)
  | unresolvable (action : Action)
  -- code
  | noPartner (action : Action)
  | noData (symbol : Symbol)
  | unknownDataKind (code : Int)
  | undeclarable (fault : DeclareFault)
  | ungeneratable (action : Action)
  deriving DecidableEq, Repr

namespace Cause

/-- The kind under which users see a cause. -/
def kind : Cause → ErrorKind
  | unterminatedLiteral _ | unterminatedArray | badLiteral _ | integerOutOfRange _ =>
    .invalidLiteral
  | includeWithoutName => .invalidLiteral
  | circularInclude _ => .circularInclude
  | macroWithoutName | badMacroName _ | keywordInMacro _ _ | macroWithoutEnd _ => .unterminatedMacro
  | recursiveMacro _ => .recursiveMacro
  | unexpectedKeyword _ | unknownWord _ => .unknownOperation
  | invalidInteger _ => .invalidLiteral
  | unsupportedToken _ => .notImplemented
  | underflow _ _ _ => .stackUnderflow
  | mismatch _ _ _ => .operandTypeMismatch
  | divisionByZero _ _ => .divisionByZero
  | badIndex _ | indexTooDeep _ _ => .stackIndexError
  | uncheckable _ => .notImplemented
  | doWithoutOpener | doAfter _ | doRepeated _ => .ambiguousDo
  | withoutIf _ | afterElse _ | missingDo _ _ | withoutWhile | endOutside | neverClosed _ =>
    .unbalancedBlock
  | breakOutside => .ambiguousBreak
  | unresolvable _ => .notImplemented
  | noPartner _ => .unbalancedBlock
  | noData _ | unknownDataKind _ | undeclarable _ | ungeneratable _ => .notImplemented

/-- The wording of a cause. -/
def message : Cause → Text
  | unterminatedLiteral text => "unterminated literal " ++ text
  | unterminatedArray => "unterminated array literal"
  | badLiteral fault => fault.message
  | integerOutOfRange text => "integer literal " ++ text ++ " out of range"
  | includeWithoutName => "INCLUDE expects a quoted file name"
  | circularInclude name => "circular include of " ++ name
  | macroWithoutName => "MACRO without a name"
  | badMacroName text => "invalid macro name " ++ text
  | keywordInMacro keyword name => keyword ++ " inside the body of macro " ++ name
  | macroWithoutEnd name => "macro " ++ name ++ " has no END"
  | recursiveMacro name => "macro " ++ name ++ " references itself"
  | unexpectedKeyword text => "unexpected keyword " ++ text
  | invalidInteger text => "invalid integer " ++ text
  | unknownWord text => "unknown operation " ++ text
  | unsupportedToken kind => "token type " ++ kind.name
  | underflow action needed found =>
    action.name ++ " requires " ++ Text.ofNat needed ++ " values on the stack, found "
      ++ Text.ofNat found
  | mismatch action expected got =>
    action.name ++ " expected " ++ expected.name ++ ", got " ++ got.describe
  | divisionByZero primitive dividend =>
    primitive.name ++ " of " ++ Text.ofInt dividend.toInt ++ " by zero"
  | badIndex got => "GET_NTH index must be a positive integer literal, got " ++ got.describe
  | indexTooDeep index found =>
    "NOT_ENOUGH_ELEMENTS_IN_STACK: GET_NTH " ++ Text.ofInt index.toInt ++ " needs "
      ++ Text.ofInt (index + 1).toInt ++ " values below the index, found " ++ Text.ofNat found
  | uncheckable action => "type check for " ++ action.name ++ " is not implemented"
  | doWithoutOpener => "DO without a preceding IF, ELIF or WHILE"
  | doAfter previous =>
    "DO follows " ++ previous.action.kindName ++ " at " ++ previous.loc.text
      ++ " instead of IF, ELIF or WHILE"
  | doRepeated previous =>
    previous.action.kindName ++ " at " ++ previous.loc.text ++ " already has a DO"
  | withoutIf closer => closer.kindName ++ " without IF"
  | afterElse closer => closer.kindName ++ " after ELSE"
  | missingDo opener closer =>
    opener.action.kindName ++ " at " ++ opener.loc.text ++ " has no DO before " ++ closer.kindName
  | withoutWhile => "DONE without WHILE"
  | breakOutside => "BREAK outside of WHILE"
  | endOutside => "END outside of a MACRO definition"
  | neverClosed opener => opener.kindName ++ " is never closed"
  | unresolvable action => "block resolution for " ++ action.kindName ++ " is not implemented"
  | noPartner action => action.kindName ++ " has no matching block partner"
  | noData symbol => "no data declaration registered for " ++ symbol.name
  | unknownDataKind code => "unknown data kind " ++ Text.ofInt code
  | undeclarable fault => fault.message
  | ungeneratable action => "code generation for " ++ action.name ++ " is not implemented"

end Cause

/-- A compile error: what is wrong, and where. -/
structure Error where
  cause : Cause
  loc : Location
  deriving DecidableEq, Repr

namespace Error

/-- A kind, a wording and a place in one line; the place is left out when there is none. -/
def render (kind : ErrorKind) (message : Text) (loc : Location) : Text :=
  if loc.isNowhere then kind.name ++ ": " ++ message
  else loc.text ++ ": " ++ kind.name ++ ": " ++ message

/-- The error in one line. -/
def message (e : Error) : Text := render e.cause.kind e.cause.message e.loc

end Error

/-- Why a program is not compiled. -/
inductive Failure where
  /-- The source is wrong. -/
  | error (e : Error)
  /-- The file named at `loc` cannot be read. -/
  | unreadable (loc : Location) (path reason : Text)
  /-- The assembly text of `file` does not hold together. -/
  | inconsistent (file : Text) (fault : VerifyFault)
  /-- A block table was used outside its bounds. -/
  | outOfTable
  deriving DecidableEq, Repr

/-- The failure in one line. -/
def Failure.message : Failure → Text
  | error e => e.message
  | unreadable loc path reason =>
    loc.text ++ ": reading included file " ++ path ++ ": " ++ reason
  | inconsistent file fault =>
    "generated assembly for " ++ file ++ " is inconsistent: " ++ fault.message
  | outOfTable => "index outside the block table"

/-- The failure of a cause at a place. -/
def Cause.at (cause : Cause) (loc : Location) : Failure := .error ⟨cause, loc⟩

theorem Failure.of_map_ok {ε α β : Type} {x : Except ε α} {f : α → β} {y : β}
    (h : x.map f = .ok y) : ∃ a, x = .ok a ∧ f a = y := by
  cases x with
  | error e => simp [Except.map] at h
  | ok a => exact ⟨a, rfl, by simpa [Except.map] using h⟩

theorem Failure.of_map_error {α β : Type} {x : Except Failure α} {f : α → β} {e : Failure}
    (h : x.map f = .error e) : x = .error e := by
  cases x with
  | error e => exact congrArg _ (Except.error.inj h)
  | ok a => cases h

end StackLang
