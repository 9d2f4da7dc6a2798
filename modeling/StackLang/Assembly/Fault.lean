import StackLang.Assembly.Section

/-!
# Faults of assembly files

Why a declaration is refused, and why a finished text is.
-/

set_option autoImplicit false

namespace StackLang

/-- Why data cannot be declared. -/
inductive DeclareFault where
  | invalidName (sym : Text)
  | alreadyDeclared (sym : Text) (home : Section)
  | badSize (sym : Text) (size : Int)
  deriving DecidableEq, Repr

/-- The wording of a declaration's fault. -/
def DeclareFault.message : DeclareFault → Text
  | invalidName sym => "invalid symbol name '" ++ sym ++ "'"
  | alreadyDeclared sym s => "symbol '" ++ sym ++ "' already declared in " ++ s.name
  | badSize sym size =>
    "buffer '" ++ sym ++ "' must have a positive size, got " ++ Text.ofInt size

/-- Why an assembly text is inconsistent. Lines count from one. -/
inductive VerifyFault where
  | invalidLabel (label : Text) (line : Nat)
  | invalidInstruction (mnemonic : Text) (line : Nat)
  | sectionOperands (line : Nat)
  | unknownSection (name : Text) (line : Nat)
  | duplicateLabel (key : Text) (line first : Nat)
  | undefinedSymbol (key : Text) (line : Nat)
  | declaredAfterUse (key : Text) (line declared : Nat)
  deriving DecidableEq, Repr

/-- The wording of a text's fault. -/
def VerifyFault.message : VerifyFault → Text
  | invalidLabel label line => "invalid label '" ++ label ++ "' on line " ++ Text.ofNat line
  | invalidInstruction mnemonic line =>
    "invalid instruction '" ++ mnemonic ++ "' on line " ++ Text.ofNat line
  | sectionOperands line => "section expects exactly one operand on line " ++ Text.ofNat line
  | unknownSection name line => "unknown section '" ++ name ++ "' on line " ++ Text.ofNat line
  | duplicateLabel key line first =>
    "duplicate label '" ++ key ++ "' on line " ++ Text.ofNat line ++ " (first defined on line "
      ++ Text.ofNat first ++ ")"
  | undefinedSymbol key line => "undefined symbol '" ++ key ++ "' on line " ++ Text.ofNat line
  | declaredAfterUse key line declared =>
    "symbol '" ++ key ++ "' used on line " ++ Text.ofNat line
      ++ " is declared after use on line " ++ Text.ofNat declared

end StackLang
