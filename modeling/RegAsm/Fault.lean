import RegAsm.Span

namespace RegAsm

inductive Fault where
  | duplicateLabel (label : String) (span first : Span)
  | undefinedRegister (register : String) (span : Span)
  | undefinedLabel (label : String) (span : Span)
  | divisionByZero (span : Span)
  | emptyCallStack (span : Span)
  | malformedOperand (operand : String) (span : Span)
  | unknownMnemonic (mnemonic : String) (span : Span)
  | invalidOperands (detail : String) (span : Span)
  | illFormed (detail : String) (span : Span)
  | limitExceeded (resource : String) (limit : UInt64)
deriving DecidableEq, Repr

namespace Fault

def unterminatedText (span : Span) : Fault :=
  .illFormed "unterminated string literal" span

def invalidLabel (name : String) (span : Span) : Fault :=
  .illFormed ("invalid label name '" ++ name ++ "'") span

def wrongOperandCount (mnemonic : String) (expected found : Nat) (span : Span) : Fault :=
  .invalidOperands ("'" ++ mnemonic ++ "' expects " ++ Decimal.ofNat expected ++ " operand" ++
    (if expected = 1 then "" else "s") ++ ", found " ++ Decimal.ofNat found) span

def literalDestination (mnemonic literal : String) (span : Span) : Fault :=
  .invalidOperands
    ("'" ++ mnemonic ++ "' needs a register destination, found literal " ++ literal) span

def labelExpected (mnemonic found : String) (span : Span) : Fault :=
  .invalidOperands ("'" ++ mnemonic ++ "' needs a label name, found '" ++ found ++ "'") span

def stepLimit (limit : UInt64) : Fault :=
  .limitExceeded "steps" limit

def callDepthLimit (limit : UInt64) : Fault :=
  .limitExceeded "call depth" limit

def sourceSizeLimit (limit : UInt64) : Fault :=
  .limitExceeded "source bytes" limit

def span? : Fault → Option Span
  | .duplicateLabel _ span _ => some span
  | .undefinedRegister _ span => some span
  | .undefinedLabel _ span => some span
  | .divisionByZero span => some span
  | .emptyCallStack span => some span
  | .malformedOperand _ span => some span
  | .unknownMnemonic _ span => some span
  | .invalidOperands _ span => some span
  | .illFormed _ span => some span
  | .limitExceeded _ _ => none

def complaint : Fault → String
  | .duplicateLabel label _ first =>
    "duplicate label '" ++ label ++ "' (first defined at " ++ first.text ++ ")"
  | .undefinedRegister register _ => "register '" ++ register ++ "' read before assignment"
  | .undefinedLabel label _ => "undefined label '" ++ label ++ "'"
  | .divisionByZero _ => "division by zero"
  | .emptyCallStack _ => "return without call"
  | .malformedOperand operand _ =>
    "malformed operand '" ++ operand ++ "' (expected integer or register)"
  | .unknownMnemonic mnemonic _ => "unknown mnemonic '" ++ mnemonic ++ "'"
  | .invalidOperands detail _ => "invalid operands: " ++ detail
  | .illFormed detail _ => detail
  | .limitExceeded resource limit =>
    "resource limit exceeded: " ++ resource ++ " (limit: " ++ Decimal.ofNat limit.toNat ++ ")"

def message (f : Fault) : String :=
  match f.span? with
  | some span => span.text ++ ": " ++ f.complaint
  | none => f.complaint

end Fault

end RegAsm
