import RegAsm.Exchange.Program
import RegAsm.Fault
import RegAsm.Limits

namespace RegAsm

open Exchange

namespace Fault

def kind : Fault → String
  | duplicateLabel _ _ _ => "DuplicateLabel"
  | undefinedRegister _ _ => "UndefinedRegister"
  | undefinedLabel _ _ => "UndefinedLabel"
  | divisionByZero _ => "DivisionByZero"
  | emptyCallStack _ => "EmptyCallStack"
  | malformedOperand _ _ => "MalformedOperand"
  | unknownMnemonic _ _ => "UnknownMnemonic"
  | invalidOperands _ _ => "InvalidOperands"
  | illFormed _ _ => "Syntax"
  | limitExceeded _ _ => "ResourceLimitExceeded"

def details : Fault → List (String × Json)
  | duplicateLabel label span first =>
    [("label", toJson label), ("span", toJson span), ("first_span", toJson first)]
  | undefinedRegister register span => [("register", toJson register), ("span", toJson span)]
  | undefinedLabel label span => [("label", toJson label), ("span", toJson span)]
  | divisionByZero span => [("span", toJson span)]
  | emptyCallStack span => [("span", toJson span)]
  | malformedOperand operand span => [("operand", toJson operand), ("span", toJson span)]
  | unknownMnemonic mnemonic span => [("mnemonic", toJson mnemonic), ("span", toJson span)]
  | invalidOperands detail span => [("detail", toJson detail), ("span", toJson span)]
  | illFormed detail span => [("msg", toJson detail), ("span", toJson span)]
  | limitExceeded resource limit => [("resource", toJson resource), ("limit", toJson limit)]

def ofSubject? (name : String) (build : String → Span → Fault) (j : Json) : Option Fault := do
  let (subject, span) ← j.field2? name "span"
  return build (← ofJson? subject) (← ofJson? span)

def ofSpan? (build : Span → Fault) (j : Json) : Option Fault := do
  let span ← j.field1? "span"
  return build (← ofJson? span)

end Fault

instance : Exchange Fault where
  toJson f := .variant f.kind (.record f.details)
  ofJson? j :=
    match j.variant? with
    | some ("DuplicateLabel", some c) => do
      let (label, span, first) ← c.field3? "label" "span" "first_span"
      return .duplicateLabel (← ofJson? label) (← ofJson? span) (← ofJson? first)
    | some ("UndefinedRegister", some c) => Fault.ofSubject? "register" .undefinedRegister c
    | some ("UndefinedLabel", some c) => Fault.ofSubject? "label" .undefinedLabel c
    | some ("DivisionByZero", some c) => Fault.ofSpan? .divisionByZero c
    | some ("EmptyCallStack", some c) => Fault.ofSpan? .emptyCallStack c
    | some ("MalformedOperand", some c) => Fault.ofSubject? "operand" .malformedOperand c
    | some ("UnknownMnemonic", some c) => Fault.ofSubject? "mnemonic" .unknownMnemonic c
    | some ("InvalidOperands", some c) => Fault.ofSubject? "detail" .invalidOperands c
    | some ("Syntax", some c) => Fault.ofSubject? "msg" .illFormed c
    | some ("ResourceLimitExceeded", some c) => do
      let (resource, limit) ← c.field2? "resource" "limit"
      return .limitExceeded (← ofJson? resource) (← ofJson? limit)
    | _ => none

instance : Exchange Limits where
  toJson l := .record [("max_steps", toJson l.maxSteps),
    ("max_call_depth", toJson l.maxCallDepth), ("max_source_bytes", toJson l.maxSourceBytes)]
  ofJson? j :=
    match j.fields? ["max_steps", "max_call_depth", "max_source_bytes"] with
    | some [steps, depth, some bytes] => do
      return ⟨← ofJson? (steps.getD .null), ← ofJson? (depth.getD .null), ← ofJson? bytes⟩
    | _ => none

end RegAsm
