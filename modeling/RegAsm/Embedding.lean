import RegAsm.Interpreter.Bounded
import RegAsm.Literal

/-! Programs embedded in a host source text and run when that is compiled. -/

namespace RegAsm.Embedding

inductive HostToken where
  | literal (spelling : String)
  | punctuation (c : Char)
  | identifier (name : String)
  | group
deriving DecidableEq, Repr

inductive Problem where
  | sourceExpected
  | extraTokens
  | literal (e : Literal.Error)
  | fault (f : Fault)
  | fellOff
deriving DecidableEq, Repr

def Problem.message : Problem → String
  | sourceExpected => "expected program source string"
  | extraTokens => "unexpected extra tokens after source string"
  | literal e => e.message
  | fault f => "interpreter error: " ++ f.message
  | fellOff => "program ran past its last line without reaching `end`"

structure Diagnostic where
  problem : Problem
  token : Option Nat
deriving DecidableEq, Repr

def maxSteps : UInt64 := 10000000

def limits : Limits :=
  { maxSteps := some maxSteps, maxCallDepth := some 4096 }

def checkRest : List HostToken → Except Diagnostic PUnit
  | [] => .ok ⟨⟩
  | [.punctuation ','] => .ok ⟨⟩
  | .punctuation ',' :: _ => .error ⟨.extraTokens, some 2⟩
  | _ => .error ⟨.extraTokens, some 1⟩

def source : List HostToken → Except Diagnostic String
  | [] => .error ⟨.sourceExpected, none⟩
  | .literal spelling :: rest =>
    match Literal.decode spelling.toList with
    | .error e => .error ⟨.literal e, some 0⟩
    | .ok cs => do
      checkRest rest
      return String.ofList cs
  | _ => .error ⟨.sourceExpected, some 0⟩

/-- The output of the embedded program; none if it runs past its last statement. -/
def evaluate (tokens : List HostToken) : Except Diagnostic (Option String) := do
  let text ← source tokens
  match limits.outcome maxSteps rfl text with
  | .output out => return some out
  | .fellOff => return none
  | .fault f => throw ⟨.fault f, some 0⟩

def evaluateText (tokens : List HostToken) : Except Diagnostic String := do
  match ← evaluate tokens with
  | some out => return out
  | none => throw ⟨.fellOff, some 0⟩

end RegAsm.Embedding
