import RegAsm.Message

namespace RegAsm

inductive Form where
  | plain (instruction : Instruction)
  | update (build : String → Instruction)
  | assign (build : String → Operand → Instruction)
  | compare (build : Operand → Operand → Instruction)
  | branch (build : String → Instruction)

def Form.arity : Form → Nat
  | plain _ => 0
  | update _ => 1
  | assign _ => 2
  | compare _ => 2
  | branch _ => 1

namespace Mnemonic

def form? : Mnemonic → Option Form
  | mov => some (.assign .mov)
  | inc => some (.update .inc)
  | dec => some (.update .dec)
  | add => some (.assign (.arith .add))
  | sub => some (.assign (.arith .sub))
  | mul => some (.assign (.arith .mul))
  | div => some (.assign (.arith .div))
  | cmp => some (.compare .cmp)
  | jmp => some (.branch (.jump .always))
  | je => some (.branch (.jump .equal))
  | jne => some (.branch (.jump .notEqual))
  | jge => some (.branch (.jump .greaterEqual))
  | jg => some (.branch (.jump .greater))
  | jle => some (.branch (.jump .lessEqual))
  | jl => some (.branch (.jump .less))
  | call => some (.branch .call)
  | ret => some (.plain .ret)
  | msg => none
  | halt => some (.plain .halt)

def arity? (m : Mnemonic) : Option Nat :=
  m.form?.map Form.arity

end Mnemonic

namespace Token

def destination (m : Mnemonic) (t : Token) : Except Fault String :=
  match t.kind with
  | .identifier => .ok t.text
  | .number _ => .error (.literalDestination m.name t.text t.span)
  | .invalid => .error (.malformedOperand t.text t.span)

def target (m : Mnemonic) (t : Token) : Except Fault String :=
  match t.kind with
  | .identifier => .ok t.text
  | _ => .error (.labelExpected m.name t.text t.span)

end Token

namespace Instruction

/-- A wrong number of operands is reported before anything about one of them. -/
def ofTokens (m : Mnemonic) (form : Form) (span : Span) (ts : List Token) :
    Except Fault Instruction :=
  match form, ts with
  | .plain instruction, [] => .ok instruction
  | .update build, [dst] => (dst.destination m).map build
  | .assign build, [dst, src] => do
    let d ← dst.destination m
    let s ← src.operand
    return build d s
  | .compare build, [lhs, rhs] => do
    let l ← lhs.operand
    let r ← rhs.operand
    return build l r
  | .branch build, [label] => (label.target m).map build
  | form, ts => .error (.wrongOperandCount m.name form.arity ts.length span)

def read (cs : List Char) (span : Span) : Except Fault Instruction :=
  let (name, rest) := Text.cutWord cs
  let restSpan := span.advance (Text.width cs - Text.width rest)
  match Mnemonic.ofName? name with
  | none => .error (.unknownMnemonic (String.ofList name) span)
  | some m =>
    match m.form? with
    | none => (Message.read rest restSpan).map .msg
    | some form => ofTokens m form span (Token.ofText rest restSpan)

end Instruction

end RegAsm
