import RegAsm.Fault
import RegAsm.Instruction
import RegAsm.Text.Words

namespace RegAsm

inductive TokenKind where
  | identifier
  | number (value : Word)
  | invalid
deriving DecidableEq, Repr

structure Token where
  kind : TokenKind
  chars : List Char
  span : Span
deriving DecidableEq, Repr

def TokenKind.of (cs : List Char) : TokenKind :=
  match Word.read? cs with
  | some value => .number value
  | none => if Text.isIdentifier cs then .identifier else .invalid

namespace Token

def text (t : Token) : String :=
  String.ofList t.chars

def ofPiece (span : Span) (p : Text.Piece) : Token :=
  ⟨TokenKind.of p.chars, p.chars, span.advance p.offset⟩

def ofText (cs : List Char) (span : Span) : List Token :=
  (Text.words 0 cs).map (ofPiece span)

def operand (t : Token) : Except Fault Operand :=
  match t.kind with
  | .number value => .ok (.immediate value)
  | .identifier => .ok (.register t.text)
  | .invalid => .error (.malformedOperand t.text t.span)

end Token

end RegAsm
