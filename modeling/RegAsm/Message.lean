import RegAsm.Token

/-! Operands of `msg`: quoted texts between bare words. -/

namespace RegAsm.Message

open Text

/-- A quoted text begins at its opening quote; `unclosed` is a quote without a partner. -/
inductive Lexeme where
  | quoted (offset : Nat) (content : List Char)
  | word (piece : Piece)
  | unclosed (offset : Nat)
deriving DecidableEq, Repr

def inBareWord (c : Char) : Bool :=
  !isSeparator c && !isQuote c

def inQuotes (c : Char) : Bool :=
  !isQuote c

def lexemes (offset : Nat) : List Char → List Lexeme
  | [] => []
  | c :: cs =>
    if isSeparator c then lexemes (offset + c.utf8Size) cs
    else if isQuote c then
      match h : cs.dropWhile inQuotes with
      | [] => [.unclosed offset]
      | _ :: rest =>
        let content := cs.takeWhile inQuotes
        .quoted offset content :: lexemes (offset + width content + 2) rest
    else
      let word := c :: cs.takeWhile inBareWord
      .word ⟨offset, word⟩ :: lexemes (offset + width word) (cs.dropWhile inBareWord)
termination_by cs => cs.length
decreasing_by
  · simp
  · have := length_dropWhile_le inQuotes cs
    simp only [h, List.length_cons] at this ⊢
    omega
  · exact Nat.lt_succ_of_le (length_dropWhile_le inBareWord cs)

def part (span : Span) : Lexeme → Except Fault MessagePart
  | .quoted _ content => .ok (.text (String.ofList content))
  | .word piece => (Token.ofPiece span piece).operand.map .value
  | .unclosed offset => .error (.unterminatedText (span.advance offset))

def parts (span : Span) : List Lexeme → Except Fault (List MessagePart)
  | [] => .ok []
  | l :: ls => do
    let p ← part span l
    let ps ← parts span ls
    return p :: ps

def read (cs : List Char) (span : Span) : Except Fault (List MessagePart) :=
  parts span (lexemes 0 cs)

def render (value : Operand → Except Fault Word) : List MessagePart → Except Fault String
  | [] => .ok ""
  | .text content :: ps => do
    let rest ← render value ps
    return content ++ rest
  | .value operand :: ps => do
    let v ← value operand
    let rest ← render value ps
    return Word.text v ++ rest

end RegAsm.Message
