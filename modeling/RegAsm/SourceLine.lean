import RegAsm.Fault
import RegAsm.Text.Line

/-! Program text by lines: comments taken away, labels and instructions apart. -/

namespace RegAsm

open Text

inductive SourceLine where
  | label (name : List Char) (span : Span)
  | instruction (code : List Char) (span : Span)
deriving DecidableEq, Repr

namespace SourceLine

/-- Cuts a line at its first semicolon outside quotes; `quoted` tells whether it begins inside. -/
def codeBefore (quoted : Bool) : List Char → List Char
  | [] => []
  | c :: cs =>
    if isQuote c then c :: codeBefore (!quoted) cs
    else if c == ';' && !quoted then []
    else c :: codeBefore quoted cs

def beforeComment (cs : List Char) : List Char :=
  codeBefore false cs

def endsLabel (c : Char) : Bool :=
  isAsciiBlank c || c == ',' || isQuote c

def labelled? (cs : List Char) : Option (List Char × List Char) :=
  let head := cs.takeWhile (· != ':')
  match cs.dropWhile (· != ':') with
  | [] => none
  | _ :: rest => if head.isEmpty || head.any endsLabel then none else some (head, rest)

def codeOf (cs : List Char) (span : Span) : List SourceLine :=
  let code := trim cs
  if code.isEmpty then [] else [.instruction code (span.advance (indent cs))]

def ofLine (raw : List Char) (start : Span) : Except Fault (List SourceLine) :=
  let code := beforeComment raw
  let span := start.advance (indent code)
  match labelled? (trim code) with
  | none => .ok (codeOf code start)
  | some (name, rest) =>
    if isIdentifier name then
      .ok (.label name span :: codeOf rest (span.advance (width name + 1)))
    else .error (.invalidLabel (String.ofList name) span)

def ofLines (number : Nat) : List (List Char) → Except Fault (List SourceLine)
  | [] => .ok []
  | raw :: rest => do
    let here ← ofLine raw ⟨UInt32.ofNat number, 1⟩
    let later ← ofLines (number + 1) rest
    return here ++ later

def ofText (cs : List Char) : Except Fault (List SourceLine) :=
  ofLines 1 (lines cs)

end SourceLine

end RegAsm
