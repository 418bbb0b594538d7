import RegAsm.Instruction.Reader
import RegAsm.LabelTable
import RegAsm.SourceLine

namespace RegAsm

def SourceLine.statement : SourceLine → Except Fault Statement
  | label name span => .ok (.label (String.ofList name) span)
  | instruction code span => (Instruction.read code span).map (.instruction · span)

namespace Statement

def ofSourceLines : List SourceLine → Except Fault (List Statement)
  | [] => .ok []
  | l :: ls => do
    let s ← l.statement
    let rest ← ofSourceLines ls
    return s :: rest

/-- All lines are taken apart before the first instruction is read, so that a bad label name is
reported before a bad instruction, wherever they stand. -/
def parseAll (cs : List Char) : Except Fault (List Statement) := do
  let ls ← SourceLine.ofText cs
  ofSourceLines ls

end Statement

structure Program where
  statements : Array Statement
  labels : LabelTable
  labels_built : LabelTable.ofStatements statements.toList = .ok labels

namespace Program

def ofStatements (statements : List Statement) : Except Fault Program :=
  match h : LabelTable.ofStatements statements with
  | .ok labels => .ok ⟨statements.toArray, labels, h⟩
  | .error f => .error f

def parse (source : String) : Except Fault Program := do
  let statements ← Statement.parseAll source.toList
  ofStatements statements

def size (p : Program) : Nat :=
  p.statements.size

def isEmpty (p : Program) : Bool :=
  p.statements.isEmpty

def listingLine (index : Nat) (s : Statement) : String :=
  let set := match s with
    | .label _ _ => ""
    | .instruction _ _ => "  "
  Text.padLeft 4 (Decimal.ofNat index) ++ "  " ++ Text.padRight 6 s.span.text ++ " " ++ set ++
    s.print ++ "\n"

def listing (p : Program) : String :=
  String.join (p.statements.toList.mapIdx listingLine)

theorem ofStatements_eq_ok_iff {statements : List Statement} {p : Program} :
    ofStatements statements = .ok p ↔ p.statements.toList = statements := by
  obtain ⟨ss, labels, hb⟩ := p
  constructor
  · intro h
    unfold ofStatements at h
    split at h
    · cases h
      rfl
    · cases h
  · rintro rfl
    unfold ofStatements
    split
    · rename_i t ht
      cases hb.symm.trans ht
      rfl
    · rename_i f hf
      cases hb.symm.trans hf

end Program

end RegAsm
