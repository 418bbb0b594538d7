import RegAsm.Fault
import RegAsm.Instruction
import Std.Data.ExtTreeMap

namespace RegAsm

structure Declaration where
  index : Nat
  span : Span
deriving DecidableEq, Repr

structure LabelTable where
  declarations : Std.ExtTreeMap String Declaration
deriving DecidableEq

namespace LabelTable

def empty : LabelTable := ⟨∅⟩

instance : Inhabited LabelTable := ⟨empty⟩

def find? (t : LabelTable) (name : String) : Option Declaration :=
  t.declarations[name]?

def index? (t : LabelTable) (name : String) : Option Nat :=
  (t.find? name).map Declaration.index

def declare (t : LabelTable) (name : String) (index : Nat) (span : Span) :
    Except Fault LabelTable :=
  match t.find? name with
  | some first => .error (.duplicateLabel name span first.span)
  | none => .ok ⟨t.declarations.insert name ⟨index, span⟩⟩

def target (t : LabelTable) (name : String) (span : Span) : Except Fault Nat :=
  match t.index? name with
  | some index => .ok index
  | none => .error (.undefinedLabel name span)

def toList (t : LabelTable) : List (String × Nat) :=
  t.declarations.toList.map fun (name, d) => (name, d.index)

def size (t : LabelTable) : Nat :=
  t.declarations.size

def isEmpty (t : LabelTable) : Bool :=
  t.declarations.isEmpty

def declareAll (t : LabelTable) (index : Nat) : List Statement → Except Fault LabelTable
  | [] => .ok t
  | .label name span :: rest => do
    let t ← t.declare name index span
    t.declareAll (index + 1) rest
  | .instruction _ _ :: rest => t.declareAll (index + 1) rest

def ofStatements (statements : List Statement) : Except Fault LabelTable :=
  empty.declareAll 0 statements

@[simp] theorem find?_empty (name : String) : empty.find? name = none := by
  simp [empty, find?]

theorem find?_insert (t : LabelTable) (name other : String) (d : Declaration) :
    find? ⟨t.declarations.insert name d⟩ other = if name = other then some d else t.find? other := by
  simp [find?, Std.ExtTreeMap.getElem?_insert]

theorem declare_eq_ok_iff {t u : LabelTable} {name : String} {index : Nat} {span : Span} :
    t.declare name index span = .ok u ↔
      t.find? name = none ∧ u = ⟨t.declarations.insert name ⟨index, span⟩⟩ := by
  cases h : t.find? name <;> simp [declare, h, eq_comm]

end LabelTable

end RegAsm
