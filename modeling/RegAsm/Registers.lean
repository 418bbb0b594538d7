import RegAsm.Fault
import RegAsm.Instruction
import Std.Data.ExtTreeMap

namespace RegAsm

structure Registers where
  values : Std.ExtTreeMap String Word
deriving DecidableEq

namespace Registers

def empty : Registers := ⟨∅⟩

instance : Inhabited Registers := ⟨empty⟩

def get? (r : Registers) (name : String) : Option Word :=
  r.values[name]?

def set (r : Registers) (name : String) (value : Word) : Registers :=
  ⟨r.values.insert name value⟩

def toList (r : Registers) : List (String × Word) :=
  r.values.toList

def size (r : Registers) : Nat :=
  r.values.size

def isEmpty (r : Registers) : Bool :=
  r.values.isEmpty

def read (r : Registers) (name : String) (span : Span) : Except Fault Word :=
  match r.get? name with
  | some value => .ok value
  | none => .error (.undefinedRegister name span)

def eval (r : Registers) (operand : Operand) (span : Span) : Except Fault Word :=
  match operand with
  | .immediate value => .ok value
  | .register name => r.read name span

@[simp] theorem get?_empty (name : String) : empty.get? name = none := by
  simp [empty, get?]

theorem get?_set (r : Registers) (name other : String) (value : Word) :
    (r.set name value).get? other = if name = other then some value else r.get? other := by
  simp [get?, set, Std.ExtTreeMap.getElem?_insert]

@[simp] theorem get?_set_self (r : Registers) (name : String) (value : Word) :
    (r.set name value).get? name = some value := by
  simp [get?_set]

theorem get?_set_of_ne (r : Registers) {name other : String} (h : name ≠ other) (value : Word) :
    (r.set name value).get? other = r.get? other := by
  simp [get?_set, h]

@[ext] theorem ext_get? {r t : Registers} (h : ∀ name, r.get? name = t.get? name) : r = t := by
  obtain ⟨v⟩ := r
  obtain ⟨w⟩ := t
  exact congrArg mk (Std.ExtTreeMap.ext_getElem? h)

end Registers

end RegAsm
