import RegAsm.Json.Reader
import RegAsm.Word

/-! Values that are exchanged as JSON. -/

namespace RegAsm

class Exchange (α : Type) where
  toJson : α → Json
  ofJson? : Json → Option α

namespace Exchange

variable {α : Type}

def print [Exchange α] (a : α) : String :=
  (toJson a).print

def parse? [Exchange α] (s : String) : Option α :=
  (Json.read? s.toList).bind ofJson?

instance : Exchange String where
  toJson s := .text (some s)
  ofJson?
    | .text content => content
    | _ => none

instance : Exchange Word where
  toJson w := .int w.toInt
  ofJson?
    | .int n => Word.ofInt? n
    | _ => none

instance : Exchange UInt32 where
  toJson n := .int n.toNat
  ofJson?
    | .int n => if 0 ≤ n ∧ n.toNat < UInt32.size then some (UInt32.ofNat n.toNat) else none
    | _ => none

instance : Exchange UInt64 where
  toJson n := .int n.toNat
  ofJson?
    | .int n => if 0 ≤ n ∧ n.toNat < UInt64.size then some (UInt64.ofNat n.toNat) else none
    | _ => none

instance [Exchange α] : Exchange (Option α) where
  toJson
    | some a => toJson a
    | none => .null
  ofJson?
    | .null => some none
    | j => (ofJson? j).map some

instance [Exchange α] : Exchange (List α) where
  toJson as := .array (as.map toJson)
  ofJson?
    | .array items => items.mapM ofJson?
    | _ => none

end Exchange

namespace Json

def record (fields : List (String × Json)) : Json :=
  .object (fields.map fun (name, value) => (some name, value))

def variant (name : String) (content : Json) : Json :=
  record [(name, content)]

def member? (name : String) (members : List (Option String × Json)) : Option (Option Json) :=
  match members.filter (·.1 == some name) with
  | [] => some none
  | [(_, value)] => some (some value)
  | _ => none

/-- The fields of a record, each of which may be missing. They are given by name, with any others
between them, or all in order. -/
def fields? (names : List String) : Json → Option (List (Option Json))
  | .object members =>
    if members.all (·.1.isSome) then names.mapM (member? · members) else none
  | .array items => if items.length = names.length then some (items.map some) else none
  | _ => none

def field1? (a : String) (j : Json) : Option Json :=
  match j.fields? [a] with
  | some [some x] => some x
  | _ => none

def field2? (a b : String) (j : Json) : Option (Json × Json) :=
  match j.fields? [a, b] with
  | some [some x, some y] => some (x, y)
  | _ => none

def field3? (a b c : String) (j : Json) : Option (Json × Json × Json) :=
  match j.fields? [a, b, c] with
  | some [some x, some y, some z] => some (x, y, z)
  | _ => none

def variant? : Json → Option (String × Option Json)
  | .text content => content.map (·, none)
  | .object [(name, value)] => name.map (·, some value)
  | _ => none

/-- A kind without content is written as a name, and read also with the content `null`. -/
def name? (j : Json) : Option String :=
  match j.variant? with
  | some (name, none) => some name
  | some (name, some .null) => some name
  | _ => none

end Json

abbrev Exchange.ofNames {α : Type} (all : List α) (name : α → String) : Exchange α where
  toJson a := .text (some (name a))
  ofJson? j := j.name?.bind fun n => all.find? (name · == n)

end RegAsm
