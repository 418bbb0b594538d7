import RegAsm.Exchange
import RegAsm.Instruction

namespace RegAsm

open Exchange

instance : Exchange Span where
  toJson s := .record [("line", toJson s.line), ("col", toJson s.col)]
  ofJson? j := do
    let (line, col) ← j.field2? "line" "col"
    return ⟨← ofJson? line, ← ofJson? col⟩

instance : Exchange Operand where
  toJson
    | .immediate value => .variant "Immediate" (toJson value)
    | .register name => .variant "Register" (toJson name)
  ofJson? j :=
    match j.variant? with
    | some ("Immediate", some c) => (ofJson? c).map .immediate
    | some ("Register", some c) => (ofJson? c).map .register
    | _ => none

instance : Exchange MessagePart where
  toJson
    | .text content => .variant "Text" (toJson content)
    | .value operand => .variant "Value" (toJson operand)
  ofJson? j :=
    match j.variant? with
    | some ("Text", some c) => (ofJson? c).map .text
    | some ("Value", some c) => (ofJson? c).map .value
    | _ => none

def flagName : Ordering → String
  | .eq => "Equal"
  | .lt => "Less"
  | .gt => "Greater"

instance : Exchange Ordering :=
  ofNames [.eq, .lt, .gt] flagName

def Condition.label : Condition → String
  | always => "Always"
  | equal => "Equal"
  | notEqual => "NotEqual"
  | greater => "Greater"
  | greaterEqual => "GreaterEqual"
  | less => "Less"
  | lessEqual => "LessEqual"

instance : Exchange Condition :=
  ofNames [.always, .equal, .notEqual, .greater, .greaterEqual, .less, .lessEqual] Condition.label

def Mnemonic.label (m : Mnemonic) : String :=
  match m.name.toList with
  | [] => ""
  | c :: cs => String.ofList (c.toUpper :: cs)

instance : Exchange Mnemonic :=
  ofNames Mnemonic.all Mnemonic.label

instance : Exchange Arithmetic :=
  ofNames [.add, .sub, .mul, .div] fun op => op.mnemonic.label

instance : Exchange Instruction where
  toJson
    | .mov dst src => .variant "Mov" (.record [("dst", toJson dst), ("src", toJson src)])
    | .inc reg => .variant "Inc" (toJson reg)
    | .dec reg => .variant "Dec" (toJson reg)
    | .arith op dst src =>
      .variant "Arith" (.record [("op", toJson op), ("dst", toJson dst), ("src", toJson src)])
    | .cmp lhs rhs => .variant "Cmp" (.record [("lhs", toJson lhs), ("rhs", toJson rhs)])
    | .jump cond label =>
      .variant "Jump" (.record [("cond", toJson cond), ("label", toJson label)])
    | .call label => .variant "Call" (toJson label)
    | .ret => toJson "Ret"
    | .msg parts => .variant "Msg" (toJson parts)
    | .halt => toJson "End"
  ofJson? j :=
    match j.variant? with
    | some ("Mov", some c) => do
      let (dst, src) ← c.field2? "dst" "src"
      return .mov (← ofJson? dst) (← ofJson? src)
    | some ("Inc", some c) => (ofJson? c).map .inc
    | some ("Dec", some c) => (ofJson? c).map .dec
    | some ("Arith", some c) => do
      let (op, dst, src) ← c.field3? "op" "dst" "src"
      return .arith (← ofJson? op) (← ofJson? dst) (← ofJson? src)
    | some ("Cmp", some c) => do
      let (lhs, rhs) ← c.field2? "lhs" "rhs"
      return .cmp (← ofJson? lhs) (← ofJson? rhs)
    | some ("Jump", some c) => do
      let (cond, label) ← c.field2? "cond" "label"
      return .jump (← ofJson? cond) (← ofJson? label)
    | some ("Call", some c) => (ofJson? c).map .call
    | some ("Msg", some c) => (ofJson? c).map .msg
    | _ =>
      match j.name? with
      | some "Ret" => some .ret
      | some "End" => some .halt
      | _ => none

instance : Exchange Statement where
  toJson
    | .label name span => .variant "Label" (.record [("name", toJson name), ("span", toJson span)])
    | .instruction i span =>
      .variant "Instruction" (.record [("instruction", toJson i), ("span", toJson span)])
  ofJson? j :=
    match j.variant? with
    | some ("Label", some c) => do
      let (name, span) ← c.field2? "name" "span"
      return .label (← ofJson? name) (← ofJson? span)
    | some ("Instruction", some c) => do
      let (i, span) ← c.field2? "instruction" "span"
      return .instruction (← ofJson? i) (← ofJson? span)
    | _ => none

end RegAsm
