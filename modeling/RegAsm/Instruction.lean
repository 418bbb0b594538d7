import RegAsm.Word
import RegAsm.Span
import RegAsm.Mnemonic

namespace RegAsm

inductive Operand where
  | immediate (value : Word)
  | register (name : String)
deriving DecidableEq, Repr

inductive MessagePart where
  | text (content : String)
  | value (operand : Operand)
deriving DecidableEq, Repr

inductive Condition where
  | always | equal | notEqual | greater | greaterEqual | less | lessEqual
deriving DecidableEq, Repr

inductive Arithmetic where
  | add | sub | mul | div
deriving DecidableEq, Repr

inductive Instruction where
  | mov (dst : String) (src : Operand)
  | inc (reg : String)
  | dec (reg : String)
  | arith (op : Arithmetic) (dst : String) (src : Operand)
  | cmp (lhs rhs : Operand)
  | jump (cond : Condition) (label : String)
  | call (label : String)
  | ret
  | msg (parts : List MessagePart)
  | halt
deriving DecidableEq, Repr

inductive Statement where
  | label (name : String) (span : Span)
  | instruction (instruction : Instruction) (span : Span)
deriving DecidableEq, Repr

namespace Condition

def holds : Condition → Ordering → Bool
  | always, _ => true
  | equal, flag => flag.isEq
  | notEqual, flag => flag.isNe
  | greater, flag => flag.isGT
  | greaterEqual, flag => flag.isGE
  | less, flag => flag.isLT
  | lessEqual, flag => flag.isLE

def mnemonic : Condition → Mnemonic
  | always => .jmp
  | equal => .je
  | notEqual => .jne
  | greater => .jg
  | greaterEqual => .jge
  | less => .jl
  | lessEqual => .jle

end Condition

namespace Arithmetic

def mnemonic : Arithmetic → Mnemonic
  | add => .add
  | sub => .sub
  | mul => .mul
  | div => .div

/-- Wrapping arithmetic; the quotient is rounded toward zero, and there is none by zero. -/
def eval? (op : Arithmetic) (a b : Word) : Option Word :=
  match op with
  | add => some (a + b)
  | sub => some (a - b)
  | mul => some (a * b)
  | div => if b = 0 then none else some (a / b)

end Arithmetic

def Operand.print : Operand → String
  | immediate value => Word.text value
  | register name => name

def MessagePart.print : MessagePart → String
  | text content => "'" ++ content ++ "'"
  | value operand => operand.print

namespace Instruction

def mnemonic : Instruction → Mnemonic
  | mov _ _ => .mov
  | inc _ => .inc
  | dec _ => .dec
  | arith op _ _ => op.mnemonic
  | cmp _ _ => .cmp
  | jump cond _ => cond.mnemonic
  | call _ => .call
  | ret => .ret
  | msg _ => .msg
  | halt => .halt

def operands : Instruction → List String
  | mov dst src => [dst, src.print]
  | inc reg => [reg]
  | dec reg => [reg]
  | arith _ dst src => [dst, src.print]
  | cmp lhs rhs => [lhs.print, rhs.print]
  | jump _ label => [label]
  | call label => [label]
  | ret => []
  | msg parts => parts.map MessagePart.print
  | halt => []

def print (i : Instruction) : String :=
  match i.operands with
  | [] => i.mnemonic.name
  | operands => i.mnemonic.name ++ " " ++ ", ".intercalate operands

end Instruction

namespace Statement

def span : Statement → Span
  | label _ span => span
  | instruction _ span => span

def print : Statement → String
  | label name _ => name ++ ":"
  | instruction i _ => i.print

end Statement

end RegAsm
