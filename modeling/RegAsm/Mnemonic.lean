namespace RegAsm

inductive Mnemonic where
  | mov | inc | dec | add | sub | mul | div | cmp
  | jmp | je | jne | jge | jg | jle | jl
  | call | ret | msg | halt
deriving DecidableEq, Repr

namespace Mnemonic

def all : List Mnemonic :=
  [mov, inc, dec, add, sub, mul, div, cmp, jmp, je, jne, jge, jg, jle, jl, call, ret, msg, halt]

def name : Mnemonic → String
  | mov => "mov"
  | inc => "inc"
  | dec => "dec"
  | add => "add"
  | sub => "sub"
  | mul => "mul"
  | div => "div"
  | cmp => "cmp"
  | jmp => "jmp"
  | je => "je"
  | jne => "jne"
  | jge => "jge"
  | jg => "jg"
  | jle => "jle"
  | jl => "jl"
  | call => "call"
  | ret => "ret"
  | msg => "msg"
  | halt => "end"

def ofName? (cs : List Char) : Option Mnemonic :=
  all.find? fun m => m.name.toList == cs.map Char.toLower

theorem mem_all (m : Mnemonic) : m ∈ all := by
  cases m <;> decide

theorem ofName?_name (m : Mnemonic) : ofName? m.name.toList = some m := by
  cases m <;> decide

theorem name_injective {m n : Mnemonic} (h : m.name = n.name) : m = n := by
  have := ofName?_name m
  rw [h, ofName?_name n] at this
  exact (Option.some.inj this).symm

end Mnemonic

end RegAsm
