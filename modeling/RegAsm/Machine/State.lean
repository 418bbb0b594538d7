import RegAsm.Limits
import RegAsm.Program
import RegAsm.Registers

/-! The state of the machine, and what instructions do to it. -/

namespace RegAsm

/-- The state of a run. `calls` holds the pending return addresses, newest first, and `steps`
counts the statements executed so far, which are meant to be fewer than 2 ^ 64. -/
structure State where
  registers : Registers := .empty
  flag : Ordering := .eq
  calls : List Nat := []
  pc : Nat := 0
  result : Option String := none
  steps : Nat := 0
  halted : Bool := false
deriving DecidableEq, Inhabited

inductive Flow where
  | next
  | jump (index : Nat)
  | halt
deriving DecidableEq, Repr

namespace State

def next (s : State) : State :=
  { s with pc := s.pc + 1 }

def count (s : State) : State :=
  { s with steps := s.steps + 1 }

def follow (s : State) : Flow → State
  | .next => s.next
  | .jump index => { s with pc := index }
  | .halt => { s with halted := true }

def assign (name : String) (value : Word) (s : State) : State :=
  { s with registers := s.registers.set name value }

def push (back : Nat) (s : State) : State :=
  { s with calls := back :: s.calls }

def pop (s : State) : Option Nat × State :=
  (s.calls.head?, { s with calls := s.calls.tail })

end State

namespace Instruction

def compute (op : Arithmetic) (a b : Word) (span : Span) : Except Fault Word :=
  match op.eval? a b with
  | some value => .ok value
  | none => .error (.divisionByZero span)

/-- Carries out an instruction and says where to go on. `target` says where the labels are, and
`span` is the place to blame for a fault. -/
def exec (target : String → Span → Except Fault Nat) (maxDepth : Option UInt64) (span : Span) :
    Instruction → EStateM Fault State Flow
  | mov dst src => do
    let value ← ofExcept ((← get).registers.eval src span)
    modify (·.assign dst value)
    return .next
  | inc reg => do
    let value ← ofExcept ((← get).registers.read reg span)
    modify (·.assign reg (value + 1))
    return .next
  | dec reg => do
    let value ← ofExcept ((← get).registers.read reg span)
    modify (·.assign reg (value - 1))
    return .next
  | arith op dst src => do
    let a ← ofExcept ((← get).registers.read dst span)
    let b ← ofExcept ((← get).registers.eval src span)
    let value ← ofExcept (compute op a b span)
    modify (·.assign dst value)
    return .next
  | cmp lhs rhs => do
    let a ← ofExcept ((← get).registers.eval lhs span)
    let b ← ofExcept ((← get).registers.eval rhs span)
    modify ({ · with flag := Word.order a b })
    return .next
  | jump cond label => do
    if cond.holds (← get).flag then
      let index ← ofExcept (target label span)
      return .jump index
    else return .next
  | call label => do
    let index ← ofExcept (target label span)
    let s ← get
    match Limits.reached? maxDepth s.calls.length with
    | some max => throw (.callDepthLimit max)
    | none =>
      set (s.push (s.pc + 1))
      return .jump index
  | ret => do
    -- an empty stack stays empty, so that a return without a call changes nothing
    let some back ← modifyGet State.pop | throw (.emptyCallStack span)
    return .jump back
  | msg parts => do
    let registers := (← get).registers
    let text ← ofExcept (Message.render (registers.eval · span) parts)
    modify ({ · with result := some text })
    return .next
  | halt => return .halt

end Instruction

end RegAsm
