import RegAsm.Machine.Run

namespace RegAsm

/-- What an instruction comes to, once its operands and its label have been looked up. -/
inductive Effect where
  | pass
  | assign (name : String) (value : Word)
  | compare (flag : Ordering)
  | say (text : String)
  | goto (index : Nat)
  | call (index : Nat)
  | ret (index : Nat)
  | halt
deriving DecidableEq, Repr

namespace State

def apply (s : State) : Effect → State
  | .pass => s.next
  | .assign name value => { s with registers := s.registers.set name value }.next
  | .compare flag => { s with flag }.next
  | .say text => { s with result := some text }.next
  | .goto index => { s with pc := index }
  | .call index => { s with calls := (s.pc + 1) :: s.calls, pc := index }
  | .ret index => { s with calls := s.calls.tail, pc := index }
  | .halt => { s with halted := true }

@[simp] theorem apply_steps (s : State) (e : Effect) : (s.apply e).steps = s.steps := by
  cases e <;> rfl

end State

namespace Instruction

def effect (target : String → Span → Except Fault Nat) (maxDepth : Option UInt64) (span : Span)
    (s : State) : Instruction → Except Fault Effect
  | mov dst src => do
    let value ← s.registers.eval src span
    return .assign dst value
  | inc reg => do
    let value ← s.registers.read reg span
    return .assign reg (value + 1)
  | dec reg => do
    let value ← s.registers.read reg span
    return .assign reg (value - 1)
  | arith op dst src => do
    let a ← s.registers.read dst span
    let b ← s.registers.eval src span
    let value ← compute op a b span
    return .assign dst value
  | cmp lhs rhs => do
    let a ← s.registers.eval lhs span
    let b ← s.registers.eval rhs span
    return .compare (Word.order a b)
  | jump cond label => do
    if cond.holds s.flag then
      let index ← target label span
      return .goto index
    else return .pass
  | call label => do
    let index ← target label span
    match Limits.reached? maxDepth s.calls.length with
    | some max => throw (.callDepthLimit max)
    | none => return .call index
  | ret =>
    match s.calls with
    | [] => .error (.emptyCallStack span)
    | back :: _ => .ok (.ret back)
  | msg parts => do
    let text ← Message.render (s.registers.eval · span) parts
    return .say text
  | halt => .ok .halt

end Instruction

namespace Step

def ofEffect (s : State) : Except Fault Effect → Step × State
  | .error f => (.fault f, s)
  | .ok .halt => (.halted, s.apply .halt)
  | .ok e => (.ran, s.apply e)

variable {α : Type} {s : State}

theorem ofResult_get {k : State → EStateM Fault State Flow} :
    ofResult ((get >>= k).run s) = ofResult ((k s).run s) :=
  rfl

theorem ofResult_bind {x : Except Fault α} {k : α → EStateM Fault State Flow}
    {e : α → Except Fault Effect} (h : ∀ a, ofResult ((k a).run s) = ofEffect s (e a)) :
    ofResult ((ofExcept x >>= k).run s) = ofEffect s (x >>= e) := by
  cases x with
  | error f => rfl
  | ok a => exact h a

theorem ofResult_exec (target : String → Span → Except Fault Nat) (maxDepth : Option UInt64)
    (span : Span) (s : State) (i : Instruction) :
    ofResult ((i.exec target maxDepth span).run s) =
      ofEffect s (i.effect target maxDepth span s) := by
  -- whatever can fail is looked up before the state changes, so every case begins with look-ups
  cases i with
  | mov dst src => exact ofResult_bind fun value => rfl
  | inc reg => exact ofResult_bind fun value => rfl
  | dec reg => exact ofResult_bind fun value => rfl
  | arith op dst src =>
    exact ofResult_bind fun a => ofResult_bind fun b => ofResult_bind fun value => rfl
  | cmp lhs rhs => exact ofResult_bind fun a => ofResult_bind fun b => rfl
  | jump cond label =>
    simp only [Instruction.exec, Instruction.effect, ofResult_get]
    split
    · exact ofResult_bind fun index => rfl
    · rfl
  | call label =>
    apply ofResult_bind
    intro index
    rw [ofResult_get]
    cases Limits.reached? maxDepth s.calls.length <;> rfl
  | ret =>
    obtain ⟨_, _, _ | ⟨back, rest⟩, _, _, _, _⟩ := s
    · rfl
    · rfl
  | msg parts => exact ofResult_bind fun text => rfl
  | halt => rfl

end Step

namespace Machine

variable (p : Program) (limits : Limits) (s : State)

theorem execute_instruction (i : Instruction) (span : Span) :
    execute p limits s (.instruction i span) =
      Step.ofEffect s (i.effect p.labels.target limits.maxCallDepth span s) :=
  Step.ofResult_exec _ _ span s i

theorem execute_steps (statement : Statement) :
    (execute p limits s statement).2.steps = s.steps := by
  cases statement with
  | label name span => rfl
  | instruction i span =>
    rw [execute_instruction]
    cases i.effect p.labels.target limits.maxCallDepth span s with
    | error f => rfl
    | ok e => cases e <;> rfl

end Machine

end RegAsm
