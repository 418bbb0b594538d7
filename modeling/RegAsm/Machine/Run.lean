import RegAsm.Machine.State

namespace RegAsm

inductive Step where
  | ran
  | halted
  | fellOff
  | fault (f : Fault)
deriving DecidableEq, Repr

inductive Outcome where
  | output (text : String)
  | fellOff
  | fault (f : Fault)
deriving DecidableEq, Repr

def Step.outcome? (s : State) : Step → Option Outcome
  | ran => none
  | halted => some (.output (s.result.getD ""))
  | fellOff => some .fellOff
  | fault f => some (.fault f)

def Step.ofResult : EStateM.Result Fault State Flow → Step × State
  | .error f s => (fault f, s)
  | .ok .halt s => (halted, s.follow .halt)
  | .ok flow s => (ran, s.follow flow)

namespace Machine

variable (p : Program) (limits : Limits)

def execute (s : State) : Statement → Step × State
  | .label _ _ => (.ran, s.next)
  | .instruction i span =>
    Step.ofResult ((i.exec p.labels.target limits.maxCallDepth span).run s)

def step (s : State) : Step × State :=
  if s.halted then (.halted, s)
  else
    match p.statements[s.pc]? with
    | none => (.fellOff, s)
    | some statement =>
      -- a step that is refused for the count is not counted itself
      match Limits.reached? limits.maxSteps s.steps with
      | some max => (.fault (.stepLimit max), s)
      | none => execute p limits s.count statement

def advance : Nat → State → Step × State
  | 0, s => (.ran, s)
  | n + 1, s =>
    match step p limits s with
    | (.ran, t) => advance n t
    | (answer, t) => (answer, t)

def run (budget : Nat) (s : State) : Option (Outcome × State) :=
  let (answer, t) := advance p limits budget s
  (answer.outcome? t).map (·, t)

end Machine

end RegAsm
