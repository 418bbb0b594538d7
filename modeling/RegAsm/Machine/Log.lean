import RegAsm.Machine.Run

namespace RegAsm

inductive Level where
  | debug
  | trace
deriving DecidableEq, Repr

inductive Record where
  | parsed (statements labels : Nat)
  | executing (pc : Nat) (span : Span) (instruction : Instruction)
  | halted (steps : Nat)
  | fellOff (pc steps : Nat)
deriving DecidableEq, Repr

namespace Record

def level : Record → Level
  | executing _ _ _ => .trace
  | _ => .debug

def message : Record → String
  | parsed statements labels =>
    "parsed " ++ Decimal.ofNat statements ++ " statements, " ++ Decimal.ofNat labels ++ " labels"
  | executing pc span instruction =>
    Text.padLeft 4 (Decimal.ofNat pc) ++ " [" ++ span.text ++ "] " ++ instruction.print
  | halted steps => "halted after " ++ Decimal.ofNat steps ++ " steps"
  | fellOff pc steps =>
    "fell off the program at pc " ++ Decimal.ofNat pc ++ " after " ++ Decimal.ofNat steps ++
      " steps"

def shownAt : Level → Record → Bool
  | .trace, _ => true
  | .debug, r => r.level == .debug

end Record

namespace Machine

variable (p : Program) (limits : Limits)

def attempt? (s : State) : Option Record :=
  if s.halted then none
  else
    match p.statements[s.pc]?, Limits.reached? limits.maxSteps s.steps with
    | some (.instruction i span), none => some (.executing s.pc span i)
    | _, _ => none

def advanceLogged : Nat → State → Array Record → Array Record × Step × State
  | 0, s, log => (log, .ran, s)
  | n + 1, s, log =>
    let log := log ++ (attempt? p limits s).toArray
    match step p limits s with
    | (.ran, t) => advanceLogged n t log
    | (answer, t) => (log, answer, t)

def closing (s : State) : Step → Option Record
  | .halted => some (.halted s.steps)
  | .fellOff => some (.fellOff s.pc s.steps)
  | _ => none

theorem advanceLogged_snd (n : Nat) (s : State) (log : Array Record) :
    (advanceLogged p limits n s log).2 = advance p limits n s := by
  induction n generalizing s log with
  | zero => rfl
  | succ n ih =>
    simp only [advanceLogged, advance]
    split <;> simp_all

end Machine

end RegAsm
