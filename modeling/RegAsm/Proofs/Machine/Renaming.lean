import Mathlib.Data.List.Nodup
import Mathlib.Logic.Embedding.Basic
import RegAsm.Proofs.Labels
import RegAsm.Proofs.Machine.Nesting

namespace RegAsm

structure Renaming where
  register : String ↪ String
  label : String ↪ String

variable (ρ : Renaming)

def Operand.rename : Operand → Operand
  | immediate value => .immediate value
  | register name => .register (ρ.register name)

def MessagePart.rename : MessagePart → MessagePart
  | text content => .text content
  | value operand => .value (operand.rename ρ)

def Instruction.rename : Instruction → Instruction
  | mov dst src => .mov (ρ.register dst) (src.rename ρ)
  | inc reg => .inc (ρ.register reg)
  | dec reg => .dec (ρ.register reg)
  | arith op dst src => .arith op (ρ.register dst) (src.rename ρ)
  | cmp lhs rhs => .cmp (lhs.rename ρ) (rhs.rename ρ)
  | jump cond label => .jump cond (ρ.label label)
  | call label => .call (ρ.label label)
  | ret => .ret
  | msg parts => .msg (parts.map (MessagePart.rename ρ))
  | halt => .halt

def Statement.rename : Statement → Statement
  | label name span => .label (ρ.label name) span
  | instruction i span => .instruction (i.rename ρ) span

def Fault.rename : Fault → Fault
  | duplicateLabel label span first => .duplicateLabel (ρ.label label) span first
  | undefinedRegister register span => .undefinedRegister (ρ.register register) span
  | undefinedLabel label span => .undefinedLabel (ρ.label label) span
  | f => f

def Effect.rename : Effect → Effect
  | assign name value => .assign (ρ.register name) value
  | e => e

def Step.rename : Step → Step
  | fault f => .fault (f.rename ρ)
  | answer => answer

structure Registers.Renamed (r t : Registers) : Prop where
  value : ∀ name, t.get? (ρ.register name) = r.get? name
  only : ∀ name, t.get? name ≠ none → ∃ old, ρ.register old = name

structure State.Renamed (s t : State) : Prop where
  registers : s.registers.Renamed ρ t.registers
  flag : t.flag = s.flag
  calls : t.calls = s.calls
  pc : t.pc = s.pc
  result : t.result = s.result
  steps : t.steps = s.steps
  halted : t.halted = s.halted

def Program.Renamed (p q : Program) : Prop :=
  ∀ i : Nat, q.statements[i]? = (p.statements[i]?).map (Statement.rename ρ)

variable {ρ}

namespace Registers.Renamed

variable {r t : Registers}

lemma empty : Renamed ρ .empty .empty where
  value name := by rw [get?_empty, get?_empty]
  only name h := (h (get?_empty name)).elim

lemma set (h : r.Renamed ρ t) (name : String) (value : Word) :
    (r.set name value).Renamed ρ (t.set (ρ.register name) value) where
  value other := by
    simp only [get?_set, h.value, ρ.register.injective.eq_iff]
  only other ho := by
    by_cases he : ρ.register name = other
    · exact ⟨name, he⟩
    · rw [get?_set_of_ne t he] at ho
      exact h.only other ho

variable (h : r.Renamed ρ t) (span : Span)
include h

lemma read (name : String) :
    t.read (ρ.register name) span = (r.read name span).mapError (Fault.rename ρ) := by
  rw [Registers.read, Registers.read, h.value]
  cases r.get? name <;> rfl

lemma eval (o : Operand) :
    t.eval (o.rename ρ) span = (r.eval o span).mapError (Fault.rename ρ) := by
  cases o with
  | immediate value => rfl
  | register name => exact h.read span name

lemma render (ps : List MessagePart) :
    Message.render (t.eval · span) (ps.map (MessagePart.rename ρ)) =
      (Message.render (r.eval · span) ps).mapError (Fault.rename ρ) := by
  induction ps with
  | nil => rfl
  | cons p ps ih =>
    cases p with
    | text content =>
      simp only [List.map_cons, MessagePart.rename, Message.render, ih]
      cases Message.render (r.eval · span) ps <;> rfl
    | value o =>
      simp only [List.map_cons, MessagePart.rename, Message.render, ih, h.eval]
      cases r.eval o span with
      | error f => rfl
      | ok v => cases Message.render (r.eval · span) ps <;> rfl

end Registers.Renamed

namespace State.Renamed

variable {s t : State}

lemma initial : Renamed ρ {} {} :=
  ⟨.empty, rfl, rfl, rfl, rfl, rfl, rfl⟩

lemma next (h : s.Renamed ρ t) : s.next.Renamed ρ t.next :=
  { h with pc := congrArg (· + 1) h.pc }

lemma count (h : s.Renamed ρ t) : s.count.Renamed ρ t.count :=
  { h with steps := congrArg (· + 1) h.steps }

lemma apply (h : s.Renamed ρ t) (e : Effect) : (s.apply e).Renamed ρ (t.apply (e.rename ρ)) := by
  cases e with
  | pass => exact h.next
  | assign name value => exact next { h with registers := h.registers.set name value }
  | compare flag => exact next { h with flag := rfl }
  | say text => exact next { h with result := rfl }
  | goto index => exact { h with pc := rfl }
  | call index =>
    have hcalls : (t.pc + 1) :: t.calls = (s.pc + 1) :: s.calls := by rw [h.pc, h.calls]
    exact { h with calls := hcalls, pc := rfl }
  | ret index => exact { h with calls := congrArg List.tail h.calls, pc := rfl }
  | halt => exact { h with halted := rfl }

end State.Renamed

lemma Instruction.assign_compute_rename (op : Arithmetic) (dst : String) (a b : Word)
    (span : Span) :
    (do return Effect.assign (ρ.register dst) (← compute op a b span)) =
      Except.mapError (Fault.rename ρ)
        (Except.map (Effect.rename ρ)
          (do return Effect.assign dst (← compute op a b span))) := by
  unfold compute
  cases op.eval? a b <;> rfl

lemma Instruction.effect_rename {target other : String → Span → Except Fault Nat} {span : Span}
    {s t : State} (h : s.Renamed ρ t)
    (ht : ∀ name, other (ρ.label name) span = (target name span).mapError (Fault.rename ρ))
    (maxDepth : Option UInt64) (i : Instruction) :
    (i.rename ρ).effect other maxDepth span t =
      ((i.effect target maxDepth span s).map (Effect.rename ρ)).mapError (Fault.rename ρ) := by
  have hread := h.registers.read span
  have heval := h.registers.eval span
  cases i with
  | mov dst src =>
    simp only [rename, effect, heval]
    cases s.registers.eval src span <;> rfl
  | inc reg | dec reg =>
    simp only [rename, effect, hread]
    cases s.registers.read reg span <;> rfl
  | arith op dst src =>
    simp only [rename, effect, hread, heval]
    cases s.registers.read dst span with
    | error f => rfl
    | ok a =>
      cases s.registers.eval src span with
      | error f => rfl
      | ok b => exact assign_compute_rename op dst a b span
  | cmp lhs rhs =>
    simp only [rename, effect, heval]
    cases s.registers.eval lhs span with
    | error f => rfl
    | ok a => cases s.registers.eval rhs span <;> rfl
  | jump cond label =>
    simp only [rename, effect, h.flag, ht]
    split
    · cases target label span <;> rfl
    · rfl
  | call label =>
    simp only [rename, effect, h.calls, ht]
    cases target label span with
    | error f => rfl
    | ok index => cases Limits.reached? maxDepth s.calls.length <;> rfl
  | ret =>
    simp only [rename, effect, h.calls]
    cases s.calls <;> rfl
  | msg parts =>
    simp only [rename, effect, h.registers.render]
    cases Message.render (s.registers.eval · span) parts <;> rfl
  | halt => rfl

lemma Statement.declared_rename (ss : List Statement) :
    declared (ss.map (rename ρ)) = (declared ss).map ρ.label := by
  induction ss with
  | nil => rfl
  | cons s ss ih => cases s <;> simp [rename, ih]

namespace Program

variable {p q : Program}

lemma renamed_of_statements
    (h : q.statements.toList = p.statements.toList.map (Statement.rename ρ)) : p.Renamed ρ q := by
  intro i
  rw [← Array.getElem?_toList, h, List.getElem?_map, Array.getElem?_toList]

lemma exists_rename (ρ : Renaming) (p : Program) :
    ∃ q : Program, q.statements.toList = p.statements.toList.map (Statement.rename ρ) := by
  rw [exists_statements_iff, Statement.declared_rename]
  exact List.Nodup.map ρ.label.injective (exists_statements_iff.mp ⟨p, rfl⟩)

lemma Renamed.index? (h : p.Renamed ρ q) (name : String) :
    q.labels.index? (ρ.label name) = p.labels.index? name := by
  apply Option.ext
  intro i
  rw [index?_eq_some_iff, index?_eq_some_iff, h i]
  cases p.statements[i]? with
  | none => simp
  | some s => cases s <;> simp [Statement.rename]

lemma Renamed.target (h : p.Renamed ρ q) (name : String) (span : Span) :
    q.labels.target (ρ.label name) span =
      (p.labels.target name span).mapError (Fault.rename ρ) := by
  rw [LabelTable.target, LabelTable.target, h.index?]
  cases p.labels.index? name <;> rfl

end Program

namespace Machine

variable {p q : Program} (h : p.Renamed ρ q) (limits : Limits)
include h

lemma execute_rename {s t : State} (hs : s.Renamed ρ t) (statement : Statement) :
    (execute q limits t (statement.rename ρ)).1 =
        (execute p limits s statement).1.rename ρ ∧
      (execute p limits s statement).2.Renamed ρ (execute q limits t (statement.rename ρ)).2 := by
  cases statement with
  | label name span => exact ⟨rfl, hs.next⟩
  | instruction i span =>
    simp only [Statement.rename, execute_instruction]
    rw [Instruction.effect_rename hs fun name => h.target name span]
    cases i.effect p.labels.target limits.maxCallDepth span s with
    | error f => exact ⟨rfl, hs⟩
    | ok e =>
      have he := hs.apply e
      cases e <;> exact ⟨rfl, he⟩

lemma step_rename {s t : State} (hs : s.Renamed ρ t) :
    (step q limits t).1 = (step p limits s).1.rename ρ ∧
      (step p limits s).2.Renamed ρ (step q limits t).2 := by
  unfold step
  rw [hs.halted, hs.pc, hs.steps, h s.pc]
  split
  · exact ⟨rfl, hs⟩
  · cases p.statements[s.pc]? with
    | none => exact ⟨rfl, hs⟩
    | some statement =>
      cases Limits.reached? limits.maxSteps s.steps with
      | some max => exact ⟨rfl, hs⟩
      | none => exact execute_rename h limits hs.count statement

lemma after_rename {s t : State} (hs : s.Renamed ρ t) (n : Nat) :
    (after p limits n s).Renamed ρ (after q limits n t) := by
  induction n with
  | zero => exact hs
  | succ n ih =>
    rw [after_succ, after_succ]
    exact (step_rename h limits ih).2

end Machine

open Machine in
/-- The renamed program exists, and step by step it answers what the program answers and is in the
same state, up to the new names. -/
theorem renamed_program_runs_alike (ρ : Renaming) (p : Program) :
    ∃ q, Program.ofStatements (p.statements.toList.map (Statement.rename ρ)) = .ok q ∧
      ∀ limits n,
        (after p limits n {}).Renamed ρ (after q limits n {}) ∧
        (step q limits (after q limits n {})).1 =
          (step p limits (after p limits n {})).1.rename ρ := by
  obtain ⟨q, hq⟩ := p.exists_rename ρ
  have hr : p.Renamed ρ q := Program.renamed_of_statements hq
  refine ⟨q, Program.ofStatements_eq_ok_iff.mpr hq, fun limits n => ?_⟩
  have hn := after_rename hr limits .initial n
  exact ⟨hn, (step_rename hr limits hn).1⟩

end RegAsm
