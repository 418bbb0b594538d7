import RegAsm.Proofs.Labels
import RegAsm.Proofs.Machine.Runs

/-! Places matter to nothing but faults: programs run alike if their statements differ in places
only. -/

namespace RegAsm

def Fault.unplaced : Fault → Fault
  | duplicateLabel label _ _ => .duplicateLabel label default default
  | undefinedRegister register _ => .undefinedRegister register default
  | undefinedLabel label _ => .undefinedLabel label default
  | divisionByZero _ => .divisionByZero default
  | emptyCallStack _ => .emptyCallStack default
  | malformedOperand operand _ => .malformedOperand operand default
  | unknownMnemonic mnemonic _ => .unknownMnemonic mnemonic default
  | invalidOperands detail _ => .invalidOperands detail default
  | illFormed detail _ => .illFormed detail default
  | limitExceeded resource limit => .limitExceeded resource limit

def Step.unplaced : Step → Step
  | fault f => .fault f.unplaced
  | answer => answer

def Outcome.unplaced : Outcome → Outcome
  | fault f => .fault f.unplaced
  | outcome => outcome

def Statement.placed (span : Span) : Statement → Statement
  | label name _ => .label name span
  | instruction i _ => .instruction i span

@[simp] lemma Statement.placed_placed (s : Statement) (span place : Span) :
    (s.placed span).placed place = s.placed place := by
  cases s <;> rfl

lemma Statement.declared_placed (place : Nat → Span) (ss : List Statement) :
    declared (ss.mapIdx fun k s => s.placed (place k)) = declared ss := by
  induction ss generalizing place with
  | nil => rfl
  | cons s ss ih =>
    rw [List.mapIdx_cons]
    cases s with
    | label name span => rw [placed, declared_label, declared_label, ih]
    | instruction i span => rw [placed, declared_instruction, declared_instruction, ih]

inductive Agree {α : Type} : Except Fault α → Except Fault α → Prop
  | ok (a : α) : Agree (.ok a) (.ok a)
  | error {f g : Fault} : f.unplaced = g.unplaced → Agree (.error f) (.error g)

lemma Agree.bind {α β : Type} {x y : Except Fault α} {f g : α → Except Fault β} (h : Agree x y)
    (hfg : ∀ a, Agree (f a) (g a)) : Agree (x >>= f) (y >>= g) := by
  cases h with
  | ok a => exact hfg a
  | error he => exact .error he

lemma Agree.map {α β : Type} {x y : Except Fault α} (f : α → β) (h : Agree x y) :
    Agree (x.map f) (y.map f) := by
  cases h with
  | ok a => exact .ok (f a)
  | error he => exact .error he

variable {span place : Span}

namespace Registers

lemma agree_read (r : Registers) (name : String) :
    Agree (r.read name span) (r.read name place) := by
  unfold read
  cases r.get? name with
  | none => exact .error rfl
  | some value => exact .ok value

lemma agree_eval (r : Registers) (o : Operand) : Agree (r.eval o span) (r.eval o place) := by
  cases o with
  | immediate value => exact .ok value
  | register name => exact r.agree_read name

end Registers

lemma Message.agree_render {value other : Operand → Except Fault Word}
    (h : ∀ o, Agree (value o) (other o)) (ps : List MessagePart) :
    Agree (render value ps) (render other ps) := by
  induction ps with
  | nil => exact .ok ""
  | cons p ps ih =>
    cases p with
    | text content => exact ih.bind fun rest => .ok (content ++ rest)
    | value o => exact (h o).bind fun v => ih.bind fun rest => .ok (Word.text v ++ rest)

namespace Instruction

lemma agree_compute (op : Arithmetic) (a b : Word) :
    Agree (compute op a b span) (compute op a b place) := by
  unfold compute
  cases op.eval? a b with
  | none => exact .error rfl
  | some value => exact .ok value

lemma agree_effect {target other : String → Span → Except Fault Nat}
    (h : ∀ name, Agree (target name span) (other name place)) (maxDepth : Option UInt64) (s : State)
    (i : Instruction) :
    Agree (i.effect target maxDepth span s) (i.effect other maxDepth place s) := by
  have hread : ∀ name, Agree (s.registers.read name span) (s.registers.read name place) :=
    s.registers.agree_read
  have heval : ∀ o, Agree (s.registers.eval o span) (s.registers.eval o place) :=
    s.registers.agree_eval
  cases i with
  | mov dst src => exact (heval src).bind fun value => .ok _
  | inc reg | dec reg => exact (hread reg).bind fun value => .ok _
  | arith op dst src =>
    refine (hread dst).bind fun a => (heval src).bind fun b => ?_
    exact (agree_compute op a b).bind fun value => .ok _
  | cmp lhs rhs => exact (heval lhs).bind fun a => (heval rhs).bind fun b => .ok _
  | jump cond label =>
    simp only [effect]
    split
    · exact (h label).bind fun index => .ok _
    · exact .ok _
  | call label =>
    refine (h label).bind fun index => ?_
    split
    · exact .error rfl
    · exact .ok _
  | ret =>
    simp only [effect]
    split
    · exact .error rfl
    · exact .ok _
  | msg parts => exact (Message.agree_render heval parts).bind fun text => .ok _
  | halt => exact .ok _

end Instruction

def Program.SameCode (p q : Program) : Prop :=
  ∀ i : Nat, (p.statements[i]?).map (Statement.placed default) =
    (q.statements[i]?).map (Statement.placed default)

namespace Program

variable {p q : Program}

lemma sameCode_of_placed {place : Nat → Span}
    (h : p.statements.toList = q.statements.toList.mapIdx fun k s => s.placed (place k)) :
    SameCode p q := by
  intro i
  rw [← Array.getElem?_toList, h, List.getElem?_mapIdx, Option.map_map, ← Array.getElem?_toList]
  congr 1
  funext s
  simp

lemma isLabel_iff {o : Option Statement} {name : String} :
    (∃ span, o = some (.label name span)) ↔
      o.map (Statement.placed default) = some (.label name default) := by
  cases o with
  | none => simp
  | some s => cases s <;> simp [Statement.placed]

lemma SameCode.index? (h : SameCode p q) (name : String) :
    p.labels.index? name = q.labels.index? name := by
  apply Option.ext
  intro i
  rw [index?_eq_some_iff, index?_eq_some_iff, isLabel_iff, isLabel_iff, h i]

lemma SameCode.target (h : SameCode p q) (name : String) :
    Agree (p.labels.target name span) (q.labels.target name place) := by
  unfold LabelTable.target
  rw [h.index? name]
  cases q.labels.index? name with
  | none => exact .error rfl
  | some index => exact .ok index

end Program

lemma Step.unplaced_eq_ran_iff {answer : Step} : answer.unplaced = .ran ↔ answer = .ran := by
  cases answer <;> simp [unplaced]

namespace Machine

lemma run_unplaced (p : Program) (limits : Limits) (budget : Nat) (s : State) :
    (run p limits budget s).map (Prod.map Outcome.unplaced id) =
      let r := Prod.map Step.unplaced id (advance p limits budget s)
      (r.1.outcome? r.2).map (·, r.2) := by
  rw [run]
  generalize advance p limits budget s = r
  obtain ⟨answer, t⟩ := r
  cases answer <;> rfl

variable {p q : Program} (h : p.SameCode q) (limits : Limits)
include h

lemma execute_agree (s : State) {a b : Statement} (hab : a.placed default = b.placed default) :
    Prod.map Step.unplaced id (execute p limits s a) =
      Prod.map Step.unplaced id (execute q limits s b) := by
  cases a with
  | label name span =>
    cases b with
    | label => rfl
    | instruction => cases hab
  | instruction i span =>
    cases b with
    | label => cases hab
    | instruction j place =>
      obtain ⟨rfl, -⟩ := Statement.instruction.inj hab
      have he : Agree (i.effect p.labels.target limits.maxCallDepth span s)
          (i.effect q.labels.target limits.maxCallDepth place s) :=
        Instruction.agree_effect h.target _ s i
      simp only [execute_instruction]
      generalize i.effect p.labels.target limits.maxCallDepth span s = x at he
      generalize i.effect q.labels.target limits.maxCallDepth place s = y at he
      cases he with
      | ok e => cases e <;> rfl
      | error hf => simp [Step.ofEffect, Step.unplaced, hf]

lemma step_agree (s : State) :
    Prod.map Step.unplaced id (step p limits s) = Prod.map Step.unplaced id (step q limits s) := by
  unfold step
  by_cases hh : s.halted = true
  · simp [hh]
  · have hs := h s.pc
    simp only [hh]
    cases hp : p.statements[s.pc]? with
    | none =>
      cases hq : q.statements[s.pc]? with
      | none => rfl
      | some b => simp [hp, hq] at hs
    | some a =>
      cases hq : q.statements[s.pc]? with
      | none => simp [hp, hq] at hs
      | some b =>
        simp only [hp, hq, Option.map_some, Option.some.injEq] at hs
        cases Limits.reached? limits.maxSteps s.steps with
        | none => exact execute_agree h limits _ hs
        | some max => rfl

lemma advance_agree (n : Nat) (s : State) :
    Prod.map Step.unplaced id (advance p limits n s) =
      Prod.map Step.unplaced id (advance q limits n s) := by
  induction n generalizing s with
  | zero => rfl
  | succ n ih =>
    have hs := step_agree h limits s
    obtain ⟨ha, ht⟩ : (step p limits s).1.unplaced = (step q limits s).1.unplaced ∧
        (step p limits s).2 = (step q limits s).2 := Prod.ext_iff.mp hs
    have hran : (step p limits s).1 = .ran ↔ (step q limits s).1 = .ran := by
      rw [← Step.unplaced_eq_ran_iff, ha, Step.unplaced_eq_ran_iff]
    obtain ⟨t, hp⟩ | hn := ran_or_stopped (step p limits s)
    · have hq : step q limits s = (.ran, t) :=
        Prod.ext (hran.mp (congrArg Prod.fst hp)) (ht.symm.trans (congrArg Prod.snd hp))
      rw [advance_succ_of_ran hp, advance_succ_of_ran hq, ih]
    · rw [advance_succ_of_ne_ran hn, advance_succ_of_ne_ran (hn ∘ hran.mpr), hs]

theorem run_agree (budget : Nat) (s : State) :
    (run p limits budget s).map (Prod.map Outcome.unplaced id) =
      (run q limits budget s).map (Prod.map Outcome.unplaced id) := by
  rw [run_unplaced, run_unplaced, advance_agree h]

end Machine

end RegAsm
