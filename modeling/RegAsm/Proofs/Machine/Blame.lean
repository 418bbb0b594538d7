import RegAsm.Machine.Effect
import RegAsm.Proofs.Fallible

namespace RegAsm

open Fallible

def Fault.BlamedAt (span : Span) (f : Fault) : Prop :=
  f.span? = some span ∨ ∃ max, f = .callDepthLimit max

variable {span : Span}

namespace Registers

lemma failsOnly_read (r : Registers) (name : String) :
    FailsOnly (Fault.BlamedAt span) (r.read name span) := by
  unfold read
  cases r.get? name with
  | none => exact .error (.inl rfl)
  | some value => exact .ok value

lemma failsOnly_eval (r : Registers) (o : Operand) :
    FailsOnly (Fault.BlamedAt span) (r.eval o span) := by
  cases o with
  | immediate value => exact .ok value
  | register name => exact r.failsOnly_read name

end Registers

lemma LabelTable.failsOnly_target (t : LabelTable) (name : String) :
    FailsOnly (Fault.BlamedAt span) (t.target name span) := by
  unfold target
  cases t.index? name with
  | none => exact .error (.inl rfl)
  | some index => exact .ok index

lemma Message.failsOnly_render {P : Fault → Prop} {value : Operand → Except Fault Word}
    (h : ∀ o, FailsOnly P (value o)) (ps : List MessagePart) : FailsOnly P (render value ps) := by
  induction ps with
  | nil => exact .ok ""
  | cons p ps ih =>
    cases p with
    | text content => exact ih.bind fun rest => .ok (content ++ rest)
    | value o => exact (h o).bind fun v => ih.bind fun rest => .ok (Word.text v ++ rest)

namespace Instruction

lemma failsOnly_compute (op : Arithmetic) (a b : Word) :
    FailsOnly (Fault.BlamedAt span) (compute op a b span) := by
  unfold compute
  cases op.eval? a b with
  | none => exact .error (.inl rfl)
  | some value => exact .ok value

lemma failsOnly_effect {target : String → Span → Except Fault Nat}
    (h : ∀ name, FailsOnly (Fault.BlamedAt span) (target name span)) (maxDepth : Option UInt64)
    (s : State) (i : Instruction) :
    FailsOnly (Fault.BlamedAt span) (i.effect target maxDepth span s) := by
  have hread : ∀ name, FailsOnly (Fault.BlamedAt span) (s.registers.read name span) :=
    s.registers.failsOnly_read
  have heval : ∀ o, FailsOnly (Fault.BlamedAt span) (s.registers.eval o span) :=
    s.registers.failsOnly_eval
  cases i with
  | mov dst src => exact (heval src).bind fun value => .ok _
  | inc reg | dec reg => exact (hread reg).bind fun value => .ok _
  | arith op dst src =>
    refine (hread dst).bind fun a => (heval src).bind fun b => ?_
    exact (failsOnly_compute op a b).bind fun value => .ok _
  | cmp lhs rhs => exact (heval lhs).bind fun a => (heval rhs).bind fun b => .ok _
  | jump cond label =>
    simp only [effect]
    split
    · exact (h label).bind fun index => .ok _
    · exact .ok _
  | call label =>
    refine (h label).bind fun index => ?_
    split
    · exact .error (.inr ⟨_, rfl⟩)
    · exact .ok _
  | ret =>
    simp only [effect]
    split
    · exact .error (.inl rfl)
    · exact .ok _
  | msg parts => exact (Message.failsOnly_render heval parts).bind fun text => .ok _
  | halt => exact .ok _

end Instruction

end RegAsm
