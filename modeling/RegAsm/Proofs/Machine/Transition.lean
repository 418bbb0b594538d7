import RegAsm.Machine.Effect
import RegAsm.Proofs.Fallible

/-! Instructions and steps by rules: what an instruction needs to have an effect, and the ways in
which a step can go. -/

namespace RegAsm

open Fallible

lemma Registers.read_eq_ok_iff {r : Registers} {name : String} {span : Span} {value : Word} :
    r.read name span = .ok value ↔ r.get? name = some value := by
  cases h : r.get? name <;> simp [read, h]

namespace Instruction

lemma compute_eq_ok_iff {op : Arithmetic} {a b value : Word} {span : Span} :
    compute op a b span = .ok value ↔ op.eval? a b = some value := by
  cases h : op.eval? a b <;> simp [compute, h]

inductive Performs (target : String → Span → Except Fault Nat) (maxDepth : Option UInt64)
    (span : Span) (s : State) : Instruction → Effect → Prop
  | mov {dst src value} : s.registers.eval src span = .ok value →
      Performs target maxDepth span s (.mov dst src) (.assign dst value)
  | inc {reg value} : s.registers.get? reg = some value →
      Performs target maxDepth span s (.inc reg) (.assign reg (value + 1))
  | dec {reg value} : s.registers.get? reg = some value →
      Performs target maxDepth span s (.dec reg) (.assign reg (value - 1))
  | arith {op dst src a b value} : s.registers.get? dst = some a →
      s.registers.eval src span = .ok b → op.eval? a b = some value →
      Performs target maxDepth span s (.arith op dst src) (.assign dst value)
  | cmp {lhs rhs a b} : s.registers.eval lhs span = .ok a → s.registers.eval rhs span = .ok b →
      Performs target maxDepth span s (.cmp lhs rhs) (.compare (Word.order a b))
  | jump {cond label index} : cond.holds s.flag = true → target label span = .ok index →
      Performs target maxDepth span s (.jump cond label) (.goto index)
  | pass {cond label} : cond.holds s.flag = false →
      Performs target maxDepth span s (.jump cond label) .pass
  | call {label index} : target label span = .ok index →
      Limits.reached? maxDepth s.calls.length = none →
      Performs target maxDepth span s (.call label) (.call index)
  | ret {back rest} : s.calls = back :: rest → Performs target maxDepth span s .ret (.ret back)
  | msg {parts text} : Message.render (s.registers.eval · span) parts = .ok text →
      Performs target maxDepth span s (.msg parts) (.say text)
  | halt : Performs target maxDepth span s .halt .halt

variable {target : String → Span → Except Fault Nat} {maxDepth : Option UInt64} {span : Span}
variable {s : State} {i : Instruction} {e : Effect}

lemma performs_of_effect (h : i.effect target maxDepth span s = .ok e) :
    Performs target maxDepth span s i e := by
  cases i with
  | mov dst src =>
    obtain ⟨value, hv, he⟩ := bind_eq_ok_iff.mp h
    exact pure_eq_ok_iff.mp he ▸ .mov hv
  | inc reg =>
    obtain ⟨value, hv, he⟩ := bind_eq_ok_iff.mp h
    exact pure_eq_ok_iff.mp he ▸ .inc (Registers.read_eq_ok_iff.mp hv)
  | dec reg =>
    obtain ⟨value, hv, he⟩ := bind_eq_ok_iff.mp h
    exact pure_eq_ok_iff.mp he ▸ .dec (Registers.read_eq_ok_iff.mp hv)
  | arith op dst src =>
    obtain ⟨a, ha, h⟩ := bind_eq_ok_iff.mp h
    obtain ⟨b, hb, h⟩ := bind_eq_ok_iff.mp h
    obtain ⟨value, hv, he⟩ := bind_eq_ok_iff.mp h
    exact pure_eq_ok_iff.mp he ▸
      .arith (Registers.read_eq_ok_iff.mp ha) hb (compute_eq_ok_iff.mp hv)
  | cmp lhs rhs =>
    obtain ⟨a, ha, h⟩ := bind_eq_ok_iff.mp h
    obtain ⟨b, hb, he⟩ := bind_eq_ok_iff.mp h
    exact pure_eq_ok_iff.mp he ▸ .cmp ha hb
  | jump cond label =>
    simp only [effect] at h
    split at h
    · obtain ⟨index, ht, he⟩ := bind_eq_ok_iff.mp h
      exact pure_eq_ok_iff.mp he ▸ .jump (by assumption) ht
    · rename_i hc
      exact pure_eq_ok_iff.mp h ▸ .pass (Bool.eq_false_iff.mpr hc)
  | call label =>
    obtain ⟨index, ht, h⟩ := bind_eq_ok_iff.mp h
    split at h
    · cases h
    · exact pure_eq_ok_iff.mp h ▸ .call ht (by assumption)
  | ret =>
    simp only [effect] at h
    split at h
    · cases h
    · cases h
      exact .ret (by assumption)
  | msg parts =>
    obtain ⟨text, ht, he⟩ := bind_eq_ok_iff.mp h
    exact pure_eq_ok_iff.mp he ▸ .msg ht
  | halt =>
    cases h
    exact .halt

lemma effect_of_performs (h : Performs target maxDepth span s i e) :
    i.effect target maxDepth span s = .ok e := by
  cases h with
  | mov hv => simp [effect, hv, bind, Except.bind, pure, Except.pure]
  | inc hv | dec hv =>
    simp [effect, Registers.read_eq_ok_iff.mpr hv, bind, Except.bind, pure, Except.pure]
  | arith ha hb hv =>
    simp [effect, Registers.read_eq_ok_iff.mpr ha, hb, compute_eq_ok_iff.mpr hv, bind, Except.bind,
      pure, Except.pure]
  | cmp ha hb => simp [effect, ha, hb, bind, Except.bind, pure, Except.pure]
  | jump hc ht => simp [effect, hc, ht, bind, Except.bind, pure, Except.pure]
  | pass hc => simp [effect, hc, pure, Except.pure]
  | call ht hd => simp [effect, ht, hd, bind, Except.bind, pure, Except.pure]
  | ret hc => simp [effect, hc]
  | msg ht => simp [effect, ht, bind, Except.bind, pure, Except.pure]
  | halt => rfl

end Instruction

namespace Machine

structure Fetches (p : Program) (limits : Limits) (s : State) (statement : Statement) : Prop where
  running : s.halted = false
  fetched : p.statements[s.pc]? = some statement
  granted : Limits.reached? limits.maxSteps s.steps = none

inductive Transition (p : Program) (limits : Limits) (s : State) : Step → State → Prop
  | halted : s.halted = true → Transition p limits s .halted s
  | fellOff : s.halted = false → p.statements[s.pc]? = none → Transition p limits s .fellOff s
  | refused {statement max} : s.halted = false → p.statements[s.pc]? = some statement →
      Limits.reached? limits.maxSteps s.steps = some max →
      Transition p limits s (.fault (.stepLimit max)) s
  | label {name span} : Fetches p limits s (.label name span) →
      Transition p limits s .ran s.count.next
  | fault {i span f} : Fetches p limits s (.instruction i span) →
      i.effect p.labels.target limits.maxCallDepth span s.count = .error f →
      Transition p limits s (.fault f) s.count
  | ended {span} : Fetches p limits s (.instruction .halt span) →
      Transition p limits s .halted (s.count.apply .halt)
  | ran {i span e} : Fetches p limits s (.instruction i span) → e ≠ .halt →
      i.Performs p.labels.target limits.maxCallDepth span s.count e →
      Transition p limits s .ran (s.count.apply e)

variable (p : Program) (limits : Limits) (s : State)

lemma transition_execute {i : Instruction} {span : Span}
    (hf : Fetches p limits s (.instruction i span)) :
    Transition p limits s (execute p limits s.count (.instruction i span)).1
      (execute p limits s.count (.instruction i span)).2 := by
  rw [execute_instruction, Step.ofEffect.eq_def]
  split
  · exact .fault hf (by assumption)
  · rename_i he
    cases Instruction.performs_of_effect he
    exact .ended hf
  · rename_i e hne he
    exact .ran hf hne (Instruction.performs_of_effect he)

theorem step_transition : Transition p limits s (step p limits s).1 (step p limits s).2 := by
  unfold step
  split
  · exact .halted (by assumption)
  · rename_i hr
    have hr : s.halted = false := by simpa using hr
    split
    · exact .fellOff hr (by assumption)
    · rename_i statement hs
      split
      · exact .refused hr hs (by assumption)
      · rename_i hg
        cases statement with
        | label name span => exact .label ⟨hr, hs, hg⟩
        | instruction i span => exact transition_execute p limits s ⟨hr, hs, hg⟩

end Machine

end RegAsm
