import Mathlib.Data.List.Forall2
import RegAsm.Proofs.Machine.FlatCode
import RegAsm.Proofs.Machine.Runs

namespace RegAsm

open Fallible

structure Executed where
  instruction : Instruction
  span : Span
  after : State

def history (fetch : State → Option (Instruction × Span)) (step : State → Step × State) :
    Nat → State → List Executed
  | 0, _ => []
  | n + 1, s =>
    let here := ((fetch s).map fun (i, span) => ⟨i, span, (step s).2⟩).toList
    match step s with
    | (.ran, t) => here ++ history fetch step n t
    | _ => here

def Machine.instructionAt (p : Program) (s : State) : Option (Instruction × Span) :=
  if s.halted then none else p.statements[s.pc]?.bind Statement.code?

/-- States of a program and of its flat code that differ in addresses only. -/
structure Corresponds (p : Program) (s t : State) : Prop where
  registers : t.registers = s.registers
  flag : t.flag = s.flag
  result : t.result = s.result
  halted : t.halted = s.halted
  pc : t.pc = p.position s.pc
  calls : t.calls = s.calls.map p.position

structure Executed.Corresponds (p : Program) (a b : Executed) : Prop where
  instruction : b.instruction = a.instruction
  span : b.span = a.span
  after : RegAsm.Corresponds p a.after b.after

structure Matched (p : Program) (maxDepth : Option UInt64) (n m : Nat) (s t : State) : Prop where
  answer : (p.flat.advance maxDepth m t).1 = (Machine.advance p { maxCallDepth := maxDepth } n s).1
  state : Corresponds p (Machine.advance p { maxCallDepth := maxDepth } n s).2
    (p.flat.advance maxDepth m t).2
  history : List.Forall₂ (Executed.Corresponds p)
    (history (Machine.instructionAt p) (Machine.step p { maxCallDepth := maxDepth }) n s)
    (history p.flat.instructionAt (p.flat.step maxDepth) m t)

def Effect.moved (place : Nat → Nat) : Effect → Effect
  | goto index => .goto (place index)
  | call index => .call (place index)
  | ret index => .ret (place index)
  | e => e

lemma Instruction.effect_moved {place : Nat → Nat} {target other : String → Span → Except Fault Nat}
    {span : Span} {s t : State} (hr : t.registers = s.registers) (hf : t.flag = s.flag)
    (hc : t.calls = s.calls.map place)
    (ht : ∀ name, other name span = (target name span).map place) (maxDepth : Option UInt64)
    (i : Instruction) :
    i.effect other maxDepth span t = (i.effect target maxDepth span s).map (Effect.moved place) := by
  cases i with
  | mov | inc | dec | arith | cmp | msg =>
    simp only [effect, hr, map_bind]
    rfl
  | jump cond label =>
    simp only [effect, hf, ht]
    split
    · cases target label span <;> rfl
    · rfl
  | call label =>
    simp only [effect, hc, ht, List.length_map]
    cases target label span with
    | error f => rfl
    | ok index =>
      simp only [bind, Except.bind, Except.map]
      split <;> rfl
  | ret =>
    simp only [effect, hc]
    cases s.calls <;> rfl
  | halt => rfl

namespace Corresponds

variable {p : Program} {s t : State} {i : Instruction} {span : Span}

lemma start (p : Program) : Corresponds p {} {} :=
  ⟨rfl, rfl, rfl, rfl, rfl, rfl⟩

lemma count (h : Corresponds p s t) : Corresponds p s.count t.count :=
  ⟨h.registers, h.flag, h.result, h.halted, h.pc, h.calls⟩

lemma skip {name : String} (h : Corresponds p s t)
    (hs : p.statements[s.pc]? = some (.label name span)) : Corresponds p s.count.next t where
  registers := h.registers
  flag := h.flag
  result := h.result
  halted := h.halted
  pc := h.pc.trans (Program.position_of_label hs).symm
  calls := h.calls

lemma effect (h : Corresponds p s t) (maxDepth : Option UInt64) :
    i.effect p.flat.target maxDepth span t =
      (i.effect p.labels.target maxDepth span s).map (Effect.moved p.position) :=
  Instruction.effect_moved h.registers h.flag h.calls (fun name => p.flat_target name span) _ _

lemma apply (h : Corresponds p s t) (hs : p.statements[s.pc]? = some (.instruction i span))
    (e : Effect) : Corresponds p (s.apply e) (t.apply (e.moved p.position)) := by
  have hn : t.pc + 1 = p.position (s.pc + 1) := by
    rw [h.pc, Program.position_of_instruction hs]
  cases e with
  | pass => exact ⟨h.registers, h.flag, h.result, h.halted, hn, h.calls⟩
  | assign name value =>
    exact ⟨congrArg (·.set name value) h.registers, h.flag, h.result, h.halted, hn, h.calls⟩
  | compare flag => exact ⟨h.registers, rfl, h.result, h.halted, hn, h.calls⟩
  | say text => exact ⟨h.registers, h.flag, rfl, h.halted, hn, h.calls⟩
  | goto index => exact ⟨h.registers, h.flag, h.result, h.halted, rfl, h.calls⟩
  | call index =>
    exact ⟨h.registers, h.flag, h.result, h.halted, rfl, congrArg₂ List.cons hn h.calls⟩
  | ret index =>
    refine ⟨h.registers, h.flag, h.result, h.halted, rfl, ?_⟩
    exact (congrArg List.tail h.calls).trans List.map_tail.symm
  | halt => exact ⟨h.registers, h.flag, h.result, rfl, h.pc, h.calls⟩

lemma ofEffect (h : Corresponds p s t) (hs : p.statements[s.pc]? = some (.instruction i span))
    (x : Except Fault Effect) :
    (Step.ofEffect t (x.map (Effect.moved p.position))).1 = (Step.ofEffect s x).1 ∧
      Corresponds p (Step.ofEffect s x).2 (Step.ofEffect t (x.map (Effect.moved p.position))).2 := by
  cases x with
  | error f => exact ⟨rfl, h⟩
  | ok e =>
    have ha := h.apply hs e
    cases e <;> exact ⟨rfl, ha⟩

end Corresponds

section History

variable {fetch : State → Option (Instruction × Span)} {step : State → Step × State}
variable {s t : State}

lemma history_succ_of_ran (h : step s = (.ran, t)) (n : Nat) :
    history fetch step (n + 1) s =
      ((fetch s).map fun (i, span) => ⟨i, span, t⟩).toList ++ history fetch step n t := by
  simp only [history, h]

lemma history_succ_of_ne_ran (h : (step s).1 ≠ .ran) (n : Nat) :
    history fetch step (n + 1) s =
      ((fetch s).map fun (i, span) => ⟨i, span, (step s).2⟩).toList := by
  rw [history]
  split
  · rename_i hs
    exact (h (congrArg Prod.fst hs)).elim
  · rfl

end History

namespace FlatCode

variable {f : FlatCode} {maxDepth : Option UInt64} {s t : State}

lemma advance_succ_of_ran (h : f.step maxDepth s = (.ran, t)) (n : Nat) :
    f.advance maxDepth (n + 1) s = f.advance maxDepth n t := by
  simp only [advance, h]

lemma advance_succ_of_ne_ran (h : (f.step maxDepth s).1 ≠ .ran) (n : Nat) :
    f.advance maxDepth (n + 1) s = f.step maxDepth s := by
  rw [advance]
  split
  · rename_i hs
    exact (h (congrArg Prod.fst hs)).elim
  · rename_i hs
    exact hs.symm

end FlatCode

section Simulation

variable {p : Program} {maxDepth : Option UInt64} {n m : Nat} {s t : State}

lemma Machine.step_label (maxDepth : Option UInt64) {name : String} {span : Span}
    (hh : s.halted = false)
    (hs : p.statements[s.pc]? = some (.label name span)) :
    step p { maxCallDepth := maxDepth } s = (.ran, s.count.next) := by
  simp [step, hh, hs, execute]

lemma Machine.step_instruction (maxDepth : Option UInt64) {i : Instruction} {span : Span}
    (hh : s.halted = false)
    (hs : p.statements[s.pc]? = some (.instruction i span)) :
    step p { maxCallDepth := maxDepth } s =
      Step.ofEffect s.count (i.effect p.labels.target maxDepth span s.count) := by
  simp only [step, hh, hs, execute_instruction]
  rfl

structure Lockstep (p : Program) (maxDepth : Option UInt64) (s t : State) : Prop where
  fetch : p.flat.instructionAt t = Machine.instructionAt p s
  answer : (p.flat.step maxDepth t).1 = (Machine.step p { maxCallDepth := maxDepth } s).1
  state : Corresponds p (Machine.step p { maxCallDepth := maxDepth } s).2
    (p.flat.step maxDepth t).2

def AtLabel (p : Program) (s : State) : Prop :=
  s.halted = false ∧ ∃ name span, p.statements[s.pc]? = some (.label name span)

lemma Lockstep.stay (answer : Step) (h : Corresponds p s t)
    (hfetch : p.flat.instructionAt t = Machine.instructionAt p s)
    (hs : Machine.step p { maxCallDepth := maxDepth } s = (answer, s))
    (ht : p.flat.step maxDepth t = (answer, t)) : Lockstep p maxDepth s t where
  fetch := hfetch
  answer := by rw [hs, ht]
  state := by
    rw [hs, ht]
    exact h

lemma Corresponds.lockstep (maxDepth : Option UInt64) (h : Corresponds p s t)
    (hl : ¬ AtLabel p s) : Lockstep p maxDepth s t := by
  cases hh : s.halted with
  | true =>
    have ht : t.halted = true := h.halted.trans hh
    apply Lockstep.stay .halted h
    · simp [FlatCode.instructionAt, Machine.instructionAt, hh, ht]
    · simp [Machine.step, hh]
    · simp [FlatCode.step, ht]
  | false =>
    have ht : t.halted = false := h.halted.trans hh
    cases hs : p.statements[s.pc]? with
    | none =>
      have hc : p.flat.code[t.pc]? = none := h.pc ▸ Program.code_of_end hs
      apply Lockstep.stay .fellOff h
      · simp [FlatCode.instructionAt, Machine.instructionAt, hh, ht, hs, hc]
      · simp [Machine.step, hh, hs]
      · simp [FlatCode.step, ht, hc]
    | some statement =>
      cases statement with
      | label name span => exact (hl ⟨hh, name, span, hs⟩).elim
      | instruction i span =>
        have hc : p.flat.code[t.pc]? = some (i, span) := h.pc ▸ Program.code_of_instruction hs
        have hp := Machine.step_instruction maxDepth hh hs
        have hf : p.flat.step maxDepth t = Step.ofEffect t.count
            ((i.effect p.labels.target maxDepth span s.count).map (Effect.moved p.position)) := by
          rw [← h.count.effect]
          simp [FlatCode.step, ht, hc]
        have he := h.count.ofEffect hs (i.effect p.labels.target maxDepth span s.count)
        rw [← hp, ← hf] at he
        refine ⟨?_, he.1, he.2⟩
        simp [FlatCode.instructionAt, Machine.instructionAt, hh, ht, hs, hc, Statement.code?]

namespace Matched

lemma zero (h : Corresponds p s t) : Matched p maxDepth 0 0 s t :=
  ⟨rfl, h, .nil⟩

lemma skip {name : String} {span : Span} (hh : s.halted = false)
    (hs : p.statements[s.pc]? = some (.label name span))
    (h : Matched p maxDepth n m s.count.next t) : Matched p maxDepth (n + 1) m s t := by
  have hstep := Machine.step_label maxDepth hh hs
  have hfetch : Machine.instructionAt p s = none := by
    simp [Machine.instructionAt, hh, hs, Statement.code?]
  obtain ⟨ha, hc, hl⟩ := h
  refine ⟨?_, ?_, ?_⟩
  · rw [Machine.advance_succ_of_ran hstep, ha]
  · rw [Machine.advance_succ_of_ran hstep]
    exact hc
  · rw [history_succ_of_ran hstep, hfetch]
    exact hl

lemma executed {fetched : Option (Instruction × Span)} (h : Corresponds p s t) :
    List.Forall₂ (Executed.Corresponds p)
      (fetched.map fun (i, span) => ⟨i, span, s⟩).toList
      (fetched.map fun (i, span) => ⟨i, span, t⟩).toList := by
  cases fetched with
  | none => exact .nil
  | some code => exact .cons ⟨rfl, rfl, h⟩ .nil

lemma step {s' t' : State} (h : Lockstep p maxDepth s t)
    (hs : Machine.step p { maxCallDepth := maxDepth } s = (.ran, s'))
    (ht : p.flat.step maxDepth t = (.ran, t')) (hm : Matched p maxDepth n m s' t') :
    Matched p maxDepth (n + 1) (m + 1) s t := by
  obtain ⟨ha, hc, hl⟩ := hm
  have hst : Corresponds p s' t' := by
    have := h.state
    rwa [hs, ht] at this
  refine ⟨?_, ?_, ?_⟩
  · rw [Machine.advance_succ_of_ran hs, FlatCode.advance_succ_of_ran ht, ha]
  · rw [Machine.advance_succ_of_ran hs, FlatCode.advance_succ_of_ran ht]
    exact hc
  · rw [history_succ_of_ran hs, history_succ_of_ran ht, h.fetch]
    exact List.rel_append (executed hst) hl

lemma stop (h : Lockstep p maxDepth s t)
    (hs : (Machine.step p { maxCallDepth := maxDepth } s).1 ≠ .ran) (n m : Nat) :
    Matched p maxDepth (n + 1) (m + 1) s t := by
  have ht : (p.flat.step maxDepth t).1 ≠ .ran := h.answer.trans_ne hs
  refine ⟨?_, ?_, ?_⟩
  · rw [Machine.advance_succ_of_ne_ran hs, FlatCode.advance_succ_of_ne_ran ht, h.answer]
  · rw [Machine.advance_succ_of_ne_ran hs, FlatCode.advance_succ_of_ne_ran ht]
    exact h.state
  · rw [history_succ_of_ne_ran hs, history_succ_of_ne_ran ht, h.fetch]
    exact executed h.state

end Matched

lemma Lockstep.exists_next (h : Lockstep p maxDepth s t) :
    ∃ s' t', Corresponds p s' t' ∧
      ∀ n m, Matched p maxDepth n m s' t' → Matched p maxDepth (n + 1) (m + 1) s t := by
  refine ⟨_, _, h.state, fun n m hm => ?_⟩
  by_cases hs : (Machine.step p { maxCallDepth := maxDepth } s).1 = .ran
  · exact .step h (Prod.ext hs rfl) (Prod.ext (h.answer.trans hs) rfl) hm
  · exact .stop h hs n m

lemma exists_matched_of_steps (maxDepth : Option UInt64) (h : Corresponds p s t) (n : Nat) :
    ∃ m ≤ n, Matched p maxDepth n m s t := by
  induction n generalizing s t with
  | zero => exact ⟨0, Nat.le_refl 0, .zero h⟩
  | succ n ih =>
    by_cases hl : AtLabel p s
    · obtain ⟨hh, name, span, hs⟩ := hl
      obtain ⟨m, hm, hmatch⟩ := ih (h.skip hs)
      exact ⟨m, by omega, .skip hh hs hmatch⟩
    · obtain ⟨s', t', hc, hnext⟩ := (h.lockstep maxDepth hl).exists_next
      obtain ⟨m, hm, hmatch⟩ := ih hc
      exact ⟨m + 1, by omega, hnext n m hmatch⟩

lemma exists_matched_step (h : Corresponds p s t)
    (hm : ∀ s' t', Corresponds p s' t' → ∃ n, m ≤ n ∧ Matched p maxDepth n m s' t') :
    ∃ n, m + 1 ≤ n ∧ Matched p maxDepth n (m + 1) s t := by
  -- on the number of statements from the counter on
  induction hd : p.size - s.pc using Nat.strongRecOn generalizing s with
  | ind d ih =>
    by_cases hl : AtLabel p s
    · obtain ⟨hh, name, span, hs⟩ := hl
      have hlt : s.pc < p.size := (Array.getElem?_eq_some_iff.mp hs).choose
      have hd' : p.size - (s.pc + 1) < d := by omega
      obtain ⟨n, hn, hmatch⟩ := ih _ hd' (h.skip hs) rfl
      exact ⟨n + 1, by omega, .skip hh hs hmatch⟩
    · obtain ⟨s', t', hc, hnext⟩ := (h.lockstep maxDepth hl).exists_next
      obtain ⟨n, hn, hmatch⟩ := hm s' t' hc
      exact ⟨n + 1, by omega, hnext n m hmatch⟩

lemma exists_matched_of_flat_steps (maxDepth : Option UInt64) (h : Corresponds p s t) (m : Nat) :
    ∃ n, m ≤ n ∧ Matched p maxDepth n m s t := by
  induction m generalizing s t with
  | zero => exact ⟨0, Nat.le_refl 0, .zero h⟩
  | succ m ih => exact exists_matched_step h fun _ _ => ih

lemma Matched.outcome (h : Matched p maxDepth n m s t) :
    (p.flat.run maxDepth m t).map Prod.fst =
      (Machine.run p { maxCallDepth := maxDepth } n s).map Prod.fst := by
  obtain ⟨ha, hc, -⟩ := h
  rw [FlatCode.run, Machine.run]
  generalize p.flat.advance maxDepth m t = r at ha hc
  generalize Machine.advance p { maxCallDepth := maxDepth } n s = r' at ha hc
  obtain ⟨answer, t'⟩ := r
  obtain ⟨_, s'⟩ := r'
  cases ha
  cases answer with
  | halted =>
    have hr : t'.result = s'.result := hc.result
    simp [Step.outcome?, hr]
  | _ => rfl

end Simulation

/-- A program and its flat code, under any limit on the depth of calls, carry out the same
instructions with corresponding states after each: every number of steps of the one is matched by
some number of steps of the other. So one ends exactly if the other does, with the same outcome. -/
theorem program_runs_as_flat_code (p : Program) (maxDepth : Option UInt64) :
    (∀ n, ∃ m ≤ n, Matched p maxDepth n m {} {}) ∧
    (∀ m, ∃ n, m ≤ n ∧ Matched p maxDepth n m {} {}) ∧
    ∀ o, (∃ n, (Machine.run p { maxCallDepth := maxDepth } n {}).map Prod.fst = some o) ↔
      ∃ m, (p.flat.run maxDepth m {}).map Prod.fst = some o := by
  have hsteps := exists_matched_of_steps maxDepth (Corresponds.start p)
  have hflat := exists_matched_of_flat_steps maxDepth (Corresponds.start p)
  refine ⟨hsteps, hflat, fun o => ⟨?_, ?_⟩⟩
  · rintro ⟨n, hn⟩
    obtain ⟨m, -, hm⟩ := hsteps n
    exact ⟨m, hm.outcome.trans hn⟩
  · rintro ⟨m, hm⟩
    obtain ⟨n, -, hn⟩ := hflat m
    exact ⟨n, hn.outcome.symm.trans hm⟩

end RegAsm
