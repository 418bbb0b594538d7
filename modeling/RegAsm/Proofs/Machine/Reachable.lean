import RegAsm.Proofs.Labels
import RegAsm.Proofs.Machine.Truncation

namespace RegAsm.Machine

/-- What steps and runs make of a fresh machine, in any order and also after a fault. -/
inductive Reachable (p : Program) (limits : Limits) : State → Prop
  | start : Reachable p limits {}
  | step {s} : Reachable p limits s → Reachable p limits (step p limits s).2
  | run {s t budget o} : Reachable p limits s → run p limits budget s = some (o, t) →
      Reachable p limits t

variable {p : Program} {limits : Limits} {s t : State}

def IsReturn (p : Program) (r : Nat) : Prop :=
  1 ≤ r ∧ r ≤ p.size ∧ ∃ label span, p.statements[r - 1]? = some (.instruction (.call label) span)

def IsMoved (p : Program) (name : String) : Prop :=
  ∃ src span, .instruction (.mov name src) span ∈ p.statements

structure Consistent (p : Program) (limits : Limits) (s : State) : Prop where
  pc_le : s.pc ≤ p.size
  calls : ∀ r ∈ s.calls, IsReturn p r
  admitted : limits.Admits s
  moved : ∀ name value, s.registers.get? name = some value → IsMoved p name
  ended : s.halted = true → ∃ span, p.statements[s.pc]? = some (.instruction .halt span)

lemma consistent_start : Consistent p limits {} where
  pc_le := Nat.zero_le _
  calls _ h := by cases h
  admitted := admits_start limits
  moved name value h := by simp at h
  ended h := by cases h

lemma Fetches.pc_lt {statement : Statement} (h : Fetches p limits s statement) : s.pc < p.size :=
  (Array.getElem?_eq_some_iff.mp h.fetched).choose

lemma Fetches.not_halted {statement : Statement} (h : Fetches p limits s statement) :
    s.halted ≠ true := by
  rw [h.running]
  exact Bool.false_ne_true

lemma performs_moved {i : Instruction} {span : Span} {name : String} {value : Word}
    (hf : Fetches p limits s (.instruction i span))
    (hm : ∀ name value, s.registers.get? name = some value → IsMoved p name)
    (h : i.Performs p.labels.target limits.maxCallDepth span s.count (.assign name value)) :
    IsMoved p name := by
  cases h with
  | mov => exact ⟨_, span, Array.mem_of_getElem? hf.fetched⟩
  | inc hv | dec hv | arith hv => exact hm _ _ hv

lemma Consistent.apply {i : Instruction} {span : Span} {e : Effect} (hc : Consistent p limits s)
    (hf : Fetches p limits s (.instruction i span)) (hne : e ≠ .halt)
    (h : i.Performs p.labels.target limits.maxCallDepth span s.count e)
    (ha : limits.Admits (s.count.apply e)) : Consistent p limits (s.count.apply e) := by
  have hrun : (s.count.apply e).halted ≠ true := by
    rw [apply_halted hne]
    exact hf.not_halted
  have hended : (s.count.apply e).halted = true → ∃ span,
      p.statements[(s.count.apply e).pc]? = some (.instruction .halt span) :=
    fun hh => (hrun hh).elim
  cases e with
  | pass | compare | say => exact ⟨hf.pc_lt, hc.calls, ha, hc.moved, hended⟩
  | assign name value =>
    refine ⟨hf.pc_lt, hc.calls, ha, fun other v hv => ?_, hended⟩
    by_cases he : name = other
    · exact he ▸ performs_moved hf hc.moved h
    · exact hc.moved other v (Registers.get?_set_of_ne _ he _ ▸ hv)
  | goto index =>
    cases h with
    | jump _ ht => exact ⟨(Program.target_lt ht).le, hc.calls, ha, hc.moved, hended⟩
  | call index =>
    cases h with
    | call ht =>
      have hr : IsReturn p (s.pc + 1) := ⟨Nat.succ_pos _, hf.pc_lt, _, span, hf.fetched⟩
      exact ⟨(Program.target_lt ht).le, List.forall_mem_cons.mpr ⟨hr, hc.calls⟩, ha, hc.moved,
        hended⟩
  | ret index =>
    cases h with
    | ret hs =>
      have hr : IsReturn p index := hc.calls index (hs ▸ List.mem_cons_self)
      exact ⟨hr.2.1, fun r hm => hc.calls r (List.mem_of_mem_tail hm), ha, hc.moved, hended⟩
  | halt => exact (hne rfl).elim

lemma Transition.consistent {answer : Step} (h : Transition p limits s answer t)
    (hc : Consistent p limits s) : Consistent p limits t := by
  have ha := h.admits hc.admitted
  cases h with
  | halted | fellOff | refused => exact hc
  | label hf => exact ⟨hf.pc_lt, hc.calls, ha, hc.moved, fun hh => (hf.not_halted hh).elim⟩
  | fault => exact ⟨hc.pc_le, hc.calls, ha, hc.moved, hc.ended⟩
  | ended hf => exact ⟨hc.pc_le, hc.calls, ha, hc.moved, fun _ => ⟨_, hf.fetched⟩⟩
  | ran hf hne hp => exact hc.apply hf hne hp ha

lemma Reachable.consistent (h : Reachable p limits s) : Consistent p limits s := by
  induction h with
  | start => exact consistent_start
  | step _ ih => exact (step_transition p limits _).consistent ih
  | @run _ _ budget _ _ hr ih =>
    obtain ⟨answer, ha, -⟩ := run_eq_some_iff.mp hr
    have hk := advance_keeps (fun u hu => (step_transition p limits u).consistent hu) budget ih
    rwa [ha] at hk

lemma Consistent.fellOff (hc : Consistent p limits s) (h : (step p limits s).1 = .fellOff) :
    s.pc = p.size := by
  have ht := step_transition p limits s
  rw [h] at ht
  generalize (step p limits s).2 = t at ht
  cases ht with
  | fellOff _ hs => exact Nat.le_antisymm hc.pc_le (Array.getElem?_eq_none_iff.mp hs)

/-- Whatever steps and runs a machine has made, its counter is in the program or just past it, its
pending returns follow calls, its limits are kept, its registers were moved to, and it has halted or
falls off only where the program says so. -/
theorem reachable_consistent (h : Reachable p limits s) :
    Consistent p limits s ∧ ((step p limits s).1 = .fellOff → s.pc = p.size) :=
  ⟨h.consistent, h.consistent.fellOff⟩

def endlessCalls : Program where
  statements := #[.label "f" ⟨1, 1⟩, .instruction (.call "f") ⟨1, 4⟩]
  labels := ⟨LabelTable.empty.declarations.insert "f" ⟨0, ⟨1, 1⟩⟩⟩
  labels_built := rfl

theorem reachable_consistent_after_refusal :
    Program.parse "f: call f" = .ok endlessCalls ∧
      Consistent endlessCalls { maxCallDepth := some 2 } { calls := [2, 2], pc := 1, steps := 7 } ∧
      (step endlessCalls { maxCallDepth := some 2 } { calls := [2, 2], pc := 1, steps := 7 }).1 =
        .fault (.callDepthLimit 2) := by
  -- two calls fill the stack; the run ends at the third, and a further step is refused as well
  have hr : run endlessCalls { maxCallDepth := some 2 } 9 {} =
      some (.fault (.callDepthLimit 2), { calls := [2, 2], pc := 1, steps := 6 }) := by rfl
  have hs : Statement.parseAll "f: call f".toList = .ok endlessCalls.statements.toList := by
    decide +kernel
  have hp := Fallible.bind_eq_ok_iff.mpr ⟨_, hs, Program.ofStatements_eq_ok_iff.mpr rfl⟩
  exact ⟨hp, (reachable_consistent (.step (.run .start hr))).1, by rfl⟩

end RegAsm.Machine
