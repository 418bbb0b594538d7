import RegAsm.Interpreter
import RegAsm.Proofs.Machine.Failure

namespace RegAsm

structure Visit where
  pc : Nat
  statement : Statement
deriving DecidableEq, Repr

namespace Visit

def isLabel (v : Visit) : Bool :=
  v.statement.label?.isSome

def record? : Visit → Option Record
  | ⟨_, .label _ _⟩ => none
  | ⟨pc, .instruction i span⟩ => some (.executing pc span i)

def line? : Visit → Option (Level × String)
  | ⟨_, .label _ _⟩ => none
  | ⟨pc, .instruction i span⟩ =>
    some (.trace, Text.padLeft 4 (Decimal.ofNat pc) ++ " [" ++ span.text ++ "] " ++ i.print)

end Visit

def Outcome.line? (pc steps : Nat) : Outcome → Option (Level × String)
  | output _ => some (.debug, "halted after " ++ Decimal.ofNat steps ++ " steps")
  | fellOff => some (.debug, "fell off the program at pc " ++ Decimal.ofNat pc ++ " after " ++
      Decimal.ofNat steps ++ " steps")
  | fault _ => none

def Program.line (p : Program) : Level × String :=
  (.debug, "parsed " ++ Decimal.ofNat p.statements.size ++ " statements, " ++
    Decimal.ofNat (Statement.declared p.statements.toList).length ++ " labels")

def Record.line (r : Record) : Level × String :=
  (r.level, r.message)

def Record.lines (level : Level) (log : Array Record) : List (Level × String) :=
  (log.toList.filter (shownAt level)).map line

namespace Machine

variable {p : Program} {limits : Limits} {n : Nat} {s t : State}

def counted? (p : Program) (limits : Limits) (s : State) : Option Visit :=
  if s.steps < (step p limits s).2.steps then p.statements[s.pc]?.map (Visit.mk s.pc) else none

def visits (p : Program) (limits : Limits) : Nat → State → List Visit
  | 0, _ => []
  | n + 1, s =>
    match step p limits s with
    | (.ran, t) => (counted? p limits s).toList ++ visits p limits n t
    | _ => (counted? p limits s).toList

lemma visits_succ_of_ran (h : step p limits s = (.ran, t)) (n : Nat) :
    visits p limits (n + 1) s = (counted? p limits s).toList ++ visits p limits n t := by
  simp only [visits, h]

lemma visits_succ_of_ne_ran (h : (step p limits s).1 ≠ .ran) (n : Nat) :
    visits p limits (n + 1) s = (counted? p limits s).toList := by
  rw [visits]
  split
  · rename_i hs
    exact (h (congrArg Prod.fst hs)).elim
  · rfl

lemma fetches_or_stays (p : Program) (limits : Limits) (s : State) :
    (∃ statement, Fetches p limits s statement) ∨ (step p limits s).2 = s := by
  have ht := step_transition p limits s
  generalize (step p limits s).1 = answer at ht
  generalize (step p limits s).2 = t at ht ⊢
  cases ht with
  | halted | fellOff | refused => exact .inr rfl
  | label hf | fault hf | ended hf | ran hf => exact .inl ⟨_, hf⟩

lemma Fetches.steps_succ {statement : Statement} (hf : Fetches p limits s statement) :
    (step p limits s).2.steps = s.steps + 1 := by
  rw [hf.step_eq, execute_steps]
  rfl

lemma Fetches.counted {statement : Statement} (hf : Fetches p limits s statement) :
    counted? p limits s = some ⟨s.pc, statement⟩ := by
  simp [counted?, hf.steps_succ, hf.fetched]

lemma counted?_eq_none (h : (step p limits s).2 = s) : counted? p limits s = none := by
  simp [counted?, h]

lemma fetches_of_attempt {r : Record} (h : attempt? p limits s = some r) :
    ∃ statement, Fetches p limits s statement := by
  unfold attempt? at h
  split at h
  · cases h
  · rename_i hr
    split at h
    · rename_i hs hg
      exact ⟨_, by simpa using hr, hs, hg⟩
    · cases h

lemma attempt?_eq_counted (p : Program) (limits : Limits) (s : State) :
    attempt? p limits s = (counted? p limits s).bind Visit.record? := by
  obtain ⟨statement, hf⟩ | h := fetches_or_stays p limits s
  · rw [hf.counted]
    cases statement <;> simp [attempt?, hf.running, hf.fetched, hf.granted, Visit.record?]
  · rw [counted?_eq_none h]
    cases ha : attempt? p limits s with
    | none => rfl
    | some r =>
      obtain ⟨statement, hf⟩ := fetches_of_attempt ha
      have hsteps := hf.steps_succ
      rw [h] at hsteps
      omega

lemma advanceLogged_fst (n : Nat) (s : State) (log : Array Record) :
    (advanceLogged p limits n s log).1.toList =
      log.toList ++ (visits p limits n s).filterMap Visit.record? := by
  induction n generalizing s log with
  | zero => simp [advanceLogged, visits]
  | succ n ih =>
    have hlog : (log ++ (attempt? p limits s).toArray).toList =
        log.toList ++ (counted? p limits s).toList.filterMap Visit.record? := by
      rw [attempt?_eq_counted]
      cases counted? p limits s with
      | none => simp
      | some v => cases hv : v.record? <;> simp [hv]
    obtain ⟨u, hu⟩ | hs := ran_or_stopped (step p limits s)
    · rw [visits_succ_of_ran hu, List.filterMap_append, ← List.append_assoc, ← hlog]
      simp only [advanceLogged, hu]
      exact ih u _
    · rw [visits_succ_of_ne_ran hs, ← hlog, advanceLogged]
      split
      · rename_i hu
        exact (hs (congrArg Prod.fst hu)).elim
      · rfl

lemma steps_step (s : State) :
    (step p limits s).2.steps = s.steps + (counted? p limits s).toList.length := by
  obtain ⟨statement, hf⟩ | h := fetches_or_stays p limits s
  · rw [hf.counted, hf.steps_succ]
    rfl
  · rw [counted?_eq_none h, h]
    rfl

lemma steps_eq_length_visits (p : Program) (limits : Limits) (n : Nat) (s : State) :
    (advance p limits n s).2.steps = s.steps + (visits p limits n s).length := by
  induction n generalizing s with
  | zero => rfl
  | succ n ih =>
    have hone : (step p limits s).2.steps = s.steps + (counted? p limits s).toList.length :=
      steps_step s
    obtain ⟨u, hu⟩ | hs := ran_or_stopped (step p limits s)
    · rw [hu] at hone
      rw [advance_succ_of_ran hu, visits_succ_of_ran hu, ih, hone, List.length_append,
        Nat.add_assoc]
    · rw [advance_succ_of_ne_ran hs, visits_succ_of_ne_ran hs, hone]

lemma visits_of_fault {f : Fault} (h : advance p limits n s = (.fault f, t)) :
    (∃ max, limits.maxSteps = some max ∧ f = .stepLimit max) ∨
      ∃ before i span, visits p limits n s = before ++ [⟨t.pc, .instruction i span⟩] ∧
        i.Fails p limits.maxCallDepth span t f := by
  induction n generalizing s with
  | zero => cases h
  | succ n ih =>
    obtain ⟨u, hu⟩ | hs := ran_or_stopped (step p limits s)
    · rw [advance_succ_of_ran hu] at h
      obtain hl | ⟨before, i, span, hv, hf⟩ := ih h
      · exact .inl hl
      · refine .inr ⟨(counted? p limits s).toList ++ before, i, span, ?_, hf⟩
        rw [visits_succ_of_ran hu, hv, List.append_assoc]
    · rw [advance_succ_of_ne_ran hs] at h
      obtain ⟨max, hm, hf, -⟩ | ⟨i, span, hf, he, rfl⟩ := fault_cases h
      · exact .inl ⟨max, hm, hf⟩
      · refine .inr ⟨[], i, span, ?_, Instruction.effect_eq_error_iff.mp he⟩
        rw [visits_succ_of_ne_ran hs, hf.counted]
        rfl

end Machine

namespace Record

lemma lines_trace (log : Array Record) : lines .trace log = log.toList.map line := by
  have hall : log.toList.filter (shownAt .trace) = log.toList :=
    List.filter_eq_self.mpr fun r _ => rfl
  rw [lines, hall]

lemma lines_debug (log : Array Record) :
    lines .debug log = (lines .trace log).filter (·.1 == .debug) := by
  rw [lines_trace, List.filter_map]
  rfl

end Record

lemma Visit.line?_eq (v : Visit) : v.record?.map Record.line = v.line? := by
  obtain ⟨pc, statement⟩ := v
  cases statement <;> rfl

lemma Visit.isSome_line? (v : Visit) : v.line?.isSome = !v.isLabel := by
  obtain ⟨pc, statement⟩ := v
  cases statement <;> rfl

lemma Visit.length_lines (vs : List Visit) :
    (vs.filterMap Visit.line?).length + vs.countP Visit.isLabel = vs.length := by
  rw [List.length_filterMap_eq_countP, List.length_eq_countP_add_countP Visit.isLabel, Nat.add_comm]
  simp [Visit.isSome_line?]

lemma Machine.closing_line {s : State} {answer : Step} {o : Outcome}
    (h : answer.outcome? s = some o) :
    (closing s answer).map Record.line = o.line? s.pc s.steps := by
  cases answer <;> cases h <;> rfl

/-- The log of a run that counted the statements `vs` and ended with `o` in the state `s`. A fault
comes from the last of them, unless a further one was refused. -/
structure Record.Tells (p : Program) (limits : Limits) (vs : List Visit) (o : Outcome) (s : State)
    (log : Array Record) : Prop where
  told : Record.lines .trace log =
    p.line :: (vs.filterMap Visit.line? ++ (o.line? s.pc s.steps).toList)
  steps : s.steps = (vs.filterMap Visit.line?).length + vs.countP Visit.isLabel
  blamed : ∀ f, o = .fault f → (∃ max, limits.maxSteps = some max ∧ f = .stepLimit max) ∨
    ∃ before i span, vs = before ++ [⟨s.pc, .instruction i span⟩] ∧
      i.Fails p limits.maxCallDepth span s f

namespace Machine

variable {p : Program} {limits : Limits}

lemma lines_advanceLogged (n : Nat) :
    Record.lines .trace (advanceLogged p limits n {} #[.parsed p.size p.labels.size]).1 =
      p.line :: (visits p limits n {}).filterMap Visit.line? := by
  have hparsed : Record.line (.parsed p.size p.labels.size) = p.line := by
    rw [p.size_labels]
    rfl
  rw [Record.lines_trace, advanceLogged_fst, List.map_append, List.map_filterMap]
  simp [hparsed, Visit.line?_eq]

lemma runLogged_eq {source : String} (hp : limits.parse source = .ok p) (n : Nat) :
    limits.runLogged n source =
      ((advance p limits n {}).1.outcome? (advance p limits n {}).2).map (·,
        (advanceLogged p limits n {} #[.parsed p.size p.labels.size]).1 ++
          (closing (advance p limits n {}).2 (advance p limits n {}).1).toArray) := by
  simp only [Limits.runLogged, hp, advanceLogged_snd]

lemma tells_of_advance {n : Nat} {s : State} {answer : Step} {o : Outcome}
    (h : advance p limits n {} = (answer, s)) (ho : answer.outcome? s = some o) :
    Record.Tells p limits (visits p limits n {}) o s
      ((advanceLogged p limits n {} #[.parsed p.size p.labels.size]).1 ++
        (closing s answer).toArray) where
  told := by
    rw [← closing_line ho, Record.lines_trace, Array.toList_append, List.map_append,
      ← Record.lines_trace, lines_advanceLogged, List.cons_append]
    cases closing s answer <;> rfl
  steps := by
    have hsteps := steps_eq_length_visits p limits n {}
    rw [h, Nat.zero_add] at hsteps
    rw [Visit.length_lines, ← hsteps]
  blamed := by
    rintro f rfl
    rw [Step.outcome?_eq_some ho] at h
    exact visits_of_fault h

end Machine

/-- Nothing is logged of a text that is no program or too long. Otherwise the log begins with the
numbers of statements and labels, goes on with the attempted instructions in order, and has a last
line exactly if the run ends without a fault; the number of steps in it is that of the attempted
instructions and of the label declarations passed. At the lower level the attempted instructions are
left out. -/
theorem log_records_run (limits : Limits) (source : String) :
    (∀ f, limits.parse source = .error f →
      ∀ n, limits.runLogged n source = some (.fault f, #[])) ∧
    (∀ p, limits.parse source = .ok p → ∀ n,
      Record.lines .trace (Machine.advanceLogged p limits n {} #[.parsed p.size p.labels.size]).1 =
        p.line :: (Machine.visits p limits n {}).filterMap Visit.line? ∧
      (limits.runLogged n source).map Prod.fst = limits.run n source ∧
      ∀ o log, limits.runLogged n source = some (o, log) →
        ∃ s, Machine.run p limits n {} = some (o, s) ∧
          Record.Tells p limits (Machine.visits p limits n {}) o s log) ∧
    ∀ log, Record.lines .debug log = (Record.lines .trace log).filter (·.1 == .debug) := by
  refine ⟨fun f hf n => ?_, fun p hp n => ⟨Machine.lines_advanceLogged n, ?_, fun o log hlog => ?_⟩,
    Record.lines_debug⟩
  · simp [Limits.runLogged, hf]
  · simp [Machine.runLogged_eq hp, Limits.run, hp, Machine.run, Function.comp_def]
  · rw [Machine.runLogged_eq hp] at hlog
    obtain ⟨o', ho, he⟩ := Option.map_eq_some_iff.mp hlog
    cases he
    exact ⟨_, Machine.run_eq_some_iff.mpr ⟨_, rfl, ho⟩, Machine.tells_of_advance rfl ho⟩

def markedIncrement : Program where
  statements := #[.label "a" ⟨1, 1⟩, .instruction (.inc "x") ⟨1, 4⟩]
  labels := ⟨LabelTable.empty.declarations.insert "a" ⟨0, ⟨1, 1⟩⟩⟩
  labels_built := rfl

theorem log_of_markedIncrement :
    ({} : Limits).parse "a: inc x" = .ok markedIncrement ∧
      ∃ log, ({} : Limits).runLogged 3 "a: inc x" =
          some (.fault (.undefinedRegister "x" ⟨1, 4⟩), log) ∧
        Record.lines .trace log =
          [(.debug, "parsed 2 statements, 1 labels"), (.trace, "   1 [1:4] inc x")] := by
  have hs : Statement.parseAll "a: inc x".toList = .ok markedIncrement.statements.toList := by
    decide +kernel
  have hp : ({} : Limits).parse "a: inc x" = .ok markedIncrement := by
    rw [Limits.parse, if_neg (by decide)]
    exact Program.parse_eq_ok_iff.mpr hs
  have hr : Machine.run markedIncrement {} 3 {} =
      some (.fault (.undefinedRegister "x" ⟨1, 4⟩), { pc := 1, steps := 2 }) := by rfl
  obtain ⟨-, hfst, htells⟩ := (log_records_run {} "a: inc x").2.1 _ hp 3
  have hrun : ({} : Limits).run 3 "a: inc x" = some (.fault (.undefinedRegister "x" ⟨1, 4⟩)) := by
    simp only [Limits.run, hp, hr, Option.map_some]
  obtain ⟨⟨_, log⟩, hlog, rfl⟩ := Option.map_eq_some_iff.mp (hfst.trans hrun)
  obtain ⟨s, hs, ht⟩ := htells _ _ hlog
  cases hr.symm.trans hs
  exact ⟨hp, log, hlog, ht.told.trans (by decide +kernel)⟩

end RegAsm
