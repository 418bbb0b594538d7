import RegAsm.Proofs.Machine.Blame
import RegAsm.Proofs.Machine.Truncation

namespace RegAsm

inductive Request where
  | step
  | run
deriving DecidableEq, Repr

inductive Answer where
  | step (answer : Step)
  | run (outcome : Outcome)
deriving DecidableEq, Repr

def Answer.outcome? (t : State) : Answer → Option Outcome
  | step answer => answer.outcome? t
  | run outcome => some outcome

def Outcome.step : Outcome → Step
  | output _ => .halted
  | fellOff => .fellOff
  | fault f => .fault f

def Outcome.answer (o : Outcome) : Request → Answer
  | .step => .step o.step
  | .run => .run o

lemma Step.outcome?_eq_some {answer : Step} {t : State} {o : Outcome}
    (h : answer.outcome? t = some o) : answer = o.step := by
  cases answer <;> cases h <;> rfl

namespace Machine

inductive Answers (p : Program) (limits : Limits) (s : State) : Request → Answer → State → Prop
  | step {answer t} : step p limits s = (answer, t) → Answers p limits s .step (.step answer) t
  | run {budget o t} : run p limits budget s = some (o, t) → Answers p limits s .run (.run o) t

/-- A machine in the state `s` gives these answers to requests made one after another. -/
inductive Serves (p : Program) (limits : Limits) :
    State → List Request → List Answer → State → Prop
  | nil {s} : Serves p limits s [] [] s
  | cons {s t u r a rs as} : Answers p limits s r a t → Serves p limits t rs as u →
      Serves p limits s (r :: rs) (a :: as) u

def Ends (p : Program) (limits : Limits) (s : State) (o : Outcome) (t : State) : Prop :=
  ∃ answer, step p limits s = (answer, t) ∧ answer.outcome? t = some o

variable {p : Program} {limits : Limits} {s t u : State} {o : Outcome} {f : Fault}

lemma ends_of_fault (h : step p limits s = (.fault f, t)) : Ends p limits s (.fault f) t :=
  ⟨_, h, rfl⟩

lemma Ends.step_eq_fault (h : Ends p limits s (.fault f) t) : step p limits s = (.fault f, t) := by
  obtain ⟨answer, hs, ho⟩ := h
  rw [hs, Step.outcome?_eq_some ho]
  rfl

lemma exists_last_step {n : Nat} {answer : Step} (h : advance p limits n s = (answer, t))
    (ha : answer ≠ .ran) : ∃ u, step p limits u = (answer, t) := by
  induction n generalizing s with
  | zero =>
    cases h
    contradiction
  | succ n ih =>
    obtain ⟨u, hu⟩ | hs := ran_or_stopped (step p limits s)
    · rw [advance_succ_of_ran hu] at h
      exact ih h
    · rw [advance_succ_of_ne_ran hs] at h
      exact ⟨s, h⟩

lemma Answers.exists_ends {r : Request} {a : Answer} (h : Answers p limits s r a t)
    (ho : a.outcome? t = some o) : ∃ u, Ends p limits u o t := by
  cases h with
  | step hs => exact ⟨s, _, hs, ho⟩
  | run hr =>
    cases ho
    obtain ⟨answer, ha, ho⟩ := run_eq_some_iff.mp hr
    obtain ⟨u, hu⟩ := exists_last_step ha (ne_ran_of_outcome ho)
    exact ⟨u, answer, hu, ho⟩

lemma Ends.answers_iff (h : Ends p limits s o t) {r : Request} {a : Answer} :
    Answers p limits s r a u ↔ a = o.answer r ∧ u = t := by
  obtain ⟨answer, hs, ho⟩ := h
  have hne : (Machine.step p limits s).1 ≠ .ran := by
    rw [hs]
    exact ne_ran_of_outcome ho
  constructor
  · intro ha
    cases ha with
    | step hs' =>
      cases hs.symm.trans hs'
      exact ⟨congrArg Answer.step (Step.outcome?_eq_some ho), rfl⟩
    | @run budget _ _ hr =>
      obtain ⟨answer', ha', ho'⟩ := run_eq_some_iff.mp hr
      cases budget with
      | zero =>
        cases ha'
        cases ho'
      | succ n =>
        rw [advance_succ_of_ne_ran hne, hs] at ha'
        cases ha'
        cases ho.symm.trans ho'
        exact ⟨rfl, rfl⟩
  · rintro ⟨rfl, rfl⟩
    cases r with
    | step =>
      rw [Step.outcome?_eq_some ho] at hs
      exact .step hs
    | run =>
      have hr : Machine.run p limits 1 s = some (o, u) :=
        run_eq_some_iff.mpr ⟨answer, (advance_one s).trans hs, ho⟩
      exact .run hr

lemma serves_cons_iff (h : Ends p limits s o t) {r : Request} {rs : List Request}
    {as : List Answer} :
    Serves p limits s (r :: rs) as u ↔ ∃ bs, as = o.answer r :: bs ∧ Serves p limits t rs bs u := by
  constructor
  · rintro (_ | ⟨ha, hr⟩)
    obtain ⟨rfl, rfl⟩ := h.answers_iff.mp ha
    exact ⟨_, rfl, hr⟩
  · rintro ⟨bs, rfl, hr⟩
    exact .cons (h.answers_iff.mpr ⟨rfl, rfl⟩) hr

lemma serves_iff_of_fixed (h : Ends p limits s o s) {rs : List Request} {as : List Answer} :
    Serves p limits s rs as u ↔ as = rs.map o.answer ∧ u = s := by
  induction rs generalizing as with
  | nil =>
    constructor
    · rintro ⟨⟩
      exact ⟨rfl, rfl⟩
    · rintro ⟨rfl, rfl⟩
      exact .nil
  | cons r rs ih =>
    rw [serves_cons_iff h]
    constructor
    · rintro ⟨bs, rfl, hr⟩
      obtain ⟨rfl, rfl⟩ := ih.mp hr
      exact ⟨rfl, rfl⟩
    · rintro ⟨rfl, rfl⟩
      exact ⟨_, rfl, ih.mpr ⟨rfl, rfl⟩⟩

lemma Ends.fixed (h : Ends p limits s o t) (ho : ∀ f, o ≠ .fault f) : Ends p limits t o t := by
  obtain ⟨answer, hs, hout⟩ := h
  have ht := step_transition p limits s
  rw [hs] at ht
  cases ht with
  | halted | fellOff => exact ⟨_, hs, hout⟩
  | refused | fault =>
    cases hout
    exact (ho _ rfl).elim
  | label | ran => cases hout
  | ended => exact ⟨.halted, by simp [step], hout⟩

lemma fault_cases (h : step p limits s = (.fault f, t)) :
    (∃ max, limits.maxSteps = some max ∧ f = .stepLimit max ∧ t = s) ∨
      ∃ i span, Fetches p limits s (.instruction i span) ∧
        i.effect p.labels.target limits.maxCallDepth span s.count = .error f ∧ t = s.count := by
  have ht := step_transition p limits s
  rw [h] at ht
  cases ht with
  | refused _ _ hr => exact .inl ⟨_, (Limits.reached?_eq_some_iff.mp hr).1, rfl, rfl⟩
  | fault hf he => exact .inr ⟨_, _, hf, he, rfl⟩

lemma effect_ne_stepLimit {i : Instruction} {span : Span}
    (h : i.effect p.labels.target limits.maxCallDepth span s = .error f) (max : UInt64) :
    f ≠ .stepLimit max := by
  rintro rfl
  obtain hs | ⟨_, hd⟩ := Instruction.failsOnly_effect p.labels.failsOnly_target _ s i _ h
  · cases hs
  · have hr : "steps" = "call depth" := (Fault.limitExceeded.inj hd).1
    contradiction

lemma effect_count (target : String → Span → Except Fault Nat) (maxDepth : Option UInt64)
    (span : Span) (s : State) (i : Instruction) :
    i.effect target maxDepth span s.count = i.effect target maxDepth span s := by
  cases i <;> rfl

lemma step_fault_again (h : step p limits s = (.fault f, t)) :
    (∃ u, step p limits t = (.fault f, u)) ∨
      ∃ max, limits.maxSteps = some max ∧ step p limits t = (.fault (.stepLimit max), t) := by
  obtain ⟨_, _, _, rfl⟩ | ⟨i, span, hf, he, rfl⟩ := fault_cases h
  · exact .inl ⟨t, h⟩
  · have hh : s.count.halted = false := hf.running
    have hp : p.statements[s.count.pc]? = some (.instruction i span) := hf.fetched
    rw [← effect_count] at he
    cases hr : Limits.reached? limits.maxSteps s.count.steps with
    | some max =>
      refine .inr ⟨max, (Limits.reached?_eq_some_iff.mp hr).1, ?_⟩
      simp only [step, hh, hp, hr]
      rfl
    | none =>
      refine .inl ⟨s.count.count, ?_⟩
      simp only [step, hh, hp, hr, execute_instruction, he]
      rfl

lemma exists_serves_iff_of_fault (h : step p limits s = (.fault f, t)) (rs : List Request) :
    ∃ k g, (g = f ∨ limits.maxSteps.map .stepLimit = some g) ∧ ∀ as,
      (∃ u, Serves p limits t rs as u) ↔
        as = (rs.take k).map (Outcome.fault f).answer ++
          (rs.drop k).map (Outcome.fault g).answer := by
  induction rs generalizing s t with
  | nil =>
    refine ⟨0, f, .inl rfl, fun as => ?_⟩
    constructor
    · rintro ⟨u, ⟨⟩⟩
      rfl
    · rintro rfl
      exact ⟨t, .nil⟩
  | cons r rs ih =>
    obtain ⟨v, hv⟩ | ⟨max, hm, hv⟩ := step_fault_again h
    · obtain ⟨k, g, hg, hiff⟩ := ih hv
      refine ⟨k + 1, g, hg, fun as => ?_⟩
      simp only [serves_cons_iff (ends_of_fault hv)]
      constructor
      · rintro ⟨u, bs, rfl, hs⟩
        rw [(hiff bs).mp ⟨u, hs⟩]
        rfl
      · rintro rfl
        obtain ⟨u, hs⟩ := (hiff _).mpr rfl
        exact ⟨u, _, rfl, hs⟩
    · refine ⟨0, .stepLimit max, .inr (by rw [hm]; rfl), fun as => ?_⟩
      simp [serves_iff_of_fixed (ends_of_fault hv)]

/-- A step that fails leaves everything as it was; it is counted, unless it is refused for the count
itself. From then on steps and runs fail in the same way, until perhaps they are refused for the
count, and then always. After an end that is no failure nothing changes any more, and every request
is answered with that end. -/
theorem faults_leave_state_and_ends_last (p : Program) (limits : Limits) (s : State) :
    (∀ f t, step p limits s = (.fault f, t) →
      (∃ max, limits.maxSteps = some max ∧ f = .stepLimit max) ∧ t = s ∨
        (∀ max, f ≠ .stepLimit max) ∧ t = s.count) ∧
    (∀ r a t f, Answers p limits s r a t → a.outcome? t = some (.fault f) → ∀ rs,
      ∃ k g, (g = f ∨ limits.maxSteps.map .stepLimit = some g) ∧ ∀ as,
        (∃ u, Serves p limits t rs as u) ↔
          as = (rs.take k).map (Outcome.fault f).answer ++
            (rs.drop k).map (Outcome.fault g).answer) ∧
    ∀ r a t o, Answers p limits s r a t → a.outcome? t = some o → (∀ f, o ≠ .fault f) →
      ∀ rs as u, Serves p limits t rs as u ↔ as = rs.map o.answer ∧ u = t := by
  refine ⟨fun f t h => ?_, fun r a t f h ho rs => ?_, fun r a t o h ho hne rs as u => ?_⟩
  · obtain ⟨max, hm, hf, ht⟩ | ⟨i, span, -, he, ht⟩ := fault_cases h
    · exact .inl ⟨⟨max, hm, hf⟩, ht⟩
    · exact .inr ⟨effect_ne_stepLimit he, ht⟩
  · obtain ⟨u, hu⟩ := h.exists_ends ho
    exact exists_serves_iff_of_fault hu.step_eq_fault rs
  · obtain ⟨v, hv⟩ := h.exists_ends ho
    exact serves_iff_of_fixed (hv.fixed hne)

def loneReturn : Program where
  statements := #[.instruction .ret ⟨1, 1⟩]
  labels := .empty
  labels_built := rfl

theorem loneReturn_keeps_failing :
    Answers loneReturn { maxSteps := some 2 } {} .run (.run (.fault (.emptyCallStack ⟨1, 1⟩)))
        { steps := 1 } ∧
      ∃ k g, (g = .emptyCallStack ⟨1, 1⟩ ∨ some (.stepLimit 2) = some g) ∧ ∀ as,
        (∃ u, Serves loneReturn { maxSteps := some 2 } { steps := 1 } [.step, .run, .step] as u) ↔
          as = ([.step, .run, .step].take k).map (Outcome.fault (.emptyCallStack ⟨1, 1⟩)).answer ++
            ([.step, .run, .step].drop k).map (Outcome.fault g).answer := by
  have hr : run loneReturn { maxSteps := some 2 } 7 {} =
      some (.fault (.emptyCallStack ⟨1, 1⟩), { steps := 1 }) := by rfl
  have h := faults_leave_state_and_ends_last loneReturn { maxSteps := some 2 } {}
  exact ⟨.run hr, h.2.1 _ _ _ _ (.run hr) rfl _⟩

end Machine

end RegAsm
