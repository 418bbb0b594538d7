import Mathlib.Data.Finset.Max
import RegAsm.Interpreter.Bounded
import RegAsm.Proofs.Machine.Runs

namespace RegAsm

namespace Limits

def Allows (limits : Limits) (steps depth : Nat) : Prop :=
  (∀ max, limits.maxSteps = some max → steps ≤ max.toNat) ∧
    ∀ max, limits.maxCallDepth = some max → depth ≤ max.toNat

def AtMost (a b : Option UInt64) : Prop :=
  ∀ n, b = some n → ∃ m, a = some m ∧ m ≤ n

lemma allows_zero (limits : Limits) : limits.Allows 0 0 :=
  ⟨fun _ _ => Nat.zero_le _, fun _ _ => Nat.zero_le _⟩

lemma Allows.relax {limits wider : Limits} {steps depth : Nat} (h : limits.Allows steps depth)
    (hs : AtMost limits.maxSteps wider.maxSteps)
    (hd : AtMost limits.maxCallDepth wider.maxCallDepth) : wider.Allows steps depth := by
  constructor
  · intro max hm
    obtain ⟨m, hl, hle⟩ := hs max hm
    exact (h.1 m hl).trans (UInt64.le_iff_toNat_le.mp hle)
  · intro max hm
    obtain ⟨m, hl, hle⟩ := hd max hm
    exact (h.2 m hl).trans (UInt64.le_iff_toNat_le.mp hle)

lemma forall_lt_of_not_reached {limit : Option UInt64} {used : Nat}
    (h : reached? limit used = none) {max : UInt64} (hm : limit = some max) :
    used < max.toNat := by
  subst hm
  exact reached?_eq_none_iff.mp h

lemma reached?_eq_some_iff {limit : Option UInt64} {used : Nat} {max : UInt64} :
    reached? limit used = some max ↔ limit = some max ∧ max.toNat ≤ used := by
  cases limit with
  | none => simp
  | some m =>
    simp only [reached?, Option.ite_none_right_eq_some, Option.some.injEq]
    constructor
    · rintro ⟨hle, rfl⟩
      exact ⟨rfl, hle⟩
    · rintro ⟨rfl, hle⟩
      exact ⟨hle, rfl⟩

def Admits (limits : Limits) (s : State) : Prop :=
  limits.Allows s.steps s.calls.length

end Limits

def Step.IsLimit (answer : Step) : Prop :=
  ∃ resource limit, answer = .fault (.limitExceeded resource limit)

def Outcome.IsLimit (o : Outcome) : Prop :=
  ∃ resource limit, o = .fault (.limitExceeded resource limit)

lemma Step.IsLimit.ne_ran {answer : Step} (h : answer.IsLimit) : answer ≠ .ran := by
  rintro rfl
  obtain ⟨_, _, h⟩ := h
  cases h

namespace Machine

variable {p : Program} {limits : Limits} {s t : State}

lemma effect_eq_or_reached (target : String → Span → Except Fault Nat) (maxDepth : Option UInt64)
    (span : Span) (s : State) (i : Instruction) :
    i.effect target maxDepth span s = i.effect target none span s ∨
      ∃ index max, i.effect target none span s = .ok (.call index) ∧
        Limits.reached? maxDepth s.calls.length = some max ∧
        i.effect target maxDepth span s = .error (.callDepthLimit max) := by
  -- only a call looks at the depth, and it does so once its label has been found
  cases i with
  | call label =>
    cases ht : target label span with
    | error f => exact .inl (by simp [Instruction.effect, ht, bind, Except.bind])
    | ok index =>
      cases hr : Limits.reached? maxDepth s.calls.length with
      | none => exact .inl (by simp [Instruction.effect, ht, hr, bind, Except.bind])
      | some max =>
        refine .inr ⟨index, max, ?_, rfl, ?_⟩
        · simp [Instruction.effect, ht, bind, Except.bind, pure, Except.pure]
        · simp [Instruction.effect, ht, hr, bind, Except.bind, throw, throwThe, MonadExceptOf.throw]
  | _ => exact .inl rfl

lemma step_eq_or_limit (p : Program) (limits : Limits) (s : State) :
    step p limits s = step p {} s ∨
      (step p limits s).1.IsLimit ∧
        ((∃ max, limits.maxSteps = some max ∧ max.toNat ≤ s.steps ∧
            (step p {} s).2.steps = s.steps + 1) ∨
          ∃ max, limits.maxCallDepth = some max ∧ max.toNat ≤ s.calls.length ∧
            (step p {} s).2.calls.length = s.calls.length + 1) := by
  cases hh : s.halted with
  | true => exact .inl (by simp [step, hh])
  | false =>
    cases hp : p.statements[s.pc]? with
    | none => exact .inl (by simp [step, hh, hp])
    | some statement =>
      have hu : step p {} s = execute p {} s.count statement := by simp [step, hh, hp]
      cases hr : Limits.reached? limits.maxSteps s.steps with
      | some max =>
        have hl : step p limits s = (.fault (.stepLimit max), s) := by simp [step, hh, hp, hr]
        obtain ⟨hm, hle⟩ := Limits.reached?_eq_some_iff.mp hr
        refine .inr ⟨⟨_, _, congrArg Prod.fst hl⟩, .inl ⟨max, hm, hle, ?_⟩⟩
        rw [hu, execute_steps]
        rfl
      | none =>
        have hl : step p limits s = execute p limits s.count statement := by
          simp [step, hh, hp, hr]
        rw [hl, hu]
        cases statement with
        | label name span => exact .inl rfl
        | instruction i span =>
          obtain he | ⟨index, max, hc, hd, he⟩ :=
            effect_eq_or_reached p.labels.target limits.maxCallDepth span s.count i
          · exact .inl (by rw [execute_instruction, execute_instruction, he])
          · obtain ⟨hm, hle⟩ := Limits.reached?_eq_some_iff.mp hd
            refine .inr ⟨⟨"call depth", max, ?_⟩, .inr ⟨max, hm, hle, ?_⟩⟩
            · rw [execute_instruction, he]
              rfl
            · rw [execute_instruction, hc]
              rfl

lemma Fetches.steps_lt {statement : Statement} (h : Fetches p limits s statement) {max : UInt64}
    (hm : limits.maxSteps = some max) : s.steps < max.toNat :=
  Limits.forall_lt_of_not_reached h.granted hm

lemma Transition.admits {answer : Step} (h : Transition p limits s answer t)
    (hs : limits.Admits s) : limits.Admits t := by
  cases h with
  | halted | fellOff | refused => exact hs
  | label hf | fault hf | ended hf => exact ⟨fun max hm => hf.steps_lt hm, hs.2⟩
  | @ran i span e hf hne hp =>
    refine ⟨fun max hm => ?_, fun max hm => ?_⟩
    · rw [State.apply_steps]
      exact hf.steps_lt hm
    · have hle : s.calls.length ≤ max.toNat := hs.2 max hm
      cases hp with
      | call ht hr => exact Limits.forall_lt_of_not_reached hr hm
      | ret hc =>
        have ht : s.calls.tail.length ≤ s.calls.length := by simp
        exact ht.trans hle
      | _ => exact hle

lemma step_truncates (hs : limits.Admits s) :
    (limits.Admits (step p {} s).2 ∧ step p limits s = step p {} s) ∨
      (¬ limits.Admits (step p {} s).2 ∧ (step p limits s).1.IsLimit) := by
  obtain he | ⟨hl, hc⟩ := step_eq_or_limit p limits s
  · refine .inl ⟨?_, he⟩
    rw [← he]
    exact (step_transition p limits s).admits hs
  · refine .inr ⟨fun ha => ?_, hl⟩
    obtain ⟨max, hm, hle, hn⟩ | ⟨max, hm, hle, hn⟩ := hc
    · have := ha.1 max hm
      omega
    · have := ha.2 max hm
      omega

lemma advance_truncates (hs : limits.Admits s) (n : Nat) :
    ((∀ k ≤ n, limits.Admits (advance p {} k s).2) ∧ advance p limits n s = advance p {} n s) ∨
      ((∃ k ≤ n, ¬ limits.Admits (advance p {} k s).2) ∧ (advance p limits n s).1.IsLimit) := by
  -- as long as the states are admitted the two runs are the same; the first that is not refuses
  induction n generalizing s with
  | zero =>
    refine .inl ⟨fun k hk => ?_, rfl⟩
    obtain rfl := Nat.le_zero.mp hk
    exact hs
  | succ n ih =>
    obtain ⟨ha, he⟩ | ⟨ha, hl⟩ := step_truncates (p := p) hs
    · obtain ⟨u, hu⟩ | hn := ran_or_stopped (step p {} s)
      · rw [hu] at he ha
        rw [advance_succ_of_ran he, advance_succ_of_ran hu]
        obtain ⟨hk, hr⟩ | ⟨⟨k, hk, hn⟩, hr⟩ := ih ha
        · refine .inl ⟨fun k hkn => ?_, hr⟩
          cases k with
          | zero => exact hs
          | succ k =>
            rw [advance_succ_of_ran hu]
            exact hk k (by omega)
        · refine .inr ⟨⟨k + 1, by omega, ?_⟩, hr⟩
          rwa [advance_succ_of_ran hu]
      · refine .inl ⟨fun k hkn => ?_, ?_⟩
        · cases k with
          | zero => exact hs
          | succ k =>
            rw [advance_succ_of_ne_ran hn]
            exact ha
        · rw [advance_succ_of_ne_ran hn, advance_succ_of_ne_ran (he ▸ hn), he]
    · refine .inr ⟨⟨1, by omega, ?_⟩, ?_⟩
      · rwa [advance_one]
      · rwa [advance_succ_of_ne_ran hl.ne_ran]

lemma admits_start (limits : Limits) : limits.Admits {} :=
  limits.allows_zero

def depths (p : Program) : Set Nat :=
  Set.range fun n => (advance p {} n {}).2.calls.length

section Ended

variable {budget : Nat} {answer : Step} (ht : advance p {} budget {} = (answer, t))
  (ha : answer ≠ .ran)

include ht ha

lemma advance_of_ended {k : Nat} (hk : budget ≤ k) : advance p {} k {} = (answer, t) := by
  rw [← ht]
  exact advance_of_stopped (by rwa [ht]) hk

lemma exists_isGreatest_depths : ∃ d, IsGreatest (depths p) d := by
  obtain ⟨k, -, hk⟩ := Finset.exists_max_image (Finset.range (budget + 1))
    (fun n => (advance p {} n {}).2.calls.length) ⟨0, by simp⟩
  refine ⟨_, ⟨k, rfl⟩, ?_⟩
  rintro _ ⟨n, rfl⟩
  obtain hn | hn := Nat.le_total n budget
  · exact hk n (by simpa using Nat.lt_succ_of_le hn)
  · have hb := hk budget (by simp)
    rw [ht, ← advance_of_ended ht ha hn] at hb
    exact hb

lemma admits_advance_iff {d : Nat} (hd : IsGreatest (depths p) d) :
    (∀ k ≤ budget, limits.Admits (advance p {} k {}).2) ↔ limits.Allows t.steps d := by
  constructor
  · intro h
    have hb := h budget le_rfl
    obtain ⟨⟨k, rfl⟩, -⟩ := hd
    refine ⟨fun max hm => ?_, fun max hm => ?_⟩
    · rw [ht] at hb
      exact hb.1 max hm
    · obtain hk | hk := Nat.le_total k budget
      · exact (h k hk).2 max hm
      · rw [ht, ← advance_of_ended ht ha hk] at hb
        exact hb.2 max hm
  · intro h k hk
    refine ⟨fun max hm => ?_, fun max hm => ?_⟩
    · have hle : (advance p {} k {}).2.steps ≤ (advance p {} budget {}).2.steps :=
        advance_steps_le hk {}
      rw [ht] at hle
      exact hle.trans (h.1 max hm)
    · exact (hd.2 ⟨k, rfl⟩).trans (h.2 max hm)

end Ended

lemma run_congr {other : Limits} {budget : Nat}
    (h : advance p limits budget s = advance p other budget s) :
    run p limits budget s = run p other budget s := by
  simp only [run, h]

lemma run_of_isLimit {budget : Nat} (h : (advance p limits budget s).1.IsLimit) :
    ∃ o u, run p limits budget s = some (o, u) ∧ o.IsLimit := by
  obtain ⟨resource, limit, ha⟩ := h
  refine ⟨_, _, run_eq_some_iff.mpr ⟨_, rfl, ?_⟩, resource, limit, rfl⟩
  rw [ha]
  rfl

lemma run_eq_or_isLimit (p : Program) (limits : Limits) (budget : Nat) :
    run p limits budget {} = run p {} budget {} ∨
      ∃ o u, run p limits budget {} = some (o, u) ∧ o.IsLimit := by
  obtain ⟨-, he⟩ | ⟨-, hl⟩ := advance_truncates (p := p) (admits_start limits) budget
  · exact .inl (run_congr he)
  · exact .inr (run_of_isLimit hl)

lemma run_relax {wider : Limits} {budget : Nat} {o : Outcome}
    (h : run p limits budget {} = some (o, t)) (ho : ¬ o.IsLimit)
    (hs : Limits.AtMost limits.maxSteps wider.maxSteps)
    (hd : Limits.AtMost limits.maxCallDepth wider.maxCallDepth) :
    run p wider budget {} = some (o, t) := by
  obtain ⟨hk, he⟩ | ⟨-, hl⟩ := advance_truncates (p := p) (admits_start limits) budget
  · obtain ⟨-, he'⟩ | ⟨⟨k, hkb, hn⟩, -⟩ := advance_truncates (p := p) (admits_start wider) budget
    · rw [← h, run_congr he, run_congr he']
    · exact (hn ((hk k hkb).relax hs hd)).elim
  · obtain ⟨o', u, hr, hl⟩ := run_of_isLimit hl
    rw [h] at hr
    cases hr
    exact (ho hl).elim

lemma run_of_ended {budget : Nat} {o : Outcome} (h : run p {} budget {} = some (o, t)) :
    ∃ d, IsGreatest (depths p) d ∧
      (limits.Allows t.steps d → run p limits budget {} = some (o, t)) ∧
      (¬ limits.Allows t.steps d → ∃ o' u, run p limits budget {} = some (o', u) ∧ o'.IsLimit) := by
  obtain ⟨answer, ht, ho⟩ := run_eq_some_iff.mp h
  have ha := ne_ran_of_outcome ho
  obtain ⟨d, hd⟩ := exists_isGreatest_depths ht ha
  have hi : _ ↔ limits.Allows t.steps d := admits_advance_iff ht ha hd
  refine ⟨d, hd, fun hl => ?_, fun hl => ?_⟩
  · obtain ⟨-, he⟩ | ⟨⟨k, hk, hn⟩, -⟩ := advance_truncates (p := p) (admits_start limits) budget
    · rw [run_congr he, h]
    · exact (hn (hi.mpr hl k hk)).elim
  · obtain ⟨hk, -⟩ | ⟨-, hr⟩ := advance_truncates (p := p) (admits_start limits) budget
    · exact (hl (hi.mp hk)).elim
    · exact run_of_isLimit hr

end Machine

lemma Limits.run_eq_or_isLimit (limits : Limits) (budget : Nat) (source : String) :
    limits.run budget source = interpret budget source ∨
      ∃ o, limits.run budget source = some o ∧ o.IsLimit := by
  by_cases hsize : limits.maxSourceBytes.toNat < source.utf8ByteSize
  · have hp : limits.parse source = .error (.sourceSizeLimit limits.maxSourceBytes) := if_pos hsize
    exact .inr ⟨.fault (.sourceSizeLimit limits.maxSourceBytes), by simp [run, hp], _, _, rfl⟩
  · have hp : limits.parse source = Program.parse source := if_neg hsize
    simp only [run, interpret, hp]
    cases Program.parse source with
    | error f => exact .inl rfl
    | ok p =>
      obtain he | ⟨o, u, hr, hl⟩ := Machine.run_eq_or_isLimit p limits budget
      · exact .inl (congrArg (Option.map Prod.fst) he)
      · exact .inr ⟨o, by simp [hr], hl⟩

/-- Limits only cut a run short. A run that they do not refuse is the run without them, under them
as under any wider ones; the run without them is refused exactly if its count of statements or its
greatest call depth is above a limit; a limit of `max` steps ends every run within `max + 1`; and
from its text on, a program under limits does what it does without them or is refused. -/
theorem run_is_truncation (p : Program) (limits : Limits) :
    (∀ budget o t, Machine.run p limits budget {} = some (o, t) → ¬ o.IsLimit →
      Machine.run p {} budget {} = some (o, t) ∧
        ∀ wider : Limits, Limits.AtMost limits.maxSteps wider.maxSteps →
          Limits.AtMost limits.maxCallDepth wider.maxCallDepth →
          Machine.run p wider budget {} = some (o, t)) ∧
    (∀ budget o t, Machine.run p {} budget {} = some (o, t) →
      ∃ d, IsGreatest (Machine.depths p) d ∧
        (limits.Allows t.steps d → Machine.run p limits budget {} = some (o, t)) ∧
        (¬ limits.Allows t.steps d →
          ∃ o' u, Machine.run p limits budget {} = some (o', u) ∧ o'.IsLimit)) ∧
    (∀ max, limits.maxSteps = some max → (Machine.run p limits (max.toNat + 1) {}).isSome) ∧
    ∀ budget source, limits.run budget source = interpret budget source ∨
      ∃ o, limits.run budget source = some o ∧ o.IsLimit := by
  refine ⟨fun budget o t h ho => ⟨?_, fun wider hs hd => Machine.run_relax h ho hs hd⟩,
    fun budget o t h => Machine.run_of_ended h, fun max hm => Machine.run_isSome p hm,
    limits.run_eq_or_isLimit⟩
  exact Machine.run_relax h ho (fun _ hn => by cases hn) (fun _ hn => by cases hn)

end RegAsm
