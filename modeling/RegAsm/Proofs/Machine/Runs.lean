import RegAsm.Proofs.Machine.Transition

/-! Many steps: how they compose, and what they keep. -/

namespace RegAsm.Machine

variable {p : Program} {limits : Limits} {s t : State}

lemma advance_succ_of_ran (h : step p limits s = (.ran, t)) (n : Nat) :
    advance p limits (n + 1) s = advance p limits n t := by
  simp only [advance, h]

lemma advance_succ_of_ne_ran (h : (step p limits s).1 ≠ .ran) (n : Nat) :
    advance p limits (n + 1) s = step p limits s := by
  rw [advance]
  split
  · rename_i hs
    exact (h (congrArg Prod.fst hs)).elim
  · rename_i hs
    exact hs.symm

lemma ran_or_stopped (r : Step × State) : (∃ t, r = (.ran, t)) ∨ r.1 ≠ .ran := by
  obtain ⟨answer, t⟩ := r
  by_cases h : answer = .ran
  · exact .inl ⟨t, by rw [h]⟩
  · exact .inr h

lemma advance_one (s : State) : advance p limits 1 s = step p limits s := by
  obtain ⟨u, hu⟩ | hs := ran_or_stopped (step p limits s)
  · rw [advance_succ_of_ran hu, advance, hu]
  · exact advance_succ_of_ne_ran hs 0

lemma advance_add_of_ran {m : Nat} (h : advance p limits m s = (.ran, t)) (n : Nat) :
    advance p limits (m + n) s = advance p limits n t := by
  induction m generalizing s with
  | zero =>
    cases h
    rw [Nat.zero_add]
  | succ m ih =>
    rw [Nat.succ_add]
    obtain ⟨u, hu⟩ | hs := ran_or_stopped (step p limits s)
    · rw [advance_succ_of_ran hu] at h ⊢
      exact ih h
    · rw [advance_succ_of_ne_ran hs] at h
      exact (hs (congrArg Prod.fst h)).elim

lemma advance_of_stopped {m n : Nat} (h : (advance p limits m s).1 ≠ .ran) (hn : m ≤ n) :
    advance p limits n s = advance p limits m s := by
  induction m generalizing s n with
  | zero => exact (h rfl).elim
  | succ m ih =>
    obtain ⟨n, rfl⟩ := Nat.exists_eq_succ_of_ne_zero (by omega : n ≠ 0)
    obtain ⟨u, hu⟩ | hs := ran_or_stopped (step p limits s)
    · rw [Nat.succ_eq_add_one, advance_succ_of_ran hu, advance_succ_of_ran hu]
      rw [advance_succ_of_ran hu] at h
      exact ih h (by omega)
    · rw [Nat.succ_eq_add_one, advance_succ_of_ne_ran hs, advance_succ_of_ne_ran hs]

lemma advance_keeps {P : State → Prop} (hs : ∀ s, P s → P (step p limits s).2) (n : Nat)
    (h : P s) : P (advance p limits n s).2 := by
  induction n generalizing s with
  | zero => exact h
  | succ n ih =>
    have hh := hs s h
    rw [advance]
    split
    · rename_i u hu
      rw [hu] at hh
      exact ih hh
    · rename_i hu
      rwa [hu] at hh

lemma apply_halted {e : Effect} (h : e ≠ .halt) : (s.apply e).halted = s.halted := by
  cases e with
  | halt => exact (h rfl).elim
  | _ => rfl

lemma Transition.steps_le {answer : Step} (h : Transition p limits s answer t) :
    s.steps ≤ t.steps := by
  cases h with
  | halted | fellOff | refused => exact Nat.le_refl _
  | label | fault => exact Nat.le_succ _
  | ended | ran =>
    rw [State.apply_steps]
    exact Nat.le_succ _

lemma advance_steps_le {m n : Nat} (hn : m ≤ n) (s : State) :
    (advance p limits m s).2.steps ≤ (advance p limits n s).2.steps := by
  obtain ⟨t, ht⟩ | h := ran_or_stopped (advance p limits m s)
  · obtain ⟨k, rfl⟩ := Nat.exists_eq_add_of_le hn
    rw [advance_add_of_ran ht, ht]
    exact advance_keeps (P := fun u => t.steps ≤ u.steps)
      (fun u hu => Nat.le_trans hu (step_transition p limits u).steps_le) k (Nat.le_refl _)
  · exact Nat.le_of_eq (congrArg (fun r => r.2.steps) (advance_of_stopped h hn).symm)

lemma run_succ_of_ran (h : step p limits s = (.ran, t)) (n : Nat) :
    run p limits (n + 1) s = run p limits n t := by
  rw [run, run, advance_succ_of_ran h]

lemma run_succ_of_fault {f : Fault} (h : (step p limits s).1 = .fault f) (n : Nat) :
    ∃ t, run p limits (n + 1) s = some (.fault f, t) := by
  rw [run, advance_succ_of_ne_ran (by simp [h])]
  exact ⟨(step p limits s).2, by simp [h, Step.outcome?]⟩

lemma run_eq_some_iff {budget : Nat} {o : Outcome} :
    run p limits budget s = some (o, t) ↔
      ∃ answer, advance p limits budget s = (answer, t) ∧ answer.outcome? t = some o := by
  rw [run]
  generalize advance p limits budget s = r
  obtain ⟨answer, u⟩ := r
  simp only [Option.map_eq_some_iff, Prod.mk.injEq]
  constructor
  · rintro ⟨o', ho, rfl, rfl⟩
    exact ⟨answer, ⟨rfl, rfl⟩, ho⟩
  · rintro ⟨_, ⟨rfl, rfl⟩, ho⟩
    exact ⟨o, ho, rfl, rfl⟩

lemma ne_ran_of_outcome {answer : Step} {o : Outcome} (h : answer.outcome? t = some o) :
    answer ≠ .ran := by
  rintro rfl
  cases h

lemma exists_run_of_stopped {budget : Nat} (h : (advance p limits budget s).1 ≠ .ran) :
    ∃ o t, run p limits budget s = some (o, t) := by
  simp only [run_eq_some_iff]
  generalize advance p limits budget s = r at h
  obtain ⟨answer, t⟩ := r
  cases answer with
  | ran => contradiction
  | halted | fellOff | fault => exact ⟨_, t, _, rfl, rfl⟩

end RegAsm.Machine
