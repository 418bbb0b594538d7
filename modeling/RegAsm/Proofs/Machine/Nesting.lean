import Mathlib.Logic.Function.Iterate
import RegAsm.Proofs.Machine.Runs

namespace RegAsm.Machine

variable {p : Program} {limits : Limits} {s t : State} {label : String} {span : Span}

def after (p : Program) (limits : Limits) (n : Nat) (s : State) : State :=
  (fun u => (step p limits u).2)^[n] s

lemma after_zero (s : State) : after p limits 0 s = s := rfl

lemma after_succ (n : Nat) (s : State) :
    after p limits (n + 1) s = (step p limits (after p limits n s)).2 :=
  Function.iterate_succ_apply' _ n s

def Returns (p : Program) (limits : Limits) (s : State) : Prop :=
  (∃ span, p.statements[s.pc]? = some (.instruction .ret span)) ∧ (step p limits s).1 = .ran

lemma performs_calls {i : Instruction} {e : Effect}
    (h : i.Performs p.labels.target limits.maxCallDepth span s e) :
    (s.apply e).calls = s.calls ∨ (s.apply e).calls = (s.pc + 1) :: s.calls ∨
      i = .ret ∧ s.calls = (s.apply e).pc :: (s.apply e).calls := by
  cases h with
  | call => exact .inr (.inl rfl)
  | ret hs =>
    refine .inr (.inr ⟨rfl, ?_⟩)
    simp only [State.apply, hs, List.tail_cons]
  | _ => exact .inl rfl

lemma step_calls (p : Program) (limits : Limits) (s : State) :
    (step p limits s).2.calls = s.calls ∨
      (step p limits s).2.calls = (s.pc + 1) :: s.calls ∨
      Returns p limits s ∧ s.calls = (step p limits s).2.pc :: (step p limits s).2.calls := by
  have h := step_transition p limits s
  unfold Returns
  generalize (step p limits s).1 = answer at h ⊢
  generalize (step p limits s).2 = t at h ⊢
  cases h with
  | halted | fellOff | refused | label | fault | ended => exact .inl rfl
  | ran hf _ hp =>
    obtain hk | hc | ⟨rfl, hr⟩ := performs_calls hp
    · exact .inl hk
    · exact .inr (.inl hc)
    · exact .inr (.inr ⟨⟨⟨_, hf.fetched⟩, rfl⟩, hr⟩)

lemma calls_of_call (hs : p.statements[s.pc]? = some (.instruction (.call label) span))
    (h : step p limits s = (.ran, t)) : t.calls = (s.pc + 1) :: s.calls := by
  have ht := step_transition p limits s
  rw [h] at ht
  cases ht with
  | label hf => cases hs.symm.trans hf.fetched
  | ran hf _ hp =>
    cases hs.symm.trans hf.fetched
    cases hp
    rfl

section Frame

variable {frame : List Nat} {back n : Nat}

lemma frame_kept (ht : t.calls = back :: frame)
    (h : ∀ k ≤ n, frame.length < (after p limits k t).calls.length) :
    back :: frame <:+ (after p limits n t).calls := by
  induction n with
  | zero => exact ⟨[], ht.symm⟩
  | succ n ih =>
    -- a step that took `back` away would leave the depth at that of `frame`
    have hn := ih fun k hk => h k (by omega)
    have hd := h (n + 1) (Nat.le_refl _)
    rw [after_succ] at hd ⊢
    obtain hs | hs | ⟨-, hs⟩ := step_calls p limits (after p limits n t)
    · rwa [hs]
    · rw [hs]
      exact List.suffix_cons_iff.mpr (.inr hn)
    · rw [hs, List.suffix_cons_iff] at hn
      apply hn.resolve_left
      intro he
      have := congrArg List.length he
      simp only [List.length_cons] at this
      omega

lemma deeper_of_ne (ht : t.calls = back :: frame)
    (h : ∀ k ≤ n, (after p limits k t).calls.length ≠ frame.length) :
    ∀ k ≤ n, frame.length < (after p limits k t).calls.length := by
  intro k hk
  induction k with
  | zero =>
    rw [after_zero, ht]
    exact Nat.lt_succ_self _
  | succ k ih =>
    have hd := ih (by omega)
    have hne := h (k + 1) hk
    rw [after_succ] at hne ⊢
    obtain hs | hs | ⟨-, hs⟩ := step_calls p limits (after p limits k t)
    · rwa [hs]
    · rw [hs, List.length_cons]
      omega
    · rw [hs, List.length_cons] at hd
      omega

lemma frame_restored (ht : t.calls = back :: frame)
    (h : ∀ k ≤ n, frame.length < (after p limits k t).calls.length)
    (hn : (after p limits (n + 1) t).calls.length = frame.length) :
    Returns p limits (after p limits n t) ∧ (after p limits (n + 1) t).calls = frame ∧
      (after p limits (n + 1) t).pc = back := by
  have hk := frame_kept ht h
  have hd := h n (Nat.le_refl _)
  rw [after_succ] at hn ⊢
  obtain hs | hs | ⟨hr, hs⟩ := step_calls p limits (after p limits n t)
  · rw [hs] at hn
    omega
  · rw [hs, List.length_cons] at hn
    omega
  · rw [hs] at hk
    have he := hk.eq_of_length (by simp [hn])
    obtain ⟨hpc, hcalls⟩ := List.cons.inj he
    exact ⟨hr, hcalls.symm, hpc.symm⟩

end Frame

/-- A call puts its return address on the stack. That and the stack below stay as they are while the
depth is greater than before the call. When the depth is first again what it was, this is through a
`ret`, the stack is what it was, and the counter is at the statement after the call. -/
theorem calls_nest (hs : p.statements[s.pc]? = some (.instruction (.call label) span))
    (h : step p limits s = (.ran, t)) :
    t.calls = (s.pc + 1) :: s.calls ∧
    (∀ n, (∀ k ≤ n, s.calls.length < (after p limits k t).calls.length) →
      (s.pc + 1) :: s.calls <:+ (after p limits n t).calls) ∧
    ∀ n, (∀ k ≤ n, (after p limits k t).calls.length ≠ s.calls.length) →
      (after p limits (n + 1) t).calls.length = s.calls.length →
      Returns p limits (after p limits n t) ∧ (after p limits (n + 1) t).calls = s.calls ∧
        (after p limits (n + 1) t).pc = s.pc + 1 := by
  have ht := calls_of_call hs h
  exact ⟨ht, fun n => frame_kept ht, fun n hne => frame_restored ht (deeper_of_ne ht hne)⟩

def nestedCalls : Program where
  statements := #[.instruction (.call "f") ⟨1, 1⟩, .instruction .halt ⟨2, 1⟩,
    .label "f" ⟨3, 1⟩, .instruction (.call "g") ⟨3, 4⟩, .instruction .ret ⟨4, 1⟩,
    .label "g" ⟨5, 1⟩, .instruction .ret ⟨5, 4⟩]
  labels := ⟨(LabelTable.empty.declarations.insert "f" ⟨2, ⟨3, 1⟩⟩).insert "g" ⟨5, ⟨5, 1⟩⟩⟩
  labels_built := rfl

theorem calls_nest_twice :
    [1] <:+ (after nestedCalls {} 3 { calls := [1], pc := 2, steps := 1 }).calls ∧
      Returns nestedCalls {} (after nestedCalls {} 4 { calls := [1], pc := 2, steps := 1 }) ∧
      (after nestedCalls {} 5 { calls := [1], pc := 2, steps := 1 }).calls = [] ∧
      (after nestedCalls {} 5 { calls := [1], pc := 2, steps := 1 }).pc = 1 := by
  have h : step nestedCalls {} {} = (.ran, { calls := [1], pc := 2, steps := 1 }) := by rfl
  have hn := calls_nest (p := nestedCalls) (s := {}) rfl h
  exact ⟨hn.2.1 3 (by decide), hn.2.2 4 (by decide) (by rfl)⟩

end RegAsm.Machine
