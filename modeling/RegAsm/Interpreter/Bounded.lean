import RegAsm.Interpreter
import RegAsm.Machine.Effect

namespace RegAsm

namespace Machine

variable {p : Program} {limits : Limits}

theorem step_ran {s t : State} (h : step p limits s = (.ran, t)) :
    Limits.reached? limits.maxSteps s.steps = none ∧ t.steps = s.steps + 1 := by
  unfold step at h
  split at h
  · cases h
  · split at h
    · cases h
    · split at h
      · cases h
      · rename_i statement _ _ hg
        have hsteps := execute_steps p limits s.count statement
        rw [h] at hsteps
        exact ⟨hg, hsteps⟩

theorem advance_ne_ran {max : UInt64} (hm : limits.maxSteps = some max) {n : Nat} {s : State}
    (hs : s.steps ≤ max.toNat) (hn : max.toNat < s.steps + n) :
    (advance p limits n s).1 ≠ .ran := by
  induction n generalizing s with
  | zero => omega
  | succ n ih =>
    rw [advance]
    split
    · rename_i t ht
      obtain ⟨hr, hc⟩ := step_ran ht
      rw [hm, Limits.reached?_eq_none_iff] at hr
      exact ih (by omega) (by omega)
    · rename_i answer t hne _
      exact hne

theorem run_isSome (p : Program) {max : UInt64} (hm : limits.maxSteps = some max) :
    (run p limits (max.toNat + 1) {}).isSome := by
  have h : (advance p limits (max.toNat + 1) {}).1 ≠ .ran :=
    advance_ne_ran hm (Nat.zero_le _) (by simp)
  revert h
  rw [run]
  generalize advance p limits (max.toNat + 1) {} = r
  obtain ⟨answer, t⟩ := r
  cases answer <;> simp [Step.outcome?]

end Machine

theorem Limits.run_isSome {limits : Limits} {max : UInt64} (hm : limits.maxSteps = some max)
    (source : String) : (limits.run (max.toNat + 1) source).isSome := by
  unfold run
  split
  · rfl
  · simp [Machine.run_isSome _ hm]

def Limits.outcome (limits : Limits) (max : UInt64) (hm : limits.maxSteps = some max)
    (source : String) : Outcome :=
  (limits.run (max.toNat + 1) source).get (run_isSome hm source)

end RegAsm
