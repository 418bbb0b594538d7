import Mathlib.Algebra.Ring.Nat
import RegAsm.Proofs.Labels
import RegAsm.Proofs.Machine.Runs

/-! Programs that only jump and call downwards come to an end. Returns go back up, so the counter
alone does not tell how far a run has got: the pending returns are weighed with it. -/

namespace RegAsm

def Instruction.goal? : Instruction → Option String
  | jump _ label => some label
  | call label => some label
  | _ => none

def Statement.goal? : Statement → Option String
  | label _ _ => none
  | instruction i _ => i.goal?

def Program.Forward (p : Program) : Prop :=
  ∀ k < p.size, ∀ label ∈ p.statements[k]?.bind Statement.goal?,
    ∀ index ∈ p.labels.index? label, k < index

instance (p : Program) : Decidable p.Forward :=
  inferInstanceAs (Decidable (∀ k < p.size, ∀ label ∈ p.statements[k]?.bind Statement.goal?,
    ∀ index ∈ p.labels.index? label, k < index))

namespace Machine

variable {p : Program} {limits : Limits} {s t : State} {size j k : Nat}

lemma advance_stops {measure : State → Nat}
    (h : ∀ s t, step p limits s = (.ran, t) → measure t < measure s) {n : Nat}
    (hn : measure s < n) : (advance p limits n s).1 ≠ .ran := by
  induction n generalizing s with
  | zero => omega
  | succ n ih =>
    obtain ⟨t, ht⟩ | hs := ran_or_stopped (step p limits s)
    · rw [advance_succ_of_ran ht]
      have hlt := h s t ht
      exact ih (by omega)
    · rwa [advance_succ_of_ne_ran hs]

/-- How many statements can run from index `k` on, of `size` in all: what follows a call can run
twice. -/
def weight (size k : Nat) : Nat :=
  2 ^ (size - k) - 1

lemma weight_eq (h : k < size) : weight size k = 2 * weight size (k + 1) + 1 := by
  have hk : size - k = size - (k + 1) + 1 := by omega
  have hp : 0 < 2 ^ (size - (k + 1)) := Nat.two_pow_pos _
  rw [weight, weight, hk, Nat.pow_succ]
  omega

lemma weight_le (h : j ≤ k) : weight size k ≤ weight size j :=
  Nat.sub_le_sub_right (Nat.pow_le_pow_right (by decide) (by omega)) 1

def remaining (p : Program) (s : State) : Nat :=
  weight p.size s.pc + (s.calls.map (weight p.size)).sum

lemma Fetches.weight_eq {statement : Statement} (h : Fetches p limits s statement) :
    weight p.size s.pc = 2 * weight p.size (s.pc + 1) + 1 :=
  Machine.weight_eq (Array.getElem?_eq_some_iff.mp h.fetched).choose

lemma Fetches.weight_target_le (hp : p.Forward) {i : Instruction} {span : Span} {label : String}
    {index : Nat} (h : Fetches p limits s (.instruction i span)) (hl : i.goal? = some label)
    (ht : p.labels.target label span = .ok index) :
    weight p.size index ≤ weight p.size (s.pc + 1) := by
  have hlt : s.pc < p.size := (Array.getElem?_eq_some_iff.mp h.fetched).choose
  apply weight_le
  apply hp s.pc hlt label _ index (Program.target_eq_ok_iff.mp ht)
  rw [h.fetched]
  exact hl

lemma performs_remaining {i : Instruction} {span : Span} {e : Effect} (hp : p.Forward)
    (hf : Fetches p limits s (.instruction i span)) (hne : e ≠ .halt)
    (h : i.Performs p.labels.target limits.maxCallDepth span s.count e) :
    remaining p (s.count.apply e) < remaining p s := by
  have hw := hf.weight_eq
  cases h with
  | mov | inc | dec | arith | cmp | pass | msg =>
    simp only [remaining, State.apply, State.next, State.count]
    omega
  | jump _ ht =>
    have hi := hf.weight_target_le hp rfl ht
    simp only [remaining, State.apply, State.count]
    omega
  | call ht =>
    have hi := hf.weight_target_le hp rfl ht
    simp only [remaining, State.apply, State.count, List.map_cons, List.sum_cons]
    omega
  | @ret back rest hc =>
    -- the return address was weighed already, and the counter's own weight is gone
    have hc : s.calls = back :: rest := hc
    simp only [remaining, State.apply, State.count, hc, List.tail_cons, List.map_cons,
      List.sum_cons]
    omega
  | halt => contradiction

lemma step_remaining (hp : p.Forward) (h : step p limits s = (.ran, t)) :
    remaining p t < remaining p s := by
  have ht := step_transition p limits s
  rw [h] at ht
  cases ht with
  | label hf =>
    have hw := hf.weight_eq
    simp only [remaining, State.count]
    omega
  | ran hf hne hperf => exact performs_remaining hp hf hne hperf

/-- A program in which every jump and call to a declared label goes to a later statement ends, by
itself or with a fault, within two to the power of its size many steps. -/
theorem forward_run_ends (hp : p.Forward) (limits : Limits) :
    ∃ o t, run p limits (2 ^ p.size) {} = some (o, t) := by
  have hstart : remaining p {} < 2 ^ p.size := by
    have := Nat.two_pow_pos p.size
    simp only [remaining, weight, Nat.sub_zero, List.map_nil, List.sum_nil]
    omega
  exact exists_run_of_stopped (advance_stops (fun _ _ => step_remaining hp) hstart)

def calledTwice : Program where
  statements := #[.instruction (.call "f") ⟨1, 1⟩, .instruction (.call "f") ⟨2, 1⟩,
    .instruction (.jump .notEqual "g") ⟨3, 1⟩, .instruction .halt ⟨4, 1⟩,
    .label "f" ⟨5, 1⟩, .instruction .ret ⟨5, 4⟩]
  labels := ⟨LabelTable.empty.declarations.insert "f" ⟨4, ⟨5, 1⟩⟩⟩
  labels_built := rfl

theorem forward_calledTwice_ends :
    calledTwice.Forward ∧ ∃ o t, run calledTwice {} (2 ^ calledTwice.size) {} = some (o, t) := by
  have h : calledTwice.Forward := by decide
  exact ⟨h, forward_run_ends h {}⟩

end Machine

end RegAsm
