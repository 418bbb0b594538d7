import RegAsm.Machine.Effect
import RegAsm.Proofs.Labels

/-! Programs without label declarations: instructions alone, every label being the number of
instructions before it. -/

namespace RegAsm

def Statement.code? : Statement → Option (Instruction × Span)
  | label _ _ => none
  | instruction i span => some (i, span)

structure FlatCode where
  code : List (Instruction × Span)
  labels : String → Option Nat

namespace FlatCode

def target (f : FlatCode) (name : String) (span : Span) : Except Fault Nat :=
  match f.labels name with
  | some index => .ok index
  | none => .error (.undefinedLabel name span)

def instructionAt (f : FlatCode) (s : State) : Option (Instruction × Span) :=
  if s.halted then none else f.code[s.pc]?

variable (f : FlatCode) (maxDepth : Option UInt64)

def step (s : State) : Step × State :=
  if s.halted then (.halted, s)
  else
    match f.code[s.pc]? with
    | none => (.fellOff, s)
    | some (i, span) => Step.ofEffect s.count (i.effect f.target maxDepth span s.count)

def advance : Nat → State → Step × State
  | 0, s => (.ran, s)
  | n + 1, s =>
    match step f maxDepth s with
    | (.ran, t) => advance n t
    | (answer, t) => (answer, t)

def run (budget : Nat) (s : State) : Option (Outcome × State) :=
  let (answer, t) := advance f maxDepth budget s
  (answer.outcome? t).map (·, t)

end FlatCode

namespace Program

def position (p : Program) (k : Nat) : Nat :=
  ((p.statements.toList.take k).filterMap Statement.code?).length

def flat (p : Program) : FlatCode where
  code := p.statements.toList.filterMap Statement.code?
  labels name := (p.statements.toList.findIdx? (·.label? = some name)).map p.position

variable {p : Program} {k : Nat}

lemma position_succ (p : Program) (k : Nat) :
    p.position (k + 1) = p.position k + (p.statements[k]?.bind Statement.code?).toList.length := by
  rw [position, List.take_add_one, List.filterMap_append, List.length_append, position,
    Array.getElem?_toList]
  cases p.statements[k]? with
  | none => rfl
  | some s => cases s <;> rfl

lemma position_of_label {name : String} {span : Span}
    (h : p.statements[k]? = some (.label name span)) : p.position (k + 1) = p.position k := by
  rw [position_succ, h]
  rfl

lemma position_of_instruction {i : Instruction} {span : Span}
    (h : p.statements[k]? = some (.instruction i span)) :
    p.position (k + 1) = p.position k + 1 := by
  rw [position_succ, h]
  rfl

lemma code_position (p : Program) (k : Nat) :
    p.flat.code[p.position k]? = ((p.statements.toList.drop k).filterMap Statement.code?).head? := by
  have hs : p.flat.code = (p.statements.toList.take k).filterMap Statement.code? ++
      (p.statements.toList.drop k).filterMap Statement.code? := by
    rw [← List.filterMap_append, List.take_append_drop]
    rfl
  rw [hs, position, List.getElem?_append_right (Nat.le_refl _), Nat.sub_self,
    List.head?_eq_getElem?]

lemma code_of_instruction {i : Instruction} {span : Span}
    (h : p.statements[k]? = some (.instruction i span)) :
    p.flat.code[p.position k]? = some (i, span) := by
  obtain ⟨hk, he⟩ := List.getElem?_eq_some_iff.mp (Array.getElem?_toList ▸ h)
  rw [code_position, List.drop_eq_getElem_cons hk, he]
  rfl

lemma code_of_end (h : p.statements[k]? = none) : p.flat.code[p.position k]? = none := by
  have hk : p.statements.toList.length ≤ k := by simpa using h
  rw [code_position, List.drop_of_length_le hk]
  rfl

lemma flat_labels (p : Program) (name : String) :
    p.flat.labels name = (p.labels.index? name).map p.position := by
  apply congrArg (Option.map p.position)
  cases h : p.statements.toList.findIdx? (·.label? = some name) with
  | none =>
    rw [List.findIdx?_eq_none_iff] at h
    symm
    rw [Option.eq_none_iff_forall_ne_some]
    intro k hk
    obtain ⟨span, hs⟩ := index?_eq_some_iff.mp hk
    have hl := h _ (Array.mem_toList_iff.mpr (Array.mem_of_getElem? hs))
    exact of_decide_eq_false hl rfl
  | some k =>
    obtain ⟨hk, hl, -⟩ := List.findIdx?_eq_some_iff_getElem.mp h
    obtain ⟨span, hs⟩ := Statement.label?_eq_some_iff.mp (of_decide_eq_true hl)
    have he : p.statements[k]? = some (.label name span) := by
      rw [← Array.getElem?_toList, List.getElem?_eq_getElem hk, hs]
    exact (index?_eq_some_iff.mpr ⟨span, he⟩).symm

lemma flat_target (p : Program) (name : String) (span : Span) :
    p.flat.target name span = (p.labels.target name span).map p.position := by
  rw [FlatCode.target, flat_labels, LabelTable.target]
  cases p.labels.index? name <;> rfl

end Program

end RegAsm
