import RegAsm.Proofs.Reading.Grammar

/-! Statements that can be written down, which are those that reading makes. -/

namespace RegAsm

open Text

def IsName (name : String) : Prop :=
  isIdentifier name.toList = true

namespace Operand

def WellFormed : Operand → Prop
  | immediate _ => True
  | register name => IsName name

lemma Spells.wellFormed {w : List Char} {o : Operand} (h : Spells w o) : o.WellFormed := by
  cases h with
  | immediate => trivial
  | register hi => simpa [WellFormed, IsName] using hi

end Operand

def MessagePart.WellFormed : MessagePart → Prop
  | text content => ∀ c ∈ content.toList, isQuote c = false ∧ c ≠ '\n'
  | value operand => operand.WellFormed

namespace Instruction

def WellFormed : Instruction → Prop
  | mov dst src => IsName dst ∧ src.WellFormed
  | inc reg => IsName reg
  | dec reg => IsName reg
  | arith _ dst src => IsName dst ∧ src.WellFormed
  | cmp lhs rhs => lhs.WellFormed ∧ rhs.WellFormed
  | jump _ label => IsName label
  | call label => IsName label
  | ret => True
  | msg parts => ∀ p ∈ parts, p.WellFormed
  | halt => True

end Instruction

def Statement.WellFormed : Statement → Prop
  | label name _ => IsName name
  | instruction i _ => i.WellFormed

instance : DecidablePred IsName :=
  fun name => inferInstanceAs (Decidable (isIdentifier name.toList = true))

instance : DecidablePred Operand.WellFormed
  | .immediate _ => inferInstanceAs (Decidable True)
  | .register name => inferInstanceAs (Decidable (IsName name))

instance : DecidablePred MessagePart.WellFormed
  | .text content => List.decidableBAll (fun c => isQuote c = false ∧ c ≠ '\n') content.toList
  | .value operand => inferInstanceAs (Decidable operand.WellFormed)

instance : DecidablePred Instruction.WellFormed
  | .mov dst src => inferInstanceAs (Decidable (IsName dst ∧ src.WellFormed))
  | .inc reg => inferInstanceAs (Decidable (IsName reg))
  | .dec reg => inferInstanceAs (Decidable (IsName reg))
  | .arith _ dst src => inferInstanceAs (Decidable (IsName dst ∧ src.WellFormed))
  | .cmp lhs rhs => inferInstanceAs (Decidable (lhs.WellFormed ∧ rhs.WellFormed))
  | .jump _ label => inferInstanceAs (Decidable (IsName label))
  | .call label => inferInstanceAs (Decidable (IsName label))
  | .ret => inferInstanceAs (Decidable True)
  | .msg parts => inferInstanceAs (Decidable (∀ p ∈ parts, p.WellFormed))
  | .halt => inferInstanceAs (Decidable True)

instance : DecidablePred Statement.WellFormed
  | .label name _ => inferInstanceAs (Decidable (IsName name))
  | .instruction i _ => inferInstanceAs (Decidable i.WellFormed)

lemma Form.Builds.wellFormed {m : Mnemonic} {form : Form} {ws : List (List Char)} {i : Instruction}
    (hf : m.form? = some form) (h : form.Builds ws i) : i.WellFormed := by
  have hname : ∀ {w}, isIdentifier w = true → IsName (String.ofList w) := by
    intro w hw
    simpa [IsName] using hw
  cases h with
  | plain => cases m <;> cases hf <;> trivial
  | update hi => cases m <;> cases hf <;> exact hname hi
  | assign hi ho => cases m <;> cases hf <;> exact ⟨hname hi, ho.wellFormed⟩
  | compare hl hr =>
    cases m <;> cases hf
    exact ⟨hl.wellFormed, hr.wellFormed⟩
  | branch hi => cases m <;> cases hf <;> exact hname hi

namespace Message

lemma quoted_mem_lexemes {offset start : Nat} {cs content : List Char}
    (h : .quoted start content ∈ lexemes offset cs) :
    ∀ c ∈ content, isQuote c = false ∧ c ∈ cs := by
  fun_induction lexemes offset cs with
  | case1 => cases h
  | case2 offset c cs hs ih =>
    intro d hd
    exact (ih h d hd).imp_right (List.mem_cons_of_mem c)
  | case3 => simp at h
  | case4 offset c cs hs hq d rest hd body =>
    rename_i ih
    have hrest : ∀ e ∈ rest, e ∈ cs := by
      intro e he
      rw [eq_quoted_append hd]
      exact List.mem_append_right _ (List.mem_cons_of_mem _ he)
    intro e he
    obtain h | h := List.mem_cons.mp h
    · obtain ⟨-, rfl⟩ := Lexeme.quoted.inj h
      have hin : inQuotes e = true := List.mem_takeWhile_imp he
      have hmem : e ∈ cs := (List.takeWhile_prefix _).mem he
      exact ⟨by simpa [inQuotes] using hin, List.mem_cons_of_mem c hmem⟩
    · obtain ⟨hne, hmem⟩ := ih h e he
      exact ⟨hne, List.mem_cons_of_mem c (hrest e hmem)⟩
  | case5 offset c cs hs hq word =>
    rename_i ih
    obtain h | h := List.mem_cons.mp h
    · cases h
    · intro e he
      obtain ⟨hne, hmem⟩ := ih h e he
      exact ⟨hne, List.mem_cons_of_mem c ((List.dropWhile_suffix _).mem hmem)⟩

lemma wellFormed_of_spells {ls : List Lexeme} {ps : List MessagePart}
    (h : List.Forall₂ Lexeme.Spells ls ps)
    (hq : ∀ start content, .quoted start content ∈ ls →
      ∀ c ∈ content, isQuote c = false ∧ c ≠ '\n') : ∀ p ∈ ps, p.WellFormed := by
  induction h with
  | nil => simp
  | cons hl _ ih =>
    have hrest := ih fun start content hm => hq start content (List.mem_cons_of_mem _ hm)
    refine List.forall_mem_cons.mpr ⟨?_, hrest⟩
    cases hl with
    | quoted => simpa [MessagePart.WellFormed] using hq _ _ List.mem_cons_self
    | word ho => exact ho.wellFormed

end Message

namespace Instruction

lemma Reads.wellFormed {cs : List Char} {i : Instruction} (h : Reads cs i) (hcs : '\n' ∉ cs) :
    i.WellFormed := by
  cases h with
  | form _ hf hb => exact hb.wellFormed hf
  | @msg m ps _ _ hps =>
    have hrest : ∀ c ∈ (cutWord cs).2, c ∈ cs := by
      intro c hc
      exact (List.dropWhile_suffix _).mem ((List.dropWhile_suffix _).mem hc)
    apply Message.wellFormed_of_spells hps
    intro start content hl c hc
    obtain ⟨hq, hmem⟩ := Message.quoted_mem_lexemes hl c hc
    exact ⟨hq, fun he => hcs (he ▸ hrest c hmem)⟩

end Instruction

namespace Grammar

lemma Body.wellFormed {span : Span} {body : List Char} {ss : List Statement}
    (h : Body span body ss) (hb : '\n' ∉ body) : ∀ s ∈ ss, s.WellFormed := by
  have hname : ∀ {name : List Char} {place}, isIdentifier name = true →
      (Statement.label (String.ofList name) place).WellFormed := by
    intro name place h
    simpa [Statement.WellFormed, IsName] using h
  cases h with
  | empty => simp
  | label hn => simpa using hname hn
  | code _ hi =>
    have hw := (Instruction.read_eq_ok_iff.mp hi).wellFormed hb
    simpa [Statement.WellFormed] using hw
  | labelled hn _ _ _ hi =>
    have hw := (Instruction.read_eq_ok_iff.mp hi).wellFormed (fun hm => hb (by simp [hm]))
    exact List.forall_mem_cons.mpr ⟨hname hn, List.forall_mem_singleton.mpr hw⟩

lemma Lines.wellFormed {n : Nat} {raws : List (List Char)} {ss : List Statement}
    (h : Lines n raws ss) (hraws : ∀ raw ∈ raws, '\n' ∉ raw) : ∀ s ∈ ss, s.WellFormed := by
  induction h with
  | nil => simp
  | cons hl _ ih =>
    obtain ⟨hraw, hrest⟩ := List.forall_mem_cons.mp hraws
    obtain ⟨_, _, _, hbody, rfl⟩ := hl
    intro s hs
    obtain hs | hs := List.mem_append.mp hs
    · exact hbody.wellFormed (fun hm => hraw (by simp [hm])) s hs
    · exact ih hrest s hs

end Grammar

theorem Statement.wellFormed_of_parseAll {source : List Char} {ss : List Statement}
    (h : Statement.parseAll source = .ok ss) : ∀ s ∈ ss, s.WellFormed :=
  (Grammar.parseAll_eq_ok_iff.mp h).wellFormed fun _ => newline_notMem_of_mem_lines

end RegAsm
