import RegAsm.Proofs.Machine.Places
import RegAsm.Proofs.Reading.Intact
import RegAsm.Proofs.Text.Words

namespace RegAsm

open Text Fallible

inductive Role where
  | destination
  | source
  | target

def Role.Accepts : Role → List Char → Prop
  | destination, w => isIdentifier w = true
  | source, w => IsOperand w
  | target, w => isIdentifier w = true

namespace Mnemonic

variable {m : Mnemonic} {name : List Char}

def roles : Mnemonic → List Role
  | mov | add | sub | mul | div => [.destination, .source]
  | inc | dec => [.destination]
  | cmp => [.source, .source]
  | jmp | je | jne | jge | jg | jle | jl | call => [.target]
  | ret | msg | halt => []

lemma ofName?_eq_none_iff :
    ofName? name = none ↔ ∀ m : Mnemonic, name.map Char.toLower ≠ m.name.toList := by
  simp only [ofName?, List.find?_eq_none, beq_iff_eq]
  constructor
  · intro h m he
    exact h m (mem_all m) he.symm
  · intro h m _ he
    exact h m he.symm

lemma ofName?_of_toLower (h : name.map Char.toLower = m.name.toList) : ofName? name = some m := by
  cases hn : ofName? name with
  | none => exact (ofName?_eq_none_iff.mp hn m h).elim
  | some n =>
    have he : n.name = m.name := String.toList_injective ((name_of_ofName? hn).trans h)
    rw [name_injective he]

lemma exists_form? (h : m ≠ .msg) : ∃ form, m.form? = some form := by
  cases m with
  | msg => exact (h rfl).elim
  | _ => exact ⟨_, rfl⟩

end Mnemonic

namespace Form

variable {m : Mnemonic} {form : Form} {ws : List (List Char)}

def roles : Form → List Role
  | plain _ => []
  | update _ => [.destination]
  | assign _ => [.destination, .source]
  | compare _ => [.source, .source]
  | branch _ => [.target]

lemma length_roles (form : Form) : form.roles.length = form.arity := by
  cases form <;> rfl

lemma roles_eq (h : m.form? = some form) : form.roles = m.roles := by
  cases m <;> cases h <;> rfl

lemma exists_builds_iff : (∃ i, form.Builds ws i) ↔ List.Forall₂ Role.Accepts form.roles ws := by
  constructor
  · rintro ⟨i, h⟩
    cases h with
    | plain => exact .nil
    | update hi | branch hi => exact .cons hi .nil
    | assign hi ho => exact .cons hi (.cons (Operand.exists_spells_iff.mp ⟨_, ho⟩) .nil)
    | compare hl hr =>
      exact .cons (Operand.exists_spells_iff.mp ⟨_, hl⟩)
        (.cons (Operand.exists_spells_iff.mp ⟨_, hr⟩) .nil)
  · intro h
    cases form with
    | plain i =>
      obtain ⟨⟩ := h
      exact ⟨i, .plain⟩
    | update build =>
      obtain _ | ⟨hi, ⟨⟩⟩ := h
      exact ⟨_, .update hi⟩
    | assign build =>
      obtain _ | ⟨hi, _ | ⟨ho, ⟨⟩⟩⟩ := h
      obtain ⟨o, ho⟩ := Operand.exists_spells_iff.mpr ho
      exact ⟨_, .assign hi ho⟩
    | compare build =>
      obtain _ | ⟨hl, _ | ⟨hr, ⟨⟩⟩⟩ := h
      obtain ⟨l, hl⟩ := Operand.exists_spells_iff.mpr hl
      obtain ⟨r, hr⟩ := Operand.exists_spells_iff.mpr hr
      exact ⟨_, .compare hl hr⟩
    | branch build =>
      obtain _ | ⟨hi, ⟨⟩⟩ := h
      exact ⟨_, .branch hi⟩

lemma exists_builds_iff_roles (h : m.form? = some form) :
    (∃ i, form.Builds ws i) ↔
      m.arity? = some ws.length ∧ List.Forall₂ Role.Accepts m.roles ws := by
  rw [exists_builds_iff, roles_eq h]
  constructor
  · intro hw
    refine ⟨?_, hw⟩
    rw [Mnemonic.arity?, h, Option.map_some, ← hw.length_eq, ← roles_eq h, length_roles]
  · exact And.right

end Form

inductive Argument where
  | destination (name : String)
  | source (o : Operand)
  | target (label : String)

inductive Argument.Spells : List Char → Argument → Prop
  | destination {w} : isIdentifier w = true → Spells w (.destination (String.ofList w))
  | source {w o} : Operand.Spells w o → Spells w (.source o)
  | target {w} : isIdentifier w = true → Spells w (.target (String.ofList w))

namespace Instruction

def arguments : Instruction → List Argument
  | mov dst src | arith _ dst src => [.destination dst, .source src]
  | inc reg | dec reg => [.destination reg]
  | cmp lhs rhs => [.source lhs, .source rhs]
  | jump _ label | call label => [.target label]
  | ret | msg _ | halt => []

variable {m : Mnemonic} {form : Form} {ws : List (List Char)} {i : Instruction}

lemma mnemonic_of_builds (hf : m.form? = some form) (h : form.Builds ws i) : i.mnemonic = m := by
  cases m <;> cases hf <;> cases h <;> rfl

lemma arguments_of_builds (hf : m.form? = some form) (h : form.Builds ws i) :
    List.Forall₂ Argument.Spells ws i.arguments := by
  cases m with
  | mov | add | sub | mul | div =>
    obtain ⟨⟩ := hf
    cases h with
    | assign hi ho => exact .cons (.destination hi) (.cons (.source ho) .nil)
  | inc | dec =>
    obtain ⟨⟩ := hf
    cases h with
    | update hi => exact .cons (.destination hi) .nil
  | cmp =>
    obtain ⟨⟩ := hf
    cases h with
    | compare hl hr => exact .cons (.source hl) (.cons (.source hr) .nil)
  | jmp | je | jne | jge | jg | jle | jl | call =>
    obtain ⟨⟩ := hf
    cases h with
    | branch hi => exact .cons (.target hi) .nil
  | ret | halt =>
    obtain ⟨⟩ := hf
    cases h with
    | plain => exact .nil
  | msg => cases hf

lemma builds_of_arguments (hf : i.mnemonic.form? = some form)
    (h : List.Forall₂ Argument.Spells ws i.arguments) : form.Builds ws i := by
  cases i with
  | mov dst src =>
    obtain ⟨⟩ := hf
    obtain _ | ⟨⟨hi⟩, _ | ⟨_ | ho, ⟨⟩⟩⟩ := h
    exact .assign hi ho
  | arith op dst src =>
    obtain _ | ⟨⟨hi⟩, _ | ⟨_ | ho, ⟨⟩⟩⟩ := h
    cases op <;> cases hf <;> exact .assign hi ho
  | inc reg | dec reg =>
    obtain ⟨⟩ := hf
    obtain _ | ⟨⟨hi⟩, ⟨⟩⟩ := h
    exact .update hi
  | cmp lhs rhs =>
    obtain ⟨⟩ := hf
    obtain _ | ⟨_ | hl, _ | ⟨_ | hr, ⟨⟩⟩⟩ := h
    exact .compare hl hr
  | jump cond label =>
    obtain _ | ⟨_ | _ | hi, ⟨⟩⟩ := h
    cases cond <;> cases hf <;> exact .branch hi
  | call label =>
    obtain ⟨⟩ := hf
    obtain _ | ⟨_ | _ | hi, ⟨⟩⟩ := h
    exact .branch hi
  | ret | halt =>
    obtain ⟨⟩ := hf
    obtain ⟨⟩ := h
    exact .plain
  | msg parts => cases hf

lemma builds_iff_arguments (hf : m.form? = some form) :
    form.Builds ws i ↔ i.mnemonic = m ∧ List.Forall₂ Argument.Spells ws i.arguments := by
  constructor
  · intro h
    exact ⟨mnemonic_of_builds hf h, arguments_of_builds hf h⟩
  · rintro ⟨rfl, h⟩
    exact builds_of_arguments hf h

end Instruction

namespace Token

structure Alike (t u : Token) : Prop where
  kind : t.kind = u.kind
  chars : t.chars = u.chars

variable {t u : Token}

lemma Alike.operand (h : Alike t u) : Agree t.operand u.operand := by
  simp only [Token.operand, text, h.kind, h.chars]
  cases u.kind with
  | identifier | number => exact .ok _
  | invalid => exact .error rfl

lemma Alike.destination (h : Alike t u) (m : Mnemonic) :
    Agree (t.destination m) (u.destination m) := by
  simp only [Token.destination, text, h.kind, h.chars]
  cases u.kind with
  | identifier => exact .ok _
  | number | invalid => exact .error rfl

lemma Alike.target (h : Alike t u) (m : Mnemonic) : Agree (t.target m) (u.target m) := by
  simp only [Token.target, text, h.kind, h.chars]
  cases u.kind with
  | identifier => exact .ok _
  | number | invalid => exact .error rfl

lemma alike_ofText {cs ds : List Char} (h : stretches cs = stretches ds) (span place : Span) :
    List.Forall₂ Alike (ofText cs span) (ofText ds place) := by
  rw [← chars_words 0, ← chars_words 0, ← List.forall₂_eq_eq_eq, List.forall₂_map_left_iff,
    List.forall₂_map_right_iff] at h
  rw [ofText, ofText, List.forall₂_map_left_iff, List.forall₂_map_right_iff]
  exact h.imp fun p q he => ⟨congrArg TokenKind.of he, he⟩

end Token

namespace Instruction

variable {cs name rest : List Char} {m : Mnemonic} {form : Form} {span place : Span}

lemma agree_ofTokens {ts us : List Token} (h : List.Forall₂ Token.Alike ts us) (m : Mnemonic)
    (form : Form) : Agree (ofTokens m form span ts) (ofTokens m form place us) := by
  have hcount : @Agree Instruction
      (.error (.wrongOperandCount m.name form.arity ts.length span))
      (.error (.wrongOperandCount m.name form.arity us.length place)) := by
    rw [h.length_eq]
    exact .error rfl
  cases form with
  | plain i =>
    obtain _ | ⟨-, -⟩ := h
    · exact .ok i
    · exact hcount
  | update build =>
    obtain _ | ⟨ht, _ | ⟨-, -⟩⟩ := h
    · exact hcount
    · exact (ht.destination m).map build
    · exact hcount
  | assign build =>
    obtain _ | ⟨ht, _ | ⟨hu, _ | ⟨-, -⟩⟩⟩ := h
    · exact hcount
    · exact hcount
    · exact (ht.destination m).bind fun d => hu.operand.bind fun s => .ok _
    · exact hcount
  | compare build =>
    obtain _ | ⟨ht, _ | ⟨hu, _ | ⟨-, -⟩⟩⟩ := h
    · exact hcount
    · exact hcount
    · exact ht.operand.bind fun l => hu.operand.bind fun r => .ok _
    · exact hcount
  | branch build =>
    obtain _ | ⟨ht, _ | ⟨-, -⟩⟩ := h
    · exact hcount
    · exact (ht.target m).map build
    · exact hcount

lemma read_of_leads (h : Leads cs name rest) (hm : Mnemonic.ofName? name = some m)
    (hf : m.form? = some form) (span : Span) :
    ∃ place, read cs span = ofTokens m form span (Token.ofText rest place) := by
  refine ⟨span.advance (width cs - width rest), ?_⟩
  simp only [read, h.cutWord_eq, hm, hf]

lemma read_eq_ok_iff_builds (h : Leads cs name rest) (hm : Mnemonic.ofName? name = some m)
    (hf : m.form? = some form) {i : Instruction} :
    read cs span = .ok i ↔ form.Builds (stretches rest) i := by
  obtain ⟨place, he⟩ := read_of_leads h hm hf span
  rw [he, Token.ofText, ofTokens_eq_ok_iff, chars_words]

lemma agree_read {cs' name' rest' : List Char} (h : Leads cs name rest)
    (h' : Leads cs' name' rest') (hm : Mnemonic.ofName? name = some m)
    (hm' : Mnemonic.ofName? name' = some m) (hf : m.form? = some form)
    (hw : stretches rest = stretches rest') : Agree (read cs span) (read cs' place) := by
  obtain ⟨a, he⟩ := read_of_leads h hm hf span
  obtain ⟨b, he'⟩ := read_of_leads h' hm' hf place
  rw [he, he']
  exact agree_ofTokens (Token.alike_ofText hw a b) m form

/-- An instruction other than a message is decided by its mnemonic, in any case, and by the words
that follow it, however they are separated: whether there is one, which one it is, and what is wrong
apart from the place. A name that no mnemonic has is refused whatever follows it. -/
theorem read_decided_by_words (cs : List Char) (span : Span) :
    (∃ name rest, Leads cs name rest) ∧ ∀ name rest, Leads cs name rest →
      (∀ m : Mnemonic, m ≠ .msg → name.map Char.toLower = m.name.toList →
        ((∃ i, read cs span = .ok i) ↔ m.arity? = some (stretches rest).length ∧
          List.Forall₂ Role.Accepts m.roles (stretches rest)) ∧
        (∀ i, read cs span = .ok i ↔
          i.mnemonic = m ∧ List.Forall₂ Argument.Spells (stretches rest) i.arguments) ∧
        ∀ cs' name' rest' place, Leads cs' name' rest' →
          name'.map Char.toLower = m.name.toList → stretches rest' = stretches rest →
          Agree (read cs span) (read cs' place)) ∧
      ((∀ m : Mnemonic, name.map Char.toLower ≠ m.name.toList) →
        read cs span = .error (.unknownMnemonic (String.ofList name) span)) := by
  refine ⟨⟨_, _, leads_cutWord cs⟩, fun name rest h => ⟨fun m hne hname => ?_, fun hname => ?_⟩⟩
  · obtain ⟨form, hf⟩ := Mnemonic.exists_form? hne
    have hm : Mnemonic.ofName? name = some m := Mnemonic.ofName?_of_toLower hname
    refine ⟨?_, fun i => ?_, fun cs' name' rest' place h' hname' hw => ?_⟩
    · simp only [read_eq_ok_iff_builds h hm hf, Form.exists_builds_iff_roles hf]
    · rw [read_eq_ok_iff_builds h hm hf, builds_iff_arguments hf]
    · exact agree_read h h' hm (Mnemonic.ofName?_of_toLower hname') hf hw.symm
  · simp only [read, h.cutWord_eq, Mnemonic.ofName?_eq_none_iff.mpr hname]

theorem separators_and_case_ignored :
    read "\tMoV ,a,, -5".toList ⟨1, 1⟩ = .ok (.mov "a" (.immediate (-5))) ∧
      Agree (read "\tMoV ,a,, -5".toList ⟨1, 1⟩) (read "mov a -5".toList ⟨2, 7⟩) := by
  have h := leads_cutWord "\tMoV ,a,, -5".toList
  have h' := leads_cutWord "mov a -5".toList
  have hs := (read_decided_by_words "\tMoV ,a,, -5".toList ⟨1, 1⟩).2 _ _ h
  obtain ⟨-, hi, ha⟩ := hs.1 .mov (by decide) (by decide)
  refine ⟨(hi _).mpr ⟨rfl, ?_⟩, ha _ _ _ _ h' (by decide) (by decide)⟩
  exact .cons (.destination rfl) (.cons (.source (.immediate rfl)) .nil)

end Instruction

end RegAsm
