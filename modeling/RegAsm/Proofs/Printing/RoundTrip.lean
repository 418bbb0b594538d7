import RegAsm.Proofs.Machine.Places
import RegAsm.Proofs.Printing.WellFormed
import RegAsm.Proofs.Text.Words

namespace RegAsm

open Text Fallible

lemma Decimal.toInt?_ofInt (n : Int) : toInt? (ofInt n).toList = some n := by
  apply toInt?_eq_some_iff.mpr
  cases n with
  | ofNat m => exact ⟨_, m, toNat?_toDigits m, .inr (.inr ⟨by simp [ofInt, ofNat], rfl⟩)⟩
  | negSucc m =>
    exact ⟨_, m + 1, toNat?_toDigits (m + 1), .inr (.inl ⟨by simp [ofInt, ofNat], rfl⟩)⟩

lemma Word.read?_text (v : Word) : read? (text v).toList = some v :=
  read?_eq_some_iff.mpr ⟨v.toInt, Decimal.toInt?_ofInt v.toInt, ofInt?_toInt v⟩

namespace Operand

lemma spells_print {o : Operand} (h : o.WellFormed) : Spells o.print.toList o := by
  cases o with
  | immediate v => exact .immediate (Word.read?_text v)
  | register name =>
    have hs := Spells.register h
    rwa [String.ofList_toList] at hs

lemma Spells.ne_nil {w : List Char} {o : Operand} (h : Spells w o) : w ≠ [] := by
  rintro rfl
  cases h with
  | immediate hv => cases hv
  | register hi => cases hi

lemma Spells.isSeparator {w : List Char} {o : Operand} (h : Spells w o) :
    ∀ c ∈ w, isSeparator c = false :=
  fun c hc => isSeparator_of_isOperandChar (h.isOperandChar c hc)

end Operand

namespace Message

variable {rest : List Char}

lemma lexemes_separator {c : Char} (h : isSeparator c = true) (offset : Nat) (cs : List Char) :
    lexemes offset (c :: cs) = lexemes (offset + c.utf8Size) cs := by
  rw [lexemes]
  simp [h]

lemma lexemes_quoted {content : List Char} (h : ∀ c ∈ content, isQuote c = false) (offset : Nat) :
    lexemes offset ('\x27' :: (content ++ '\x27' :: rest)) =
      .quoted offset content :: lexemes (offset + width content + 2) rest := by
  have hin : ∀ c ∈ content, inQuotes c = true := fun c hc => by simp [inQuotes, h c hc]
  have hd : (content ++ '\x27' :: rest).dropWhile inQuotes = '\x27' :: rest := by
    rw [List.dropWhile_append_of_pos hin]
    rfl
  have ht : (content ++ '\x27' :: rest).takeWhile inQuotes = content := by
    rw [List.takeWhile_append_of_pos hin]
    simp [inQuotes, isQuote]
  rw [lexemes, if_neg (by decide), if_pos (by decide)]
  split
  · rename_i hn
    simp [hd] at hn
  · rename_i hn
    rw [hd] at hn
    cases hn
    rw [ht]

lemma lexemes_word {w : List Char} (hne : w ≠ []) (hw : ∀ c ∈ w, isOperandChar c = true)
    (hr : Parted rest) (offset : Nat) :
    lexemes offset (w ++ rest) = .word ⟨offset, w⟩ :: lexemes (offset + width w) rest := by
  obtain ⟨c, cs, rfl⟩ := List.exists_cons_of_ne_nil hne
  have hq : ∀ d ∈ c :: cs, isSeparator d = false ∧ isQuote d = false := fun d hd =>
    ⟨isSeparator_of_isOperandChar (hw d hd),
      (SourceLine.unmarked_of_isPlain (isPlain_of_isOperandChar (hw d hd))).1⟩
  have hin : ∀ d ∈ cs, inBareWord d = true := by
    intro d hd
    simp [inBareWord, hq d (List.mem_cons_of_mem c hd)]
  have hsep : ∀ d, isSeparator d = true → inBareWord d = false := fun d hd => by
    simp [inBareWord, hd]
  obtain ⟨hc, hcq⟩ := hq c List.mem_cons_self
  rw [List.cons_append, lexemes, if_neg (by simp [hc]), if_neg (by simp [hcq]),
    takeWhile_append_parted hsep hin hr, dropWhile_append_parted hsep hin hr]

lemma cuts_print {p : MessagePart} (h : p.WellFormed) :
    Cuts lexemes p.print.toList (Lexeme.Spells · p) := by
  intro rest hr offset
  cases p with
  | text content =>
    obtain ⟨cs, rfl⟩ : ∃ cs, content = String.ofList cs := ⟨_, String.ofList_toList.symm⟩
    have hq : ∀ c ∈ cs, isQuote c = false := by
      intro c hc
      exact (h c (by simpa using hc)).1
    refine ⟨.quoted offset cs, offset + width cs + 2, ?_, .quoted⟩
    simpa [MessagePart.print] using lexemes_quoted hq offset
  | value o =>
    have ho := Operand.spells_print h
    exact ⟨_, _, lexemes_word ho.ne_nil ho.isOperandChar hr offset, .word ho⟩

end Message

lemma scanner_lexemes : Scanner Message.lexemes :=
  ⟨fun _ => by rw [Message.lexemes], Message.lexemes_separator⟩

namespace Instruction

def operandText : List String → List Char
  | [] => []
  | ws => ' ' :: [',', ' '].intercalate (ws.map String.toList)

lemma toList_print (i : Instruction) :
    i.print.toList = i.mnemonic.name.toList ++ operandText i.operands := by
  unfold print operandText
  cases i.operands with
  | nil => simp
  | cons w ws => simp [String.toList_intercalate]

lemma parted_operandText (ws : List String) : Parted (operandText ws) := by
  cases ws with
  | nil => simp [Parted, operandText]
  | cons w ws =>
    intro c hc
    obtain rfl : ' ' = c := by simpa [operandText] using hc
    decide

variable {α β : Type} {scan : Nat → List Char → List α} {R : α → β → Prop} {print : β → String}
variable {bs : List β}

lemma scan_operandText (hs : Scanner scan) (h : ∀ b ∈ bs, Cuts scan (print b).toList (R · b))
    (offset : Nat) : List.Forall₂ R (scan offset (operandText (bs.map print))) bs := by
  have hi := scan_intercalate hs h
  cases bs with
  | nil => simp [operandText, hs.nil]
  | cons b bs =>
    rw [List.map_cons, operandText, hs.separator (by decide), ← List.map_cons, List.map_map]
    · exact hi _
    · simp

lemma words_operandText {ws : List String} (h : ∀ w ∈ ws, ∃ o, Operand.Spells w.toList o)
    (offset : Nat) : (words offset (operandText ws)).map Piece.chars = ws.map String.toList := by
  rw [← List.forall₂_eq_eq_eq, List.forall₂_map_left_iff, List.forall₂_map_right_iff]
  have hid : operandText ws = operandText (ws.map id) := by rw [List.map_id]
  rw [hid]
  apply scan_operandText scanner_words
  intro w hw rest hr offset
  obtain ⟨o, ho⟩ := h w hw
  exact ⟨_, _, words_append ho.ne_nil ho.isSeparator hr offset, rfl⟩

lemma builds_operands {i : Instruction} (h : i.WellFormed) {form : Form}
    (hf : i.mnemonic.form? = some form) : form.Builds (i.operands.map String.toList) i := by
  have hname : ∀ {name : String}, IsName name →
      ∃ w, isIdentifier w = true ∧ name = String.ofList w :=
    fun hn => ⟨_, hn, String.ofList_toList.symm⟩
  cases i with
  | mov dst src =>
    obtain ⟨hd, ho⟩ := h
    obtain ⟨w, hw, rfl⟩ := hname hd
    cases hf
    simpa [operands] using Form.Builds.assign hw (Operand.spells_print ho)
  | inc reg | dec reg =>
    obtain ⟨w, hw, rfl⟩ := hname h
    cases hf
    simpa [operands] using Form.Builds.update hw
  | arith op dst src =>
    obtain ⟨hd, ho⟩ := h
    obtain ⟨w, hw, rfl⟩ := hname hd
    cases op <;> cases hf <;>
      simpa [operands] using Form.Builds.assign hw (Operand.spells_print ho)
  | cmp lhs rhs =>
    obtain ⟨hl, hr⟩ := h
    cases hf
    exact .compare (Operand.spells_print hl) (Operand.spells_print hr)
  | jump cond label =>
    obtain ⟨w, hw, rfl⟩ := hname h
    cases cond <;> cases hf <;> simpa [operands] using Form.Builds.branch hw
  | call label =>
    obtain ⟨w, hw, rfl⟩ := hname h
    cases hf
    simpa [operands] using Form.Builds.branch hw
  | ret | halt =>
    cases hf
    exact .plain
  | msg parts => cases hf

end Instruction

namespace Mnemonic

lemma name_ne_nil (m : Mnemonic) : m.name.toList ≠ [] := by
  cases m <;> decide

lemma isOperandChar_of_mem_name (m : Mnemonic) : ∀ c ∈ m.name.toList, isOperandChar c = true :=
  fun c hc => isOperandChar_of_isNameChar (isNameChar_of_isLower (m.isLower_of_mem_name c hc))

end Mnemonic

namespace Instruction

lemma cutWord_print (i : Instruction) :
    cutWord i.print.toList = (i.mnemonic.name.toList, operandText i.operands) := by
  have hw : ∀ c ∈ i.mnemonic.name.toList, isSeparator c = false :=
    fun c hc => isSeparator_of_isOperandChar (i.mnemonic.isOperandChar_of_mem_name c hc)
  rw [toList_print, cutWord_append i.mnemonic.name_ne_nil hw (parted_operandText _)]

lemma exists_msg_of_form? {i : Instruction} (h : i.mnemonic.form? = none) :
    ∃ parts, i = .msg parts := by
  cases i with
  | msg parts => exact ⟨parts, rfl⟩
  | arith op => cases op <;> cases h
  | jump cond => cases cond <;> cases h
  | _ => cases h

lemma reads_print {i : Instruction} (h : i.WellFormed) : Reads i.print.toList i := by
  have hm : Mnemonic.ofName? (cutWord i.print.toList).1 = some i.mnemonic := by
    rw [cutWord_print, Mnemonic.ofName?_name]
  cases hf : i.mnemonic.form? with
  | some form =>
    have hb := builds_operands h hf
    have hw : ∀ w ∈ i.operands, ∃ o, Operand.Spells w.toList o :=
      fun w hw => hb.exists_spells _ (List.mem_map_of_mem hw)
    refine .form hm hf ?_
    rw [cutWord_print, words_operandText hw]
    exact hb
  | none =>
    obtain ⟨parts, rfl⟩ := exists_msg_of_form? hf
    refine .msg hm hf ?_
    rw [cutWord_print]
    exact scan_operandText scanner_lexemes (fun p hp => Message.cuts_print (h p hp)) 0

end Instruction

lemma MessagePart.WellFormed.oneLine_print {p : MessagePart} (h : p.WellFormed) :
    OneLine p.print.toList := by
  cases p with
  | text content =>
    have hq : OneLine ['\x27'] :=
      oneLine_of_forall (by simp) (List.forall_mem_singleton.mpr (by decide))
    have hc : '\n' ∉ content.toList := fun hm => (h _ hm).2 rfl
    simpa [MessagePart.print] using hq.append hq hc
  | value o =>
    have ho := Operand.spells_print h
    exact oneLine_of_forall ho.ne_nil fun c hc => isBlank_of_isOperandChar (ho.isOperandChar c hc)

namespace Instruction

lemma exists_part {i : Instruction} (h : i.WellFormed) :
    ∀ w ∈ i.operands, ∃ p : MessagePart, p.WellFormed ∧ p.print = w := by
  -- a name or an operand is printed like the value of a message that has no other part
  have hv : ∀ {o : Operand}, o.WellFormed → ∃ p : MessagePart, p.WellFormed ∧ p.print = o.print :=
    fun ho => ⟨.value _, ho, rfl⟩
  have hn : ∀ {name}, IsName name → ∃ p : MessagePart, p.WellFormed ∧ p.print = name :=
    fun hname => ⟨.value (.register _), hname, rfl⟩
  cases i with
  | mov dst src | arith op dst src => simpa [operands] using ⟨hn h.1, hv h.2⟩
  | inc reg | dec reg | jump cond reg | call reg => simpa [operands] using hn h
  | cmp lhs rhs => simpa [operands] using ⟨hv h.1, hv h.2⟩
  | ret | halt => simp [operands]
  | msg parts =>
    intro w hw
    obtain ⟨p, hp, rfl⟩ := List.mem_map.mp hw
    exact ⟨p, h p hp, rfl⟩

lemma oneLine_print {i : Instruction} (h : i.WellFormed) : OneLine i.print.toList := by
  have hname : OneLine i.mnemonic.name.toList := oneLine_of_forall i.mnemonic.name_ne_nil
    fun c hc => isBlank_of_isOperandChar (i.mnemonic.isOperandChar_of_mem_name c hc)
  have hops : ∀ w ∈ i.operands.map String.toList, OneLine w := by
    intro w hw
    obtain ⟨v, hv, rfl⟩ := List.mem_map.mp hw
    obtain ⟨p, hp, rfl⟩ := exists_part h v hv
    exact hp.oneLine_print
  rw [toList_print]
  cases ho : i.operands with
  | nil => simpa [operandText] using hname
  | cons w ws =>
    rw [ho] at hops
    have hgap : '\n' ∉ [' '] := by decide
    exact hname.append (oneLine_intercalate (by decide) (by simp) hops) hgap

end Instruction

namespace Statement

variable {s : Statement} {ss : List Statement}

lemma oneLine_print (h : s.WellFormed) : OneLine s.print.toList := by
  cases s with
  | label name span =>
    apply oneLine_of_forall
    · simp [print]
    · intro c hc
      have hc : c ∈ name.toList ∨ c = ':' := by simpa [print] using hc
      obtain hc | rfl := hc
      · have hn := isNameChar_of_isIdentifier h c hc
        exact isBlank_of_isOperandChar (isOperandChar_of_isNameChar hn)
      · decide
  | instruction i span => exact Instruction.oneLine_print h

lemma body_print (h : s.WellFormed) (span : Span) :
    Grammar.Body span s.print.toList [s.placed span] := by
  cases s with
  | label name _ =>
    have hb : Grammar.Body span _ _ := .label h
    simpa [print, placed] using hb
  | instruction i _ =>
    exact .code (Instruction.oneLine_print h).toTrimmed
      (Instruction.read_eq_ok_iff.mpr (Instruction.reads_print h))

lemma lines_print (h : ∀ s ∈ ss, s.WellFormed) (n : Nat) :
    Grammar.Lines n (ss.map fun s => s.print.toList)
      (ss.mapIdx fun k s => s.placed ⟨UInt32.ofNat (n + k), 1⟩) := by
  induction ss generalizing n with
  | nil => exact .nil
  | cons s ss ih =>
    obtain ⟨hs, hss⟩ := List.forall_mem_cons.mp h
    have hl : Grammar.Line ⟨UInt32.ofNat n, 1⟩ s.print.toList [s.placed ⟨UInt32.ofNat n, 1⟩] := by
      have hnone : Blanks [] := by simp [Blanks]
      exact .mk hnone hnone (.inl rfl) (body_print hs _) (by simp)
    have hi := ih hss (n + 1)
    simp only [Nat.add_assoc, Nat.add_comm 1] at hi
    rw [List.map_cons, List.mapIdx_cons]
    exact .cons hl hi

theorem parseAll_print (h : ∀ s ∈ ss, s.WellFormed) :
    parseAll ("\n".intercalate (ss.map print)).toList =
      .ok (ss.mapIdx fun k s => s.placed ⟨UInt32.ofNat (k + 1), 1⟩) := by
  cases ss with
  | nil => rfl
  | cons s ss =>
    have hn : ∀ l ∈ (s :: ss).map fun s => s.print.toList, '\n' ∉ l := by
      intro l hl
      obtain ⟨s', hs, rfl⟩ := List.mem_map.mp hl
      exact (oneLine_print (h s' hs)).newline
    have hl := lines_print h 1
    simp only [Nat.add_comm 1] at hl
    rw [Grammar.parseAll_eq_ok_iff, String.toList_intercalate, List.map_map]
    rw [← lines_intercalate (by simp) hn] at hl
    exact hl

end Statement

namespace Program

lemma exists_parse_print {source : String} {p : Program} (h : parse source = .ok p) :
    ∃ q, parse ("\n".intercalate (p.statements.toList.map Statement.print)) = .ok q ∧
      q.statements.toList =
        p.statements.toList.mapIdx fun k s => s.placed ⟨UInt32.ofNat (k + 1), 1⟩ := by
  obtain ⟨ss, hss, hp⟩ := bind_eq_ok_iff.mp h
  obtain rfl := ofStatements_eq_ok_iff.mp hp
  have hn := exists_statements_iff.mp ⟨p, rfl⟩
  rw [← Statement.declared_placed fun k => ⟨UInt32.ofNat (k + 1), 1⟩] at hn
  obtain ⟨q, hq⟩ := exists_statements_iff.mpr hn
  have hprint := Statement.parseAll_print (Statement.wellFormed_of_parseAll hss)
  exact ⟨q, bind_eq_ok_iff.mpr ⟨_, hprint, ofStatements_eq_ok_iff.mpr hq⟩, hq⟩

end Program

/-- What is read can be printed, and what is printed is read again as it was, one statement on each
line. So a program that is printed and read again has its labels at the same indices, and its runs
end in the same state with the same outcome, but for the places of faults. -/
theorem print_and_reread_loses_nothing :
    (∀ source ss, Statement.parseAll source = .ok ss → ∀ s ∈ ss, s.WellFormed) ∧
    (∀ ss : List Statement, (∀ s ∈ ss, s.WellFormed) →
      Statement.parseAll ("\n".intercalate (ss.map Statement.print)).toList =
        .ok (ss.mapIdx fun k s => s.placed ⟨UInt32.ofNat (k + 1), 1⟩)) ∧
    ∀ source p, Program.parse source = .ok p →
      ∃ q, Program.parse ("\n".intercalate (p.statements.toList.map Statement.print)) = .ok q ∧
        (∀ name, q.labels.index? name = p.labels.index? name) ∧
        ∀ limits budget, (Machine.run q limits budget {}).map (Prod.map Outcome.unplaced id) =
          (Machine.run p limits budget {}).map (Prod.map Outcome.unplaced id) := by
  refine ⟨fun source ss => Statement.wellFormed_of_parseAll, fun ss => Statement.parseAll_print, ?_⟩
  intro source p h
  obtain ⟨q, hq, hs⟩ := Program.exists_parse_print h
  have hsame : q.SameCode p := Program.sameCode_of_placed hs
  exact ⟨q, hq, hsame.index?, fun limits budget => Machine.run_agree hsame limits budget {}⟩

def markedLoop : List Statement :=
  [.label "mov" default,
    .instruction (.msg [.text "; a: b,\r é", .value (.immediate Int64.minValue)]) default,
    .instruction (.jump .lessEqual "mov") default]

theorem markedLoop_reread :
    (∀ s ∈ markedLoop, s.WellFormed) ∧
      Statement.parseAll ("\n".intercalate (markedLoop.map Statement.print)).toList =
        .ok (markedLoop.mapIdx fun k s => s.placed ⟨UInt32.ofNat (k + 1), 1⟩) := by
  have h : ∀ s ∈ markedLoop, s.WellFormed := by decide
  exact ⟨h, print_and_reread_loses_nothing.2.1 markedLoop h⟩

end RegAsm
