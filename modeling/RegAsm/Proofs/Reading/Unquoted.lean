import RegAsm.Proofs.Reading.Spelling

namespace RegAsm

open Text Fallible

inductive Token.Denotes (t : Token) : MessagePart → Prop
  | number {value} : t.kind = .number value → Denotes t (.value (.immediate value))
  | identifier : t.kind = .identifier → Denotes t (.value (.register t.text))

lemma Token.exists_operand {t : Token} (h : t.kind ≠ .invalid) :
    ∃ o, t.operand = .ok o ∧ t.Denotes (.value o) := by
  cases hk : t.kind with
  | identifier => exact ⟨_, by simp [operand, hk], .identifier hk⟩
  | number value => exact ⟨_, by simp [operand, hk], .number hk⟩
  | invalid => contradiction

lemma Token.operand_of_invalid {t : Token} (h : t.kind = .invalid) :
    t.operand = .error (.malformedOperand t.text t.span) := by
  simp [operand, h]

namespace Message

variable {cs : List Char} {span : Span} {ws : List Piece}

lemma inBareWord_eq_inWord {c : Char} (h : isQuote c = false) : inBareWord c = inWord c := by
  simp [inBareWord, inWord, h]

lemma takeWhile_inBareWord (h : ∀ c ∈ cs, isQuote c = false) :
    cs.takeWhile inBareWord = cs.takeWhile inWord ∧
      cs.dropWhile inBareWord = cs.dropWhile inWord := by
  induction cs with
  | nil => exact ⟨rfl, rfl⟩
  | cons c cs ih =>
    obtain ⟨hc, hcs⟩ := List.forall_mem_cons.mp h
    obtain ⟨ht, hd⟩ := ih hcs
    simp only [List.takeWhile_cons, List.dropWhile_cons, inBareWord_eq_inWord hc, ht, hd, and_self]

lemma lexemes_eq_words (h : ∀ c ∈ cs, isQuote c = false) (offset : Nat) :
    lexemes offset cs = (words offset cs).map .word := by
  fun_induction words offset cs with
  | case1 => rw [lexemes, List.map_nil]
  | case2 offset c cs hs ih =>
    rw [lexemes, if_pos hs]
    exact ih (List.forall_mem_cons.mp h).2
  | case3 offset c cs hs word ih =>
    obtain ⟨hc, hcs⟩ := List.forall_mem_cons.mp h
    obtain ⟨ht, hd⟩ := takeWhile_inBareWord hcs
    rw [lexemes, if_neg hs, if_neg (by simp [hc]), ht, hd, List.map_cons]
    exact congrArg (_ :: ·) (ih fun d hd => hcs d ((List.dropWhile_suffix _).mem hd))

lemma exists_parts_of_valid (h : ∀ t ∈ ws.map (Token.ofPiece span), t.kind ≠ .invalid) :
    ∃ ps, parts span (ws.map .word) = .ok ps ∧
      List.Forall₂ Token.Denotes (ws.map (Token.ofPiece span)) ps := by
  induction ws with
  | nil => exact ⟨[], rfl, .nil⟩
  | cons w ws ih =>
    obtain ⟨hw, hws⟩ := List.forall_mem_cons.mp h
    obtain ⟨o, ho, hs⟩ := Token.exists_operand hw
    obtain ⟨ps, hps, hall⟩ := ih hws
    refine ⟨.value o :: ps, bind_eq_ok_iff.mpr ⟨_, map_eq_ok_iff.mpr ⟨o, ho, rfl⟩, ?_⟩, .cons hs hall⟩
    exact bind_eq_ok_iff.mpr ⟨ps, hps, rfl⟩

lemma parts_of_invalid {t : Token}
    (h : (ws.map (Token.ofPiece span)).find? (·.kind = .invalid) = some t) :
    parts span (ws.map .word) = .error (.malformedOperand t.text t.span) := by
  induction ws with
  | nil => cases h
  | cons w ws ih =>
    rw [List.map_cons] at h
    by_cases hw : (Token.ofPiece span w).kind = .invalid
    · rw [List.find?_cons_of_pos (by simpa using hw)] at h
      obtain rfl := Option.some.inj h
      exact bind_eq_error_iff.mpr (.inl (map_eq_error_iff.mpr (Token.operand_of_invalid hw)))
    · rw [List.find?_cons_of_neg (by simpa using hw)] at h
      obtain ⟨o, ho, -⟩ := Token.exists_operand hw
      exact bind_eq_error_iff.mpr
        (.inr ⟨_, map_eq_ok_iff.mpr ⟨o, ho, rfl⟩, bind_eq_error_iff.mpr (.inl (ih h))⟩)

/-- A message without quotes has the parts that its tokens stand for, in their order, and if there is
a token that is neither a number nor a name, the first one is reported at its place. -/
theorem unquoted_read_as_tokens (h : '\x27' ∉ cs) (span : Span) :
    ((∀ t ∈ Token.ofText cs span, t.kind ≠ .invalid) →
      ∃ ps, read cs span = .ok ps ∧ List.Forall₂ Token.Denotes (Token.ofText cs span) ps) ∧
    ∀ t, (Token.ofText cs span).find? (·.kind = .invalid) = some t →
      read cs span = .error (.malformedOperand t.text t.span) := by
  have hq : ∀ c ∈ cs, isQuote c = false := by
    intro c hc
    rw [isQuote, beq_eq_false_iff_ne]
    rintro rfl
    exact h hc
  rw [read, lexemes_eq_words hq]
  exact ⟨exists_parts_of_valid, fun t => parts_of_invalid⟩

def wordsOfAllKinds : List Char :=
  "a,-9223372036854775808\u3000 9223372036854775808 1x".toList

theorem unquoted_number_out_of_range :
    '\x27' ∉ wordsOfAllKinds ∧ read wordsOfAllKinds ⟨3, 5⟩ =
      .error (.malformedOperand "9223372036854775808" ⟨3, 31⟩) := by
  have hq : '\x27' ∉ wordsOfAllKinds := by decide
  refine ⟨hq, (unquoted_read_as_tokens hq ⟨3, 5⟩).2 ⟨.invalid, _, ⟨3, 31⟩⟩ ?_⟩
  decide +kernel

end Message

end RegAsm
