import RegAsm.Proofs.Reading.Blamed

namespace RegAsm

open Text Fallible

def Fault.OnLine (line : UInt32) (f : Fault) : Prop :=
  ∃ span, f.span? = some span ∧ span.line = line

lemma StandsOn.line_eq {start span : Span} {raw w : List Char} (h : StandsOn start raw w span) :
    span.line = start.line := by
  obtain ⟨before, after, -, -, rfl⟩ := h
  rfl

lemma Fault.Shows.onLine {stands : List Char → Span → Prop} {line : UInt32} {f : Fault}
    (hf : f.Shows stands) (h : ∀ w span, stands w span → span.line = line) : f.OnLine line := by
  cases hf with
  | unterminatedText hs | invalidLabel hs => exact ⟨_, rfl, h _ _ hs⟩
  | malformedOperand _ hs | unknownMnemonic _ hs | literalDestination _ hs | labelExpected _ hs
  | wrongOperandCount _ hs => exact ⟨_, rfl, h _ _ hs⟩
  | duplicateLabel _ _ hs => exact ⟨_, rfl, h _ _ hs⟩

namespace SourceLine

def badLabel (raw : List Char) : Bool :=
  match labelled? (trim (beforeComment raw)) with
  | none => false
  | some (name, _) => !isIdentifier name

variable {raw : List Char} {start : Span} {f : Fault} {ls : List SourceLine}

lemma badLabel_of_ofLine (h : ofLine raw start = .ok ls) : badLabel raw = false := by
  rw [badLabel]
  cases hl : labelled? (trim (beforeComment raw)) with
  | none => rfl
  | some label =>
    simp only [ofLine, hl] at h
    split at h
    · rename_i hn
      simp [hn]
    · cases h

lemma badLabel_of_fault (h : ofLine raw start = .error f) :
    badLabel raw = true ∧ f.OnLine start.line := by
  rw [badLabel]
  cases hl : labelled? (trim (beforeComment raw)) with
  | none =>
    simp only [ofLine, hl] at h
    cases h
  | some label =>
    simp only [ofLine, hl] at h
    split at h
    · cases h
    · rename_i hn
      cases h
      refine ⟨?_, _, rfl, rfl⟩
      simp [hn]

lemma failsOnly_statements (h : ofLine raw start = .ok ls) :
    FailsOnly (Fault.OnLine start.line) (Statement.ofSourceLines ls) :=
  fun f hf => (shows_statements h f hf).onLine fun _ _ => StandsOn.line_eq

lemma ofLines_fault {n : Nat} {raws : List (List Char)} (h : ofLines n raws = .error f) :
    ∃ k raw, raws[k]? = some raw ∧ ofLine raw ⟨UInt32.ofNat (n + k), 1⟩ = .error f ∧
      ∀ r ∈ raws.take k, badLabel r = false := by
  induction raws generalizing n with
  | nil => cases h
  | cons raw rest ih =>
    obtain h | ⟨here, hh, h⟩ := bind_eq_error_iff.mp h
    · exact ⟨0, raw, rfl, h, by simp⟩
    · obtain h | ⟨later, -, h⟩ := bind_eq_error_iff.mp h
      · obtain ⟨k, bad, hk, hb, hg⟩ := ih h
        rw [Nat.add_right_comm] at hb
        refine ⟨k + 1, bad, hk, hb, ?_⟩
        rw [List.take_succ_cons, List.forall_mem_cons]
        exact ⟨badLabel_of_ofLine hh, hg⟩
      · cases h

lemma badLabel_of_ofLines {n : Nat} {raws : List (List Char)} (h : ofLines n raws = .ok ls) :
    ∀ raw ∈ raws, badLabel raw = false := by
  induction raws generalizing n ls with
  | nil => simp
  | cons raw rest ih =>
    obtain ⟨here, hh, h⟩ := bind_eq_ok_iff.mp h
    obtain ⟨later, hl, -⟩ := bind_eq_ok_iff.mp h
    exact List.forall_mem_cons.mpr ⟨badLabel_of_ofLine hh, ih hl⟩

end SourceLine

lemma Statement.ofSourceLines_append_fault {ls ms : List SourceLine} {f : Fault}
    (h : ofSourceLines (ls ++ ms) = .error f) :
    ofSourceLines ls = .error f ∨
      (∃ ss, ofSourceLines ls = .ok ss) ∧ ofSourceLines ms = .error f := by
  induction ls with
  | nil => exact .inr ⟨⟨[], rfl⟩, h⟩
  | cons l ls ih =>
    obtain h | ⟨s, hs, h⟩ := bind_eq_error_iff.mp h
    · exact .inl (bind_eq_error_iff.mpr (.inl h))
    · obtain h | ⟨ts, -, h⟩ := bind_eq_error_iff.mp h
      · obtain hl | ⟨⟨ss, hl⟩, hm⟩ := ih h
        · refine .inl (bind_eq_error_iff.mpr (.inr ⟨s, hs, ?_⟩))
          exact bind_eq_error_iff.mpr (.inl hl)
        · refine .inr ⟨⟨s :: ss, ?_⟩, hm⟩
          exact bind_eq_ok_iff.mpr ⟨s, hs, bind_eq_ok_iff.mpr ⟨ss, hl, rfl⟩⟩
      · cases h

namespace Grammar

open SourceLine

def Accepted (raw : List Char) : Prop :=
  ∀ start, ∃ ss, Line start raw ss

variable {raw source : List Char} {start : Span} {f : Fault} {ls : List SourceLine}

lemma Accepted.badLabel (h : Accepted raw) : SourceLine.badLabel raw = false := by
  obtain ⟨ss, hs⟩ := h default
  obtain ⟨ls, hl, -⟩ := line_iff.mp hs
  exact badLabel_of_ofLine hl

lemma accepted_of_ofLine {ss : List Statement} (h : ofLine raw start = .ok ls)
    (hs : Statement.ofSourceLines ls = .ok ss) : Accepted raw :=
  (line_iff.mpr ⟨ls, h, hs⟩).move

lemma accepted_nil : Accepted [] :=
  accepted_of_ofLine (rfl : ofLine [] default = .ok []) rfl

lemma not_accepted_of_fault (h : ofLine raw start = .ok ls)
    (hs : Statement.ofSourceLines ls = .error f) : ¬ Accepted raw := by
  intro ha
  obtain ⟨ss, hss⟩ := ha start
  obtain ⟨ls', hl, ho⟩ := line_iff.mp hss
  cases h.symm.trans hl
  cases hs.symm.trans ho

lemma exists_parseAll_iff :
    (∃ ss, Statement.parseAll source = .ok ss) ↔ ∀ raw ∈ lines source, Accepted raw := by
  simp only [parseAll_eq_ok_iff]
  exact exists_lines_iff

lemma ofSourceLines_fault {n : Nat} {raws : List (List Char)} (h : ofLines n raws = .ok ls)
    (hs : Statement.ofSourceLines ls = .error f) :
    ∃ k raw here, raws[k]? = some raw ∧ ofLine raw ⟨UInt32.ofNat (n + k), 1⟩ = .ok here ∧
      Statement.ofSourceLines here = .error f ∧ ∀ r ∈ raws.take k, Accepted r := by
  induction raws generalizing n ls with
  | nil =>
    cases h
    cases hs
  | cons raw rest ih =>
    obtain ⟨here, hh, h⟩ := bind_eq_ok_iff.mp h
    obtain ⟨later, hl, h⟩ := bind_eq_ok_iff.mp h
    cases h
    obtain hs | ⟨⟨ss, hss⟩, hs⟩ := Statement.ofSourceLines_append_fault hs
    · exact ⟨0, raw, here, rfl, hh, hs, by simp⟩
    · obtain ⟨k, bad, code, hk, hb, hf, hg⟩ := ih hl hs
      rw [Nat.add_right_comm] at hb
      refine ⟨k + 1, bad, code, hk, hb, hf, ?_⟩
      rw [List.take_succ_cons, List.forall_mem_cons]
      exact ⟨accepted_of_ofLine hh hss, hg⟩

def firstLines (n : Nat) (source : List Char) : List Char :=
  ['\n'].intercalate ((lines source).take n)

lemma exists_parseAll_firstLines_iff (n : Nat) (source : List Char) :
    (∃ ss, Statement.parseAll (firstLines n source) = .ok ss) ↔
      ∀ raw ∈ (lines source).take n, Accepted raw := by
  rw [exists_parseAll_iff, firstLines]
  by_cases h : (lines source).take n = []
  · -- no line at all is a text of one empty line
    rw [h]
    simpa using accepted_nil
  · rw [lines_intercalate h]
    intro raw hr
    exact newline_notMem_of_mem_lines (List.mem_of_mem_take hr)

/-- Whether all lines are accepted that stand before the first bad label, if there is one. -/
def LabelsInOrder (source : List Char) : Prop :=
  (∃ raw ∈ lines source, badLabel raw = true) →
    ∀ raw ∈ (lines source).takeWhile (!badLabel ·), Accepted raw

/-- The fault is on the line after the first `n`. That line is refused for its label, unless no line
has a bad label. -/
structure FaultAfter (n : Nat) (source : List Char) (f : Fault) : Prop where
  refused : ∃ raw, (lines source)[n]? = some raw ∧ ¬ Accepted raw ∧
    (badLabel raw = true ∨ ∀ r ∈ lines source, badLabel r = false)
  onLine : f.OnLine (UInt32.ofNat (n + 1))
  labels : ∀ raw ∈ (lines source).take n, badLabel raw = false

lemma takeWhile_eq_take {α : Type} {P : α → Bool} {l : List α} {n : Nat} {a : α}
    (hn : l[n]? = some a) (ha : P a = false) (h : ∀ b ∈ l.take n, P b = true) :
    l.takeWhile P = l.take n := by
  obtain ⟨hlt, he⟩ := List.getElem?_eq_some_iff.mp hn
  have hd : l.drop n = a :: l.drop (n + 1) := by rw [List.drop_eq_getElem_cons hlt, he]
  conv_lhs => rw [← List.take_append_drop n l, hd]
  rw [List.takeWhile_append_of_pos h, List.takeWhile_cons_of_neg (by simp [ha]), List.append_nil]

/-- The fault of a text is on its first line with a bad label or, if there is none, on its first line
that is not accepted. So the lines before it are a text without fault exactly if those before the
first bad label are all accepted. -/
theorem parseAll_fault_line {source : List Char} {f : Fault}
    (h : Statement.parseAll source = .error f) :
    ∃ n, FaultAfter n source f ∧
      ((∃ ss, Statement.parseAll (firstLines n source) = .ok ss) ↔ LabelsInOrder source) := by
  simp only [exists_parseAll_firstLines_iff]
  obtain h | ⟨ls, hl, h⟩ := bind_eq_error_iff.mp h
  · obtain ⟨n, raw, hn, hf, hg⟩ := ofLines_fault h
    obtain ⟨hb, ho⟩ := badLabel_of_fault hf
    rw [Nat.add_comm] at ho
    refine ⟨n, ⟨⟨raw, hn, fun ha => ?_, .inl hb⟩, ho, hg⟩, ?_⟩
    · rw [ha.badLabel] at hb
      cases hb
    · have ht : (lines source).takeWhile (!badLabel ·) = (lines source).take n :=
        takeWhile_eq_take hn (by simp [hb]) (by simpa using hg)
      rw [LabelsInOrder, ht]
      exact ⟨fun ha _ => ha, fun ha => ha ⟨raw, List.mem_of_getElem? hn, hb⟩⟩
  · obtain ⟨n, raw, here, hn, hh, hf, hg⟩ := ofSourceLines_fault hl h
    have hb := badLabel_of_ofLines hl
    have ho := failsOnly_statements hh f hf
    rw [Nat.add_comm] at ho
    refine ⟨n, ⟨⟨raw, hn, not_accepted_of_fault hh hf, .inr hb⟩, ho, ?_⟩, ?_⟩
    · exact fun r hr => hb r (List.mem_of_mem_take hr)
    · refine ⟨fun _ => ?_, fun _ => hg⟩
      rintro ⟨r, hr, hbad⟩
      rw [hb r hr] at hbad
      cases hbad

theorem fault_line_of_second_label :
    Statement.parseAll "ret\n1st:\nfoo".toList = .error (.invalidLabel "1st" ⟨2, 1⟩) ∧
      ∃ n, FaultAfter n "ret\n1st:\nfoo".toList (.invalidLabel "1st" ⟨2, 1⟩) ∧
        ((∃ ss, Statement.parseAll (firstLines n "ret\n1st:\nfoo".toList) = .ok ss) ↔
          LabelsInOrder "ret\n1st:\nfoo".toList) := by
  have h : Statement.parseAll "ret\n1st:\nfoo".toList = .error (.invalidLabel "1st" ⟨2, 1⟩) := by
    rfl
  exact ⟨h, parseAll_fault_line h⟩

/-- A bad label is reported although a bad instruction stands before it. -/
theorem bad_label_overtakes_instruction :
    Statement.parseAll "foo\n1st:".toList = .error (.invalidLabel "1st" ⟨2, 1⟩) ∧
      Statement.parseAll (firstLines 1 "foo\n1st:".toList) =
        .error (.unknownMnemonic "foo" ⟨1, 1⟩) := by
  constructor <;> rfl

end Grammar

end RegAsm
