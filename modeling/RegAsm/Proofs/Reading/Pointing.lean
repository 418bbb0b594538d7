import RegAsm.Proofs.Labels
import RegAsm.Proofs.Reading.FaultLines

namespace RegAsm

open Text Fallible

def Statement.Shows (stands : List Char → Span → Prop) : Statement → Prop
  | label name span => stands (name.toList ++ [':']) span
  | instruction i span => ∃ t, Trimmed t ∧ stands t span ∧ Instruction.read t span = .ok i

lemma Statement.Shows.imp {P Q : List Char → Span → Prop} (h : ∀ w span, P w span → Q w span)
    {s : Statement} (hs : s.Shows P) : s.Shows Q := by
  cases s with
  | label name span => exact h _ _ hs
  | instruction i span =>
    obtain ⟨t, ht, hp, hr⟩ := hs
    exact ⟨t, ht, h _ _ hp, hr⟩

namespace Grammar

variable {start span : Span} {raw body : List Char} {s : Statement} {ss : List Statement}

lemma Body.shows (h : Body span body ss) : ∀ s ∈ ss, s.Shows (StandsOn span body) := by
  have hlabel : ∀ name rest, Statement.Shows (StandsOn span (name ++ ':' :: rest))
      (.label (String.ofList name) span) := by
    intro name rest
    have hne : name ++ [':'] ≠ [] := by simp
    simpa [Statement.Shows] using standsOn_append hne span rest
  cases h with
  | empty => simp
  | label hname => exact List.forall_mem_singleton.mpr (hlabel _ [])
  | code ht hi =>
    refine List.forall_mem_singleton.mpr ⟨body, ht, ?_, hi⟩
    simpa using standsOn_append ht.ne_nil span []
  | @labelled name gap t i place hname hgap ht hp hi =>
    refine List.forall_mem_cons.mpr ⟨hlabel _ _, List.forall_mem_singleton.mpr ⟨t, ht, ?_, hi⟩⟩
    refine ⟨name ++ ':' :: gap, [], by simp, by simp [ht.ne_nil], ?_⟩
    rw [hp, width_append, width_cons, utf8Size_colon, Nat.add_assoc]

lemma Line.shows (h : Line start raw ss) : ∀ s ∈ ss, s.Shows (StandsOn start raw) := by
  obtain ⟨hb, ha, hc, hbody, rfl⟩ := h
  intro s hs
  simp only [List.append_assoc]
  exact (hbody.shows s hs).imp fun _ _ hw => hw.extend rfl rfl

lemma Line.increasing (h : Line start raw ss) (hc : start.col = 1) (hw : width raw < 2 ^ 32) :
    ss.Pairwise (fun a b => a.span.Before b.span) ∧ ∀ s ∈ ss, s.span.line = start.line := by
  obtain @⟨before, _, _, _, _, _, _, _, hbody, rfl⟩ := h
  cases hbody with
  | empty => simp
  | label => simp [Statement.span]
  | code => simp [Statement.span]
  | @labelled name gap t i place hname hgap ht hp hi =>
    have hpos := width_pos ht.ne_nil
    simp only [width_append, width_cons, utf8Size_colon] at hw
    rw [Span.advance_advance] at hp
    subst hp
    have hbefore : (start.advance (width before)).Before
        (start.advance (width before + (width name + 1 + width gap))) := by
      refine .inr ⟨rfl, ?_⟩
      rw [UInt32.lt_iff_toNat_lt, Span.toNat_col_advance hc (by omega),
        Span.toNat_col_advance hc (by omega)]
      omega
    simp [Statement.span, hbefore]

lemma Lines.increasing {n : Nat} {raws : List (List Char)} (h : Lines n raws ss)
    (hn : n + raws.length ≤ 2 ^ 32) (hw : ∀ raw ∈ raws, width raw < 2 ^ 32) :
    ss.Pairwise (fun a b => a.span.Before b.span) ∧ ∀ s ∈ ss, n ≤ s.span.line.toNat := by
  induction h with
  | nil => simp
  | @cons n raw rest ss ts hl _ ih =>
    rw [List.length_cons] at hn
    obtain ⟨hraw, hrest⟩ := List.forall_mem_cons.mp hw
    obtain ⟨hhere, hline⟩ := hl.increasing rfl hraw
    obtain ⟨hlater, hbelow⟩ := ih (by omega) hrest
    have hnum : (UInt32.ofNat n).toNat = n :=
      UInt32.toNat_ofNat_of_lt' (show n < 2 ^ 32 by omega)
    refine ⟨List.pairwise_append.mpr ⟨hhere, hlater, fun a ha b hb => .inl ?_⟩, ?_⟩
    · rw [UInt32.lt_iff_toNat_lt, hline a ha, hnum]
      exact hbelow b hb
    · intro s hs
      obtain hs | hs := List.mem_append.mp hs
      · rw [hline s hs, hnum]
      · exact Nat.le_of_succ_le (hbelow s hs)

lemma Lines.exists_line {n : Nat} {raws : List (List Char)} (h : Lines n raws ss) (hs : s ∈ ss) :
    ∃ k raw here, raws[k]? = some raw ∧ Line ⟨UInt32.ofNat (n + k), 1⟩ raw here ∧ s ∈ here := by
  induction h with
  | nil => cases hs
  | @cons n raw rest here later hl _ ih =>
    obtain hs | hs := List.mem_append.mp hs
    · exact ⟨0, raw, here, rfl, hl, hs⟩
    · obtain ⟨k, raw, here, hk, hl, hs⟩ := ih hs
      rw [Nat.add_right_comm] at hl
      exact ⟨k + 1, raw, here, hk, hl, hs⟩

end Grammar

structure Addressable (source : List Char) : Prop where
  rows : (lines source).length < 2 ^ 32
  columns : ∀ raw ∈ lines source, width raw < 2 ^ 32

/-- On the line and at the byte that `span` names, counted from one, the text goes on with `w`. -/
def StandsIn (source w : List Char) (span : Span) : Prop :=
  ∃ n before after, (lines source)[n]? = some (before ++ (w ++ after)) ∧ w ++ after ≠ [] ∧
    span.line.toNat = n + 1 ∧ span.col.toNat = width before + 1

namespace Addressable

variable {source : List Char} (h : Addressable source) {ss : List Statement} {f : Fault}
include h

lemma standsIn {raw w : List Char} {n : Nat} {span : Span} (hn : (lines source)[n]? = some raw)
    (hw : StandsOn ⟨UInt32.ofNat (1 + n), 1⟩ raw w span) : StandsIn source w span := by
  obtain ⟨before, after, rfl, hne, rfl⟩ := hw
  refine ⟨n, before, after, hn, hne, ?_, ?_⟩
  · have hlt : n < (lines source).length := (List.getElem?_eq_some_iff.mp hn).1
    have hrows := h.rows
    rw [Span.advance_line, UInt32.toNat_ofNat_of_lt' (show 1 + n < 2 ^ 32 by omega), Nat.add_comm]
  · have hpos := width_pos hne
    have hcol := h.columns _ (List.mem_of_getElem? hn)
    rw [width_append] at hcol
    exact Span.toNat_col_advance rfl (by omega)

lemma statements_show (hs : Statement.parseAll source = .ok ss) :
    ss.Pairwise (fun a b => a.span.Before b.span) ∧ ∀ s ∈ ss, s.Shows (StandsIn source) := by
  have hl := Grammar.parseAll_eq_ok_iff.mp hs
  have hrows := h.rows
  refine ⟨(hl.increasing (by omega) h.columns).1, fun s hs => ?_⟩
  obtain ⟨n, raw, here, hn, hline, hmem⟩ := hl.exists_line hs
  exact (hline.shows s hmem).imp fun _ _ => h.standsIn hn

lemma parseAll_fault_shows (hf : Statement.parseAll source = .error f) :
    f.Shows (StandsIn source) := by
  obtain hf | ⟨ls, hl, hf⟩ := bind_eq_error_iff.mp hf
  · obtain ⟨n, raw, hn, hf, -⟩ := SourceLine.ofLines_fault hf
    exact (SourceLine.shows_ofLine raw _ f hf).imp fun _ _ => h.standsIn hn
  · obtain ⟨n, raw, here, hn, hh, hf, -⟩ := Grammar.ofSourceLines_fault hl hf
    exact (SourceLine.shows_statements hh f hf).imp fun _ _ => h.standsIn hn

lemma duplicate_shows (hs : Statement.parseAll source = .ok ss)
    (hf : LabelTable.ofStatements ss = .error f) : f.Shows (StandsIn source) := by
  obtain ⟨before, after, name, span, first, rfl, hfirst, rfl⟩ := LabelTable.ofStatements_fault hf
  obtain ⟨horder, hstands⟩ := h.statements_show hs
  have hmem : .label name span ∈ before ++ .label name span :: after := by simp
  have hb : first.Before span :=
    (List.pairwise_append.mp horder).2.2 _ hfirst _ List.mem_cons_self
  exact .duplicateLabel hb (hstands _ (List.mem_append_left _ hfirst)) (hstands _ hmem)

end Addressable

/-- The statements of a program follow each other in its text, each stands where its span says, and
so does what a fault is about. -/
theorem spans_show_text {source : String} (h : Addressable source.toList) :
    (∀ p, Program.parse source = .ok p →
      p.statements.toList.Pairwise (fun a b => a.span.Before b.span) ∧
        ∀ s ∈ p.statements, s.Shows (StandsIn source.toList)) ∧
    ∀ f, Program.parse source = .error f → f.Shows (StandsIn source.toList) := by
  refine ⟨fun p hp => ?_, fun f hf => ?_⟩
  · obtain ⟨horder, hshow⟩ := h.statements_show (Program.parse_eq_ok_iff.mp hp)
    exact ⟨horder, fun s hs => hshow s (Array.mem_toList_iff.mpr hs)⟩
  · obtain hf | ⟨ss, hs, hf⟩ := Program.parse_eq_error_iff.mp hf
    · exact h.parseAll_fault_shows hf
    · exact h.duplicate_shows hs hf

theorem fault_after_wide_characters :
    Addressable "ret\n\u3000l:\u3000msg 'é', 1x".toList ∧
      Program.parse "ret\n\u3000l:\u3000msg 'é', 1x" = .error (.malformedOperand "1x" ⟨2, 19⟩) ∧
      (Fault.malformedOperand "1x" ⟨2, 19⟩).Shows
        (StandsIn "ret\n\u3000l:\u3000msg 'é', 1x".toList) := by
  have hc : Addressable "ret\n\u3000l:\u3000msg 'é', 1x".toList := ⟨by decide, by decide⟩
  have hf : Program.parse "ret\n\u3000l:\u3000msg 'é', 1x" =
      .error (.malformedOperand "1x" ⟨2, 19⟩) :=
    Program.parse_eq_error_iff.mpr (.inl (by decide +kernel))
  exact ⟨hc, hf, (spans_show_text hc).2 _ hf⟩

end RegAsm
