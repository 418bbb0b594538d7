import Mathlib.Data.List.Nodup
import RegAsm.Proofs.Labels
import RegAsm.Proofs.Reading.Grammar

namespace RegAsm

open Text Fallible

def Span.down (n : Nat) (s : Span) : Span :=
  { s with line := s.line + UInt32.ofNat n }

def Fault.down (n : Nat) : Fault → Fault
  | duplicateLabel label span first => .duplicateLabel label (span.down n) (first.down n)
  | undefinedRegister register span => .undefinedRegister register (span.down n)
  | undefinedLabel label span => .undefinedLabel label (span.down n)
  | divisionByZero span => .divisionByZero (span.down n)
  | emptyCallStack span => .emptyCallStack (span.down n)
  | malformedOperand operand span => .malformedOperand operand (span.down n)
  | unknownMnemonic mnemonic span => .unknownMnemonic mnemonic (span.down n)
  | invalidOperands detail span => .invalidOperands detail (span.down n)
  | illFormed detail span => .illFormed detail (span.down n)
  | limitExceeded resource limit => .limitExceeded resource limit

def SourceLine.down (n : Nat) : SourceLine → SourceLine
  | label name span => .label name (span.down n)
  | instruction code span => .instruction code (span.down n)

def Statement.down (n : Nat) : Statement → Statement
  | label name span => .label name (span.down n)
  | instruction i span => .instruction i (span.down n)

lemma Span.advance_down (s : Span) (n k : Nat) : (s.down n).advance k = (s.advance k).down n :=
  rfl

lemma Text.lines_append (cs ds : List Char) : lines (cs ++ '\n' :: ds) = lines cs ++ lines ds := by
  simp only [lines_eq_splitOn, List.splitOn_append_cons_self]

lemma Text.length_lines (cs : List Char) : (lines cs).length = cs.count '\n' + 1 := by
  induction cs with
  | nil => rfl
  | cons c cs ih =>
    by_cases hc : c = '\n'
    · subst hc
      simp [ih]
    · simp [lines_cons hc, ih, List.count_cons_of_ne hc]

namespace SourceLine

lemma codeOf_down (cs : List Char) (span : Span) (n : Nat) :
    codeOf cs (span.down n) = (codeOf cs span).map (down n) := by
  simp only [codeOf]
  split <;> rfl

lemma ofLine_down (raw : List Char) (start : Span) (n : Nat) :
    ofLine raw (start.down n) =
      ((ofLine raw start).map (List.map (down n))).mapError (Fault.down n) := by
  simp only [ofLine, Span.advance_down, codeOf_down]
  split
  · rfl
  · split <;> rfl

lemma ofLines_down (n k : Nat) (raws : List (List Char)) :
    ofLines (k + n) raws =
      ((ofLines k raws).map (List.map (down n))).mapError (Fault.down n) := by
  induction raws generalizing k with
  | nil => rfl
  | cons raw rest ih =>
    have hstart : (⟨UInt32.ofNat (k + n), 1⟩ : Span) = Span.down n ⟨UInt32.ofNat k, 1⟩ := by
      simp [Span.down]
    rw [ofLines, ofLines, hstart, ofLine_down, Nat.add_right_comm, ih]
    cases ofLine raw ⟨UInt32.ofNat k, 1⟩ with
    | error f => rfl
    | ok here =>
      cases ofLines (k + 1) rest with
      | error f => rfl
      | ok later => exact congrArg Except.ok List.map_append.symm

lemma ofLines_append (k : Nat) (raws more : List (List Char)) :
    ofLines k (raws ++ more) = do
      let here ← ofLines k raws
      let later ← ofLines (k + raws.length) more
      return here ++ later := by
  induction raws generalizing k with
  | nil =>
    rw [List.nil_append, List.length_nil, Nat.add_zero]
    cases ofLines k more <;> rfl
  | cons raw rest ih =>
    rw [List.cons_append, ofLines, ofLines, ih, List.length_cons, Nat.add_right_comm, Nat.add_assoc]
    cases ofLine raw ⟨UInt32.ofNat k, 1⟩ with
    | error f => rfl
    | ok here =>
      cases ofLines (k + 1) rest with
      | error f => rfl
      | ok later =>
        cases ofLines (k + (rest.length + 1)) more with
        | error f => rfl
        | ok last => exact congrArg Except.ok (List.append_assoc here later last).symm

lemma ofText_append (cs ds : List Char) :
    ofText (cs ++ '\n' :: ds) = do
      let here ← ofText cs
      let later ←
        ((ofText ds).map (List.map (down (lines cs).length))).mapError
          (Fault.down (lines cs).length)
      return here ++ later := by
  rw [ofText, lines_append, ofLines_append, ofLines_down]
  rfl

lemma ofText_append_eq_error_iff {cs ds : List Char} {f : Fault} :
    ofText (cs ++ '\n' :: ds) = .error f ↔
      ofText cs = .error f ∨
        (∃ ls, ofText cs = .ok ls) ∧ ∃ g, ofText ds = .error g ∧ g.down (lines cs).length = f := by
  have hpure : ∀ a : List SourceLine, (pure a : Except Fault _) ≠ .error f := by
    rintro a ⟨⟩
  simp only [ofText_append, bind_eq_error_iff, mapError_eq_error_iff, map_eq_error_iff, hpure,
    and_false, exists_false, or_false, exists_and_right]

lemma statement_down {l : SourceLine} {n : Nat} {u : Statement} :
    (l.down n).statement = .ok u ↔ ∃ s, l.statement = .ok s ∧ s.down n = u := by
  cases l with
  | label name span =>
    simp only [down, statement, Except.ok.injEq, exists_eq_left']
    rfl
  | instruction code span =>
    simp only [down, statement, map_eq_ok_iff, Instruction.read_eq_ok_iff]
    constructor
    · rintro ⟨i, hi, rfl⟩
      exact ⟨_, ⟨i, hi, rfl⟩, rfl⟩
    · rintro ⟨_, ⟨i, hi, rfl⟩, rfl⟩
      exact ⟨i, hi, rfl⟩

end SourceLine

namespace Grammar

/-- A line without statements: blank, or a comment. -/
def Vacant (raw : List Char) : Prop :=
  ∃ before comment, Blanks before ∧ IsComment comment ∧ raw = before ++ comment

lemma parseAll_of_vacant {filler : List Char} (h : ∀ raw ∈ lines filler, Vacant raw) :
    Statement.parseAll filler = .ok [] := by
  rw [parseAll_eq_ok_iff]
  generalize lines filler = raws at h
  generalize 1 = n
  induction raws generalizing n with
  | nil => exact .nil
  | cons raw rest ih =>
    obtain ⟨⟨before, comment, hb, hc, rfl⟩, hrest⟩ := List.forall_mem_cons.mp h
    have hnone : Blanks [] := by simp [Blanks]
    have hl : Line ⟨UInt32.ofNat n, 1⟩ (before ++ comment) [] :=
      .mk hb hnone hc .empty (by simp)
    exact .cons hl (ih hrest (n + 1))

end Grammar

namespace Statement

lemma down_down (s : Statement) (m n : Nat) : (s.down m).down n = s.down (n + m) := by
  cases s <;> simp [down, Span.down, UInt32.add_assoc, UInt32.add_comm (UInt32.ofNat n)]

lemma ofSourceLines_down {ls : List SourceLine} {n : Nat} {us : List Statement} :
    ofSourceLines (ls.map (SourceLine.down n)) = .ok us ↔
      ∃ ss, ofSourceLines ls = .ok ss ∧ ss.map (down n) = us := by
  induction ls generalizing us with
  | nil => simp [ofSourceLines]
  | cons l ls ih =>
    simp only [List.map_cons, ofSourceLines, bind_eq_ok_iff, pure_eq_ok_iff,
      SourceLine.statement_down, ih]
    constructor
    · rintro ⟨_, ⟨s, hs, rfl⟩, _, ⟨ss, hss, rfl⟩, rfl⟩
      exact ⟨s :: ss, ⟨s, hs, ss, hss, rfl⟩, rfl⟩
    · rintro ⟨_, ⟨s, hs, ss, hss, rfl⟩, rfl⟩
      exact ⟨_, ⟨s, hs, rfl⟩, _, ⟨ss, hss, rfl⟩, rfl⟩

lemma parseAll_append {cs ds : List Char} {us : List Statement} :
    parseAll (cs ++ '\n' :: ds) = .ok us ↔
      ∃ ss ts, parseAll cs = .ok ss ∧ parseAll ds = .ok ts ∧
        us = ss ++ ts.map (down (lines cs).length) := by
  simp only [parseAll, bind_eq_ok_iff, SourceLine.ofText_append, pure_eq_ok_iff,
    mapError_eq_ok_iff, map_eq_ok_iff]
  constructor
  · rintro ⟨_, ⟨here, hh, _, ⟨later, hl, rfl⟩, rfl⟩, hu⟩
    obtain ⟨ss, _, hs, ht, rfl⟩ := ofSourceLines_append_iff.mp hu
    obtain ⟨ts, hts, rfl⟩ := ofSourceLines_down.mp ht
    exact ⟨ss, ts, ⟨here, hh, hs⟩, ⟨later, hl, hts⟩, rfl⟩
  · rintro ⟨ss, ts, ⟨here, hh, hs⟩, ⟨later, hl, ht⟩, rfl⟩
    refine ⟨_, ⟨here, hh, _, ⟨later, hl, rfl⟩, rfl⟩, ?_⟩
    exact ofSourceLines_append_iff.mpr ⟨ss, _, hs, ofSourceLines_down.mpr ⟨ts, ht, rfl⟩, rfl⟩

lemma parseAll_append_filler {cs filler ds : List Char} {us : List Statement}
    (h : ∀ raw ∈ lines filler, Grammar.Vacant raw) :
    parseAll (cs ++ '\n' :: (filler ++ '\n' :: ds)) = .ok us ↔
      ∃ ss ts, parseAll cs = .ok ss ∧ parseAll ds = .ok ts ∧
        us = ss ++ ts.map (down ((lines cs).length + (lines filler).length)) := by
  have hmoved : ∀ ts : List Statement,
      (ts.map (down (lines filler).length)).map (down (lines cs).length) =
        ts.map (down ((lines cs).length + (lines filler).length)) := by
    intro ts
    rw [List.map_map]
    exact List.map_congr_left fun s _ => s.down_down _ _
  simp only [parseAll_append, Grammar.parseAll_of_vacant h, Except.ok.injEq]
  constructor
  · rintro ⟨ss, _, hs, ⟨_, ts, rfl, ht, rfl⟩, rfl⟩
    exact ⟨ss, ts, hs, ht, by rw [List.nil_append, hmoved]⟩
  · rintro ⟨ss, ts, hs, ht, rfl⟩
    exact ⟨ss, _, hs, ⟨_, ts, rfl, ht, rfl⟩, by rw [List.nil_append, hmoved]⟩

lemma declared_append (ss ts : List Statement) :
    declared (ss ++ ts) = declared ss ++ declared ts :=
  List.filterMap_append

lemma declared_down (n : Nat) (ss : List Statement) : declared (ss.map (down n)) = declared ss := by
  have h : label? ∘ down n = label? := by
    funext s
    cases s <;> rfl
  rw [declared, List.filterMap_map, h, declared]

lemma label_of_down {s : Statement} {n : Nat} {name : String} {span : Span}
    (h : s.down n = .label name span) : ∃ at', s = .label name at' := by
  cases s with
  | label other at' =>
    cases h
    exact ⟨at', rfl⟩
  | instruction i at' => cases h

end Statement

namespace Program

variable {p a b : Program} {ss ts : List Statement} {n i : Nat} {name source : String}

lemma parse_eq_ok_iff_of_parseAll (h : Statement.parseAll source.toList = .ok ss) :
    parse source = .ok p ↔ p.statements.toList = ss := by
  rw [parse_eq_ok_iff, h, Except.ok.injEq]
  exact eq_comm

lemma exists_parse_iff :
    (∃ p, parse source = .ok p) ↔
      ∃ ss, Statement.parseAll source.toList = .ok ss ∧ (Statement.declared ss).Nodup := by
  simp only [parse_eq_ok_iff, ← exists_statements_iff]
  constructor
  · rintro ⟨p, hp⟩
    exact ⟨_, hp, p, rfl⟩
  · rintro ⟨_, hs, p, rfl⟩
    exact ⟨p, hs⟩

lemma exists_parse_iff_of_parseAll (h : Statement.parseAll source.toList = .ok ss) :
    (∃ p, parse source = .ok p) ↔ (Statement.declared ss).Nodup := by
  simp only [parse_eq_ok_iff_of_parseAll h, exists_statements_iff]

lemma exists_parse_append {s t : String} :
    (∃ p, parse (s ++ "\n" ++ t) = .ok p) ↔
      ∃ ss ts, Statement.parseAll s.toList = .ok ss ∧ Statement.parseAll t.toList = .ok ts ∧
        (∃ a, parse s = .ok a) ∧ (∃ b, parse t = .ok b) ∧
          (Statement.declared ss).Disjoint (Statement.declared ts) := by
  have hl : (s ++ "\n" ++ t).toList = s.toList ++ '\n' :: t.toList := by simp
  rw [exists_parse_iff, hl]
  simp only [Statement.parseAll_append]
  constructor
  · rintro ⟨_, ⟨ss, ts, hs, ht, rfl⟩, hn⟩
    rw [Statement.declared_append, Statement.declared_down, List.nodup_append'] at hn
    obtain ⟨hss, hts, hd⟩ := hn
    exact ⟨ss, ts, hs, ht, (exists_parse_iff_of_parseAll hs).mpr hss,
      (exists_parse_iff_of_parseAll ht).mpr hts, hd⟩
  · rintro ⟨ss, ts, hs, ht, ha, hb, hd⟩
    refine ⟨_, ⟨ss, ts, hs, ht, rfl⟩, ?_⟩
    rw [Statement.declared_append, Statement.declared_down, List.nodup_append']
    exact ⟨(exists_parse_iff_of_parseAll hs).mp ha, (exists_parse_iff_of_parseAll ht).mp hb, hd⟩

lemma index?_append_iff (hp : p.statements.toList = ss ++ ts.map (.down n)) :
    p.labels.index? name = some i ↔
      (∃ span, ss[i]? = some (.label name span)) ∨
        ∃ j span, ts[j]? = some (.label name span) ∧ i = ss.length + j := by
  simp only [index?_eq_some_iff, ← Array.getElem?_toList, hp]
  by_cases hi : i < ss.length
  · rw [List.getElem?_append_left hi]
    constructor
    · exact .inl
    · rintro (h | ⟨j, _, _, rfl⟩)
      · exact h
      · omega
  · rw [List.getElem?_append_right (by omega)]
    have hnone : ss[i]? = none := List.getElem?_eq_none (by omega)
    simp only [hnone, reduceCtorEq, exists_false, false_or, List.getElem?_map,
      Option.map_eq_some_iff]
    constructor
    · rintro ⟨span, u, hu, hd⟩
      obtain ⟨at', rfl⟩ := Statement.label_of_down hd
      exact ⟨i - ss.length, at', hu, by omega⟩
    · rintro ⟨j, at', hu, rfl⟩
      rw [Nat.add_sub_cancel_left]
      exact ⟨at'.down n, _, hu, rfl⟩

lemma index?_append
    (hp : p.statements.toList = a.statements.toList ++ b.statements.toList.map (.down n)) :
    p.labels.index? name =
      (a.labels.index? name).or ((b.labels.index? name).map (a.size + ·)) := by
  have hiff : ∀ i, p.labels.index? name = some i ↔ a.labels.index? name = some i ∨
      ∃ j, b.labels.index? name = some j ∧ i = a.size + j := by
    intro i
    simp only [index?_append_iff hp, index?_eq_some_iff, Array.getElem?_toList,
      Array.length_toList, size, exists_and_right]
  cases ha : a.labels.index? name with
  | some i => exact (hiff i).mpr (.inl ha)
  | none =>
    cases hb : b.labels.index? name with
    | some j => exact (hiff (a.size + j)).mpr (.inr ⟨j, hb, rfl⟩)
    | none =>
      apply Option.eq_none_iff_forall_ne_some.mpr
      intro i hi
      simpa [ha, hb] using (hiff i).mp hi

end Program

/-- Two texts, one below the other, are taken apart and read exactly if both are, and then they are
what they are alone, the second one moved down by the lines of the first. They are a program exactly
if both are and no label is declared in both. Its statements are those of the two, and so its labels
are those of the first, then those of the second after the statements of the first. Blank lines and
comments between them only move the second further down. -/
theorem texts_concatenate (s t : String) :
    (∀ cs, (lines cs).length = cs.count '\n' + 1) ∧
    (∀ f, SourceLine.ofText (s ++ "\n" ++ t).toList = .error f ↔
      SourceLine.ofText s.toList = .error f ∨
        (∃ ls, SourceLine.ofText s.toList = .ok ls) ∧
          ∃ g, SourceLine.ofText t.toList = .error g ∧ g.down (lines s.toList).length = f) ∧
    (∀ us, Statement.parseAll (s ++ "\n" ++ t).toList = .ok us ↔
      ∃ ss ts, Statement.parseAll s.toList = .ok ss ∧ Statement.parseAll t.toList = .ok ts ∧
        us = ss ++ ts.map (.down (lines s.toList).length)) ∧
    ((∃ p, Program.parse (s ++ "\n" ++ t) = .ok p) ↔
      ∃ ss ts, Statement.parseAll s.toList = .ok ss ∧ Statement.parseAll t.toList = .ok ts ∧
        (∃ a, Program.parse s = .ok a) ∧ (∃ b, Program.parse t = .ok b) ∧
          (Statement.declared ss).Disjoint (Statement.declared ts)) ∧
    (∀ ss ts, Statement.parseAll s.toList = .ok ss → Statement.parseAll t.toList = .ok ts →
      (∀ a, Program.parse s = .ok a ↔ a.statements.toList = ss) ∧
      (∀ b, Program.parse t = .ok b ↔ b.statements.toList = ts) ∧
      (∀ p, Program.parse (s ++ "\n" ++ t) = .ok p ↔
        p.statements.toList = ss ++ ts.map (.down (lines s.toList).length)) ∧
      ∀ p, Program.parse (s ++ "\n" ++ t) = .ok p →
        ∀ name i, p.labels.index? name = some i ↔
          (∃ span, ss[i]? = some (.label name span)) ∨
            ∃ j span, ts[j]? = some (.label name span) ∧ i = ss.length + j) ∧
    (∀ a b p, Program.parse s = .ok a → Program.parse t = .ok b →
      Program.parse (s ++ "\n" ++ t) = .ok p →
      ∀ name, p.labels.index? name =
        (a.labels.index? name).or ((b.labels.index? name).map (a.size + ·))) ∧
    ∀ filler : String, (∀ raw ∈ lines filler.toList, Grammar.Vacant raw) →
      ∀ us, Statement.parseAll (s ++ "\n" ++ (filler ++ "\n" ++ t)).toList = .ok us ↔
        ∃ ss ts, Statement.parseAll s.toList = .ok ss ∧ Statement.parseAll t.toList = .ok ts ∧
          us = ss ++ ts.map (.down ((lines s.toList).length + (lines filler.toList).length)) := by
  have htext : ∀ a b : String, (a ++ "\n" ++ b).toList = a.toList ++ '\n' :: b.toList := by simp
  have hboth : ∀ {ss ts}, Statement.parseAll s.toList = .ok ss →
      Statement.parseAll t.toList = .ok ts → Statement.parseAll (s ++ "\n" ++ t).toList =
        .ok (ss ++ ts.map (.down (lines s.toList).length)) := by
    intro ss ts hs ht
    rw [htext]
    exact Statement.parseAll_append.mpr ⟨ss, ts, hs, ht, rfl⟩
  refine ⟨length_lines, fun f => ?_, fun us => ?_, Program.exists_parse_append,
    fun ss ts hs ht => ?_, fun a b p ha hb hp name => ?_, fun filler hfill us => ?_⟩
  · rw [htext]
    exact SourceLine.ofText_append_eq_error_iff
  · rw [htext]
    exact Statement.parseAll_append
  · have hp := fun p => Program.parse_eq_ok_iff_of_parseAll (p := p) (hboth hs ht)
    exact ⟨fun a => Program.parse_eq_ok_iff_of_parseAll hs,
      fun b => Program.parse_eq_ok_iff_of_parseAll ht, hp,
      fun p h name i => Program.index?_append_iff ((hp p).mp h)⟩
  · rw [Program.parse_eq_ok_iff] at ha hb
    exact Program.index?_append ((Program.parse_eq_ok_iff_of_parseAll (hboth ha hb)).mp hp)
  · rw [htext, htext]
    exact Statement.parseAll_append_filler hfill

theorem labelled_texts_concatenate :
    (∃ p, Program.parse ("a: ret" ++ "\n" ++ "b: end") = .ok p ∧
      p.statements.toList = [.label "a" ⟨1, 1⟩, .instruction .ret ⟨1, 4⟩, .label "b" ⟨2, 1⟩,
        .instruction .halt ⟨2, 4⟩] ∧
      p.labels.index? "a" = some 0 ∧ p.labels.index? "b" = some 2) ∧
    (¬ ∃ p, Program.parse ("a: ret" ++ "\n" ++ "a: ret") = .ok p) ∧
    (∀ raw ∈ lines "; b: 'ret\n".toList, Grammar.Vacant raw) ∧
      Statement.parseAll ("a: ret" ++ "\n" ++ ("; b: 'ret\n" ++ "\n" ++ "b: end")).toList =
        .ok [.label "a" ⟨1, 1⟩, .instruction .ret ⟨1, 4⟩, .label "b" ⟨4, 1⟩,
          .instruction .halt ⟨4, 4⟩] := by
  have hs : Statement.parseAll "a: ret".toList =
      .ok [.label "a" ⟨1, 1⟩, .instruction .ret ⟨1, 4⟩] := by decide +kernel
  have ht : Statement.parseAll "b: end".toList =
      .ok [.label "b" ⟨1, 1⟩, .instruction .halt ⟨1, 4⟩] := by decide +kernel
  obtain ⟨-, -, -, hex, hread, -, hapart⟩ := texts_concatenate "a: ret" "b: end"
  refine ⟨?_, ?_, ?_⟩
  · have ha := (Program.exists_parse_iff_of_parseAll hs).mpr (by decide)
    have hb := (Program.exists_parse_iff_of_parseAll ht).mpr (by decide)
    have hdisjoint : ["a"].Disjoint ["b"] := by simp
    obtain ⟨p, hp⟩ := hex.mpr ⟨_, _, hs, ht, ha, hb, hdisjoint⟩
    obtain ⟨-, -, hstatements, hindex⟩ := hread _ _ hs ht
    exact ⟨p, hp, (hstatements p).mp hp, (hindex p hp "a" 0).mpr (.inl ⟨_, rfl⟩),
      (hindex p hp "b" 2).mpr (.inr ⟨0, _, rfl, rfl⟩)⟩
  · intro h
    obtain ⟨_, _, h₁, h₂, -, -, hd⟩ := (texts_concatenate "a: ret" "a: ret").2.2.2.1.mp h
    cases hs.symm.trans h₁
    cases hs.symm.trans h₂
    exact @hd "a" (by decide) (by decide)
  · have hnone : Blanks [] := by simp [Blanks]
    have hfill : ∀ raw ∈ lines "; b: 'ret\n".toList, Grammar.Vacant raw := by
      have hl : lines "; b: 'ret\n".toList = ["; b: 'ret".toList, []] := by decide
      rw [hl, List.forall_mem_cons, List.forall_mem_singleton]
      exact ⟨⟨[], _, hnone, .inr ⟨_, rfl⟩, rfl⟩, ⟨[], [], hnone, .inl rfl, rfl⟩⟩
    exact ⟨hfill, (hapart _ hfill _).mpr ⟨_, _, hs, ht, rfl⟩⟩

end RegAsm
