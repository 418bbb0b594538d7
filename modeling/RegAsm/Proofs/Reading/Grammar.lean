import RegAsm.Program
import RegAsm.Proofs.Reading.Intact

/-! The grammar of program text, line by line, and the reader that accepts exactly it. -/

namespace RegAsm

open Text Fallible SourceLine

namespace Grammar

inductive Body (span : Span) : List Char → List Statement → Prop
  | empty : Body span [] []
  | label {name} : isIdentifier name = true →
      Body span (name ++ [':']) [.label (String.ofList name) span]
  | code {t i} : Trimmed t → Instruction.read t span = .ok i → Body span t [.instruction i span]
  | labelled {name gap t i place} : isIdentifier name = true → Blanks gap → Trimmed t →
      place = span.advance (width name + 1 + width gap) → Instruction.read t place = .ok i →
      Body span (name ++ ':' :: (gap ++ t))
        [.label (String.ofList name) span, .instruction i place]

def IsComment (cs : List Char) : Prop :=
  cs = [] ∨ ∃ text, cs = ';' :: text

inductive Line (start : Span) : List Char → List Statement → Prop
  | mk {raw before body after comment ss} : Blanks before → Blanks after → IsComment comment →
      Body (start.advance (width before)) body ss → raw = before ++ body ++ after ++ comment →
      Line start raw ss

inductive Lines : Nat → List (List Char) → List Statement → Prop
  | nil {n} : Lines n [] []
  | cons {n raw rest ss ts} : Line ⟨UInt32.ofNat n, 1⟩ raw ss → Lines (n + 1) rest ts →
      Lines n (raw :: rest) (ss ++ ts)

end Grammar

namespace SourceLine

variable {cs name rest : List Char} {start span : Span} {ss : List Statement}

lemma exists_comment (quoted : Bool) (cs : List Char) :
    ∃ comment, Grammar.IsComment comment ∧ cs = codeBefore quoted cs ++ comment := by
  induction cs generalizing quoted with
  | nil => exact ⟨[], .inl rfl, rfl⟩
  | cons c cs ih =>
    rw [codeBefore]
    split
    · obtain ⟨comment, hc, he⟩ := ih (!quoted)
      exact ⟨comment, hc, congrArg (c :: ·) he⟩
    · split
      · rename_i h
        obtain ⟨rfl, -⟩ : c = ';' ∧ quoted = false := by simpa using h
        exact ⟨';' :: cs, .inr ⟨cs, rfl⟩, rfl⟩
      · obtain ⟨comment, hc, he⟩ := ih quoted
        exact ⟨comment, hc, congrArg (c :: ·) he⟩

lemma Uncut.beforeComment (h : Uncut cs) {comment : List Char} (hc : Grammar.IsComment comment) :
    beforeComment (cs ++ comment) = cs := by
  rw [SourceLine.beforeComment, h]
  obtain rfl | ⟨text, rfl⟩ := hc
  · exact List.append_nil cs
  · exact List.append_nil cs

lemma eq_of_labelled? (h : labelled? cs = some (name, rest)) : cs = name ++ ':' :: rest := by
  simp only [labelled?] at h
  split at h
  · cases h
  · rename_i c tail hd
    split at h
    · cases h
    · cases h
      have hn := List.head?_dropWhile_not (· != ':') cs
      simp only [hd, List.head?_cons, bne_eq_false_iff_eq] at hn
      rw [hn] at hd
      rw [← hd, List.takeWhile_append_dropWhile]

lemma endsLabel_of_isNameChar {c : Char} (h : isNameChar c = true) : endsLabel c = false := by
  rw [Bool.eq_false_iff]
  intro he
  simp only [endsLabel, isAsciiBlank, isQuote, Bool.or_eq_true, beq_iff_eq] at he
  rcases he with (((((rfl | rfl) | rfl) | rfl) | rfl) | rfl) | rfl <;> revert h <;> decide

lemma labelled?_append (h : isIdentifier name = true) (rest : List Char) :
    labelled? (name ++ ':' :: rest) = some (name, rest) := by
  have hname := isNameChar_of_isIdentifier h
  have hcolon : ∀ c ∈ name, (c != ':') = true := by
    intro c hc
    rw [bne_iff_ne]
    rintro rfl
    have := hname _ hc
    contradiction
  have hhead : name.any endsLabel = false := by
    simpa using fun c hc => endsLabel_of_isNameChar (hname c hc)
  have hne : name.isEmpty = false := by
    cases name with
    | nil => cases h
    | cons c cs => rfl
  simp [labelled?, List.takeWhile_append_of_pos hcolon, List.dropWhile_append_of_pos hcolon, hhead,
    hne]

lemma codeOf_of_blank (h : trim cs = []) : codeOf cs span = [] := by
  simp [codeOf, h]

lemma codeOf_of_ne_nil (h : trim cs ≠ []) :
    codeOf cs span = [.instruction (trim cs) (span.advance (indent cs))] := by
  simp [codeOf, h]

lemma codeOf_append {gap after t : List Char} (hg : Blanks gap) (ha : Blanks after)
    (ht : Trimmed t) :
    codeOf (gap ++ t ++ after) span = [.instruction t (span.advance (width gap))] := by
  have h : trim (gap ++ t ++ after) = t := trim_append hg ha ht
  rw [codeOf_of_ne_nil (h.symm ▸ ht.ne_nil), h, indent_append hg ht]

lemma ofLine_of_unlabelled {raw : List Char} (h : labelled? (trim (beforeComment raw)) = none) :
    ofLine raw start = .ok (codeOf (beforeComment raw) start) := by
  simp only [ofLine, h]

lemma ofLine_of_labelled {raw : List Char}
    (h : labelled? (trim (beforeComment raw)) = some (name, rest))
    (hname : isIdentifier name = true) :
    ofLine raw start = .ok (.label name (start.advance (indent (beforeComment raw))) ::
      codeOf rest ((start.advance (indent (beforeComment raw))).advance (width name + 1))) := by
  simp only [ofLine, h, hname, if_true]

end SourceLine

namespace Statement

variable {ls ms : List SourceLine} {ss : List Statement} {span : Span}

lemma ofSourceLines_label_iff {name : List Char} :
    ofSourceLines (.label name span :: ls) = .ok ss ↔
      ∃ ts, ofSourceLines ls = .ok ts ∧ .label (String.ofList name) span :: ts = ss := by
  simp only [ofSourceLines, SourceLine.statement, bind_eq_ok_iff, pure_eq_ok_iff,
    Except.ok.injEq, exists_eq_left']

lemma ofSourceLines_instruction_iff {code : List Char} :
    ofSourceLines [.instruction code span] = .ok ss ↔
      ∃ i, Instruction.read code span = .ok i ∧ [.instruction i span] = ss := by
  simp only [ofSourceLines, SourceLine.statement, bind_eq_ok_iff, pure_eq_ok_iff, map_eq_ok_iff,
    Except.ok.injEq, exists_eq_left']
  constructor
  · rintro ⟨_, ⟨i, hi, rfl⟩, rfl⟩
    exact ⟨i, hi, rfl⟩
  · rintro ⟨i, hi, rfl⟩
    exact ⟨_, ⟨i, hi, rfl⟩, rfl⟩

lemma ofSourceLines_append_iff :
    ofSourceLines (ls ++ ms) = .ok ss ↔
      ∃ ts us, ofSourceLines ls = .ok ts ∧ ofSourceLines ms = .ok us ∧ ts ++ us = ss := by
  induction ls generalizing ss with
  | nil => simp [ofSourceLines]
  | cons l ls ih =>
    simp only [List.cons_append, ofSourceLines, bind_eq_ok_iff, pure_eq_ok_iff, ih]
    constructor
    · rintro ⟨s, hs, _, ⟨ts, us, ht, hu, rfl⟩, rfl⟩
      exact ⟨s :: ts, us, ⟨s, hs, ts, ht, rfl⟩, hu, rfl⟩
    · rintro ⟨_, us, ⟨s, hs, ts, ht, rfl⟩, hu, rfl⟩
      exact ⟨s, hs, ts ++ us, ⟨ts, us, ht, hu, rfl⟩, rfl⟩

end Statement

namespace Grammar

variable {raw : List Char} {start span : Span} {ss : List Statement}

lemma line_of_ofLine {ls : List SourceLine} (h : ofLine raw start = .ok ls)
    (hs : Statement.ofSourceLines ls = .ok ss) : Line start raw ss := by
  obtain ⟨comment, hc, he⟩ := exists_comment false raw
  change raw = beforeComment raw ++ comment at he
  obtain ⟨after, ha, hcode⟩ := exists_trim (beforeComment raw)
  have hb := blanks_takeWhile (beforeComment raw)
  simp only [ofLine] at h
  split at h
  · cases h
    rw [hcode] at he
    by_cases ht : trim (beforeComment raw) = []
    · rw [codeOf_of_blank ht] at hs
      cases hs
      exact .mk hb ha hc .empty (ht ▸ he)
    · rw [codeOf_of_ne_nil ht, Statement.ofSourceLines_instruction_iff] at hs
      obtain ⟨i, hi, rfl⟩ := hs
      exact .mk hb ha hc (.code (trimmed_trim ht) hi) he
  · rename_i name rest hl
    split at h
    · rename_i hname
      cases h
      obtain ⟨ts, ht, rfl⟩ := Statement.ofSourceLines_label_iff.mp hs
      obtain ⟨trail, htrail, hrest⟩ := exists_trim rest
      have hgap := blanks_takeWhile rest
      rw [hcode, eq_of_labelled? hl, hrest] at he
      by_cases hn : trim rest = []
      · rw [codeOf_of_blank hn] at ht
        cases ht
        refine .mk hb ((hgap.append htrail).append ha) hc (.label hname) (he.trans ?_)
        simp [hn]
      · rw [codeOf_of_ne_nil hn, Statement.ofSourceLines_instruction_iff] at ht
        obtain ⟨i, hi, rfl⟩ := ht
        rw [Span.advance_advance] at hi ⊢
        refine .mk hb (htrail.append ha) hc
          (.labelled hname hgap (trimmed_trim hn) rfl hi) (he.trans ?_)
        simp
    · cases h

lemma uncut_label {name : List Char} (h : isIdentifier name = true) : Uncut (name ++ [':']) := by
  apply Uncut.append
  · apply uncut_of_unmarked
    intro c hc
    have hn := isNameChar_of_isIdentifier h c hc
    exact unmarked_of_isPlain (isPlain_of_isOperandChar (isOperandChar_of_isNameChar hn))
  · exact uncut_of_unmarked (List.forall_mem_singleton.mpr (by decide))

lemma trimmed_label {name rest : List Char} (h : isIdentifier name = true)
    (hr : ∀ c ∈ rest.getLast?, isBlank c = false) : Trimmed (name ++ ':' :: rest) where
  ne_nil := by simp
  head := by
    obtain ⟨d, ds, rfl⟩ : ∃ d ds, name = d :: ds := by
      cases name with
      | nil => cases h
      | cons d ds => exact ⟨d, ds, rfl⟩
    intro c hc
    obtain rfl : d = c := by simpa using hc
    have hd := isNameChar_of_isIdentifier h d List.mem_cons_self
    exact isBlank_of_isOperandChar (isOperandChar_of_isNameChar hd)
  last := by
    intro c hc
    rw [List.getLast?_append_cons] at hc
    cases rest with
    | nil =>
      obtain rfl : ':' = c := by simpa using hc
      decide
    | cons d ds =>
      rw [List.getLast?_cons_cons] at hc
      exact hr c hc

lemma Body.uncut {body : List Char} (h : Body span body ss) : Uncut body := by
  cases h with
  | empty => exact fun _ => rfl
  | label hname => exact uncut_label hname
  | code _ hi => exact (Instruction.read_eq_ok_iff.mp hi).intact.uncut
  | @labelled name gap t _ _ hname hgap _ _ hi =>
    have ht := (Instruction.read_eq_ok_iff.mp hi).intact.uncut
    have := (uncut_label hname).append ((uncut_of_blanks hgap).append ht)
    simpa using this

lemma exists_ofLine {before body after : List Char} (hb : Blanks before) (ha : Blanks after)
    (h : Body (start.advance (width before)) body ss)
    (hcode : beforeComment raw = before ++ body ++ after) :
    ∃ ls, ofLine raw start = .ok ls ∧ Statement.ofSourceLines ls = .ok ss := by
  cases h with
  | empty =>
    have ht : trim (beforeComment raw) = [] := by
      rw [hcode, List.append_nil]
      exact trim_of_blanks (hb.append ha)
    refine ⟨_, ofLine_of_unlabelled (ht ▸ rfl), ?_⟩
    rw [codeOf_of_blank ht]
    rfl
  | @label name hname =>
    have hbody : Trimmed (name ++ [':']) := trimmed_label hname (by simp)
    have hl : labelled? (trim (beforeComment raw)) = some (name, []) := by
      rw [hcode, trim_append hb ha hbody, labelled?_append hname]
    refine ⟨_, ofLine_of_labelled hl hname, ?_⟩
    rw [hcode, indent_append hb hbody, codeOf_of_blank rfl]
    exact Statement.ofSourceLines_label_iff.mpr ⟨_, rfl, rfl⟩
  | code ht hi =>
    have hl := (Instruction.read_eq_ok_iff.mp hi).intact.labelled?_eq_none
    rw [← trim_append hb ha ht, ← hcode] at hl
    refine ⟨_, ofLine_of_unlabelled hl, ?_⟩
    rw [hcode, codeOf_append hb ha ht]
    exact Statement.ofSourceLines_instruction_iff.mpr ⟨_, hi, rfl⟩
  | @labelled name gap t i _ hname hgap ht hp hi =>
    subst hp
    have hlast : ∀ c ∈ (gap ++ t).getLast?, isBlank c = false := by
      rw [List.getLast?_append_of_ne_nil _ ht.ne_nil]
      exact ht.last
    have hbody := trimmed_label hname hlast
    have hl : labelled? (trim (beforeComment raw)) = some (name, gap ++ t) := by
      rw [hcode, trim_append hb ha hbody, labelled?_append hname]
    refine ⟨_, ofLine_of_labelled hl hname, ?_⟩
    rw [hcode, indent_append hb hbody, ← List.append_nil (gap ++ t),
      codeOf_append hgap (fun _ h => by cases h) ht, Span.advance_advance]
    exact Statement.ofSourceLines_label_iff.mpr
      ⟨_, Statement.ofSourceLines_instruction_iff.mpr ⟨i, hi, rfl⟩, rfl⟩

theorem line_iff :
    Line start raw ss ↔ ∃ ls, ofLine raw start = .ok ls ∧ Statement.ofSourceLines ls = .ok ss := by
  constructor
  · rintro ⟨hb, ha, hc, hbody, rfl⟩
    apply exists_ofLine hb ha hbody
    exact (((uncut_of_blanks hb).append hbody.uncut).append (uncut_of_blanks ha)).beforeComment hc
  · rintro ⟨ls, h, hs⟩
    exact line_of_ofLine h hs

lemma lines_iff {n : Nat} {raws : List (List Char)} :
    Lines n raws ss ↔
      ∃ ls, ofLines n raws = .ok ls ∧ Statement.ofSourceLines ls = .ok ss := by
  induction raws generalizing n ss with
  | nil =>
    constructor
    · rintro ⟨⟩
      exact ⟨[], rfl, rfl⟩
    · rintro ⟨_, ⟨⟩, ⟨⟩⟩
      exact .nil
  | cons raw rest ih =>
    simp only [ofLines, bind_eq_ok_iff, pure_eq_ok_iff]
    constructor
    · rintro (_ | ⟨hl, hr⟩)
      obtain ⟨here, ho, hs⟩ := line_iff.mp hl
      obtain ⟨later, hlo, hls⟩ := ih.mp hr
      exact ⟨_, ⟨here, ho, later, hlo, rfl⟩,
        Statement.ofSourceLines_append_iff.mpr ⟨_, _, hs, hls, rfl⟩⟩
    · rintro ⟨_, ⟨here, ho, later, hlo, rfl⟩, hs⟩
      obtain ⟨ts, us, ht, hu, rfl⟩ := Statement.ofSourceLines_append_iff.mp hs
      exact .cons (line_iff.mpr ⟨here, ho, ht⟩) (ih.mpr ⟨later, hlo, hu⟩)

theorem parseAll_eq_ok_iff {source : List Char} :
    Statement.parseAll source = .ok ss ↔ Lines 1 (lines source) ss := by
  rw [lines_iff, Statement.parseAll, bind_eq_ok_iff]
  rfl

lemma Body.move {body : List Char} (h : Body span body ss) (place : Span) :
    ∃ ts, Body place body ts := by
  have hread : ∀ {t i at' to'}, Instruction.read t at' = .ok i → Instruction.read t to' = .ok i :=
    fun hi => Instruction.read_eq_ok_iff.mpr (Instruction.read_eq_ok_iff.mp hi)
  cases h with
  | empty => exact ⟨_, .empty⟩
  | label hname => exact ⟨_, .label hname⟩
  | code ht hi => exact ⟨_, .code ht (hread hi)⟩
  | labelled hname hgap ht _ hi => exact ⟨_, .labelled hname hgap ht rfl (hread hi)⟩

lemma Line.move (h : Line start raw ss) (place : Span) : ∃ ts, Line place raw ts := by
  obtain ⟨hb, ha, hc, hbody, rfl⟩ := h
  obtain ⟨ts, hts⟩ := hbody.move _
  exact ⟨ts, .mk hb ha hc hts rfl⟩

lemma exists_lines_iff {n : Nat} {raws : List (List Char)} :
    (∃ ss, Lines n raws ss) ↔ ∀ raw ∈ raws, ∀ start, ∃ ss, Line start raw ss := by
  induction raws generalizing n with
  | nil => simpa using ⟨[], .nil⟩
  | cons raw rest ih =>
    rw [List.forall_mem_cons, ← ih (n := n + 1)]
    constructor
    · rintro ⟨_, _ | ⟨hl, hr⟩⟩
      exact ⟨hl.move, _, hr⟩
    · rintro ⟨hl, ts, hr⟩
      obtain ⟨ss, hs⟩ := hl ⟨UInt32.ofNat n, 1⟩
      exact ⟨ss ++ ts, .cons hs hr⟩

/-- A program text is accepted exactly if each of its lines is blanks, a body, blanks and possibly a
comment, and its statements are those of the bodies, in order. What reads as an instruction does so
wherever it stands; it is not cut, whatever comment follows it, and not taken for a label. -/
theorem parseAll_accepts_grammar (source : List Char) :
    (∀ ss, Statement.parseAll source = .ok ss ↔ Lines 1 (source.splitOn '\n') ss) ∧
    ((∃ ss, Statement.parseAll source = .ok ss) ↔
      ∀ raw ∈ source.splitOn '\n', ∀ start, ∃ ss, Line start raw ss) ∧
    ∀ t span i, Instruction.read t span = .ok i →
      (∀ place, Instruction.read t place = .ok i) ∧
      (∀ comment, IsComment comment → beforeComment (t ++ comment) = t) ∧ labelled? t = none := by
  rw [← lines_eq_splitOn]
  refine ⟨fun ss => parseAll_eq_ok_iff, ?_, fun t span i h => ?_⟩
  · rw [← exists_lines_iff (n := 1)]
    exact exists_congr fun ss => parseAll_eq_ok_iff
  · have hr := Instruction.read_eq_ok_iff.mp h
    exact ⟨fun place => Instruction.read_eq_ok_iff.mpr hr,
      fun comment hc => hr.intact.uncut.beforeComment hc, hr.intact.labelled?_eq_none⟩

end Grammar

end RegAsm
