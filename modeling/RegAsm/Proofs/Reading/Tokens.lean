import Mathlib.Data.List.Pairwise
import RegAsm.Proofs.Reading.Blamed

namespace RegAsm

open Text

namespace Text

/-- A run without separators in a text that begins at byte `offset`. On each side it comes to a
separator or to an end of the text. -/
inductive LongestRun (offset : Nat) : List Char → Piece → Prop
  | mk {before w after} : w ≠ [] → (∀ c ∈ w, isSeparator c = false) →
      (∀ c ∈ before.getLast?, isSeparator c = true) → Parted after →
      LongestRun offset (before ++ (w ++ after)) ⟨offset + width before, w⟩

def Piece.Covers (p : Piece) (n : Nat) : Prop :=
  p.offset ≤ n ∧ n < p.offset + width p.chars

def Piece.Precedes (p q : Piece) : Prop :=
  p.offset + width p.chars < q.offset

variable {offset : Nat} {c : Char} {cs x before w after rest : List Char} {p q : Piece}

lemma not_parted (hne : w ≠ []) (hw : ∀ c ∈ w, isSeparator c = false) : ¬ Parted (w ++ rest) := by
  obtain ⟨c, w, rfl⟩ := List.exists_cons_of_ne_nil hne
  intro h
  have hc := hw c List.mem_cons_self
  rw [h c rfl] at hc
  contradiction

lemma Parted.append_separator (h : Parted x) (hc : isSeparator c = true) (rest : List Char) :
    Parted (x ++ c :: rest) := by
  cases x with
  | nil => simpa [Parted] using hc
  | cons d x => exact h

lemma words_append_separator (hc : isSeparator c = true) (offset : Nat) (before rest : List Char) :
    words offset (before ++ c :: rest) =
      words offset before ++ words (offset + width (before ++ [c])) rest := by
  induction offset, before using words_induction with
  | nil offset => simp [words_separator hc]
  | separator offset d ds hd ih =>
    rw [List.cons_append, words_separator hd, words_separator hd, ih, List.cons_append, width_cons,
      Nat.add_assoc]
  | word offset w ds hne hw hr ih =>
    rw [List.append_assoc, words_append hne hw (hr.append_separator hc rest),
      words_append hne hw hr, ih, List.append_assoc, width_append w, Nat.add_assoc,
      List.cons_append]

lemma LongestRun.mem_words (h : LongestRun offset cs p) : p ∈ words offset cs := by
  obtain @⟨before, w, after, hne, hw, hb, ha⟩ := h
  rcases List.eq_nil_or_concat' before with rfl | ⟨before, c, rfl⟩
  · rw [List.nil_append, words_append hne hw ha]
    exact List.mem_cons_self
  · have hc : isSeparator c = true := hb c (by simp)
    rw [List.append_assoc, List.singleton_append, words_append_separator hc,
      words_append hne hw ha]
    exact List.mem_append_right _ List.mem_cons_self

lemma LongestRun.prepend (h : LongestRun (offset + width x) rest p)
    (hx : (∀ c ∈ x.getLast?, isSeparator c = true) ∨ Parted rest) :
    LongestRun offset (x ++ rest) p := by
  obtain @⟨before, w, after, hne, hw, hb, ha⟩ := h
  have hstop : ¬ Parted (w ++ after) := not_parted hne hw
  have hlast : ∀ c ∈ (x ++ before).getLast?, isSeparator c = true := by
    by_cases hnil : before = []
    · subst hnil
      rw [List.append_nil]
      exact hx.resolve_right hstop
    · rwa [List.getLast?_append_of_ne_nil _ hnil]
  rw [← List.append_assoc, Nat.add_assoc, ← width_append]
  exact .mk hne hw hlast ha

lemma mem_words_iff : p ∈ words offset cs ↔ LongestRun offset cs p := by
  refine ⟨?_, LongestRun.mem_words⟩
  induction offset, cs using words_induction with
  | nil => simp
  | separator offset c cs hs ih =>
    intro hp
    rw [words_separator hs] at hp
    apply LongestRun.prepend (x := [c]) (ih hp)
    simp [hs]
  | word offset w rest hne hw hr ih =>
    intro hp
    rw [words_append hne hw hr] at hp
    rcases List.mem_cons.mp hp with rfl | hp
    · exact @LongestRun.mk offset [] w rest hne hw (by simp) hr
    · exact (ih hp).prepend (.inr hr)

lemma LongestRun.offset_lt (h : LongestRun offset cs p) (hs : Parted cs) : offset < p.offset := by
  obtain @⟨before, w, after, hne, hw, hb, ha⟩ := h
  have hbefore : before ≠ [] := by
    rintro rfl
    exact not_parted hne hw hs
  exact Nat.lt_add_of_pos_right (width_pos hbefore)

lemma LongestRun.offset_lt_width (h : LongestRun 0 cs p) : p.offset < width cs := by
  obtain @⟨before, w, after, hne, hw, hb, ha⟩ := h
  have hpos := width_pos hne
  simp only [width_append]
  omega

lemma words_in_order (offset : Nat) (cs : List Char) :
    (words offset cs).Pairwise Piece.Precedes := by
  induction offset, cs using words_induction with
  | nil => simp
  | separator offset c cs hs ih => rwa [words_separator hs]
  | word offset w rest hne hw hr ih =>
    rw [words_append hne hw hr]
    exact .cons (fun q hq => (mem_words_iff.mp hq).offset_lt hr) ih

lemma exists_last_run (before : List Char) :
    ∃ start back, before = start ++ back ∧ (∀ d ∈ back, isSeparator d = false) ∧
      ∀ d ∈ start.getLast?, isSeparator d = true := by
  refine ⟨before.rdropWhile inWord, before.rtakeWhile inWord,
    List.rdropWhile_append_rtakeWhile.symm, fun d hd => ?_, fun d hd => ?_⟩
  · simpa [inWord] using List.mem_rtakeWhile_imp hd
  · obtain ⟨hne, rfl⟩ := List.mem_getLast?_eq_getLast hd
    simpa [inWord] using List.rdropWhile_last_not inWord before hne

lemma exists_longestRun (hc : isSeparator c = false) (before after : List Char) :
    ∃ p, LongestRun 0 (before ++ c :: after) p ∧ p.Covers (width before) := by
  -- the run goes back over the end of `before` and on over the start of `after`
  obtain ⟨start, back, rfl, hback, hstart⟩ := exists_last_run before
  have he : start ++ back ++ c :: after =
      start ++ ((back ++ c :: after.takeWhile inWord) ++ after.dropWhile inWord) := by
    simp
  have hw : ∀ d ∈ back ++ c :: after.takeWhile inWord, isSeparator d = false := by
    intro d hd
    rcases List.mem_append.mp hd with hd | hd
    · exact hback d hd
    · rcases List.mem_cons.mp hd with rfl | hd
      · exact hc
      · exact isSeparator_of_mem_takeWhile hd
  rw [he]
  refine ⟨_, .mk (by simp) hw hstart (parted_dropWhile after), ?_⟩
  have hpos := c.utf8Size_pos
  simp only [Piece.Covers, width_append, width_cons]
  omega

lemma Piece.Precedes.not_covers {n : Nat} (h : p.Precedes q) (hp : p.Covers n) : ¬ q.Covers n := by
  intro hq
  have hlt : p.offset + width p.chars < q.offset := h
  have hn := hp.2
  have hle := hq.1
  omega

lemma eq_of_covers {n : Nat} (hp : p ∈ words offset cs) (hq : q ∈ words offset cs)
    (hpn : p.Covers n) (hqn : q.Covers n) : p = q := by
  by_contra hne
  have hsymm : Std.Symm fun p q : Piece => ¬ (p.Covers n ∧ q.Covers n) :=
    ⟨fun p q h hb => h hb.symm⟩
  have hapart : (words offset cs).Pairwise fun p q => ¬ (p.Covers n ∧ q.Covers n) :=
    (words_in_order offset cs).imp fun h hb => h.not_covers hb.1 hb.2
  exact hapart.forall hp hq hne ⟨hpn, hqn⟩

lemma existsUnique_word (hc : isSeparator c = false) (before after : List Char) :
    ∃! p, p ∈ words 0 (before ++ c :: after) ∧ p.Covers (width before) := by
  obtain ⟨p, hp, hcover⟩ := exists_longestRun hc before after
  refine ⟨p, ⟨mem_words_iff.mpr hp, hcover⟩, ?_⟩
  rintro q ⟨hq, hqcover⟩
  exact eq_of_covers hq (mem_words_iff.mpr hp) hqcover hcover

end Text

namespace Token

structure Marks (span : Span) (t : Token) (p : Piece) : Prop where
  chars : t.chars = p.chars
  kind : t.kind = TokenKind.of p.chars
  line : t.span.line = span.line
  col : t.span.col - span.col = UInt32.ofNat p.offset

variable {span : Span} {t : Token} {p : Piece}

lemma marks_ofPiece (span : Span) (p : Piece) : Marks span (ofPiece span p) p where
  chars := rfl
  kind := rfl
  line := rfl
  col := by
    simp only [ofPiece, Span.advance]
    rw [UInt32.add_comm, UInt32.add_sub_cancel]

lemma Marks.toNat_col (h : Marks span t p) (hp : span.col.toNat + p.offset < 2 ^ 32) :
    t.span.col.toNat = span.col.toNat + p.offset := by
  have hcol : t.span.col = UInt32.ofNat p.offset + span.col := by
    rw [← h.col, UInt32.sub_add_cancel]
  rw [hcol, UInt32.toNat_add, UInt32.toNat_ofNat']
  omega

/-- The tokens of a text stand for its longest runs without separators, in the order of the text and
apart from each other, so that every character but a separator is in exactly one of them. Each has
the kind of its characters, the line of the text, and the number of bytes before it in its column,
which counts with 32 bits. -/
theorem tokens_are_longest_runs (cs : List Char) (span : Span) :
    ∃ ps : List Piece, List.Forall₂ (Marks span) (ofText cs span) ps ∧
      (∀ p, p ∈ ps ↔ LongestRun 0 cs p) ∧ ps.Pairwise Piece.Precedes ∧
      (∀ before c after, cs = before ++ c :: after → isSeparator c = false →
        ∃! p, p ∈ ps ∧ p.Covers (width before)) ∧
      (span.col.toNat + width cs ≤ 2 ^ 32 → List.Forall₂
        (fun t p => t.span.col.toNat = span.col.toNat + p.offset) (ofText cs span) ps) := by
  have hmarks : List.Forall₂ (Marks span) (ofText cs span) (words 0 cs) := by
    rw [ofText, List.forall₂_map_left_iff, List.forall₂_same]
    exact fun p _ => marks_ofPiece span p
  refine ⟨words 0 cs, hmarks, fun p => mem_words_iff, words_in_order 0 cs, ?_, fun hfits => ?_⟩
  · rintro before c after rfl hc
    exact existsUnique_word hc before after
  · rw [ofText, List.forall₂_map_left_iff, List.forall₂_same]
    intro p hp
    have hp := (mem_words_iff.mp hp).offset_lt_width
    exact (marks_ofPiece span p).toNat_col (by omega)

def numberAfterWide : List Char :=
  ['é', ',', '\u3000', '-', '5', ' ', '1', 'x']

theorem numberAfterWide_covered :
    ∃ ps : List Piece, List.Forall₂ (Marks ⟨3, 5⟩) (ofText numberAfterWide ⟨3, 5⟩) ps ∧
      (∃! p, p ∈ ps ∧ p.Covers 7) ∧
      List.Forall₂ (fun t p => t.span.col.toNat = 5 + p.offset)
        (ofText numberAfterWide ⟨3, 5⟩) ps := by
  obtain ⟨ps, hmarks, -, -, hcover, hcol⟩ := tokens_are_longest_runs numberAfterWide ⟨3, 5⟩
  exact ⟨ps, hmarks, hcover ['é', ',', '\u3000', '-'] '5' [' ', '1', 'x'] rfl (by decide),
    hcol (by decide)⟩

end Token

end RegAsm
