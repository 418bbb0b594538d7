import Mathlib.Algebra.Order.Group.Nat
import Mathlib.Algebra.Order.Ring.Canonical
import RegAsm.Proofs.Reading.Blamed
import RegAsm.Proofs.Text.Words

namespace RegAsm.Message

open Text Fallible

inductive Begins (n : Nat) : List Char → Lexeme → Prop
  | quoted {content rest} : '\x27' ∉ content →
      Begins n ('\x27' :: (content ++ '\x27' :: rest)) (.quoted n content)
  | word {w rest} : w ≠ [] → (∀ c ∈ w, inBareWord c = true) →
      (∀ c ∈ rest.head?, inBareWord c = false) → Begins n (w ++ rest) (.word ⟨n, w⟩)
  | unclosed {rest} : '\x27' ∉ rest → Begins n ('\x27' :: rest) (.unclosed n)

def Apart (before rest : List Char) : Prop :=
  ∀ c ∈ before.getLast?, inBareWord c = true → ∀ d ∈ rest.head?, inBareWord d = false

/-- A lexeme in a text that begins at byte `offset`. The quotes before it are pairs, and it does not
begin in the middle of a word. -/
inductive Occurs (offset : Nat) (cs : List Char) (l : Lexeme) : Prop
  | mk {before rest} : cs = before ++ rest → Even (before.count '\x27') → Apart before rest →
      Begins (offset + width before) rest l → Occurs offset cs l

variable {offset n : Nat} {cs x w rest content : List Char} {c : Char} {l : Lexeme}

lemma Begins.head_not_separator (h : Begins n (c :: cs) l) : isSeparator c = false := by
  generalize ht : c :: cs = text at h
  cases h with
  | quoted | unclosed =>
    obtain ⟨rfl, -⟩ := List.cons.inj ht
    decide
  | @word w _ hne hw =>
    obtain ⟨d, ds, rfl⟩ := List.exists_cons_of_ne_nil hne
    obtain ⟨rfl, -⟩ := List.cons.inj ht
    have hc := hw c List.mem_cons_self
    simp only [inBareWord, Bool.and_eq_true, Bool.not_eq_true'] at hc
    exact hc.1

lemma Apart.append (hx : Apart x (cs ++ rest)) (h : Apart cs rest) : Apart (x ++ cs) rest := by
  intro c hc
  cases cs with
  | nil =>
    rw [List.append_nil] at hc
    exact hx c hc
  | cons d ds =>
    rw [List.getLast?_append_of_ne_nil _ (by simp)] at hc
    exact h c hc

lemma Apart.of_append (h : Apart (x ++ cs) rest) : Apart cs rest := by
  intro c hc
  apply h c
  rw [List.getLast?_append, Option.mem_def.mp hc]
  rfl

lemma Occurs.append (hx : Even (x.count '\x27')) (ha : Apart x cs)
    (h : Occurs (offset + width x) cs l) : Occurs offset (x ++ cs) l := by
  obtain @⟨before, rest, rfl, he, hb, hl⟩ := h
  refine ⟨(List.append_assoc _ _ _).symm, ?_, ha.append hb, ?_⟩
  · rw [List.count_append]
    exact hx.add he
  · rwa [width_append, ← Nat.add_assoc]

lemma Occurs.of_append (hx : Even (x.count '\x27')) (h : Occurs offset (x ++ cs) l) :
    (∃ before after, x = before ++ after ∧ after ≠ [] ∧ Even (before.count '\x27') ∧
      Apart before (after ++ cs) ∧ Begins (offset + width before) (after ++ cs) l) ∨
      Occurs (offset + width x) cs l := by
  obtain @⟨before, rest, he, hq, ha, hl⟩ := h
  obtain ⟨more, rfl, rfl⟩ | ⟨after, rfl, rfl⟩ := List.append_eq_append_iff.mp he
  · rw [List.count_append] at hq
    rw [width_append, ← Nat.add_assoc] at hl
    exact .inr ⟨rfl, (Nat.even_add.mp hq).mp hx, ha.of_append, hl⟩
  · cases after with
    | nil =>
      refine .inr ⟨(List.nil_append cs).symm, by simp, by simp [Apart], ?_⟩
      simpa using hl
    | cons c after => exact .inl ⟨before, c :: after, rfl, by simp, hq, ha, hl⟩

lemma not_bare_quote : inBareWord '\x27' ≠ true := by decide

lemma append_ne_quote (hne : w ≠ []) (hw : ∀ c ∈ w, inBareWord c = true) :
    w ++ rest ≠ '\x27' :: cs := by
  obtain ⟨c, w, rfl⟩ := List.exists_cons_of_ne_nil hne
  intro he
  obtain ⟨rfl, -⟩ := List.cons.inj he
  exact not_bare_quote (hw _ List.mem_cons_self)

lemma Begins.eq_word (hne : w ≠ []) (hw : ∀ c ∈ w, inBareWord c = true)
    (hr : ∀ c ∈ rest.head?, inBareWord c = false) (h : Begins n (w ++ rest) l) :
    l = .word ⟨n, w⟩ := by
  generalize ht : w ++ rest = text at h
  cases h with
  | quoted | unclosed => exact (append_ne_quote hne hw ht).elim
  | @word v more hv hin hmore =>
    have he : w = v := by
      rw [← takeWhile_append_of_head hw hr, ht, takeWhile_append_of_head hin hmore]
    rw [he]

lemma forall_inQuotes_iff : (∀ c ∈ cs, inQuotes c = true) ↔ '\x27' ∉ cs := by
  simp only [inQuotes, isQuote, Bool.not_eq_true', beq_eq_false_iff_ne]
  exact ⟨fun h hm => h _ hm rfl, fun h c hc he => h (he ▸ hc)⟩

lemma Begins.eq_quoted (hc : '\x27' ∉ content)
    (h : Begins n ('\x27' :: (content ++ '\x27' :: rest)) l) : l = .quoted n content := by
  generalize ht : '\x27' :: (content ++ '\x27' :: rest) = text at h
  cases h with
  | @quoted other more hd =>
    have hstop : ∀ (cs : List Char), ∀ c ∈ ('\x27' :: cs).head?, inQuotes c = false := by
      intro cs c hm
      obtain rfl : '\x27' = c := by simpa using hm
      decide
    have he : content = other := by
      rw [← takeWhile_append_of_head (forall_inQuotes_iff.mpr hc) (hstop rest),
        (List.cons.inj ht).2,
        takeWhile_append_of_head (forall_inQuotes_iff.mpr hd) (hstop more)]
    rw [he]
  | word hne hw => exact (append_ne_quote hne hw ht.symm).elim
  | unclosed hd =>
    obtain ⟨-, rfl⟩ := List.cons.inj ht
    simp at hd

lemma Begins.eq_unclosed (hc : '\x27' ∉ cs) (h : Begins n ('\x27' :: cs) l) : l = .unclosed n := by
  generalize ht : '\x27' :: cs = text at h
  cases h with
  | quoted =>
    obtain ⟨-, rfl⟩ := List.cons.inj ht
    simp at hc
  | word hne hw => exact (append_ne_quote hne hw ht.symm).elim
  | unclosed => rfl

lemma Begins.occurs (h : Begins offset cs l) : Occurs offset cs l :=
  ⟨(List.nil_append cs).symm, by simp, by simp [Apart], by simpa using h⟩

lemma not_occurs_nil : ¬ Occurs offset [] l := by
  rintro ⟨he, -, -, hb⟩
  obtain ⟨rfl, rfl⟩ := List.append_eq_nil_iff.mp he.symm
  generalize ht : ([] : List Char) = text at hb
  cases hb with
  | quoted | unclosed => cases ht
  | word hne => exact hne (List.append_eq_nil_iff.mp ht.symm).1

lemma occurs_separator_iff (hs : isSeparator c = true) :
    Occurs offset (c :: cs) l ↔ Occurs (offset + c.utf8Size) cs l := by
  have hquote : c ≠ '\x27' := by
    rintro rfl
    revert hs
    decide
  have heven : Even ([c].count '\x27') := by simp [hquote]
  constructor
  · intro h
    obtain ⟨before, after, hx, hne, -, -, hb⟩ | h := Occurs.of_append (x := [c]) heven h
    · obtain ⟨rfl, rfl⟩ | ⟨-, rfl⟩ := List.append_eq_singleton_iff.mp hx.symm
      · have hc := hb.head_not_separator
        simp [hs] at hc
      · contradiction
    · exact h
  · intro h
    refine Occurs.append (x := [c]) heven (fun d hd hbare => ?_) h
    obtain rfl : c = d := by simpa using hd
    simp [inBareWord, hs] at hbare

lemma occurs_word_iff (hne : w ≠ []) (hw : ∀ c ∈ w, inBareWord c = true)
    (hr : ∀ c ∈ rest.head?, inBareWord c = false) :
    Occurs offset (w ++ rest) l ↔
      l = .word ⟨offset, w⟩ ∨ Occurs (offset + width w) rest l := by
  have heven : Even (w.count '\x27') := by
    have hq : '\x27' ∉ w := fun hm => not_bare_quote (hw _ hm)
    simp [List.count_eq_zero_of_not_mem hq]
  constructor
  · intro h
    obtain ⟨before, after, rfl, hafter, -, ha, hb⟩ | h := h.of_append heven
    · left
      cases hlast : before.getLast? with
      | none =>
        obtain rfl := List.getLast?_eq_none_iff.mp hlast
        exact hb.eq_word hafter hw hr
      | some c =>
        -- a word that began here would go on from the one before it
        obtain ⟨d, ds, rfl⟩ := List.exists_cons_of_ne_nil hafter
        have hc := hw c (List.mem_append_left _ (List.mem_of_getLast? hlast))
        have hd := hw d (by simp)
        have hnot := ha c hlast hc d rfl
        simp [hnot] at hd
    · exact .inr h
  · rintro (rfl | h)
    · exact (Begins.word hne hw hr).occurs
    · exact h.append heven fun c _ _ => hr

lemma occurs_quoted_iff (hc : '\x27' ∉ content) :
    Occurs offset ('\x27' :: (content ++ '\x27' :: rest)) l ↔
      l = .quoted offset content ∨ Occurs (offset + width content + 2) rest l := by
  have hx : '\x27' :: (content ++ '\x27' :: rest) = '\x27' :: (content ++ ['\x27']) ++ rest := by
    simp
  have heven : Even (('\x27' :: (content ++ ['\x27'])).count '\x27') := by
    simp [List.count_eq_zero_of_not_mem hc]
  have hwidth : offset + width content + 2 =
      offset + width ('\x27' :: (content ++ ['\x27'])) := by
    have hq : Char.utf8Size '\x27' = 1 := rfl
    simp only [width_cons, width_append, width_nil, hq]
    omega
  constructor
  · intro h
    rw [hx] at h
    obtain ⟨before, after, he, hafter, hq, -, hb⟩ | h := h.of_append heven
    · left
      cases before with
      | nil =>
        rw [← List.nil_append after, ← he, ← hx] at hb
        exact hb.eq_quoted hc
      | cons d before =>
        -- only one quote stands before a place between the two
        obtain ⟨rfl, htail⟩ := List.cons.inj he
        have hm : '\x27' ∉ before := by
          obtain ⟨more, rfl, hmore⟩ | ⟨more, rfl, -⟩ := List.append_eq_append_iff.mp htail
          · obtain ⟨rfl, -⟩ | ⟨rfl, rfl⟩ := List.append_eq_singleton_iff.mp hmore.symm
            · simpa using hc
            · contradiction
          · exact fun hm => hc (List.mem_append_left _ hm)
        simp [List.count_eq_zero_of_not_mem hm] at hq
    · rw [hwidth]
      exact .inr h
  · rintro (rfl | h)
    · exact (Begins.quoted hc).occurs
    · rw [hx]
      rw [hwidth] at h
      refine h.append heven fun d hd hbare => ?_
      rw [← List.cons_append, List.getLast?_concat] at hd
      obtain rfl : '\x27' = d := by simpa using hd
      exact (not_bare_quote hbare).elim

lemma occurs_unclosed_iff (hc : '\x27' ∉ cs) :
    Occurs offset ('\x27' :: cs) l ↔ l = .unclosed offset := by
  constructor
  · rintro @⟨before, rest, he, hq, -, hb⟩
    cases before with
    | nil =>
      rw [← List.nil_append rest, ← he] at hb
      simpa using hb.eq_unclosed hc
    | cons d before =>
      obtain ⟨rfl, rfl⟩ := List.cons.inj he
      have hm : '\x27' ∉ before := fun hm => hc (List.mem_append_left _ hm)
      simp [List.count_eq_zero_of_not_mem hm] at hq
  · rintro rfl
    exact (Begins.unclosed hc).occurs

theorem mem_lexemes_iff : l ∈ lexemes offset cs ↔ Occurs offset cs l := by
  fun_induction lexemes offset cs with
  | case1 => simp [not_occurs_nil]
  | case2 offset c cs hs ih => rw [ih, occurs_separator_iff hs]
  | case3 offset c cs hs hq hd =>
    obtain rfl : c = '\x27' := by simpa [isQuote] using hq
    have hc : '\x27' ∉ cs := forall_inQuotes_iff.mp (List.dropWhile_eq_nil_iff.mp hd)
    rw [occurs_unclosed_iff hc, List.mem_singleton]
  | case4 offset c cs hs hq d rest hd content =>
    rename_i ih
    obtain rfl : c = '\x27' := by simpa [isQuote] using hq
    have hc : '\x27' ∉ content :=
      forall_inQuotes_iff.mp fun c hc => List.mem_takeWhile_imp hc
    rw [eq_quoted_append hd, occurs_quoted_iff hc, List.mem_cons, ih]
  | case5 offset c cs hs hq word =>
    rename_i ih
    have hbare : inBareWord c = true := by simp [inBareWord, hs, hq]
    have he : c :: cs = word ++ cs.dropWhile inBareWord := by simp [word]
    have hw : ∀ d ∈ word, inBareWord d = true :=
      List.forall_mem_cons.mpr ⟨hbare, fun d hd => List.mem_takeWhile_imp hd⟩
    rw [he, occurs_word_iff (by simp [word]) hw (head_dropWhile inBareWord cs), List.mem_cons, ih]

def Lexeme.Precedes (a b : Lexeme) : Prop :=
  a.piece.offset < b.piece.offset

lemma le_offset_of_mem (h : l ∈ lexemes offset cs) : offset ≤ l.piece.offset := by
  obtain ⟨before, after, -, ho⟩ := (within_lexemes l h).split
  omega

theorem lexemes_in_order : (lexemes offset cs).Pairwise Lexeme.Precedes := by
  fun_induction lexemes offset cs with
  | case1 => exact .nil
  | case2 offset c cs hs ih => exact ih
  | case3 => exact List.pairwise_singleton _ _
  | case4 offset c cs hs hq d rest hd content =>
    rename_i ih
    refine .cons (fun l hl => ?_) ih
    have hl := le_offset_of_mem hl
    change offset < l.piece.offset
    omega
  | case5 offset c cs hs hq word =>
    rename_i ih
    refine .cons (fun l hl => ?_) ih
    have hl := le_offset_of_mem hl
    have hpos : 0 < width word := width_pos (by simp [word])
    change offset < l.piece.offset
    omega

lemma eq_lexemes {ls : List Lexeme} (ho : ls.Pairwise Lexeme.Precedes)
    (hm : ∀ l, l ∈ ls ↔ Occurs 0 cs l) : ls = lexemes 0 cs := by
  have hirrefl : ∀ {a b : Lexeme}, a.Precedes b → a ≠ b := by
    rintro a b h rfl
    exact Nat.lt_irrefl _ h
  have hperm : ls.Perm (lexemes 0 cs) := by
    refine (List.perm_ext_iff_of_nodup (ho.imp hirrefl) (lexemes_in_order.imp hirrefl)).mpr ?_
    intro l
    rw [hm, mem_lexemes_iff]
  refine hperm.eq_of_pairwise (fun a b _ _ hab hba => ?_) ho lexemes_in_order
  exact (Nat.lt_asymm hab hba).elim

lemma occurs_unclosed_iff_last :
    Occurs offset cs (.unclosed n) ↔ ∃ before rest, cs = before ++ '\x27' :: rest ∧
      '\x27' ∉ rest ∧ Odd (cs.count '\x27') ∧ n = offset + width before := by
  constructor
  · rintro @⟨before, rest, rfl, hq, -, hb⟩
    cases hb with
    | @unclosed rest hc =>
      refine ⟨before, rest, rfl, hc, ?_, rfl⟩
      simpa [List.count_eq_zero_of_not_mem hc] using hq.add_one
  · rintro ⟨before, rest, rfl, hc, hodd, rfl⟩
    have hq : Even (before.count '\x27') := by
      simpa [List.count_eq_zero_of_not_mem hc, Nat.odd_add_one] using hodd
    refine ⟨rfl, hq, fun c _ _ d hd => ?_, .unclosed hc⟩
    obtain rfl : '\x27' = d := by simpa using hd
    decide

lemma Begins.offset_eq (h : Begins n cs l) : l.piece.offset = n := by
  cases h <;> rfl

lemma Occurs.before_unclosed (h : Occurs offset cs l) (hu : Occurs offset cs (.unclosed n)) :
    l = .unclosed n ∨ l.piece.offset < n := by
  obtain ⟨first, last, rfl, hc, hodd, rfl⟩ := occurs_unclosed_iff_last.mp hu
  have hfirst : Even (first.count '\x27') := by
    simpa [List.count_eq_zero_of_not_mem hc, Nat.odd_add_one] using hodd
  obtain @⟨before, rest, he, hq, -, hb⟩ := h
  obtain ⟨more, rfl, hmore⟩ | ⟨more, rfl, rfl⟩ := List.append_eq_append_iff.mp he
  · cases more with
    | nil =>
      rw [← List.nil_append rest, ← hmore] at hb
      left
      simpa using hb.eq_unclosed hc
    | cons d more =>
      -- the quotes up to the last one are odd in number, and there are no others
      obtain ⟨rfl, rfl⟩ := List.cons.inj hmore
      have hm : '\x27' ∉ more := fun hm => hc (List.mem_append_left _ hm)
      simp [List.count_eq_zero_of_not_mem hm, Nat.even_add_one, hfirst] at hq
  · cases more with
    | nil =>
      rw [List.nil_append] at hb
      left
      simpa using hb.eq_unclosed hc
    | cons d more =>
      right
      rw [hb.offset_eq, width_append]
      have hpos : 0 < width (d :: more) := width_pos (by simp)
      omega

variable {span : Span} {f : Fault}

lemma parts_eq_error_iff {ls : List Lexeme} :
    parts span ls = .error f ↔ ∃ before l after, ls = before ++ l :: after ∧
      (∀ m ∈ before, ∃ p, m.Spells p) ∧ part span l = .error f := by
  induction ls with
  | nil => simp [parts]
  | cons m ls ih =>
    simp only [parts, bind_eq_error_iff, part_eq_ok_iff, ih]
    constructor
    · rintro (hf | ⟨p, hp, ⟨before, l, after, rfl, hb, hf⟩ | ⟨_, _, hf⟩⟩)
      · exact ⟨[], m, ls, rfl, by simp, hf⟩
      · exact ⟨m :: before, l, after, rfl, List.forall_mem_cons.mpr ⟨⟨p, hp⟩, hb⟩, hf⟩
      · cases hf
    · rintro ⟨before, l, after, he, hb, hf⟩
      cases before with
      | nil =>
        obtain ⟨rfl, rfl⟩ := List.cons.inj he
        exact .inl hf
      | cons d before =>
        obtain ⟨rfl, rfl⟩ := List.cons.inj he
        obtain ⟨⟨p, hp⟩, hb⟩ := List.forall_mem_cons.mp hb
        exact .inr ⟨p, hp, .inl ⟨before, l, after, rfl, hb, hf⟩⟩

lemma exists_spells_iff :
    (∃ p, l.Spells p) ↔
      (∀ piece, l = .word piece → IsOperand piece.chars) ∧ ∀ n, l ≠ .unclosed n := by
  constructor
  · rintro ⟨p, hp⟩
    cases hp with
    | quoted => simp
    | word ho =>
      refine ⟨fun piece he => ?_, by simp⟩
      obtain rfl := Lexeme.word.inj he
      exact Operand.exists_spells_iff.mp ⟨_, ho⟩
  · rintro ⟨hw, hn⟩
    cases l with
    | quoted offset content => exact ⟨_, .quoted⟩
    | word piece =>
      obtain ⟨o, ho⟩ := Operand.exists_spells_iff.mpr (hw piece rfl)
      exact ⟨_, .word ho⟩
    | unclosed n => exact (hn n rfl).elim

lemma read_eq_ok_iff {ps : List MessagePart} :
    read cs span = .ok ps ↔ ∃ ls : List Lexeme, ls.Pairwise Lexeme.Precedes ∧
      (∀ l, l ∈ ls ↔ Occurs 0 cs l) ∧ List.Forall₂ Lexeme.Spells ls ps := by
  rw [read, parts_eq_ok_iff]
  constructor
  · intro h
    exact ⟨_, lexemes_in_order, fun l => mem_lexemes_iff, h⟩
  · rintro ⟨ls, ho, hm, h⟩
    rwa [← eq_lexemes ho hm]

lemma mem_before_iff {before after : List Lexeme} (h : lexemes 0 cs = before ++ l :: after)
    {m : Lexeme} : m ∈ before ↔ Occurs 0 cs m ∧ m.Precedes l := by
  have horder : (before ++ l :: after).Pairwise Lexeme.Precedes := h ▸ lexemes_in_order
  obtain ⟨-, hafter, hbefore⟩ := List.pairwise_append.mp horder
  rw [← mem_lexemes_iff, h]
  constructor
  · intro hm
    exact ⟨List.mem_append_left _ hm, hbefore m hm l List.mem_cons_self⟩
  · rintro ⟨hm, hl⟩
    obtain hm | hm := List.mem_append.mp hm
    · exact hm
    · obtain rfl | hm := List.mem_cons.mp hm
      · exact (Nat.lt_irrefl _ hl).elim
      · exact (Nat.lt_asymm hl ((List.pairwise_cons.mp hafter).1 m hm)).elim

lemma read_eq_error_iff :
    read cs span = .error f ↔ ∃ l, Occurs 0 cs l ∧
      (∀ m, Occurs 0 cs m → m.Precedes l → ∃ p, m.Spells p) ∧ part span l = .error f := by
  rw [read, parts_eq_error_iff]
  constructor
  · rintro ⟨before, l, after, he, hb, hf⟩
    refine ⟨l, mem_lexemes_iff.mp (by simp [he]), fun m hm hl => ?_, hf⟩
    exact hb m ((mem_before_iff he).mpr ⟨hm, hl⟩)
  · rintro ⟨l, hl, hb, hf⟩
    obtain ⟨before, after, he⟩ := List.append_of_mem (mem_lexemes_iff.mpr hl)
    refine ⟨before, l, after, he, fun m hm => ?_, hf⟩
    obtain ⟨hm, hp⟩ := (mem_before_iff he).mp hm
    exact hb m hm hp

/-- The leftmost word that is no operand. It stands before the quote that has no partner, if there is
one. -/
structure Blamed (cs : List Char) (piece : Piece) : Prop where
  occurs : Occurs 0 cs (.word piece)
  refused : ¬ IsOperand piece.chars
  leftmost : ∀ other, Occurs 0 cs (.word other) → other.offset < piece.offset →
    IsOperand other.chars
  unclosed : ∀ n, Occurs 0 cs (.unclosed n) → piece.offset < n

structure Unterminated (cs : List Char) (n : Nat) : Prop where
  last : ∃ before rest, cs = before ++ '\x27' :: rest ∧ '\x27' ∉ rest ∧ n = width before
  odd : Odd (cs.count '\x27')
  operands : ∀ piece, Occurs 0 cs (.word piece) → IsOperand piece.chars

lemma Unterminated.occurs (h : Unterminated cs n) : Occurs 0 cs (.unclosed n) := by
  obtain ⟨before, rest, he, hc, hn⟩ := h.last
  exact occurs_unclosed_iff_last.mpr ⟨before, rest, he, hc, h.odd, by rw [hn, Nat.zero_add]⟩

lemma Blamed.first {piece : Piece} (h : Blamed cs piece) {m : Lexeme} (hm : Occurs 0 cs m)
    (hp : m.Precedes (.word piece)) : ∃ p, m.Spells p := by
  refine exists_spells_iff.mpr ⟨?_, ?_⟩
  · rintro other rfl
    exact h.leftmost other hm hp
  · rintro n rfl
    exact Nat.lt_asymm (h.unclosed n hm) hp

lemma Unterminated.first (h : Unterminated cs n) {m : Lexeme} (hm : Occurs 0 cs m)
    (hp : m.Precedes (.unclosed n)) : ∃ p, m.Spells p := by
  refine exists_spells_iff.mpr ⟨?_, ?_⟩
  · rintro other rfl
    exact h.operands other hm
  · rintro k rfl
    obtain he | hlt := h.occurs.before_unclosed hm
    · exact Nat.lt_irrefl _ (he ▸ hp)
    · exact Nat.lt_asymm hlt hp

end RegAsm.Message
