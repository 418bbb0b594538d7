import Mathlib.Algebra.Group.Nat.Defs
import RegAsm.Proofs.Reading.Grammar
import RegAsm.Proofs.Text.Words

/-! What stands on a line where a fault of the line points. -/

namespace RegAsm

open Text Fallible

namespace Text

variable {offset : Nat} {cs w rest : List Char} {p : Piece}

lemma utf8Size_colon : Char.utf8Size ':' = 1 := rfl

lemma width_pos (h : cs ≠ []) : 0 < width cs := by
  obtain ⟨c, cs, rfl⟩ := List.exists_cons_of_ne_nil h
  exact Nat.add_pos_left c.utf8Size_pos _

structure Within (offset : Nat) (cs : List Char) (p : Piece) : Prop where
  ne_nil : p.chars ≠ []
  split : ∃ before after, cs = before ++ (p.chars ++ after) ∧ p.offset = offset + width before

lemma within_append (hw : w ≠ []) (offset : Nat) (rest : List Char) :
    Within offset (w ++ rest) ⟨offset, w⟩ :=
  ⟨hw, [], rest, rfl, rfl⟩

lemma Within.after (h : Within (offset + width w) rest p) : Within offset (w ++ rest) p := by
  obtain ⟨before, after, he, ho⟩ := h.split
  exact ⟨h.ne_nil, w ++ before, after, by simp [he], by simp [ho, Nat.add_assoc]⟩

lemma within_words : ∀ p ∈ words offset cs, Within offset cs p := by
  induction offset, cs using words_induction with
  | nil => simp
  | separator offset c cs hs ih =>
    intro p hp
    rw [words_separator hs] at hp
    exact Within.after (w := [c]) (ih p hp)
  | word offset w rest hne hw hr ih =>
    rw [words_append hne hw hr]
    exact List.forall_mem_cons.mpr ⟨within_append hne _ _, fun p hp => (ih p hp).after⟩

end Text

namespace Message

def Lexeme.piece : Lexeme → Piece
  | quoted offset content => ⟨offset, '\x27' :: (content ++ ['\x27'])⟩
  | word piece => piece
  | unclosed offset => ⟨offset, ['\x27']⟩

lemma within_lexemes {offset : Nat} {cs : List Char} :
    ∀ l ∈ lexemes offset cs, Within offset cs l.piece := by
  fun_induction lexemes offset cs with
  | case1 => simp
  | case2 offset c cs hs ih =>
    intro l hl
    exact Within.after (w := [c]) (ih l hl)
  | case3 offset c cs hs hq =>
    obtain rfl : c = '\x27' := by simpa [isQuote] using hq
    exact List.forall_mem_singleton.mpr (within_append (w := ['\x27']) (by simp) offset cs)
  | case4 offset c cs hs hq d rest hd content =>
    rename_i ih
    obtain rfl : c = '\x27' := by simpa [isQuote] using hq
    have he : '\x27' :: cs = '\x27' :: (content ++ ['\x27']) ++ rest := by
      rw [eq_quoted_append hd]
      simp [content]
    have hw : offset + width content + 2 = offset + width ('\x27' :: (content ++ ['\x27'])) := by
      have hq : Char.utf8Size '\x27' = 1 := rfl
      simp only [width_cons, width_append, width_nil, hq]
      omega
    rw [he]
    refine List.forall_mem_cons.mpr ⟨within_append (by simp) _ _, fun l hl => ?_⟩
    exact (hw ▸ ih l hl).after
  | case5 offset c cs hs hq word =>
    rename_i ih
    have he : c :: cs = word ++ cs.dropWhile inBareWord := by simp [word]
    rw [he]
    refine List.forall_mem_cons.mpr ⟨within_append (by simp [word]) _ _, fun l hl => ?_⟩
    exact (ih l hl).after

end Message

namespace Span

def Before (a b : Span) : Prop :=
  a.line < b.line ∨ a.line = b.line ∧ a.col < b.col

lemma toNat_col_advance {start : Span} {n : Nat} (h : start.col = 1) (hn : n + 1 < 2 ^ 32) :
    (start.advance n).col.toNat = n + 1 := by
  have hone : (1 : UInt32).toNat = 1 := rfl
  simp only [advance, h, UInt32.toNat_add, UInt32.toNat_ofNat', hone]
  omega

end Span

def StandsOn (start : Span) (raw w : List Char) (span : Span) : Prop :=
  ∃ before after, raw = before ++ (w ++ after) ∧ w ++ after ≠ [] ∧
    span = start.advance (width before)

section

variable {start span place : Span} {before after raw t w : List Char}

lemma standsOn_append (hw : w ≠ []) (start : Span) (after : List Char) :
    StandsOn start (w ++ after) w start :=
  ⟨[], after, rfl, by simp [hw], by simp⟩

lemma StandsOn.extend (h : StandsOn place t w span) (hp : place = start.advance (width before))
    (he : raw = before ++ (t ++ after)) : StandsOn start raw w span := by
  obtain ⟨lead, trail, rfl, hne, rfl⟩ := h
  subst hp
  refine ⟨before ++ lead, trail ++ after, by simp [he], ?_, ?_⟩
  · rw [← List.append_assoc]
    exact List.append_ne_nil_of_left_ne_nil hne after
  · rw [Span.advance_advance, width_append]

lemma Text.Within.standsOn {cs : List Char} {p : Piece} (h : Within 0 cs p) (span : Span) :
    StandsOn span cs p.chars (span.advance p.offset) := by
  obtain ⟨before, after, rfl, ho⟩ := h.split
  refine ⟨before, after, rfl, by simp [h.ne_nil], ?_⟩
  rw [ho, Nat.zero_add]

end

/-- A fault in a text points at what it is about, where `stands` says what the text has where. A
mnemonic is empty only before a comma. -/
inductive Fault.Shows (stands : List Char → Span → Prop) : Fault → Prop
  | malformedOperand {operand span} : operand ≠ "" → stands operand.toList span →
      Shows stands (.malformedOperand operand span)
  | unknownMnemonic {name span} : name ≠ "" ∨ stands [','] span → stands name.toList span →
      Shows stands (.unknownMnemonic name span)
  | unterminatedText {span} : stands ['\x27'] span → Shows stands (.unterminatedText span)
  | invalidLabel {name span} : stands (name.toList ++ [':']) span →
      Shows stands (.invalidLabel name span)
  | literalDestination {m : Mnemonic} {token span} : token ≠ "" → stands token.toList span →
      Shows stands (.literalDestination m.name token span)
  | labelExpected {m : Mnemonic} {token span} : token ≠ "" → stands token.toList span →
      Shows stands (.labelExpected m.name token span)
  | wrongOperandCount {m : Mnemonic} {name expected found span} :
      m.name.toList = name.map Char.toLower → stands name span →
      Shows stands (.wrongOperandCount m.name expected found span)
  | duplicateLabel {label span first} : first.Before span →
      stands (label.toList ++ [':']) first → stands (label.toList ++ [':']) span →
      Shows stands (.duplicateLabel label span first)

lemma Fault.Shows.imp {P Q : List Char → Span → Prop} (h : ∀ w span, P w span → Q w span)
    {f : Fault} (hf : f.Shows P) : f.Shows Q := by
  cases hf with
  | malformedOperand hne hs => exact .malformedOperand hne (h _ _ hs)
  | unknownMnemonic hc hs => exact .unknownMnemonic (hc.imp_right (h _ _)) (h _ _ hs)
  | unterminatedText hs => exact .unterminatedText (h _ _ hs)
  | invalidLabel hs => exact .invalidLabel (h _ _ hs)
  | literalDestination hne hs => exact .literalDestination hne (h _ _ hs)
  | labelExpected hne hs => exact .labelExpected hne (h _ _ hs)
  | wrongOperandCount hm hs => exact .wrongOperandCount hm (h _ _ hs)
  | duplicateLabel hb hf hs => exact .duplicateLabel hb (h _ _ hf) (h _ _ hs)

lemma shows_extend {α : Type} {x : Except Fault α} {start place : Span}
    {after raw t : List Char} (before : List Char)
    (h : FailsOnly (Fault.Shows (StandsOn place t)) x) (hp : place = start.advance (width before))
    (he : raw = before ++ (t ++ after)) : FailsOnly (Fault.Shows (StandsOn start raw)) x :=
  fun f hf => (h f hf).imp fun _ _ hs => hs.extend hp he

namespace Token

variable {stands : List Char → Span → Prop} {t : Token}

structure Stands (stands : List Char → Span → Prop) (t : Token) : Prop where
  text_ne : t.text ≠ ""
  stands : stands t.text.toList t.span

lemma stands_ofPiece {span : Span} {p : Piece} (hne : p.chars ≠ [])
    (h : stands p.chars (span.advance p.offset)) : (ofPiece span p).Stands stands where
  text_ne := by simpa [text, ofPiece] using hne
  stands := by simpa [text, ofPiece] using h

lemma shows_operand (h : t.Stands stands) : FailsOnly (Fault.Shows stands) t.operand := by
  unfold operand
  split
  · exact .ok _
  · exact .ok _
  · exact .error (.malformedOperand h.text_ne h.stands)

lemma shows_destination (h : t.Stands stands) (m : Mnemonic) :
    FailsOnly (Fault.Shows stands) (t.destination m) := by
  unfold destination
  split
  · exact .ok _
  · exact .error (.literalDestination h.text_ne h.stands)
  · exact .error (.malformedOperand h.text_ne h.stands)

lemma shows_target (h : t.Stands stands) (m : Mnemonic) :
    FailsOnly (Fault.Shows stands) (t.target m) := by
  unfold target
  split
  · exact .ok _
  · exact .error (.labelExpected h.text_ne h.stands)

end Token

lemma Message.shows_parts {stands : List Char → Span → Prop} {span : Span} {ls : List Lexeme}
    (h : ∀ l ∈ ls, l.piece.chars ≠ [] ∧ stands l.piece.chars (span.advance l.piece.offset)) :
    FailsOnly (Fault.Shows stands) (parts span ls) := by
  induction ls with
  | nil => exact .ok []
  | cons l ls ih =>
    obtain ⟨⟨hne, hl⟩, hls⟩ := List.forall_mem_cons.mp h
    refine FailsOnly.bind ?_ fun p => (ih hls).bind fun ps => .ok (p :: ps)
    cases l with
    | quoted offset content => exact .ok _
    | word piece => exact (Token.shows_operand (Token.stands_ofPiece hne hl)).map _
    | unclosed offset => exact .error (.unterminatedText hl)

namespace Instruction

variable {stands : List Char → Span → Prop} {span : Span}

lemma shows_ofTokens {m : Mnemonic} {name : List Char} (hm : m.name.toList = name.map Char.toLower)
    (hn : stands name span) (form : Form) {ts : List Token} (h : ∀ t ∈ ts, t.Stands stands) :
    FailsOnly (Fault.Shows stands) (ofTokens m form span ts) := by
  unfold ofTokens
  split
  · exact .ok _
  · simp only [List.forall_mem_cons] at h
    exact (Token.shows_destination h.1 m).map _
  · simp only [List.forall_mem_cons] at h
    exact (Token.shows_destination h.1 m).bind fun d =>
      (Token.shows_operand h.2.1).bind fun s => .ok _
  · simp only [List.forall_mem_cons] at h
    exact (Token.shows_operand h.1).bind fun l =>
      (Token.shows_operand h.2.1).bind fun r => .ok _
  · simp only [List.forall_mem_cons] at h
    exact (Token.shows_target h.1 m).map _
  · exact .error (.wrongOperandCount hm hn)

lemma standsOn_comma {t rest : List Char} (ht : Trimmed t) (h : cutWord t = ([], rest))
    (span : Span) : StandsOn span t [','] span := by
  obtain ⟨c, cs, rfl⟩ := List.exists_cons_of_ne_nil ht.ne_nil
  have hblank : isBlank c = false := ht.head c rfl
  simp only [cutWord, trimStart_of_head ht.head, Prod.mk.injEq] at h
  have hsep : isSeparator c = true := by
    by_contra hs
    simp [inWord, hs] at h
  obtain rfl : c = ',' := by simpa [isSeparator, hblank] using hsep
  exact standsOn_append (w := [',']) (by simp) span cs

lemma shows_read {t : List Char} (ht : Trimmed t) (span : Span) :
    FailsOnly (Fault.Shows (StandsOn span t)) (read t span) := by
  obtain ⟨name, rest, hcut⟩ : ∃ name rest, cutWord t = (name, rest) := ⟨_, _, rfl⟩
  have he : t = name ++ rest := by
    simp only [cutWord, trimStart_of_head ht.head, Prod.mk.injEq] at hcut
    rw [← hcut.1, ← hcut.2, List.takeWhile_append_dropWhile]
  have hname : StandsOn span t name span := ⟨[], rest, he, he ▸ ht.ne_nil, by simp⟩
  -- the operands begin where the mnemonic ends
  have hwidth : width t - width rest = width name := by
    rw [he, width_append, Nat.add_sub_cancel]
  have hrest : ∀ p, Within 0 rest p →
      StandsOn span t p.chars ((span.advance (width name)).advance p.offset) :=
    fun p hp => (hp.standsOn _).extend rfl (by rw [he, List.append_nil])
  simp only [read, hcut, hwidth]
  split
  · refine .error (.unknownMnemonic ?_ ?_)
    · cases name with
      | nil => exact .inr (standsOn_comma ht hcut span)
      | cons c cs => exact .inl (by simp)
    · rwa [String.toList_ofList]
  · rename_i m hm
    split
    · refine (Message.shows_parts fun l hl => ?_).map _
      have hp := Message.within_lexemes l hl
      exact ⟨hp.ne_nil, hrest _ hp⟩
    · apply shows_ofTokens (Mnemonic.name_of_ofName? hm) hname
      intro t ht
      obtain ⟨p, hp, rfl⟩ := List.mem_map.mp ht
      have hp := within_words p hp
      exact Token.stands_ofPiece hp.ne_nil (hrest p hp)

end Instruction

namespace SourceLine

variable {raw : List Char} {start : Span} {f : Fault} {ls : List SourceLine}

lemma exists_labelled {name rest : List Char}
    (h : labelled? (trim (beforeComment raw)) = some (name, rest)) :
    ∃ before after, indent (beforeComment raw) = width before ∧
      raw = before ++ ((name ++ ':' :: rest) ++ after) := by
  obtain ⟨comment, -, he⟩ := exists_comment false raw
  obtain ⟨after, -, hcode⟩ := exists_trim (beforeComment raw)
  refine ⟨_, after ++ comment, rfl, he.trans ?_⟩
  change beforeComment raw ++ comment = _
  rw [← eq_of_labelled? h]
  conv_lhs => rw [hcode]
  simp only [List.append_assoc]

lemma shows_ofLine (raw : List Char) (start : Span) :
    FailsOnly (Fault.Shows (StandsOn start raw)) (ofLine raw start) := by
  simp only [ofLine]
  split
  · exact .ok _
  · rename_i name rest hl
    split
    · exact .ok _
    · obtain ⟨before, after, hi, he⟩ := exists_labelled hl
      refine .error (.invalidLabel ?_)
      rw [hi, String.toList_ofList]
      have hname : name ++ [':'] ≠ [] := by simp
      exact (standsOn_append hname _ rest).extend rfl (by simpa using he)

lemma shows_codeOf (cs : List Char) (span : Span) :
    FailsOnly (Fault.Shows (StandsOn span cs)) (Statement.ofSourceLines (codeOf cs span)) := by
  by_cases h : trim cs = []
  · rw [codeOf_of_blank h]
    exact .ok _
  · rw [codeOf_of_ne_nil h]
    obtain ⟨after, -, he⟩ := exists_trim cs
    have hread := Instruction.shows_read (trimmed_trim h) (span.advance (indent cs))
    rw [List.append_assoc] at he
    exact ((shows_extend _ hread rfl he).map _).bind fun s => .ok [s]

lemma shows_statements (h : ofLine raw start = .ok ls) :
    FailsOnly (Fault.Shows (StandsOn start raw)) (Statement.ofSourceLines ls) := by
  simp only [ofLine] at h
  split at h
  · cases h
    obtain ⟨comment, -, he⟩ := exists_comment false raw
    exact shows_extend [] (shows_codeOf _ _) (Span.advance_zero _).symm he
  · rename_i name rest hl
    split at h
    · cases h
      obtain ⟨before, after, hi, he⟩ := exists_labelled hl
      refine FailsOnly.bind (.ok _) fun s => FailsOnly.bind ?_ fun ss => .ok _
      refine shows_extend (before ++ (name ++ [':'])) (shows_codeOf rest _) ?_ (by simpa using he)
      simp [hi, Span.advance_advance, utf8Size_colon]
    · cases h

end SourceLine

end RegAsm
