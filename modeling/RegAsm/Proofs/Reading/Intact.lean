import RegAsm.Proofs.Reading.Spelling
import RegAsm.Proofs.Text.Line
import RegAsm.SourceLine

/-! Instructions are never cut at a comment nor taken for labels: outside quotes they have neither
semicolons nor colons, and every quote is closed. -/

namespace RegAsm

open Text

namespace SourceLine

variable {a b cs : List Char}

def Uncut (cs : List Char) : Prop :=
  ∀ rest, codeBefore false (cs ++ rest) = cs ++ codeBefore false rest

lemma Uncut.append (ha : Uncut a) (hb : Uncut b) : Uncut (a ++ b) := by
  intro rest
  rw [List.append_assoc, ha, hb, List.append_assoc]

lemma uncut_of_unmarked (h : ∀ c ∈ cs, isQuote c = false ∧ c ≠ ';') : Uncut cs := by
  intro rest
  induction cs with
  | nil => rfl
  | cons c cs ih =>
    obtain ⟨hc, hcs⟩ := List.forall_mem_cons.mp h
    simp [codeBefore, hc, ih hcs]

lemma unmarked_of_isPlain {c : Char} (h : isPlain c = true) : isQuote c = false ∧ c ≠ ';' := by
  simp only [isPlain, Bool.and_eq_true, Bool.not_eq_true', bne_iff_ne] at h
  exact h.1

lemma uncut_of_blanks (h : Blanks cs) : Uncut cs :=
  uncut_of_unmarked fun c hc => unmarked_of_isPlain (isPlain_of_isBlank (h c hc))

lemma codeBefore_quoted (h : ∀ c ∈ cs, Message.inQuotes c = true) (rest : List Char) :
    codeBefore true (cs ++ '\x27' :: rest) = cs ++ '\x27' :: codeBefore false rest := by
  induction cs with
  | nil => rfl
  | cons c cs ih =>
    obtain ⟨hc, hcs⟩ := List.forall_mem_cons.mp h
    have hq : isQuote c = false := by simpa [Message.inQuotes] using hc
    simp [codeBefore, hq, ih hcs]

structure Intact (cs : List Char) : Prop where
  uncut : Uncut cs
  shielded : ':' ∈ cs → '\x27' ∈ cs.takeWhile (· != ':')

lemma intact_nil : Intact [] :=
  ⟨fun _ => rfl, fun h => by cases h⟩

lemma Intact.plain_append (ha : ∀ c ∈ a, isPlain c = true) (h : Intact b) : Intact (a ++ b) where
  uncut := (uncut_of_unmarked fun c hc => unmarked_of_isPlain (ha c hc)).append h.uncut
  shielded hm := by
    have hne : ∀ c ∈ a, (c != ':') = true := by
      intro c hc
      have hp := ha c hc
      simp only [isPlain, Bool.and_eq_true] at hp
      exact hp.2
    rw [List.takeWhile_append_of_pos hne]
    apply List.mem_append_right
    apply h.shielded
    obtain hm | hm := List.mem_append.mp hm
    · have := hne _ hm
      contradiction
    · exact hm

lemma Intact.quoted_append (ha : ∀ c ∈ a, Message.inQuotes c = true) (h : Intact b) :
    Intact ('\x27' :: (a ++ '\x27' :: b)) where
  uncut rest := by
    have hq : ∀ cs, codeBefore false ('\x27' :: cs) = '\x27' :: codeBefore true cs := fun _ => rfl
    rw [List.cons_append, hq, List.append_assoc, List.cons_append, codeBefore_quoted ha, h.uncut]
    simp
  shielded _ := by
    rw [List.takeWhile_cons_of_pos (by decide)]
    exact List.mem_cons_self

lemma Intact.labelled?_eq_none (h : Intact cs) : labelled? cs = none := by
  unfold labelled?
  split
  · rfl
  · rename_i c rest hd
    have hc : ':' ∈ cs := by
      have hn := List.head?_dropWhile_not (· != ':') cs
      simp only [hd, List.head?_cons, bne_eq_false_iff_eq] at hn
      have hm : c ∈ cs := (List.dropWhile_suffix _).mem (hd ▸ List.mem_cons_self)
      exact hn ▸ hm
    have hany : (cs.takeWhile (· != ':')).any endsLabel = true :=
      List.any_eq_true.mpr ⟨_, h.shielded hc, by decide⟩
    simp [hany]

end SourceLine

open SourceLine

lemma separator_or_of_words {f : Char → Bool} {offset : Nat} {cs : List Char}
    (h : ∀ w ∈ (words offset cs).map Piece.chars, ∀ c ∈ w, f c = true) :
    ∀ c ∈ cs, isSeparator c = true ∨ f c = true := by
  fun_induction words offset cs with
  | case1 => simp
  | case2 offset c cs hs ih => exact List.forall_mem_cons.mpr ⟨.inl hs, ih h⟩
  | case3 offset c cs hs word ih =>
    obtain ⟨hw, hr⟩ := List.forall_mem_cons.mp h
    have he : c :: cs = word ++ cs.dropWhile inWord := by simp [word]
    rw [he]
    intro d hd
    obtain hd | hd := List.mem_append.mp hd
    · exact .inr (hw d hd)
    · exact ih hr d hd

lemma eq_quoted_append {c : Char} {cs rest : List Char}
    (h : cs.dropWhile Message.inQuotes = c :: rest) :
    cs = cs.takeWhile Message.inQuotes ++ '\x27' :: rest := by
  have hn := List.head?_dropWhile_not Message.inQuotes cs
  have hc : c = '\x27' := by simpa [h, Message.inQuotes, isQuote] using hn
  rw [← hc, ← h, List.takeWhile_append_dropWhile]

lemma intact_of_lexemes {offset : Nat} {cs : List Char} {ps : List MessagePart}
    (h : List.Forall₂ Message.Lexeme.Spells (Message.lexemes offset cs) ps) : Intact cs := by
  fun_induction Message.lexemes offset cs generalizing ps with
  | case1 => exact intact_nil
  | case2 offset c cs hs ih =>
    exact (ih h).plain_append (a := [c]) (by simpa using isPlain_of_isSeparator hs)
  | case3 =>
    obtain ⟨_, _, hl, -⟩ := List.forall₂_cons_left_iff.mp h
    cases hl
  | case4 offset c cs hs hq d rest hd content =>
    rename_i ih
    obtain ⟨_, _, -, hr, -⟩ := List.forall₂_cons_left_iff.mp h
    obtain rfl : c = '\x27' := by simpa [isQuote] using hq
    rw [eq_quoted_append hd]
    exact (ih hr).quoted_append fun c hc => List.mem_takeWhile_imp hc
  | case5 offset c cs hs hq word =>
    rename_i ih
    obtain ⟨_, _, hl, hr, -⟩ := List.forall₂_cons_left_iff.mp h
    have he : c :: cs = word ++ cs.dropWhile Message.inBareWord := by simp [word]
    rw [he]
    apply (ih hr).plain_append
    cases hl with
    | word ho => exact fun c hc => isPlain_of_isOperandChar (ho.isOperandChar c hc)

lemma Mnemonic.isLower_of_mem_name (m : Mnemonic) : ∀ c ∈ m.name.toList, c.isLower = true := by
  have h : m.name.toList.all Char.isLower = true := by cases m <;> decide
  exact List.all_eq_true.mp h

lemma Mnemonic.name_of_ofName? {name : List Char} {m : Mnemonic} (h : ofName? name = some m) :
    m.name.toList = name.map Char.toLower := by
  simpa using List.find?_some h

lemma Mnemonic.isPlain_of_ofName? {name : List Char} {m : Mnemonic} (h : ofName? name = some m) :
    ∀ c ∈ name, isPlain c = true := by
  intro c hc
  have hlow : c.toLower.isLower = true :=
    m.isLower_of_mem_name _ (name_of_ofName? h ▸ List.mem_map_of_mem hc)
  exact isPlain_of_class (f := fun c => c.toLower.isLower) (by decide) hlow

theorem Instruction.Reads.intact {cs : List Char} {i : Instruction} (h : Instruction.Reads cs i) :
    Intact cs := by
  have he : cs = cs.takeWhile isBlank ++ ((cutWord cs).1 ++ (cutWord cs).2) := by
    simp [cutWord, trimStart]
  have hblank : ∀ c ∈ cs.takeWhile isBlank, isPlain c = true :=
    fun c hc => isPlain_of_isBlank (blanks_takeWhile cs c hc)
  suffices hr : ∀ m, Mnemonic.ofName? (cutWord cs).1 = some m → Intact (cutWord cs).2 → Intact cs by
    cases h with
    | form hm hf hb =>
      refine hr _ hm ?_
      rw [← List.append_nil (cutWord cs).2]
      apply intact_nil.plain_append
      have ho : ∀ w ∈ (words 0 (cutWord cs).2).map Piece.chars,
          ∀ c ∈ w, isOperandChar c = true := by
        intro w hw
        obtain ⟨o, ho⟩ := hb.exists_spells w hw
        exact ho.isOperandChar
      intro c hc
      exact (separator_or_of_words ho c hc).elim isPlain_of_isSeparator isPlain_of_isOperandChar
    | msg hm hf hps => exact hr _ hm (intact_of_lexemes hps)
  intro m hm hi
  rw [he]
  exact (hi.plain_append (Mnemonic.isPlain_of_ofName? hm)).plain_append hblank

end RegAsm
