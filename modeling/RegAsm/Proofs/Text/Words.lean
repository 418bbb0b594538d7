import Mathlib.Data.List.Forall2
import Mathlib.Data.List.TakeWhile
import RegAsm.Proofs.Text.Line
import RegAsm.Text.Words

/-! Words that stand between separators, and how they are cut out. -/

namespace RegAsm.Text

def Parted (rest : List Char) : Prop :=
  ∀ c ∈ rest.head?, isSeparator c = true

variable {f : Char → Bool} {cs name w rest : List Char}

lemma takeWhile_append_of_head (hw : ∀ c ∈ w, f c = true) (hr : ∀ c ∈ rest.head?, f c = false) :
    (w ++ rest).takeWhile f = w := by
  rw [List.takeWhile_append_of_pos hw]
  cases rest with
  | nil => simp
  | cons c rest => simp [hr c rfl]

lemma takeWhile_append_parted (hf : ∀ c, isSeparator c = true → f c = false)
    (hw : ∀ c ∈ w, f c = true) (hr : Parted rest) : (w ++ rest).takeWhile f = w :=
  takeWhile_append_of_head hw fun c hc => hf c (hr c hc)

lemma dropWhile_append_parted (hf : ∀ c, isSeparator c = true → f c = false)
    (hw : ∀ c ∈ w, f c = true) (hr : Parted rest) : (w ++ rest).dropWhile f = rest := by
  rw [List.dropWhile_append_of_pos hw]
  cases rest with
  | nil => rfl
  | cons c rest => simp [hf c (hr c rfl)]

lemma inWord_of_isSeparator {c : Char} (h : isSeparator c = true) : inWord c = false := by
  simp [inWord, h]

lemma words_append (hne : w ≠ []) (hw : ∀ c ∈ w, isSeparator c = false) (hr : Parted rest)
    (offset : Nat) : words offset (w ++ rest) = ⟨offset, w⟩ :: words (offset + width w) rest := by
  obtain ⟨c, cs, rfl⟩ := List.exists_cons_of_ne_nil hne
  obtain ⟨hc, hcs⟩ := List.forall_mem_cons.mp hw
  have hin : ∀ d ∈ cs, inWord d = true := fun d hd => by simp [inWord, hcs d hd]
  rw [List.cons_append, words_word hc,
    takeWhile_append_parted (fun _ => inWord_of_isSeparator) hin hr,
    dropWhile_append_parted (fun _ => inWord_of_isSeparator) hin hr]

lemma isSeparator_of_mem_takeWhile {c : Char} (h : c ∈ cs.takeWhile inWord) :
    isSeparator c = false := by
  simpa [inWord] using List.mem_takeWhile_imp h

lemma parted_dropWhile (cs : List Char) : Parted (cs.dropWhile inWord) := by
  intro c hc
  simpa [inWord] using head_dropWhile inWord cs c hc

theorem words_induction {motive : Nat → List Char → Prop} (nil : ∀ offset, motive offset [])
    (separator : ∀ offset c cs, isSeparator c = true → motive (offset + c.utf8Size) cs →
      motive offset (c :: cs))
    (word : ∀ offset w rest, w ≠ [] → (∀ c ∈ w, isSeparator c = false) → Parted rest →
      motive (offset + width w) rest → motive offset (w ++ rest))
    (offset : Nat) (cs : List Char) : motive offset cs := by
  fun_induction words offset cs with
  | case1 offset => exact nil offset
  | case2 offset c cs hs ih => exact separator offset c cs hs ih
  | case3 offset c cs hs w ih =>
    have he : c :: cs = w ++ cs.dropWhile inWord := by simp [w]
    have hw : ∀ d ∈ w, isSeparator d = false :=
      List.forall_mem_cons.mpr ⟨by simpa using hs, fun d => isSeparator_of_mem_takeWhile⟩
    rw [he]
    exact word offset w _ (List.cons_ne_nil _ _) hw (parted_dropWhile cs) ih

structure Leads (cs name rest : List Char) : Prop where
  split : ∃ blanks, Blanks blanks ∧ cs = blanks ++ (name ++ rest)
  start : ∀ c ∈ (name ++ rest).head?, isBlank c = false
  word : ∀ c ∈ name, isSeparator c = false
  parted : Parted rest

lemma Leads.cutWord_eq (h : Leads cs name rest) : cutWord cs = (name, rest) := by
  obtain ⟨blanks, hb, rfl⟩ := h.split
  have hs : trimStart (blanks ++ (name ++ rest)) = name ++ rest := by
    rw [trimStart, List.dropWhile_append_of_pos hb, ← trimStart, trimStart_of_head h.start]
  have hin : ∀ c ∈ name, inWord c = true := fun c hc => by simp [inWord, h.word c hc]
  rw [cutWord, hs, takeWhile_append_parted (fun _ => inWord_of_isSeparator) hin h.parted,
    dropWhile_append_parted (fun _ => inWord_of_isSeparator) hin h.parted]

lemma leads_cutWord (cs : List Char) : Leads cs (cutWord cs).1 (cutWord cs).2 where
  split := ⟨cs.takeWhile isBlank, blanks_takeWhile cs, by simp [cutWord, trimStart]⟩
  start := by
    have he : (cutWord cs).1 ++ (cutWord cs).2 = trimStart cs := List.takeWhile_append_dropWhile
    rw [he]
    exact head_dropWhile isBlank cs
  word _ := isSeparator_of_mem_takeWhile
  parted := parted_dropWhile (trimStart cs)

lemma cutWord_append (hne : w ≠ []) (hw : ∀ c ∈ w, isSeparator c = false) (hr : Parted rest) :
    cutWord (w ++ rest) = (w, rest) := by
  refine Leads.cutWord_eq ⟨⟨[], by simp [Blanks], rfl⟩, fun c hc => ?_, hw, hr⟩
  rw [List.head?_append_of_ne_nil _ hne] at hc
  have hsep := hw c (List.mem_of_mem_head? hc)
  exact Bool.eq_false_iff.mpr fun hb => by simp [isSeparator_of_isBlank hb] at hsep

def stretches (cs : List Char) : List (List Char) :=
  (cs.splitOnP isSeparator).filter (· ≠ [])

lemma stretches_separator {c : Char} (hc : isSeparator c = true) (cs : List Char) :
    stretches (c :: cs) = stretches cs := by
  simp [stretches, List.splitOnP_cons_eq_if_modifyHead, hc]

lemma stretches_append (hne : name ≠ []) (hn : ∀ c ∈ name, isSeparator c = false)
    (hr : Parted rest) : stretches (name ++ rest) = name :: stretches rest := by
  cases rest with
  | nil => simp [stretches, List.splitOnP_eq_singleton hn, hne]
  | cons c rest =>
    have hc : isSeparator c = true := hr c rfl
    rw [stretches_separator hc, stretches, List.splitOnP_append_cons_of_forall_mem hn c hc,
      List.filter_cons_of_pos (by simpa using hne), stretches]

lemma chars_words (offset : Nat) (cs : List Char) :
    (words offset cs).map Piece.chars = stretches cs := by
  induction offset, cs using words_induction with
  | nil => simp [stretches]
  | separator offset c cs hs ih => rw [words_separator hs, ih, stretches_separator hs]
  | word offset w rest hne hw hr ih =>
    rw [words_append hne hw hr, stretches_append hne hw hr, List.map_cons, ih]

structure Scanner {α : Type} (scan : Nat → List Char → List α) : Prop where
  nil : ∀ offset, scan offset [] = []
  separator : ∀ {c}, isSeparator c = true → ∀ offset cs,
    scan offset (c :: cs) = scan (offset + c.utf8Size) cs

lemma scanner_words : Scanner words :=
  ⟨words_nil, words_separator⟩

/-- Whatever `w` is parted from, it is cut out as one item, and that item is as `P` says. -/
def Cuts {α : Type} (scan : Nat → List Char → List α) (w : List Char) (P : α → Prop) : Prop :=
  ∀ rest, Parted rest → ∀ offset, ∃ a next, scan offset (w ++ rest) = a :: scan next rest ∧ P a

variable {α β : Type} {scan : Nat → List Char → List α} {R : α → β → Prop} {print : β → String}
variable {bs : List β}

lemma scan_intercalate (hs : Scanner scan) (h : ∀ b ∈ bs, Cuts scan (print b).toList (R · b))
    (offset : Nat) :
    List.Forall₂ R
      (scan offset ([',', ' '].intercalate (bs.map fun b => (print b).toList))) bs := by
  -- each printed item is followed by nothing or by the comma before the next one
  induction bs generalizing offset with
  | nil => simp [hs.nil]
  | cons b bs ih =>
    obtain ⟨hb, hbs⟩ := List.forall_mem_cons.mp h
    cases bs with
    | nil =>
      obtain ⟨a, next, he, ha⟩ := hb [] (by simp [Parted]) offset
      rw [List.append_nil, hs.nil] at he
      simpa [he] using ha
    | cons b' bs =>
      have hr : ∀ cs, Parted (',' :: ' ' :: cs) := by
        intro cs c hc
        obtain rfl : ',' = c := by simpa using hc
        decide
      obtain ⟨a, next, he, ha⟩ := hb _ (hr _) offset
      rw [List.map_cons, List.map_cons, List.intercalate_cons_cons, List.append_assoc]
      simp only [List.cons_append, List.nil_append]
      rw [he, hs.separator (by decide), hs.separator (by decide)]
      exact .cons ha (ih hbs _)

end RegAsm.Text
