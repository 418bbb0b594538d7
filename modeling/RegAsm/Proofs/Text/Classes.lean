import Mathlib.Tactic.Common
import RegAsm.Text.Blank

namespace RegAsm.Text

variable {c : Char} {cs : List Char}

def isOperandChar (c : Char) : Bool :=
  isNameChar c || c == '+' || c == '-'

def isPlain (c : Char) : Bool :=
  !isQuote c && c != ';' && c != ':'

lemma between_iff {low high : UInt32} :
    (decide (low ≤ c.val) && decide (c.val ≤ high)) = true ↔
      low.toNat ≤ c.toNat ∧ c.toNat ≤ high.toNat := by
  rw [Bool.and_eq_true, decide_eq_true_iff, decide_eq_true_iff]
  exact and_congr UInt32.le_iff_toNat_le UInt32.le_iff_toNat_le

lemma isDigit_iff : c.isDigit = true ↔ 48 ≤ c.toNat ∧ c.toNat ≤ 57 :=
  between_iff

lemma isAlpha_iff :
    c.isAlpha = true ↔ (65 ≤ c.toNat ∧ c.toNat ≤ 90) ∨ 97 ≤ c.toNat ∧ c.toNat ≤ 122 := by
  have hupper : c.isUpper = true ↔ 65 ≤ c.toNat ∧ c.toNat ≤ 90 :=
    decide_eq_true_iff.trans (and_congr UInt32.le_iff_toNat_le UInt32.le_iff_toNat_le)
  exact Bool.or_eq_true_iff.trans (or_congr hupper between_iff)

lemma isPlain_of_class {f : Char → Bool}
    (hf : f '\x27' = false ∧ f ';' = false ∧ f ':' = false) (h : f c = true) :
    isPlain c = true := by
  simp only [isPlain, isQuote, Bool.and_eq_true, Bool.not_eq_true', beq_eq_false_iff_ne, bne_iff_ne]
  refine ⟨⟨?_, ?_⟩, ?_⟩ <;> rintro rfl <;> simp [hf] at h

lemma isPlain_of_isOperandChar (h : isOperandChar c = true) : isPlain c = true :=
  isPlain_of_class (by decide) h

lemma isPlain_of_isSeparator (h : isSeparator c = true) : isPlain c = true :=
  isPlain_of_class (by decide) h

lemma isPlain_of_isBlank (h : isBlank c = true) : isPlain c = true :=
  isPlain_of_class (by decide) h

lemma isOperandChar_of_isNameChar (h : isNameChar c = true) : isOperandChar c = true := by
  simp [isOperandChar, h]

lemma isNameChar_of_isDigit (h : c.isDigit = true) : isNameChar c = true := by
  simp [isNameChar, Char.isAlphanum, h]

lemma isNameChar_of_isLower (h : c.isLower = true) : isNameChar c = true := by
  have ha : c.isAlpha = true := Bool.or_eq_true_iff.mpr (.inr h)
  simp [isNameChar, Char.isAlphanum, ha]

lemma isNameStart_of_isDigit (h : c.isDigit = true) : isNameStart c = false := by
  have hn := isDigit_iff.mp h
  rw [Bool.eq_false_iff]
  intro hs
  rcases Bool.or_eq_true_iff.mp hs with ha | hu
  · have := isAlpha_iff.mp ha
    omega
  · obtain rfl := beq_iff_eq.mp hu
    revert h
    decide

lemma isNameChar_of_isIdentifier (h : isIdentifier cs = true) : ∀ c ∈ cs, isNameChar c = true := by
  cases cs with
  | nil => simp
  | cons d ds =>
    obtain ⟨hd, hds⟩ := Bool.and_eq_true_iff.mp h
    exact List.forall_mem_cons.mpr ⟨isNameChar_of_isNameStart hd, by simpa using hds⟩

lemma toNat_of_isOperandChar (h : isOperandChar c = true) : 43 ≤ c.toNat ∧ c.toNat ≤ 122 := by
  simp only [isOperandChar, isNameChar, Char.isAlphanum, Bool.or_eq_true, isAlpha_iff, isDigit_iff,
    beq_iff_eq] at h
  rcases h with ((h | rfl) | rfl) | rfl
  · omega
  all_goals decide

lemma isSeparator_of_isOperandChar (h : isOperandChar c = true) : isSeparator c = false := by
  have hn := toNat_of_isOperandChar h
  rw [Bool.eq_false_iff]
  intro hs
  rcases Bool.or_eq_true_iff.mp hs with hc | hb
  · obtain rfl := beq_iff_eq.mp hc
    revert h
    decide
  · simp only [isBlank, Bool.or_eq_true, Bool.and_eq_true, decide_eq_true_eq, beq_iff_eq] at hb
    omega

lemma isBlank_of_isOperandChar (h : isOperandChar c = true) : isBlank c = false :=
  (Bool.or_eq_false_iff.mp (isSeparator_of_isOperandChar h)).2

end RegAsm.Text
