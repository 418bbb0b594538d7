import Mathlib.Tactic.Ring
import RegAsm.Proofs.Printing.RoundTrip

namespace RegAsm

open Text

namespace Decimal

def value : List Char → Nat
  | [] => 0
  | d :: ds => (d.toNat - '0'.toNat) * 10 ^ ds.length + value ds

structure Digits (ds : List Char) : Prop where
  ne_nil : ds ≠ []
  digit : ∀ d ∈ ds, '0' ≤ d ∧ d ≤ '9'

inductive Denotes : List Char → Int → Prop
  | unsigned {ds} : Digits ds → Denotes ds (value ds)
  | plus {ds} : Digits ds → Denotes ('+' :: ds) (value ds)
  | minus {ds} : Digits ds → Denotes ('-' :: ds) (-value ds)

variable {cs ds : List Char} {m : Nat} {n : Int}

lemma ofDigitChars_eq_value (ds : List Char) : Nat.ofDigitChars 10 ds 0 = value ds := by
  induction ds with
  | nil => rfl
  | cons d ds ih =>
    rw [Nat.ofDigitChars_cons, Nat.ofDigitChars_eq_ofDigitChars_zero, ih, value]
    ring

lemma isNumeral_iff : isNumeral ds = true ↔ Digits ds := by
  have hd : ∀ d : Char, d.isDigit = true ↔ '0' ≤ d ∧ d ≤ '9' := by
    intro d
    simp only [Char.isDigit, Bool.and_eq_true, decide_eq_true_eq]
    rfl
  simp only [isNumeral, Bool.and_eq_true, Bool.not_eq_true', List.isEmpty_eq_false_iff,
    List.all_eq_true, hd]
  exact ⟨fun h => ⟨h.1, h.2⟩, fun h => ⟨h.ne_nil, h.digit⟩⟩

lemma toNat?_eq_some_iff : toNat? ds = some m ↔ Digits ds ∧ m = value ds := by
  rw [toNat?, ofDigitChars_eq_value, ← isNumeral_iff]
  by_cases h : isNumeral ds = true
  · simp [h, eq_comm]
  · simp [h]

lemma toInt?_eq_some_iff_denotes : toInt? cs = some n ↔ Denotes cs n := by
  simp only [toInt?_eq_some_iff, toNat?_eq_some_iff]
  constructor
  · rintro ⟨ds, m, ⟨hd, rfl⟩, ⟨rfl, rfl⟩ | ⟨rfl, rfl⟩ | ⟨rfl, rfl⟩⟩
    · exact .plus hd
    · exact .minus hd
    · exact .unsigned hd
  · intro h
    cases h with
    | unsigned hd => exact ⟨_, _, ⟨hd, rfl⟩, .inr (.inr ⟨rfl, rfl⟩)⟩
    | plus hd => exact ⟨_, _, ⟨hd, rfl⟩, .inl ⟨rfl, rfl⟩⟩
    | minus hd => exact ⟨_, _, ⟨hd, rfl⟩, .inr (.inl ⟨rfl, rfl⟩)⟩

end Decimal

open Decimal

namespace Word

def InRange (n : Int) : Prop :=
  -2 ^ 63 ≤ n ∧ n ≤ 2 ^ 63 - 1

variable {cs : List Char} {n : Int} {v : Word}

lemma toInt_ofInt (h : InRange n) : (Int64.ofInt n).toInt = n :=
  Int64.toInt_ofInt_of_le h.1 (Int.lt_of_le_sub_one h.2)

lemma ofInt?_eq_some_iff : ofInt? n = some v ↔ InRange n ∧ v.toInt = n := by
  rw [ofInt?]
  split_ifs with h
  · have hr : InRange n := h
    rw [Option.some_inj, ← Int64.toInt_inj, toInt_ofInt hr, eq_comm, and_iff_right hr]
  · have hr : ¬ InRange n := h
    simp [hr]

lemma exists_ofInt?_iff : (∃ v, ofInt? n = some v) ↔ InRange n := by
  simp only [ofInt?_eq_some_iff, exists_and_left, and_iff_left_iff_imp]
  intro h
  exact ⟨Int64.ofInt n, toInt_ofInt h⟩

lemma read?_eq_some_iff_denotes :
    read? cs = some v ↔ ∃ n, Denotes cs n ∧ InRange n ∧ v.toInt = n := by
  simp only [read?_eq_some_iff, toInt?_eq_some_iff_denotes, ofInt?_eq_some_iff]

lemma exists_read?_iff : (∃ v, read? cs = some v) ↔ ∃ n, Denotes cs n ∧ InRange n := by
  simp only [read?_eq_some_iff, toInt?_eq_some_iff_denotes]
  rw [exists_comm]
  simp only [exists_and_left, exists_ofInt?_iff]

end Word

lemma Decimal.Denotes.isIdentifier_eq_false {cs : List Char} {n : Int} (h : Denotes cs n) :
    isIdentifier cs = false :=
  not_isIdentifier_of_toInt? (toInt?_eq_some_iff_denotes.mpr h)

lemma TokenKind.of_eq_invalid_iff {cs : List Char} :
    TokenKind.of cs = .invalid ↔ (¬ ∃ v, Word.read? cs = some v) ∧ isIdentifier cs = false := by
  rw [← Bool.not_eq_true, ← of_eq_identifier_iff]
  simp only [← of_eq_number_iff]
  cases TokenKind.of cs <;> simp

/-- A text is read as a number exactly if it is one or more digits, with at most one sign before
them, that denote an integer of 64 bits, and then as that integer. So every word is read from what it
is shown as. No such text is a name, in range or not, and one that is no name and denotes no integer
in range is invalid. -/
theorem numbers_read_exactly (cs : List Char) :
    (∀ v, Word.read? cs = some v ↔ ∃ n, Denotes cs n ∧ Word.InRange n ∧ v.toInt = n) ∧
    ((∃ v, Word.read? cs = some v) ↔ ∃ n, Denotes cs n ∧ Word.InRange n) ∧
    (∀ v : Word, Word.read? v.text.toList = some v) ∧
    ¬ ((∃ n, Denotes cs n) ∧ isIdentifier cs = true) ∧
    (∀ v, TokenKind.of cs = .number v ↔ ∃ n, Denotes cs n ∧ Word.InRange n ∧ v.toInt = n) ∧
    (TokenKind.of cs = .identifier ↔ isIdentifier cs = true) ∧
    (TokenKind.of cs = .invalid ↔
      (¬ ∃ n, Denotes cs n ∧ Word.InRange n) ∧ isIdentifier cs = false) := by
  refine ⟨fun v => Word.read?_eq_some_iff_denotes, Word.exists_read?_iff, Word.read?_text, ?_,
    fun v => ?_, TokenKind.of_eq_identifier_iff, ?_⟩
  · rintro ⟨⟨n, hn⟩, hi⟩
    simp [hn.isIdentifier_eq_false] at hi
  · rw [TokenKind.of_eq_number_iff, Word.read?_eq_some_iff_denotes]
  · rw [TokenKind.of_eq_invalid_iff, Word.exists_read?_iff]

-- the least word is read with any number of zeros, and the number after the greatest one is not
example : Word.read? "-0009223372036854775808".toList = some Int64.minValue ∧
    TokenKind.of "+9223372036854775808".toList = .invalid := by decide

end RegAsm
