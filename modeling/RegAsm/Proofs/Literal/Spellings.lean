import RegAsm.Proofs.Literal.Elements
import RegAsm.Proofs.Text.Words

namespace RegAsm.Literal

open Text Fallible

inductive HexDigit : Char → Nat → Prop
  | lower {n} : n < 16 → HexDigit (Nat.digitChar n) n
  | upper {n} : n < 16 → HexDigit (Nat.digitChar n).toUpper n

/-- The ways to write a character between quotes. The digits in braces may have zeros before them and
underscores among them, but no underscore first. -/
inductive Spells (c : Char) : List Char → Prop
  | verbatim : c ≠ '\\' → c ≠ '"' → Spells c [c]
  | simple {letter} : (letter, c) ∈ simpleEscapes → Spells c ['\\', letter]
  | byte {high low m n} : HexDigit high m → HexDigit low n → c.toNat = m * 16 + n →
      c.toNat ≤ 0x7F → Spells c ['\\', 'x', high, low]
  | scalar {digits ns} : digits.head? ≠ some '_' →
      List.Forall₂ HexDigit (digits.filter (· != '_')) ns → ns ≠ [] → ns.length ≤ 6 →
      c.toNat = Nat.ofDigits 16 ns.reverse →
      Spells c ('\\' :: 'u' :: '\x7b' :: (digits ++ ['\x7d']))

lemma HexDigit.hexValue? {c : Char} {n : Nat} (h : HexDigit c n) : hexValue? c = some n := by
  have hall : ∀ n < 16, Text.hexValue? (Nat.digitChar n) = some n ∧
      Text.hexValue? (Nat.digitChar n).toUpper = some n := by decide
  cases h with
  | lower hn => exact (hall n hn).1
  | upper hn => exact (hall n hn).2

lemma mapM_of_hexDigits {cs : List Char} {ns : List Nat} (h : List.Forall₂ HexDigit cs ns) :
    cs.mapM hexValue? = some ns := by
  induction h with
  | nil => rfl
  | cons hc _ ih => simp [List.mapM_cons, hc.hexValue?, ih]

lemma Spells.exists_element {c : Char} {t : List Char} (h : Spells c t) :
    ∃ e : Element, e.text = t ∧ e.value? = some [c] ∧ e.isContinuation = false := by
  cases h with
  | verbatim hb hq => exact ⟨.verbatim c, rfl, by simp [Element.value?, hb, hq], rfl⟩
  | @simple letter hl =>
    have hall : ∀ e ∈ simpleEscapes, simpleEscapes.lookup e.1 = some e.2 := by decide
    exact ⟨.simple letter, rfl, by simp [Element.value?, hall _ hl], rfl⟩
  | @byte high low m n hh hl hc hle =>
    refine ⟨.byte high low, rfl, ?_, rfl⟩
    simp [Element.value?, hh.hexValue?, hl.hexValue?, hle, ← hc]
  | @scalar digits ns hfirst hd hne hlen hc =>
    refine ⟨.scalar digits, rfl, ?_, rfl⟩
    simp [Element.value?, hfirst, mapM_of_hexDigits hd, hne, Nat.not_lt.mpr hlen, ← hc,
      scalar?_toNat]

lemma decodeBody_spelled {s : List Char} {ts : List (List Char)} (h : List.Forall₂ Spells s ts) :
    decodeBody ts.flatten = .ok s := by
  induction h with
  | nil => exact decodeBody_nil
  | @cons c t s ts hc _ ih =>
    obtain ⟨e, rfl, hv, he⟩ := hc.exists_element
    have hrest : remaining e.isContinuation ts.flatten = ts.flatten := by
      rw [he]
      rfl
    rw [List.flatten_cons, decodeBody_element hv, hrest, ih]
    rfl

lemma dropEnding?_append (cs ending : List Char) : dropEnding? (cs ++ ending) ending = some cs := by
  simp [dropEnding?]

lemma rawBody?_fenced (s : List Char) (n : Nat) :
    rawBody? (List.replicate n '#' ++ '"' :: (s ++ '"' :: List.replicate n '#')) = some s := by
  have hhash : ∀ c ∈ List.replicate n '#', (c == '#') = true := by simp
  have hquote : ∀ (cs : List Char), ∀ c ∈ ('"' :: cs).head?, (c == '#') = false := by
    intro cs c hc
    obtain rfl : '"' = c := by simpa using hc
    decide
  rw [rawBody?, takeWhile_append_of_head hhash (hquote _), List.dropWhile_append_of_pos hhash]
  exact dropEnding?_append s ('"' :: List.replicate n '#')

/-- A literal is decoded to the text it was written for, however each character was written, and so
is a raw literal of any text between any number of hashes. -/
theorem decode_inverts_spelling :
    (∀ (s : List Char) (ts : List (List Char)), List.Forall₂ Spells s ts →
      decode ('"' :: (ts.flatten ++ ['"'])) = .ok s) ∧
    ∀ (s : List Char) (n : Nat),
      decode ('r' :: (List.replicate n '#' ++ '"' :: (s ++ '"' :: List.replicate n '#'))) =
        .ok s := by
  refine ⟨fun s ts h => ?_, fun s n => ?_⟩
  · rw [decode, dropEnding?_append]
    exact decodeBody_spelled h
  · rw [decode, rawBody?_fenced]

def variedSpelling : List (List Char) :=
  [['\\', '"'], ['é'], ['\\', 'x', '4', 'a'],
    ['\\', 'u', '\x7b', '0', '_', '1', 'f', '6', 'C', '_', '_', '0', '_', '\x7d']]

theorem variedSpelling_decoded :
    List.Forall₂ Spells ['"', 'é', 'J', '🛀'] variedSpelling ∧
      decode ('"' :: (variedSpelling.flatten ++ ['"'])) = .ok ['"', 'é', 'J', '🛀'] := by
  have hscalar : Spells '🛀' _ := @Spells.scalar _
    ['0', '_', '1', 'f', '6', 'C', '_', '_', '0', '_'] [0, 1, 15, 6, 12, 0] (by decide)
    (.cons (.lower (n := 0) (by decide)) (.cons (.lower (n := 1) (by decide))
      (.cons (.lower (n := 15) (by decide)) (.cons (.lower (n := 6) (by decide))
        (.cons (.upper (n := 12) (by decide)) (.cons (.lower (n := 0) (by decide)) .nil))))))
    (by decide) (by decide) (by decide)
  have hbyte : Spells 'J' _ :=
    .byte (.lower (n := 4) (by decide)) (.lower (n := 10) (by decide)) (by decide) (by decide)
  have h : List.Forall₂ Spells ['"', 'é', 'J', '🛀'] variedSpelling :=
    .cons (.simple (by decide)) (.cons (.verbatim (by decide) (by decide))
      (.cons hbyte (.cons hscalar .nil)))
  exact ⟨h, decode_inverts_spelling.1 _ _ h⟩

end RegAsm.Literal
