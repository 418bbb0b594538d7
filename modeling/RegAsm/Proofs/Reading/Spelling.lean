import Mathlib.Data.List.Forall2
import RegAsm.Instruction.Reader
import RegAsm.Proofs.Fallible
import RegAsm.Proofs.Text.Classes

/-! What words spell, without the places that they stand at: operands, the instructions of a form,
and the parts of a message. -/

namespace RegAsm

open Text Fallible

namespace Decimal

variable {cs : List Char} {n : Int}

lemma isDigit_of_toNat? {m : Nat} (h : toNat? cs = some m) :
    cs ≠ [] ∧ ∀ c ∈ cs, c.isDigit = true := by
  unfold toNat? at h
  split at h
  · rename_i hn
    simpa [isNumeral] using hn
  · cases h

lemma toInt?_unsigned (h : ∀ c ∈ cs.head?, c.isDigit = true) :
    toInt? cs = (toNat? cs).map Int.ofNat := by
  unfold toInt?
  split
  · have hp := h '+' rfl
    contradiction
  · have hm := h '-' rfl
    contradiction
  · cases toNat? cs <;> rfl

lemma toInt?_eq_some_iff :
    toInt? cs = some n ↔ ∃ ds m, toNat? ds = some m ∧
      (cs = '+' :: ds ∧ n = m ∨ cs = '-' :: ds ∧ n = -m ∨ cs = ds ∧ n = m) := by
  constructor
  · intro h
    unfold toInt? at h
    split at h
    · rename_i ds
      cases hm : toNat? ds with
      | none => simp [hm] at h
      | some m => exact ⟨ds, m, hm, .inl ⟨rfl, by simpa [hm, eq_comm] using h⟩⟩
    · rename_i ds
      cases hm : toNat? ds with
      | none => simp [hm] at h
      | some m => exact ⟨ds, m, hm, .inr (.inl ⟨rfl, by simpa [hm, eq_comm] using h⟩)⟩
    · cases hm : toNat? cs with
      | none => simp [hm] at h
      | some m => exact ⟨cs, m, hm, .inr (.inr ⟨rfl, by simpa [hm, eq_comm] using h⟩)⟩
  · rintro ⟨ds, m, hm, ⟨rfl, rfl⟩ | ⟨rfl, rfl⟩ | ⟨rfl, rfl⟩⟩
    · simp [toInt?, hm]
    · simp [toInt?, hm]
    · have hd := (isDigit_of_toNat? hm).2
      rw [toInt?_unsigned fun c hc => hd c (List.mem_of_mem_head? hc), hm]
      rfl

lemma isOperandChar_of_toInt? (h : toInt? cs = some n) : ∀ c ∈ cs, isOperandChar c = true := by
  obtain ⟨ds, m, hm, hc⟩ := toInt?_eq_some_iff.mp h
  have hd : ∀ c ∈ ds, isOperandChar c = true := fun c hc =>
    isOperandChar_of_isNameChar (isNameChar_of_isDigit ((isDigit_of_toNat? hm).2 c hc))
  rcases hc with ⟨rfl, -⟩ | ⟨rfl, -⟩ | ⟨rfl, -⟩
  · exact List.forall_mem_cons.mpr ⟨by decide, hd⟩
  · exact List.forall_mem_cons.mpr ⟨by decide, hd⟩
  · exact hd

lemma not_isIdentifier_of_toInt? (h : toInt? cs = some n) : isIdentifier cs = false := by
  obtain ⟨ds, m, hm, hc⟩ := toInt?_eq_some_iff.mp h
  rcases hc with ⟨rfl, -⟩ | ⟨rfl, -⟩ | ⟨rfl, -⟩
  · rfl
  · rfl
  · obtain ⟨hne, hd⟩ := isDigit_of_toNat? hm
    obtain ⟨d, ds, rfl⟩ := List.exists_cons_of_ne_nil hne
    simp [isIdentifier, isNameStart_of_isDigit (hd d List.mem_cons_self)]

end Decimal

namespace Word

variable {w : List Char} {value : Word}

lemma read?_eq_some_iff :
    read? w = some value ↔ ∃ n, Decimal.toInt? w = some n ∧ ofInt? n = some value :=
  Option.bind_eq_some_iff

lemma read?_of_isIdentifier (h : isIdentifier w = true) : read? w = none := by
  rw [Option.eq_none_iff_forall_ne_some]
  intro value hv
  obtain ⟨n, hn, -⟩ := read?_eq_some_iff.mp hv
  rw [Decimal.not_isIdentifier_of_toInt? hn] at h
  cases h

end Word

inductive Operand.Spells : List Char → Operand → Prop
  | immediate {w value} : Word.read? w = some value → Spells w (.immediate value)
  | register {w} : isIdentifier w = true → Spells w (.register (String.ofList w))

def IsOperand (w : List Char) : Prop :=
  (∃ value, Word.read? w = some value) ∨ isIdentifier w = true

lemma Operand.exists_spells_iff {w : List Char} : (∃ o, Operand.Spells w o) ↔ IsOperand w := by
  constructor
  · rintro ⟨o, hv | hi⟩
    · exact .inl ⟨_, hv⟩
    · exact .inr hi
  · rintro (⟨value, hv⟩ | hi)
    · exact ⟨_, .immediate hv⟩
    · exact ⟨_, .register hi⟩

lemma Operand.Spells.isOperandChar {w : List Char} {o : Operand} (h : Operand.Spells w o) :
    ∀ c ∈ w, isOperandChar c = true := by
  cases h with
  | immediate hv =>
    obtain ⟨n, hn, -⟩ := Word.read?_eq_some_iff.mp hv
    exact Decimal.isOperandChar_of_toInt? hn
  | register hi =>
    intro c hc
    exact isOperandChar_of_isNameChar (isNameChar_of_isIdentifier hi c hc)

namespace TokenKind

variable {w : List Char}

lemma of_eq_identifier_iff : TokenKind.of w = .identifier ↔ isIdentifier w = true := by
  unfold TokenKind.of
  constructor
  · intro h
    split at h
    · cases h
    · split at h
      · assumption
      · cases h
  · intro h
    simp [Word.read?_of_isIdentifier h, h]

lemma of_eq_number_iff {value : Word} :
    TokenKind.of w = .number value ↔ Word.read? w = some value := by
  unfold TokenKind.of
  cases Word.read? w with
  | none =>
    simp only [reduceCtorEq, iff_false]
    split <;> simp
  | some v => simp

end TokenKind

namespace Token

variable {span : Span} {p : Piece} {m : Mnemonic} {name : String}

lemma operand_eq_ok_iff {o : Operand} :
    (ofPiece span p).operand = .ok o ↔ Operand.Spells p.chars o := by
  simp only [operand, ofPiece]
  constructor
  · intro h
    split at h
    · rename_i hk
      cases h
      exact .immediate (TokenKind.of_eq_number_iff.mp hk)
    · rename_i hk
      cases h
      exact .register (TokenKind.of_eq_identifier_iff.mp hk)
    · cases h
  · intro h
    cases h with
    | immediate hv => simp [TokenKind.of_eq_number_iff.mpr hv]
    | register hi => simp [TokenKind.of_eq_identifier_iff.mpr hi, text]

lemma destination_eq_ok_iff :
    (ofPiece span p).destination m = .ok name ↔
      isIdentifier p.chars = true ∧ String.ofList p.chars = name := by
  rw [← TokenKind.of_eq_identifier_iff]
  simp only [destination, ofPiece, text]
  cases TokenKind.of p.chars <;> simp

lemma target_eq_ok_iff :
    (ofPiece span p).target m = .ok name ↔
      isIdentifier p.chars = true ∧ String.ofList p.chars = name := by
  rw [← TokenKind.of_eq_identifier_iff]
  simp only [target, ofPiece, text]
  cases TokenKind.of p.chars <;> simp

end Token

inductive Form.Builds : Form → List (List Char) → Instruction → Prop
  | plain {i} : Builds (.plain i) [] i
  | update {build w} : isIdentifier w = true →
      Builds (.update build) [w] (build (String.ofList w))
  | assign {build w v o} : isIdentifier w = true → Operand.Spells v o →
      Builds (.assign build) [w, v] (build (String.ofList w) o)
  | compare {build w v l r} : Operand.Spells w l → Operand.Spells v r →
      Builds (.compare build) [w, v] (build l r)
  | branch {build w} : isIdentifier w = true →
      Builds (.branch build) [w] (build (String.ofList w))

lemma Form.Builds.exists_spells {form : Form} {ws : List (List Char)} {i : Instruction}
    (h : form.Builds ws i) : ∀ w ∈ ws, ∃ o, Operand.Spells w o := by
  have hid : ∀ {w}, isIdentifier w = true → ∃ o, Operand.Spells w o := fun hi => ⟨_, .register hi⟩
  cases h with
  | plain => simp
  | update hi | branch hi => simpa using hid hi
  | assign hi ho => simpa using ⟨hid hi, _, ho⟩
  | compare hl hr => simpa using ⟨⟨_, hl⟩, _, hr⟩

namespace Instruction

lemma ofTokens_eq_ok_iff {m : Mnemonic} {form : Form} {start span : Span} {ps : List Piece}
    {i : Instruction} :
    ofTokens m form start (ps.map (Token.ofPiece span)) = .ok i ↔
      form.Builds (ps.map Piece.chars) i := by
  cases form with
  | plain j =>
    rcases ps with _ | ⟨p, ps⟩
    · simp only [List.map_nil, ofTokens, Except.ok.injEq]
      constructor
      · rintro rfl
        exact .plain
      · rintro ⟨⟩
        rfl
    · constructor <;> rintro ⟨⟩
  | update build =>
    rcases ps with _ | ⟨p, _ | ⟨q, ps⟩⟩
    · constructor <;> rintro ⟨⟩
    · simp only [List.map_cons, List.map_nil, ofTokens, map_eq_ok_iff, Token.destination_eq_ok_iff]
      constructor
      · rintro ⟨_, ⟨hi, rfl⟩, rfl⟩
        exact .update hi
      · rintro ⟨⟩
        exact ⟨_, ⟨by assumption, rfl⟩, rfl⟩
    · constructor <;> rintro ⟨⟩
  | assign build =>
    rcases ps with _ | ⟨p, _ | ⟨q, _ | ⟨r, ps⟩⟩⟩
    · constructor <;> rintro ⟨⟩
    · constructor <;> rintro ⟨⟩
    · simp only [List.map_cons, List.map_nil, ofTokens, bind_eq_ok_iff, Token.destination_eq_ok_iff,
        Token.operand_eq_ok_iff, pure_eq_ok_iff]
      constructor
      · rintro ⟨_, ⟨hi, rfl⟩, o, ho, rfl⟩
        exact .assign hi ho
      · rintro ⟨⟩
        exact ⟨_, ⟨by assumption, rfl⟩, _, by assumption, rfl⟩
    · constructor <;> rintro ⟨⟩
  | compare build =>
    rcases ps with _ | ⟨p, _ | ⟨q, _ | ⟨r, ps⟩⟩⟩
    · constructor <;> rintro ⟨⟩
    · constructor <;> rintro ⟨⟩
    · simp only [List.map_cons, List.map_nil, ofTokens, bind_eq_ok_iff, Token.operand_eq_ok_iff,
        pure_eq_ok_iff]
      constructor
      · rintro ⟨l, hl, r, hr, rfl⟩
        exact .compare hl hr
      · rintro ⟨⟩
        exact ⟨_, by assumption, _, by assumption, rfl⟩
    · constructor <;> rintro ⟨⟩
  | branch build =>
    rcases ps with _ | ⟨p, _ | ⟨q, ps⟩⟩
    · constructor <;> rintro ⟨⟩
    · simp only [List.map_cons, List.map_nil, ofTokens, map_eq_ok_iff, Token.target_eq_ok_iff]
      constructor
      · rintro ⟨_, ⟨hi, rfl⟩, rfl⟩
        exact .branch hi
      · rintro ⟨⟩
        exact ⟨_, ⟨by assumption, rfl⟩, rfl⟩
    · constructor <;> rintro ⟨⟩

end Instruction

namespace Message

inductive Lexeme.Spells : Lexeme → MessagePart → Prop
  | quoted {offset content} : Spells (.quoted offset content) (.text (String.ofList content))
  | word {piece o} : Operand.Spells piece.chars o → Spells (.word piece) (.value o)

variable {span : Span}

lemma part_eq_ok_iff {l : Lexeme} {p : MessagePart} : part span l = .ok p ↔ l.Spells p := by
  cases l with
  | quoted offset content =>
    simp only [part, Except.ok.injEq]
    constructor
    · rintro rfl
      exact .quoted
    · rintro ⟨⟩
      rfl
  | word piece =>
    simp only [part, map_eq_ok_iff, Token.operand_eq_ok_iff]
    constructor
    · rintro ⟨o, ho, rfl⟩
      exact .word ho
    · rintro ⟨⟩
      exact ⟨_, by assumption, rfl⟩
  | unclosed offset => constructor <;> rintro ⟨⟩

lemma parts_eq_ok_iff {ls : List Lexeme} {ps : List MessagePart} :
    parts span ls = .ok ps ↔ List.Forall₂ Lexeme.Spells ls ps := by
  induction ls generalizing ps with
  | nil =>
    simp only [parts, Except.ok.injEq, List.forall₂_nil_left_iff]
    exact eq_comm
  | cons l ls ih =>
    simp only [parts, bind_eq_ok_iff, part_eq_ok_iff, ih, pure_eq_ok_iff,
      List.forall₂_cons_left_iff]
    constructor
    · rintro ⟨p, hp, qs, hqs, rfl⟩
      exact ⟨p, qs, hp, hqs, rfl⟩
    · rintro ⟨p, qs, hp, hqs, rfl⟩
      exact ⟨p, hp, qs, hqs, rfl⟩

end Message

namespace Instruction

inductive Reads (cs : List Char) : Instruction → Prop
  | form {m form i} : Mnemonic.ofName? (cutWord cs).1 = some m → m.form? = some form →
      form.Builds ((words 0 (cutWord cs).2).map Piece.chars) i → Reads cs i
  | msg {m ps} : Mnemonic.ofName? (cutWord cs).1 = some m → m.form? = none →
      List.Forall₂ Message.Lexeme.Spells (Message.lexemes 0 (cutWord cs).2) ps → Reads cs (.msg ps)

theorem read_eq_ok_iff {cs : List Char} {span : Span} {i : Instruction} :
    read cs span = .ok i ↔ Reads cs i := by
  simp only [read]
  cases hm : Mnemonic.ofName? (cutWord cs).1 with
  | none =>
    constructor
    · rintro ⟨⟩
    · rintro (⟨h, -, -⟩ | ⟨h, -, -⟩) <;> simp [hm] at h
  | some m =>
    cases hf : m.form? with
    | none =>
      simp only [hf, map_eq_ok_iff, Message.read, Message.parts_eq_ok_iff]
      constructor
      · rintro ⟨ps, hps, rfl⟩
        exact .msg hm hf hps
      · rintro (⟨h, hf', -⟩ | ⟨h, hf', hps⟩)
        · obtain rfl := Option.some.inj (hm.symm.trans h)
          simp [hf] at hf'
        · exact ⟨_, hps, rfl⟩
    | some form =>
      simp only [hf, Token.ofText, ofTokens_eq_ok_iff]
      constructor
      · exact .form hm hf
      · rintro (⟨h, hf', hb⟩ | ⟨h, hf', -⟩)
        · obtain rfl := Option.some.inj (hm.symm.trans h)
          obtain rfl := Option.some.inj (hf.symm.trans hf')
          exact hb
        · obtain rfl := Option.some.inj (hm.symm.trans h)
          simp [hf] at hf'

end Instruction

end RegAsm
