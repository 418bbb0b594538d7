import Mathlib.Data.List.Basic
import Mathlib.Data.List.Lex
import Mathlib.Data.String.Basic
import Std.Data.ExtTreeMap

/-! Strings in the order of their UTF-8 bytes, which is the order of their characters. -/

namespace RegAsm.Text

def bytes (s : String) : List UInt8 :=
  s.toUTF8.data.toList

lemma bytes_eq_flatMap (s : String) : bytes s = s.toList.flatMap String.utf8EncodeChar := by
  obtain ⟨cs, rfl⟩ : ∃ cs, s = String.ofList cs := ⟨_, String.ofList_toList.symm⟩
  rw [String.toList_ofList]
  exact List.toList_data_toByteArray

/-- The numbers below `bound` keep their order in a code, whatever comes after them. -/
def Ordered (bound : Nat) (code : Nat → List UInt8) : Prop :=
  ∀ m n, m < n → n < bound → ∀ xs ys, code m ++ xs < code n ++ ys

def lead (size mark n : Nat) : List UInt8 :=
  [UInt8.ofNat (n % size + mark)]

def continued (code : Nat → List UInt8) (n : Nat) : List UInt8 :=
  code (n / 64) ++ [UInt8.ofNat (n % 64 + 0x80)]

lemma cons_ofNat_lt {a b : Nat} (h : a < b) (hb : b < 256) (xs ys : List UInt8) :
    UInt8.ofNat a :: xs < UInt8.ofNat b :: ys := by
  apply List.cons_lt_cons_iff.mpr
  left
  rw [UInt8.lt_iff_toNat_lt, UInt8.toNat_ofNat', UInt8.toNat_ofNat']
  omega

section

variable {bound k : Nat} {f g : Nat → List UInt8}

lemma ordered_lead {size mark : Nat} (h : size + mark ≤ 256) : Ordered size (lead size mark) := by
  intro m n hmn hn xs ys
  rw [lead, lead, Nat.mod_eq_of_lt hn, Nat.mod_eq_of_lt (hmn.trans hn)]
  exact cons_ofNat_lt (by omega) (by omega) _ _

lemma Ordered.continued (h : Ordered bound f) : Ordered (bound * 64) (continued f) := by
  intro m n hmn hn xs ys
  simp only [Text.continued, List.append_assoc]
  obtain hd | hd := Nat.lt_or_eq_of_le (Nat.div_le_div_right hmn.le : m / 64 ≤ n / 64)
  · exact h _ _ hd (by omega) _ _
  · rw [hd]
    exact List.append_left_lt (cons_ofNat_lt (by omega) (by omega) _ _)

lemma Ordered.ite (hf : Ordered (k + 1) f) (hg : Ordered bound g)
    (hfg : ∀ m n, m ≤ k → k < n → n < bound → ∀ xs ys, f m ++ xs < g n ++ ys) :
    Ordered bound fun n => if n ≤ k then f n else g n := by
  intro m n hmn hn xs ys
  by_cases hk : n ≤ k
  · simp only [hk, hmn.le.trans hk, if_true]
    exact hf m n hmn (by omega) xs ys
  · by_cases hm : m ≤ k
    · simp only [hk, hm, if_true, if_false]
      exact hfg m n hm (by omega) hn xs ys
    · simp only [hk, hm, if_false]
      exact hg m n hmn hn xs ys

end

def encode (n : Nat) : List UInt8 :=
  if n ≤ 0x7f then [UInt8.ofNat n]
  else if n ≤ 0x7ff then continued (lead 0x20 0xc0) n
  else if n ≤ 0xffff then continued (continued (lead 0x10 0xe0)) n
  else continued (continued (continued (lead 0x8 0xf0))) n

lemma utf8EncodeChar_eq (c : Char) : String.utf8EncodeChar c = encode c.val.toNat := by
  simp only [String.utf8EncodeChar, encode, lead, continued, Nat.div_div_eq_div_mul, Nat.reduceMul]
  rfl

lemma ordered_encode : Ordered 0x110000 encode := by
  have h₁ : Ordered (0x7f + 1) fun n => [UInt8.ofNat n] :=
    fun m n hmn hn xs ys => cons_ofNat_lt hmn (by omega) xs ys
  have h₂ : Ordered 0x20 (lead 0x20 0xc0) := ordered_lead (by omega)
  have h₃ : Ordered 0x10 (lead 0x10 0xe0) := ordered_lead (by omega)
  have h₄ : Ordered 0x8 (lead 0x8 0xf0) := ordered_lead (by omega)
  have h₄ : Ordered 0x110000 (continued (continued (continued (lead 0x8 0xf0)))) :=
    fun m n hmn hn => h₄.continued.continued.continued m n hmn (by omega)
  -- the first byte tells how many there are, and is greater where there are more
  refine h₁.ite (h₂.continued.ite (h₃.continued.continued.ite h₄ ?_) ?_) ?_
  · intro m n hm hk hn xs ys
    exact cons_ofNat_lt (by omega) (by omega) _ _
  · intro m n hm hk hn xs ys
    split_ifs <;> exact cons_ofNat_lt (by omega) (by omega) _ _
  · intro m n hm hk hn xs ys
    split_ifs <;> exact cons_ofNat_lt (by omega) (by omega) _ _

lemma encode_append_lt {c d : Char} (h : c < d) (xs ys : List UInt8) :
    String.utf8EncodeChar c ++ xs < String.utf8EncodeChar d ++ ys := by
  have hd : d.val.toNat < 0x110000 := by
    rcases d.valid with hd | ⟨-, hd⟩
    · exact hd.trans (by decide)
    · exact hd
  rw [utf8EncodeChar_eq, utf8EncodeChar_eq]
  exact ordered_encode _ _ h hd xs ys

lemma flatMap_encode_lt {cs ds : List Char} (h : cs < ds) :
    cs.flatMap String.utf8EncodeChar < ds.flatMap String.utf8EncodeChar := by
  induction cs generalizing ds with
  | nil =>
    cases ds with
    | nil => exact (List.lt_irrefl [] h).elim
    | cons d ds =>
      obtain ⟨b, bs, hb⟩ := List.exists_cons_of_ne_nil (@String.utf8EncodeChar_ne_nil d)
      rw [List.flatMap_cons, hb]
      exact List.nil_lt_cons b _
  | cons c cs ih =>
    cases ds with
    | nil => exact (List.not_lt_nil _ h).elim
    | cons d ds =>
      rw [List.flatMap_cons, List.flatMap_cons]
      obtain hcd | ⟨rfl, hcs⟩ := List.cons_lt_cons_iff.mp h
      · exact encode_append_lt hcd _ _
      · exact List.append_left_lt (ih hcs)

theorem bytes_lt_iff {s t : String} : bytes s < bytes t ↔ s < t := by
  have hmono : ∀ {s t : String}, s < t → bytes s < bytes t := by
    intro s t h
    rw [bytes_eq_flatMap, bytes_eq_flatMap]
    exact flatMap_encode_lt (String.lt_iff.mp h)
  refine ⟨fun h => ?_, hmono⟩
  obtain hst | rfl | hts := lt_trichotomy s t
  · exact hst
  · exact (List.lt_irrefl _ h).elim
  · exact (List.lt_asymm h (hmono hts)).elim

lemma bytes_ordered {α : Type} (m : Std.ExtTreeMap String α) :
    m.toList.Pairwise fun a b => bytes a.1 < bytes b.1 := by
  refine Std.ExtTreeMap.ordered_keys_toList.imp fun h => ?_
  exact bytes_lt_iff.mpr (compareOfLessAndEq_eq_lt.mp h)

end RegAsm.Text
