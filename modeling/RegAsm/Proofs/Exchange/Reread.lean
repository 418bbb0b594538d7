import Mathlib.Data.List.Basic
import RegAsm.Json.Reader

/-! Every JSON value can be read again from its text. -/

namespace RegAsm.Json

@[elab_as_elim]
lemma ind {P : Json → Prop} (null : P .null) (bool : ∀ b, P (.bool b)) (int : ∀ n, P (.int n))
    (fraction : P .fraction) (text : ∀ content, P (.text content))
    (array : ∀ items, (∀ j ∈ items, P j) → P (.array items))
    (object : ∀ members, (∀ m ∈ members, P m.2) → P (.object members)) (j : Json) : P j :=
  @Json.rec P (fun items => ∀ j ∈ items, P j) (fun members => ∀ m ∈ members, P m.2)
    (fun m => P m.2) null bool int fraction text array object (List.forall_mem_nil _)
    (fun _ _ hj hs => List.forall_mem_cons.mpr ⟨hj, hs⟩) (List.forall_mem_nil _)
    (fun _ _ hm hs => List.forall_mem_cons.mpr ⟨hm, hs⟩) (fun _ _ hj => hj) j

section Texts

inductive TextUnit.Denotes : TextUnit → Char → Prop
  | char (c : Char) : Denotes (.char c) c
  | code (c : Char) : Denotes (.code c.toNat) c

variable {u : TextUnit} {c : Char} {cs rest : List Char}

lemma isHighSurrogate_toNat (c : Char) : isHighSurrogate c.toNat = false := by
  have hv : c.toNat.isValidChar := c.valid
  simp only [isHighSurrogate, Bool.and_eq_false_iff, decide_eq_false_iff_not]
  unfold Nat.isValidChar at hv
  omega

lemma joinUnits_cons (h : u.Denotes c) (us : List TextUnit) :
    joinUnits (u :: us) = (joinUnits us).map (c :: ·) := by
  cases h with
  | char => cases h : joinUnits us <;> simp [joinUnits, h]
  | code =>
    cases us with
    | nil => simp [joinUnits, Text.scalar?_toNat]
    | cons v us =>
      cases v with
      | char d => cases h : joinUnits us <;> simp [joinUnits, Text.scalar?_toNat, h]
      | code m =>
        simp only [joinUnits, isHighSurrogate_toNat, Text.scalar?_toNat]
        cases joinUnits (.code m :: us) <;> rfl

def consUnit (u : TextUnit) (r : Option (List TextUnit × List Char)) :
    Option (List TextUnit × List Char) :=
  r.map (Prod.map (u :: ·) id)

lemma readUnits_short {d : Char} (h : unescape? c = some d) (cs : List Char) :
    readUnits ('\\' :: c :: cs) = consUnit (.char d) (readUnits cs) := by
  have hu : c ≠ 'u' := by
    rintro rfl
    cases h
  rw [readUnits]
  · rw [h, consUnit]
    cases readUnits cs <;> rfl
  · rintro _ _ _ _ _ rfl
    contradiction

lemma readUnits_control (h : c.toNat < 0x20) (cs : List Char) :
    readUnits (['\\', 'u', '0', '0', Text.hexDigit (c.toNat / 16),
        Text.hexDigit (c.toNat % 16)] ++ cs) =
      consUnit (.code c.toNat) (readUnits cs) := by
  have hn : code? '0' '0' (Text.hexDigit (c.toNat / 16)) (Text.hexDigit (c.toNat % 16)) =
      some c.toNat := by
    have hz : Text.hexValue? '0' = some 0 := rfl
    have hd : c.toNat / 16 * 16 + c.toNat % 16 = c.toNat := Nat.div_add_mod' _ _
    simp [code?, hz, Text.hexValue?_hexDigit _ (by omega : c.toNat / 16 < 16),
      Text.hexValue?_hexDigit _ (by omega : c.toNat % 16 < 16), hd]
  simp only [List.cons_append, List.nil_append, readUnits, hn, consUnit]
  cases readUnits cs <;> rfl

lemma readUnits_verbatim (hq : c ≠ '"') (hb : c ≠ '\\') (hc : ¬ c.toNat < 0x20) (cs : List Char) :
    readUnits (c :: cs) = consUnit (.char c) (readUnits cs) := by
  rw [readUnits]
  · rw [if_neg (by simp [hb, hc]), consUnit]
    cases readUnits cs <;> rfl
  · exact hq
  · exact fun _ _ _ _ _ hc _ => hb hc
  · exact fun _ _ hc _ => hb hc

lemma readUnits_escape (c : Char) (cs : List Char) :
    ∃ u : TextUnit, u.Denotes c ∧ readUnits (escape c ++ cs) = consUnit u (readUnits cs) := by
  rw [escape]
  split_ifs with h1 h2 h3 h4 h5 h6 h7 h8
  case neg => exact ⟨_, .char c, readUnits_verbatim h1 h2 h8 cs⟩
  on_goal 8 => exact ⟨_, .code c, readUnits_control h8 cs⟩
  -- the others have a letter of their own
  all_goals
    subst_vars
    exact ⟨_, .char _, readUnits_short rfl cs⟩

lemma exists_units (cs rest : List Char) :
    ∃ us, readUnits (cs.flatMap escape ++ '"' :: rest) = some (us, rest) ∧
      joinUnits us = some cs := by
  induction cs with
  | nil => exact ⟨[], rfl, rfl⟩
  | cons c cs ih =>
    obtain ⟨us, hr, hj⟩ := ih
    obtain ⟨u, hu, he⟩ := readUnits_escape c (cs.flatMap escape ++ '"' :: rest)
    refine ⟨u :: us, ?_, ?_⟩
    · rw [List.flatMap_cons, List.append_assoc, he, hr]
      rfl
    · rw [joinUnits_cons hu, hj]
      rfl

lemma writeText_some (s : String) :
    writeText (some s) = '"' :: (s.toList.flatMap escape ++ ['"']) := rfl

lemma exists_writeText (content : Option String) (rest : List Char) :
    ∃ cs, writeText content ++ rest = '"' :: cs ∧ readText cs = some (content, rest) := by
  cases content with
  | none =>
    refine ⟨'\\' :: 'u' :: 'd' :: '8' :: '0' :: '0' :: '"' :: rest, rfl, ?_⟩
    have hc : code? 'd' '8' '0' '0' = some 0xD800 := by decide
    have hj : joinUnits [.code 0xD800] = none := by decide
    simp [readText, readUnits, hc, hj]
  | some s =>
    obtain ⟨us, hr, hj⟩ := exists_units s.toList rest
    refine ⟨s.toList.flatMap escape ++ '"' :: rest, ?_, ?_⟩
    · rw [writeText_some, List.cons_append, List.append_assoc, List.singleton_append]
    · simp [readText, hr, hj]

end Texts

def Closed (rest : List Char) : Prop :=
  ∀ c ∈ rest.head?, c = ',' ∨ c = ']' ∨ c = '\x7d'

lemma closed_cons {c : Char} (h : c = ',' ∨ c = ']' ∨ c = '\x7d') (rest : List Char) :
    Closed (c :: rest) := by
  rintro d ⟨⟩
  exact h

section Numbers

variable {c : Char} {ds rest : List Char} {n : Nat}

lemma readDigits_append (hne : ds ≠ []) (hd : ∀ c ∈ ds, c.isDigit = true)
    (hr : ∀ c ∈ rest.head?, c.isDigit = false) : readDigits (ds ++ rest) = some (ds, rest) := by
  have htake : (ds ++ rest).takeWhile Char.isDigit = ds := by
    rw [List.takeWhile_append_of_pos hd]
    cases rest with
    | nil => simp
    | cons c rest => simp [hr c rfl]
  have hdrop : (ds ++ rest).dropWhile Char.isDigit = rest := by
    rw [List.dropWhile_append_of_pos hd]
    cases rest with
    | nil => rfl
    | cons c rest => simp [hr c rfl]
  simp [readDigits, htake, hdrop, hne]

lemma Closed.isDigit (hr : Closed rest) : ∀ c ∈ rest.head?, c.isDigit = false := by
  intro c hc
  obtain rfl | rfl | rfl := hr c hc <;> rfl

lemma readFraction_closed (hr : Closed rest) : readFraction rest = some (false, rest) := by
  cases rest with
  | nil => rfl
  | cons c rest => obtain rfl | rfl | rfl := hr c rfl <;> rfl

lemma readExponent_closed (hr : Closed rest) : readExponent rest = some (false, rest) := by
  cases rest with
  | nil => rfl
  | cons c rest => obtain rfl | rfl | rfl := hr c rfl <;> rfl

lemma head?_toDigits (hn : 0 < n) : (Nat.toDigits 10 n).head? ≠ some '0' := by
  have hdigit : ∀ d < 10, 0 < d → [d.digitChar].head? ≠ some '0' := by decide
  induction n using Nat.strongRecOn with
  | ind n ih =>
    by_cases hlt : n < 10
    · rw [Nat.toDigits_of_lt_base hlt]
      exact hdigit n hlt hn
    · rw [Nat.toDigits_of_base_le (by decide) (by omega),
        List.head?_append_of_ne_nil _ Nat.toDigits_ne_nil]
      exact ih (n / 10) (by omega) (by omega)

lemma readMagnitude_toDigits {negative : Bool} (hn : negative = true → 0 < n) (hr : Closed rest) :
    readMagnitude negative (Nat.toDigits 10 n ++ rest) =
      some (.int (if negative then -n else n), rest) := by
  have hd : ∀ c ∈ Nat.toDigits 10 n, c.isDigit = true :=
    fun c hc => Nat.isDigit_of_mem_toDigits (by decide) (by decide) hc
  have hz : ¬ ((Nat.toDigits 10 n).head? = some '0' ∧ (Nat.toDigits 10 n).length ≠ 1) := by
    obtain rfl | hpos := Nat.eq_zero_or_pos n
    · decide
    · exact fun h => head?_toDigits hpos h.1
  have hs : ¬ (negative = true ∧ n = 0) := fun h => by
    have := hn h.1
    omega
  rw [readMagnitude, readDigits_append Nat.toDigits_ne_nil hd hr.isDigit]
  simp [hz, hs, readFraction_closed hr, readExponent_closed hr, Nat.ofDigitChars_ten_toDigits]

lemma ne_of_isDigit (h : c.isDigit = true) {d : Char} (hd : d.isDigit = false) : c ≠ d := by
  rintro rfl
  rw [h] at hd
  cases hd

lemma write_ofNat (n : Nat) : (int (.ofNat n)).write = Nat.toDigits 10 n :=
  String.toList_ofList

lemma write_negSucc (n : Nat) : (int (.negSucc n)).write = '-' :: Nat.toDigits 10 (n + 1) := by
  simp [write, Decimal.ofInt, Decimal.ofNat]

lemma exists_toDigits (n : Nat) :
    ∃ c cs, Nat.toDigits 10 n = c :: cs ∧ c.isDigit = true := by
  obtain ⟨c, cs, hcs⟩ := List.exists_cons_of_ne_nil (Nat.toDigits_ne_nil : Nat.toDigits 10 n ≠ [])
  refine ⟨c, cs, hcs, ?_⟩
  apply Nat.isDigit_of_mem_toDigits (b := 10) (n := n) (by decide) (by decide)
  rw [hcs]
  exact List.mem_cons_self

lemma readNumber_write (n : Int) (hr : Closed rest) :
    readNumber ((int n).write ++ rest) = some (.int n, rest) := by
  cases n with
  | ofNat n =>
    have hm : readMagnitude false (Nat.toDigits 10 n ++ rest) = some (.int n, rest) :=
      readMagnitude_toDigits (by simp) hr
    obtain ⟨c, cs, hcs, hc⟩ := exists_toDigits n
    rw [write_ofNat, hcs, List.cons_append, readNumber]
    · rwa [hcs] at hm
    · intro _ he
      exact ne_of_isDigit hc rfl (List.cons.inj he).1
  | negSucc n =>
    rw [write_negSucc]
    exact readMagnitude_toDigits (fun _ => Nat.succ_pos n) hr

lemma readNumber_fraction (hr : Closed rest) :
    readNumber (fraction.write ++ rest) = some (.fraction, rest) := by
  have hd : readDigits ('0' :: '.' :: '5' :: rest) = some (['0'], '.' :: '5' :: rest) := rfl
  have hf : readDigits (['5'] ++ rest) = some (['5'], rest) :=
    readDigits_append (by simp) (by simp) hr.isDigit
  rw [List.singleton_append] at hf
  have hw : fraction.write = ['0', '.', '5'] := rfl
  simp [hw, readNumber, readMagnitude, hd, readFraction, hf, readExponent_closed hr]

lemma exists_write_number (n : Int) :
    ∃ c cs, (int n).write = c :: cs ∧ (c = '-' ∨ c.isDigit = true) := by
  cases n with
  | ofNat n =>
    obtain ⟨c, cs, hcs, hc⟩ := exists_toDigits n
    exact ⟨c, cs, (write_ofNat n).trans hcs, .inr hc⟩
  | negSucc n => exact ⟨'-', _, write_negSucc n, .inl rfl⟩

end Numbers

section Values

variable {c : Char} {cs rest : List Char} {n : Nat} {j : Json}

lemma skip_cons (h : isSpace c = false) (cs : List Char) : skip (c :: cs) = c :: cs :=
  List.dropWhile_cons_of_neg (by simp [h])

lemma isSpace_of_number (h : c = '-' ∨ c.isDigit = true) : isSpace c = false := by
  simp only [isSpace, Bool.or_eq_false_iff, beq_eq_false_iff_ne]
  obtain rfl | h := h
  · decide
  · exact ⟨⟨⟨ne_of_isDigit h rfl, ne_of_isDigit h rfl⟩, ne_of_isDigit h rfl⟩, ne_of_isDigit h rfl⟩

lemma readValue_number (h : c = '-' ∨ c.isDigit = true) (n : Nat) (cs : List Char) :
    readValue (n + 1) (c :: cs) = readNumber (c :: cs) := by
  have hne : ∀ d : Char, d ≠ '-' → d.isDigit = false → c ≠ d := by
    rintro d hd hdd rfl
    exact h.elim hd fun hc => ne_of_isDigit hc hdd rfl
  rw [readValue, skip_cons (isSpace_of_number h)]
  split
  case h_7 => rfl
  all_goals
    rename_i he
    exact (hne _ (by decide) rfl (List.cons.inj he).1).elim

lemma exists_write (j : Json) : ∃ c cs, j.write = c :: cs ∧ isSpace c = false ∧ c ≠ ']' := by
  cases j with
  | null => exact ⟨'n', _, rfl, by decide⟩
  | bool b => cases b <;> exact ⟨_, _, rfl, by decide⟩
  | int n =>
    obtain ⟨c, cs, hw, hc⟩ := exists_write_number n
    refine ⟨c, cs, hw, isSpace_of_number hc, ?_⟩
    rintro rfl
    revert hc
    decide
  | fraction => exact ⟨'0', _, rfl, by decide⟩
  | text content =>
    obtain ⟨cs, hw, -⟩ := exists_writeText content []
    exact ⟨'"', cs, (List.append_nil _).symm.trans hw, by decide⟩
  | array items => cases items <;> exact ⟨'[', _, rfl, by decide⟩
  | object members => cases members <;> exact ⟨'\x7b', _, rfl, by decide⟩

lemma closed_writeItems (items : List Json) (rest : List Char) :
    Closed (writeItems items ++ rest) := by
  cases items with
  | nil => exact closed_cons (.inr (.inl rfl)) rest
  | cons item items => exact closed_cons (.inl rfl) _

lemma closed_writeMembers (members : List (Option String × Json)) (rest : List Char) :
    Closed (writeMembers members ++ rest) := by
  cases members with
  | nil => exact closed_cons (.inr (.inr rfl)) rest
  | cons member members => exact closed_cons (.inl rfl) _

def Reread (j : Json) : Prop :=
  ∀ n rest, j.write.length ≤ n → Closed rest → readValue n (j.write ++ rest) = some (j, rest)

lemma reread_of_succ
    (h : ∀ n rest, j.write.length ≤ n + 1 → Closed rest →
      readValue (n + 1) (j.write ++ rest) = some (j, rest)) : Reread j := by
  intro n rest hn hr
  obtain ⟨c, cs, hw, -⟩ := exists_write j
  cases n with
  | zero => simp [hw] at hn
  | succ n => exact h n rest hn hr

lemma readItems_succ {item : Json} (h : Reread item) (hn : item.write.length ≤ n)
    (hr : Closed rest) :
    readItems (n + 1) (item.write ++ rest) =
      match skip rest with
      | ',' :: rest => do
        let (items, rest) ← readItems n rest
        return (item :: items, rest)
      | ']' :: rest => some ([item], rest)
      | _ => none := by
  rw [readItems, h n rest hn hr]
  rfl

lemma readItems_write {item : Json} {items : List Json} (h : ∀ j ∈ item :: items, Reread j)
    (hn : item.write.length + (writeItems items).length ≤ n) (rest : List Char) :
    readItems n (item.write ++ (writeItems items ++ rest)) = some (item :: items, rest) := by
  have hitem : Reread item := h item List.mem_cons_self
  induction items generalizing item n with
  | nil =>
    simp only [writeItems, List.length_singleton] at hn
    obtain ⟨n, rfl⟩ := Nat.exists_eq_add_one_of_ne_zero (by omega : n ≠ 0)
    rw [readItems_succ hitem (by omega) (closed_writeItems [] rest)]
    rfl
  | cons next items ih =>
    simp only [writeItems, List.length_cons, List.length_append] at hn
    obtain ⟨n, rfl⟩ := Nat.exists_eq_add_one_of_ne_zero (by omega : n ≠ 0)
    have hitems := fun j hj => h j (List.mem_cons_of_mem item hj)
    have hi := ih hitems (by omega : _ ≤ n) (hitems next List.mem_cons_self)
    rw [readItems_succ hitem (by omega) (closed_writeItems (next :: items) rest), writeItems,
      List.cons_append, skip_cons (by decide), List.append_assoc]
    simp [hi]

lemma readMembers_succ {name : Option String} {value : Json} (h : Reread value)
    (hn : value.write.length ≤ n) (hr : Closed rest) :
    readMembers (n + 1) (writeText name ++ ':' :: (value.write ++ rest)) =
      match skip rest with
      | ',' :: rest => do
        let (members, rest) ← readMembers n rest
        return ((name, value) :: members, rest)
      | '\x7d' :: rest => some ([(name, value)], rest)
      | _ => none := by
  obtain ⟨cs, hw, ht⟩ := exists_writeText name (':' :: (value.write ++ rest))
  have hc : skip (':' :: (value.write ++ rest)) = ':' :: (value.write ++ rest) :=
    skip_cons (by decide) _
  rw [hw, readMembers, skip_cons (by decide)]
  simp only [ht, Option.bind_eq_bind, Option.bind_some, hc]
  rw [h n rest hn hr]
  rfl

lemma readMembers_write {name : Option String} {value : Json}
    {members : List (Option String × Json)} (h : ∀ m ∈ (name, value) :: members, Reread m.2)
    (hn : value.write.length + (writeMembers members).length ≤ n) (rest : List Char) :
    readMembers n (writeText name ++ ':' :: (value.write ++ (writeMembers members ++ rest))) =
      some ((name, value) :: members, rest) := by
  have hvalue : Reread value := h (name, value) List.mem_cons_self
  induction members generalizing name value n with
  | nil =>
    simp only [writeMembers, List.length_singleton] at hn
    obtain ⟨n, rfl⟩ := Nat.exists_eq_add_one_of_ne_zero (by omega : n ≠ 0)
    rw [readMembers_succ hvalue (by omega) (closed_writeMembers [] rest)]
    rfl
  | cons next members ih =>
    obtain ⟨other, later⟩ := next
    simp only [writeMembers, List.length_cons, List.length_append] at hn
    obtain ⟨n, rfl⟩ := Nat.exists_eq_add_one_of_ne_zero (by omega : n ≠ 0)
    have hmembers := fun m hm => h m (List.mem_cons_of_mem (name, value) hm)
    have hi := ih hmembers (by omega : _ ≤ n) (hmembers (other, later) List.mem_cons_self)
    rw [readMembers_succ hvalue (by omega) (closed_writeMembers _ rest), writeMembers,
      List.cons_append, skip_cons (by decide)]
    simp [hi]

lemma reread_array {items : List Json} (h : ∀ j ∈ items, Reread j) : Reread (.array items) := by
  apply reread_of_succ
  intro n rest hn hr
  cases items with
  | nil => rfl
  | cons item items =>
    obtain ⟨c, cs, hw, hs, hc⟩ := exists_write item
    simp only [write, List.length_cons, List.length_append] at hn
    have hi := readItems_write h (by omega : _ ≤ n) rest
    rw [write, List.cons_append, List.append_assoc, readValue, skip_cons (by decide)]
    rw [hw, List.cons_append] at hi ⊢
    simp only [skip_cons hs]
    split
    · rename_i he
      exact (hc (List.cons.inj he).1).elim
    · rw [hi]
      rfl

lemma reread_object {members : List (Option String × Json)} (h : ∀ m ∈ members, Reread m.2) :
    Reread (.object members) := by
  apply reread_of_succ
  intro n rest hn hr
  cases members with
  | nil => rfl
  | cons member members =>
    obtain ⟨name, value⟩ := member
    simp only [write, List.length_cons, List.length_append] at hn
    have hm := readMembers_write h (by omega : _ ≤ n) rest
    obtain ⟨cs, hw, -⟩ :=
      exists_writeText name (':' :: (value.write ++ (writeMembers members ++ rest)))
    simp only [write, List.cons_append, List.append_assoc]
    rw [hw] at hm ⊢
    rw [readValue, skip_cons (by decide)]
    simp [skip_cons (by decide : isSpace '"' = false), hm]

lemma reread (j : Json) : Reread j := by
  induction j using ind with
  | null => exact reread_of_succ fun _ _ _ _ => rfl
  | bool b => exact reread_of_succ fun _ _ _ _ => by cases b <;> rfl
  | int n =>
    apply reread_of_succ
    intro k rest _ hr
    obtain ⟨c, cs, hw, hc⟩ := exists_write_number n
    have hn := readNumber_write n hr
    rw [hw, List.cons_append] at hn ⊢
    rw [readValue_number hc, hn]
  | fraction =>
    apply reread_of_succ
    intro k rest _ hr
    rw [← readNumber_fraction hr]
    exact readValue_number (.inr rfl) k _
  | text content =>
    apply reread_of_succ
    intro k rest _ hr
    obtain ⟨cs, hw, ht⟩ := exists_writeText content rest
    rw [write, hw, readValue, skip_cons (by decide)]
    simp [ht]
  | array items ih => exact reread_array ih
  | object members ih => exact reread_object ih

theorem read?_write (j : Json) : read? j.write = some j := by
  have h := reread j (2 * j.write.length + 2) [] (by omega) (by simp [Closed])
  rw [List.append_nil] at h
  rw [read?, h]
  rfl

end Values

end RegAsm.Json
