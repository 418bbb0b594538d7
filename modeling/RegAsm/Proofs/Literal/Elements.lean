import Mathlib.Data.List.Chain
import Mathlib.Data.Nat.Digits.Defs
import RegAsm.Literal
import RegAsm.Proofs.Fallible

/-! What stands between the quotes of a literal, element by element, and what is made of it. -/

namespace RegAsm.Literal

open Text Fallible

inductive Element where
  | verbatim (c : Char)
  | simple (letter : Char)
  | byte (high low : Char)
  | scalar (digits : List Char)
  | continuation (blanks : List Char)
deriving DecidableEq, Repr

def simpleEscapes : List (Char × Char) :=
  [('n', '\n'), ('r', '\r'), ('t', '\t'), ('0', '\x00'), ('\\', '\\'), ('"', '"'),
    ('\x27', '\x27')]

def isIndent (c : Char) : Bool :=
  c == ' ' || c == '\t' || c == '\n' || c == '\r'

namespace Element

def text : Element → List Char
  | verbatim c => [c]
  | simple letter => ['\\', letter]
  | byte high low => ['\\', 'x', high, low]
  | scalar digits => '\\' :: 'u' :: '\x7b' :: (digits ++ ['\x7d'])
  | continuation blanks => '\\' :: '\n' :: blanks

/-- The characters that an element stands for in the host language, if it is one of its elements. A
carriage return as it is counts as one here, although the host language has none in literals. -/
def value? : Element → Option (List Char)
  | verbatim c => if c = '\\' ∨ c = '"' then none else some [c]
  | simple letter => (simpleEscapes.lookup letter).map ([·])
  | byte high low => do
    let m ← hexValue? high
    let n ← hexValue? low
    if m * 16 + n ≤ 0x7F then some [Char.ofNat (m * 16 + n)] else none
  | scalar digits =>
    if digits.head? = some '_' then none
    else do
      let ns ← (digits.filter (· != '_')).mapM hexValue?
      if ns = [] ∨ 6 < ns.length then none
      else (scalar? (Nat.ofDigits 16 ns.reverse)).map ([·])
  | continuation blanks => if blanks.all isIndent then some [] else none

def isContinuation : Element → Bool
  | continuation _ => true
  | _ => false

def isSkipped (skipped : Char → Bool) : Element → Bool
  | verbatim c => skipped c
  | _ => false

def MayFollow (skipped : Char → Bool) (e f : Element) : Prop :=
  e.isContinuation = true → f.isSkipped skipped = false

instance (skipped : Char → Bool) : DecidableRel (MayFollow skipped) := fun e f =>
  inferInstanceAs (Decidable (e.isContinuation = true → f.isSkipped skipped = false))

end Element

def textOf (es : List Element) : List Char :=
  es.flatMap Element.text

def valueOf? (es : List Element) : Option (List Char) :=
  (es.mapM Element.value?).map List.flatten

section Escapes

variable {c d : Char} {cs ds rest : List Char} {n : Nat} {ns : List Nat}

lemma simpleEscape?_of_lookup (h : simpleEscapes.lookup c = some d) : simpleEscape? c = some d := by
  have hall : ∀ e ∈ simpleEscapes, simpleEscape? e.1 = some e.2 := by decide
  obtain ⟨before, after, he, -⟩ := List.lookup_eq_some_iff.mp h
  exact hall (c, d) (he ▸ List.mem_append_right before List.mem_cons_self)

lemma mapM_hexValue? (h : cs.mapM hexValue? = some ns) :
    ns.length = cs.length ∧ ∀ c ∈ cs, (hexValue? c).isSome := by
  induction cs generalizing ns with
  | nil =>
    cases h
    simp
  | cons c cs ih =>
    rw [List.mapM_cons] at h
    obtain ⟨m, hm, h⟩ := Option.bind_eq_some_iff.mp h
    obtain ⟨ms, hms, h⟩ := Option.bind_eq_some_iff.mp h
    cases h
    simpa [hm] using ih hms

lemma foldl_hexValue? (h : cs.mapM hexValue? = some ns) (n : Nat) :
    cs.foldl (fun n c => do return (← n) * 16 + (← hexValue? c)) (some n) =
      some (ns.foldl (fun n d => n * 16 + d) n) := by
  induction cs generalizing ns n with
  | nil =>
    cases h
    rfl
  | cons c cs ih =>
    rw [List.mapM_cons] at h
    obtain ⟨m, hm, h⟩ := Option.bind_eq_some_iff.mp h
    obtain ⟨ms, hms, h⟩ := Option.bind_eq_some_iff.mp h
    cases h
    simpa [hm] using ih hms (n * 16 + m)

lemma hexNumber?_eq (h : cs.mapM hexValue? = some ns) (hne : cs ≠ []) :
    hexNumber? cs = some (Nat.ofDigits 16 ns.reverse) := by
  have hfold : Nat.ofDigits 16 ns.reverse = ns.foldl (fun n d => n * 16 + d) 0 := by
    rw [Nat.ofDigits_eq_foldr, List.foldr_reverse]
    congr 1
    funext n d
    rw [Nat.cast_id, Nat.add_comm, Nat.mul_comm]
  rw [hexNumber?, if_neg (by simpa using hne), foldl_hexValue? h, hfold]

lemma scalarDigits_append (hd : ∀ c ∈ ds, c ≠ '_' → (hexValue? c).isSome)
    (hfirst : cs = [] → ds.head? ≠ some '_') (hlen : (cs ++ ds.filter (· != '_')).length ≤ 6) :
    scalarDigits cs (ds ++ '\x7d' :: rest) = .ok (cs ++ ds.filter (· != '_'), rest) := by
  induction ds generalizing cs with
  | nil => simp [scalarDigits]
  | cons d ds ih =>
    obtain ⟨hd, hds⟩ := List.forall_mem_cons.mp hd
    by_cases hu : d = '_'
    · subst hu
      have hne : cs ≠ [] := fun he => hfirst he rfl
      have hi := ih hds (fun he => (hne he).elim) (by simpa using hlen)
      simpa [scalarDigits, hne] using hi
    · have hbrace : d ≠ '\x7d' := by
        rintro rfl
        cases hd hu
      have hmore : cs.length < 6 := by
        simp [hu] at hlen
        omega
      have hi : scalarDigits (cs ++ [d]) (ds ++ '\x7d' :: rest) = _ :=
        ih hds (by simp) (by simpa [hu] using hlen)
      simpa [scalarDigits, hbrace, hu, hd hu, hmore] using hi

lemma byteScalar?_eq {a b : Char} {m n : Nat} (ha : hexValue? a = some m)
    (hb : hexValue? b = some n) (hle : m * 16 + n ≤ 0x7F) :
    byteScalar? [a, b] = some (Char.ofNat (m * 16 + n)) := by
  have hplus : a ≠ '+' := by
    rintro rfl
    cases ha
  have hv : (m * 16 + n).isValidChar := .inl (by omega)
  simp [byteScalar?, hplus, hexNumber?, ha, hb, hle, scalar?, hv]

lemma scalarEscape_of_value? {digits : List Char} (h : (Element.scalar digits).value? = some ds)
    (rest : List Char) :
    ∃ c, ds = [c] ∧ scalarEscape ('\x7b' :: (digits ++ '\x7d' :: rest)) = .ok (c, rest) := by
  simp only [Element.value?] at h
  split_ifs at h with hfirst
  obtain ⟨ns, hns, h⟩ := Option.bind_eq_some_iff.mp h
  split_ifs at h with hlen
  obtain ⟨c, hc, rfl⟩ := Option.map_eq_some_iff.mp h
  obtain ⟨hne, hle⟩ := not_or.mp hlen
  obtain ⟨hl, hdigit⟩ := mapM_hexValue? hns
  have hd : ∀ c ∈ digits, c ≠ '_' → (hexValue? c).isSome := fun c hc hu =>
    hdigit c (List.mem_filter.mpr ⟨hc, by simpa using hu⟩)
  have hread : scalarDigits [] (digits ++ '\x7d' :: rest) = .ok (digits.filter (· != '_'), rest) :=
    scalarDigits_append hd (fun _ => hfirst) (by rw [List.nil_append, ← hl]; omega)
  have hfilter : digits.filter (· != '_') ≠ [] := by
    intro he
    rw [he] at hl
    exact hne (List.eq_nil_of_length_eq_zero hl)
  refine ⟨c, rfl, bind_eq_ok_iff.mpr ⟨_, hread, ?_⟩⟩
  simp [hexNumber?_eq hns hfilter, hc]

lemma escape_of_value? {e : Element} (h : e.value? = some ds) (hv : ∀ c, e ≠ .verbatim c)
    (hc : ∀ blanks, e ≠ .continuation blanks) (rest : List Char) :
    ∃ cs, e.text = '\\' :: cs ∧ escape (cs ++ rest) = .ok (ds, rest) := by
  cases e with
  | verbatim c => exact (hv c rfl).elim
  | continuation blanks => exact (hc blanks rfl).elim
  | simple letter =>
    obtain ⟨d, hd, rfl⟩ := Option.map_eq_some_iff.mp h
    refine ⟨[letter], rfl, ?_⟩
    simp [escape, simpleEscape?_of_lookup hd]
  | byte high low =>
    obtain ⟨m, hm, h⟩ := Option.bind_eq_some_iff.mp h
    obtain ⟨n, hn, h⟩ := Option.bind_eq_some_iff.mp h
    split_ifs at h with hle
    cases h
    refine ⟨['x', high, low], rfl, ?_⟩
    have hx : simpleEscape? 'x' = none := by decide
    simp [escape, hx, byteScalar?_eq hm hn hle]
  | scalar digits =>
    obtain ⟨c, rfl, he⟩ := scalarEscape_of_value? h rest
    refine ⟨'u' :: '\x7b' :: (digits ++ ['\x7d']), rfl, ?_⟩
    have hu : simpleEscape? 'u' = none := by decide
    simp [escape, hu, he, Except.map]

end Escapes

section Bodies

variable {e : Element} {es : List Element} {c : Char} {cs ds rest out : List Char}

lemma valueOf?_cons_eq_some_iff :
    valueOf? (e :: es) = some cs ↔
      ∃ ds rest, e.value? = some ds ∧ valueOf? es = some rest ∧ cs = ds ++ rest := by
  simp only [valueOf?, List.mapM_cons]
  cases e.value? with
  | none => simp
  | some ds => cases es.mapM Element.value? <;> simp [eq_comm]

def remaining (skipping : Bool) (cs : List Char) : List Char :=
  if skipping then cs.dropWhile isBlank else cs

/-- The elements that are left when the end of a line takes away all blanks after it; `skipping`
holds right after the end of a line. -/
def kept (skipping : Bool) : List Element → List Element
  | [] => []
  | e :: es =>
    if skipping && e.isSkipped isBlank then kept true es else e :: kept e.isContinuation es

lemma decodeBody_nil : decodeBody [] = .ok [] := by
  rw [decodeBody]

lemma decodeBody_verbatim (h : c ≠ '\\') (cs : List Char) :
    decodeBody (c :: cs) = (decodeBody cs).map (c :: ·) := by
  rw [decodeBody, if_neg h]

lemma decodeBody_escape (h : escape cs = .ok (ds, rest)) :
    decodeBody ('\\' :: cs) = (decodeBody rest).map (ds ++ ·) := by
  rw [decodeBody, if_pos rfl]
  split
  · rename_i he
    cases h.symm.trans he
  · rename_i he
    cases h.symm.trans he
    rfl

lemma isBlank_of_isIndent (h : isIndent c = true) : isBlank c = true := by
  simp only [isIndent, Bool.or_eq_true, beq_iff_eq] at h
  rcases h with ((rfl | rfl) | rfl) | rfl <;> decide

lemma decodeBody_element (h : e.value? = some ds) (rest : List Char) :
    decodeBody (e.text ++ rest) =
      (decodeBody (remaining e.isContinuation rest)).map (ds ++ ·) := by
  cases e with
  | verbatim c =>
    simp only [Element.value?] at h
    split_ifs at h with hc
    cases h
    exact decodeBody_verbatim (not_or.mp hc).1 rest
  | continuation blanks =>
    simp only [Element.value?] at h
    split_ifs at h with hb
    cases h
    have hskip : ∀ c ∈ blanks, isBlank c = true := fun c hc =>
      isBlank_of_isIndent (List.all_eq_true.mp hb c hc)
    have he : escape ('\n' :: (blanks ++ rest)) = .ok ([], rest.dropWhile isBlank) := by
      have hn : simpleEscape? '\n' = none := by decide
      simp [escape, hn, List.dropWhile_append_of_pos hskip]
    exact decodeBody_escape he
  | simple | byte | scalar =>
    obtain ⟨cs, ht, he⟩ := escape_of_value? h (by simp) (by simp) rest
    rw [ht]
    exact decodeBody_escape he

lemma remaining_verbatim (h : isBlank c = true) (cs : List Char) :
    remaining true (c :: cs) = remaining true cs :=
  List.dropWhile_cons_of_pos h

lemma remaining_of_head (h : ∀ c ∈ cs.head?, isBlank c = false) (skipping : Bool) :
    remaining skipping cs = cs := by
  cases skipping with
  | false => rfl
  | true =>
    cases cs with
    | nil => rfl
    | cons c cs => exact List.dropWhile_cons_of_neg (by simp [h c rfl])

lemma remaining_element {skipping : Bool} (h : (skipping && e.isSkipped isBlank) = false)
    (rest : List Char) : remaining skipping (e.text ++ rest) = e.text ++ rest := by
  cases skipping with
  | false => rfl
  | true =>
    apply remaining_of_head
    cases e with
    | verbatim c => simpa [Element.text, Element.isSkipped] using h
    | simple | byte | scalar | continuation =>
      rintro c ⟨⟩
      decide

lemma exists_verbatim_of_isSkipped {skipped : Char → Bool} (h : e.isSkipped skipped = true) :
    ∃ c, e = .verbatim c ∧ skipped c = true := by
  cases e with
  | verbatim c => exact ⟨c, rfl, h⟩
  | simple | byte | scalar | continuation => cases h

lemma value?_verbatim (h : (Element.verbatim c).value? = some ds) : ds = [c] := by
  simp only [Element.value?] at h
  split_ifs at h
  exact (Option.some.inj h).symm

lemma decodeBody_remaining (h : valueOf? es = some cs) (skipping : Bool) :
    ∃ out, decodeBody (remaining skipping (textOf es)) = .ok out ∧
      valueOf? (kept skipping es) = some out := by
  induction es generalizing cs skipping with
  | nil => exact ⟨[], by cases skipping <;> exact decodeBody_nil, rfl⟩
  | cons e es ih =>
    obtain ⟨ds, rest, he, hes, rfl⟩ := valueOf?_cons_eq_some_iff.mp h
    rw [kept]
    split_ifs with hskip
    · -- the blank goes with those of the end of the line before it
      obtain ⟨rfl, hblank⟩ := Bool.and_eq_true_iff.mp hskip
      obtain ⟨c, rfl, hc⟩ := exists_verbatim_of_isSkipped hblank
      obtain ⟨out, hout, hvalue⟩ := ih hes true
      exact ⟨out, (congrArg decodeBody (remaining_verbatim hc (textOf es))).trans hout, hvalue⟩
    · obtain ⟨out, hout, hvalue⟩ := ih hes e.isContinuation
      refine ⟨ds ++ out, ?_, valueOf?_cons_eq_some_iff.mpr ⟨ds, out, he, hvalue, rfl⟩⟩
      calc decodeBody (remaining skipping (e.text ++ textOf es))
          = decodeBody (e.text ++ textOf es) := by
            rw [remaining_element (Bool.eq_false_iff.mpr hskip)]
        _ = .ok (ds ++ out) := by
            rw [decodeBody_element he, hout]
            rfl

lemma kept_sublist (skipping : Bool) (es : List Element) : (kept skipping es).Sublist es := by
  induction es generalizing skipping with
  | nil => exact .slnil
  | cons e es ih =>
    rw [kept]
    split_ifs
    · exact (ih true).cons e
    · exact (ih e.isContinuation).cons_cons e

lemma valueOf?_kept {skipping : Bool} (h : valueOf? es = some cs)
    (hk : valueOf? (kept skipping es) = some out) :
    out.Sublist cs ∧ cs.length + (kept skipping es).length = out.length + es.length := by
  induction es generalizing cs out skipping with
  | nil =>
    cases h
    cases hk
    exact ⟨.slnil, rfl⟩
  | cons e es ih =>
    obtain ⟨ds, rest, he, hes, rfl⟩ := valueOf?_cons_eq_some_iff.mp h
    rw [kept] at hk ⊢
    split_ifs at hk ⊢ with hskip
    · -- an element that is not kept takes its one character along
      obtain ⟨c, rfl, -⟩ := exists_verbatim_of_isSkipped (Bool.and_eq_true_iff.mp hskip).2
      obtain ⟨hsub, hlen⟩ := ih hes hk
      rw [value?_verbatim he]
      exact ⟨hsub.cons c, by simp; omega⟩
    · obtain ⟨ds', out, he', hout, rfl⟩ := valueOf?_cons_eq_some_iff.mp hk
      cases he.symm.trans he'
      obtain ⟨hsub, hlen⟩ := ih hes hout
      exact ⟨hsub.append_left ds, by simp; omega⟩

lemma kept_eq_self_iff {skipping : Bool} :
    kept skipping es = es ↔
      es.IsChain (Element.MayFollow isBlank) ∧
        ∀ e ∈ es.head?, skipping = true → e.isSkipped isBlank = false := by
  induction es generalizing skipping with
  | nil => simp [kept]
  | cons e es ih =>
    rw [kept]
    split_ifs with hskip
    · have hshort := (kept_sublist true es).length_le
      refine iff_of_false (fun he => ?_) (fun ⟨_, hhead⟩ => ?_)
      · have := congrArg List.length he
        simp at this
        omega
      · obtain ⟨hs, hblank⟩ := Bool.and_eq_true_iff.mp hskip
        exact absurd hblank (by simp [hhead e rfl hs])
    · have hfirst : ∀ f ∈ (e :: es).head?, skipping = true → f.isSkipped isBlank = false := by
        rintro f ⟨⟩ rfl
        simpa using hskip
      rw [List.cons_inj_right, ih, List.isChain_cons, and_iff_left hfirst, and_comm]
      rfl

/-- A body of elements is decoded to their value, less the blanks that stand as they are after the
end of a line; so it has its value exactly if no such blank does. -/
theorem decodeBody_eq_value_iff (h : valueOf? es = some cs) :
    (∃ out, decodeBody (textOf es) = .ok out ∧ valueOf? (kept false es) = some out ∧
      out.Sublist cs) ∧
    (decodeBody (textOf es) = .ok cs ↔ es.IsChain (Element.MayFollow isBlank)) := by
  obtain ⟨out, hout, hkept⟩ := decodeBody_remaining h false
  obtain ⟨hsub, hlen⟩ := valueOf?_kept h hkept
  refine ⟨⟨out, hout, hkept, hsub⟩, ?_⟩
  have hvalue : decodeBody (textOf es) = .ok cs ↔ kept false es = es := by
    constructor
    · intro hcs
      cases hout.symm.trans hcs
      exact (kept_sublist false es).eq_of_length (by omega)
    · intro he
      rw [he] at hkept
      cases h.symm.trans hkept
      exact hout
  simp [hvalue, kept_eq_self_iff]

def mixedElements : List Element :=
  [.verbatim 'é', .simple '"', .verbatim ' ', .byte '7' 'f', .continuation [' ', '\n', '\t'],
    .continuation [], .scalar ['1', '_', 'F', '6', '0', '0', '_'], .verbatim '\u00a0']

theorem mixedElements_decoded :
    valueOf? mixedElements = some ['é', '"', ' ', '\x7f', '😀', '\u00a0'] ∧
      decodeBody (textOf mixedElements) = .ok ['é', '"', ' ', '\x7f', '😀', '\u00a0'] :=
  ⟨by decide, (decodeBody_eq_value_iff (by decide)).2.mpr (by decide)⟩

/-- The end of a line takes away a blank that the host language keeps. -/
theorem continuation_takes_wide_blank :
    let es : List Element := [.continuation [], .verbatim '\u00a0', .verbatim 'x']
    es.IsChain (Element.MayFollow isIndent) ∧ textOf es = ['\\', '\n', '\u00a0', 'x'] ∧
      valueOf? es = some ['\u00a0', 'x'] ∧ decodeBody (textOf es) = .ok ['x'] := by
  intro es
  have hvalue : valueOf? es = some ['\u00a0', 'x'] := by decide
  have hkept : valueOf? (kept false es) = some ['x'] := by decide
  refine ⟨by decide, by decide, hvalue, ?_⟩
  obtain ⟨out, hout, hout'⟩ := decodeBody_remaining hvalue false
  cases hkept.symm.trans hout'
  exact hout

end Bodies

end RegAsm.Literal
