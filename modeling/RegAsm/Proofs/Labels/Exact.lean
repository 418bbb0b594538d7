import Mathlib.Tactic.IntervalCases
import RegAsm.Proofs.Labels
import RegAsm.Proofs.Text.ByteOrder

namespace RegAsm

open Fallible

namespace Statement

variable {ss : List Statement}

def Distinct (ss : List Statement) : Prop :=
  ∀ (i j : Nat) (name : String) (span place : Span),
    ss[i]? = some (.label name span) → ss[j]? = some (.label name place) → i = j

lemma nodup_declared_iff : (declared ss).Nodup ↔ Distinct ss := by
  rw [declared, List.Nodup, List.pairwise_filterMap, List.pairwise_iff_getElem]
  constructor
  · intro h i j name span place hi hj
    obtain ⟨hil, hi⟩ := List.getElem?_eq_some_iff.mp hi
    obtain ⟨hjl, hj⟩ := List.getElem?_eq_some_iff.mp hj
    by_contra hne
    obtain hlt | hlt := Nat.lt_or_gt_of_ne hne
    · exact h i j hil hjl hlt name (by simp [hi, label?]) name (by simp [hj, label?]) rfl
    · exact h j i hjl hil hlt name (by simp [hj, label?]) name (by simp [hi, label?]) rfl
  · rintro h i j hil hjl hlt name hi _ hj rfl
    obtain ⟨span, hi⟩ := label?_eq_some_iff.mp hi
    obtain ⟨place, hj⟩ := label?_eq_some_iff.mp hj
    have hij := h i j name span place (List.getElem?_eq_some_iff.mpr ⟨hil, hi⟩)
      (List.getElem?_eq_some_iff.mpr ⟨hjl, hj⟩)
    omega

/-- Statement `i` is the first to declare a label that another one before it declares, and `first` is
where that label is first declared. -/
structure FirstRepeat (ss : List Statement) (i : Nat) (name : String) (span first : Span) :
    Prop where
  declared : ss[i]? = some (.label name span)
  original : ∃ k < i, ss[k]? = some (.label name first) ∧
    ∀ j < k, ∀ place, ss[j]? ≠ some (.label name place)
  earliest : ∀ j < i, ∀ other place, ss[j]? = some (.label other place) →
    ∀ k < j, ∀ place, ss[k]? ≠ some (.label other place)

namespace FirstRepeat

variable {i j : Nat} {name other : String} {span place first second : Span}

lemma not_distinct (h : FirstRepeat ss i name span first) : ¬ Distinct ss := by
  obtain ⟨k, hk, hf, -⟩ := h.original
  intro hd
  have := hd i k name span first h.declared hf
  omega

lemma index_le (h : FirstRepeat ss i name span first) (h' : FirstRepeat ss j other place second) :
    i ≤ j := by
  by_contra hlt
  obtain ⟨k, hk, hf, -⟩ := h'.original
  exact h.earliest j (by omega) other place h'.declared k hk second hf

lemma unique (h : FirstRepeat ss i name span first) (h' : FirstRepeat ss j other place second) :
    name = other ∧ span = place ∧ first = second := by
  obtain rfl : i = j := Nat.le_antisymm (h.index_le h') (h'.index_le h)
  obtain ⟨rfl, rfl⟩ := Statement.label.inj (Option.some.inj (h.declared.symm.trans h'.declared))
  obtain ⟨k, -, hf, hk⟩ := h.original
  obtain ⟨l, -, hs, hl⟩ := h'.original
  obtain rfl : k = l := by
    by_contra hne
    obtain hlt | hlt := Nat.lt_or_gt_of_ne hne
    · exact hl k hlt first hf
    · exact hk l hlt second hs
  obtain ⟨-, rfl⟩ := Statement.label.inj (Option.some.inj (hf.symm.trans hs))
  exact ⟨rfl, rfl, rfl⟩

end FirstRepeat

end Statement

namespace LabelTable

variable {t u : LabelTable} {ss : List Statement} {name : String}

lemma firstRepeat_of_fault {f : Fault} (h : ofStatements ss = .error f) :
    ∃ i name span first, Statement.FirstRepeat ss i name span first ∧
      f = .duplicateLabel name span first := by
  obtain ⟨before, after, name, span, u, d, rfl, hu, hd, rfl⟩ := declareAll_fault h
  have hdistinct := Statement.nodup_declared_iff.mp (exists_ofStatements_iff.mp ⟨u, hu⟩)
  have hfirst := (find?_ofStatements hu).mp hd
  have hlt : d.index < before.length := (List.getElem?_eq_some_iff.mp hfirst).choose
  have hbefore : ∀ j < before.length, ∀ {s}, before[j]? = some s ↔
      (before ++ .label name span :: after)[j]? = some s := by
    intro j hj s
    rw [List.getElem?_append_left hj]
  refine ⟨before.length, name, span, d.span, ⟨?_, ⟨d.index, hlt, ?_, ?_⟩, ?_⟩, rfl⟩
  · simp
  · exact (hbefore _ hlt).mp hfirst
  · intro j hj place hp
    have := hdistinct _ _ _ _ _ ((hbefore j (by omega)).mpr hp) hfirst
    omega
  · intro j hj other place hp k hk place' hp'
    have := hdistinct _ _ _ _ _ ((hbefore j hj).mpr hp) ((hbefore k (by omega)).mpr hp')
    omega

lemma ofStatements_eq_error_iff {f : Fault} :
    ofStatements ss = .error f ↔ ∃ i name span first,
      Statement.FirstRepeat ss i name span first ∧ f = .duplicateLabel name span first := by
  refine ⟨firstRepeat_of_fault, ?_⟩
  rintro ⟨i, name, span, first, hr, rfl⟩
  cases h : ofStatements ss with
  | ok t =>
    have hdistinct := Statement.nodup_declared_iff.mp (exists_ofStatements_iff.mp ⟨t, h⟩)
    exact (hr.not_distinct hdistinct).elim
  | error f =>
    obtain ⟨j, other, place, second, hr', rfl⟩ := firstRepeat_of_fault h
    obtain ⟨rfl, rfl, rfl⟩ := hr.unique hr'
    rfl

lemma mem_toList_iff {i : Nat} : (name, i) ∈ t.toList ↔ t.index? name = some i := by
  simp only [toList, index?, find?, List.mem_map, Option.map_eq_some_iff, Prod.mk.injEq]
  constructor
  · rintro ⟨⟨other, d⟩, hd, rfl, rfl⟩
    exact ⟨d, Std.ExtTreeMap.mem_toList_iff_getElem?_eq_some.mp hd, rfl⟩
  · rintro ⟨d, hd, rfl⟩
    exact ⟨(name, d), Std.ExtTreeMap.mem_toList_iff_getElem?_eq_some.mpr hd, rfl, rfl⟩

lemma toList_ordered (t : LabelTable) :
    (t.toList.map Prod.fst).Pairwise fun a b => Text.bytes a < Text.bytes b := by
  rw [toList, List.map_map, List.pairwise_map]
  exact Text.bytes_ordered t.declarations

def request (t : LabelTable) (d : String × Declaration) : Option Fault × LabelTable :=
  match t.declare d.1 d.2.index d.2.span with
  | .ok u => (none, u)
  | .error f => (some f, t)

def requestAll (t : LabelTable) (ds : List (String × Declaration)) : LabelTable :=
  ds.foldl (fun t d => (t.request d).2) t

lemma request_of_find? {d : String × Declaration} {first : Declaration}
    (h : t.find? d.1 = some first) :
    t.request d = (some (.duplicateLabel d.1 d.2.span first.span), t) := by
  simp [request, declare, h]

lemma request_of_new {d : String × Declaration} (h : t.find? d.1 = none) :
    t.request d = (none, ⟨t.declarations.insert d.1 d.2⟩) := by
  simp [request, declare, h]

lemma request_refused {d : String × Declaration} {f : Fault} (h : (t.request d).1 = some f) :
    (t.request d).2 = t ∧
      ∃ first, t.find? d.1 = some first ∧ f = .duplicateLabel d.1 d.2.span first.span := by
  cases hd : t.find? d.1 with
  | some first =>
    rw [request_of_find? hd] at h ⊢
    exact ⟨rfl, first, rfl, (Option.some.inj h).symm⟩
  | none =>
    rw [request_of_new hd] at h
    cases h

lemma find?_request (d : String × Declaration) :
    (t.request d).2.find? name = (t.find? name).or (if d.1 = name then some d.2 else none) := by
  cases h : t.find? d.1 with
  | some first =>
    rw [request_of_find? h]
    split_ifs with hn
    · rw [← hn, h, Option.some_or]
    · rw [Option.or_none]
  | none =>
    rw [request_of_new h, find?_insert]
    split_ifs with hn
    · rw [← hn, h, Option.none_or]
    · rw [Option.or_none]

lemma find?_requestAll (ds : List (String × Declaration)) :
    (t.requestAll ds).find? name = (t.find? name).or (ds.lookup name) := by
  induction ds generalizing t with
  | nil => simp [requestAll]
  | cons d ds ih =>
    have hs : t.requestAll (d :: ds) = (t.request d).2.requestAll ds := rfl
    rw [hs, ih, find?_request, Option.or_assoc]
    congr 1
    obtain ⟨n, d⟩ := d
    by_cases hn : n = name
    · subst hn
      simp
    · have hb : (name == n) = false := by simpa using Ne.symm hn
      simp [hn, List.lookup_cons, hb]

/-- A table is made of statements exactly if they declare no label twice. It gives each label the
index of the statement that declares it, counts these statements, and lists the labels in the order
of their bytes. Otherwise the first statement that declares a label again is reported, with the place
where it was first declared. Whatever declarations a table is asked for, a refused one leaves it as
it is, and the first one of a label counts. -/
theorem table_holds_declarations (ss : List Statement) :
    ((∃ t, ofStatements ss = .ok t) ↔ Statement.Distinct ss) ∧
    (∀ t, ofStatements ss = .ok t →
      (∀ name i, t.index? name = some i ↔ ∃ span, ss[i]? = some (.label name span)) ∧
      t.size = ss.countP (·.label?.isSome) ∧
      (∀ name i, (name, i) ∈ t.toList ↔ t.index? name = some i) ∧
      (t.toList.map Prod.fst).Pairwise fun a b => Text.bytes a < Text.bytes b) ∧
    (∀ f, ofStatements ss = .error f ↔ ∃ i name span first,
      Statement.FirstRepeat ss i name span first ∧ f = .duplicateLabel name span first) ∧
    ∀ (t : LabelTable) (ds : List (String × Declaration)),
      (∀ name, (t.requestAll ds).find? name = (t.find? name).or (ds.lookup name)) ∧
      ∀ d f, ((t.requestAll ds).request d).1 = some f →
        ((t.requestAll ds).request d).2 = t.requestAll ds ∧
          ∃ first, (t.requestAll ds).find? d.1 = some first ∧
            f = .duplicateLabel d.1 d.2.span first.span := by
  refine ⟨exists_ofStatements_iff.trans Statement.nodup_declared_iff, fun t ht => ⟨?_, ?_, ?_, ?_⟩,
    fun f => ofStatements_eq_error_iff, fun t ds => ⟨fun name => find?_requestAll ds, ?_⟩⟩
  · exact fun name i => index?_ofStatements ht
  · rw [size_ofStatements ht, Statement.declared, List.length_filterMap_eq_countP]
  · exact fun name i => mem_toList_iff
  · exact toList_ordered t
  · exact fun d f => request_refused

def twoRepeats : List Statement :=
  [.label "b" ⟨1, 1⟩, .label "a" ⟨2, 1⟩, .instruction .halt ⟨3, 1⟩, .label "a" ⟨4, 3⟩,
    .label "b" ⟨5, 1⟩, .label "a" ⟨6, 1⟩]

theorem twoRepeats_refused :
    ofStatements twoRepeats = .error (.duplicateLabel "a" ⟨4, 3⟩ ⟨2, 1⟩) := by
  refine ((table_holds_declarations twoRepeats).2.2.1 _).mpr ⟨3, "a", ⟨4, 3⟩, ⟨2, 1⟩, ?_, rfl⟩
  refine ⟨rfl, ⟨1, by decide, rfl, fun j hj place => ?_⟩, fun j hj other place ho k hk place' => ?_⟩
  · obtain rfl : j = 0 := by omega
    simp [twoRepeats]
  · interval_cases j
    · omega
    · obtain rfl : k = 0 := by omega
      cases ho
      simp [twoRepeats]
    · cases ho

end LabelTable

end RegAsm
