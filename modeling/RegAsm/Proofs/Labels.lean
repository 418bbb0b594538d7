import Mathlib.Data.List.Basic
import RegAsm.Program
import RegAsm.Proofs.Fallible

/-! Label tables, from the statements they are built of. -/

namespace RegAsm

open Fallible

namespace Statement

def label? : Statement → Option String
  | label name _ => some name
  | instruction _ _ => none

lemma label?_eq_some_iff {s : Statement} {name : String} :
    s.label? = some name ↔ ∃ span, s = .label name span := by
  cases s <;> simp [label?]

def declared (ss : List Statement) : List String :=
  ss.filterMap label?

@[simp] lemma declared_nil : declared [] = [] := rfl

@[simp] lemma declared_label (name : String) (span : Span) (ss : List Statement) :
    declared (.label name span :: ss) = name :: declared ss := rfl

@[simp] lemma declared_instruction (i : Instruction) (span : Span) (ss : List Statement) :
    declared (.instruction i span :: ss) = declared ss := rfl

lemma mem_declared_iff {ss : List Statement} {name : String} :
    name ∈ declared ss ↔ ∃ span, .label name span ∈ ss := by
  simp only [declared, List.mem_filterMap, label?_eq_some_iff]
  constructor
  · rintro ⟨_, hs, span, rfl⟩
    exact ⟨span, hs⟩
  · rintro ⟨span, hs⟩
    exact ⟨_, hs, span, rfl⟩

end Statement

namespace LabelTable

variable {t u : LabelTable} {index : Nat} {ss : List Statement} {name : String}

lemma find?_declareAll (h : t.declareAll index ss = .ok u) (d : Declaration) :
    u.find? name = some d ↔
      t.find? name = some d ∨ ∃ k, ss[k]? = some (.label name d.span) ∧ d.index = index + k := by
  induction ss generalizing t index with
  | nil =>
    cases h
    simp
  | cons statement rest ih =>
    rw [← Nat.or_exists_add_one]
    cases statement with
    | label n span =>
      obtain ⟨t', ht, hr⟩ := bind_eq_ok_iff.mp h
      obtain ⟨hn, rfl⟩ := declare_eq_ok_iff.mp ht
      rw [ih hr, find?_insert]
      by_cases he : n = name
      · subst he
        have hd : some ⟨index, span⟩ = some d ↔ span = d.span ∧ d.index = index := by
          cases d
          simp [and_comm, eq_comm]
        simp [hn, hd, Nat.add_assoc, Nat.add_comm 1]
      · simp [he, Nat.add_assoc, Nat.add_comm 1]
    | instruction i span =>
      rw [ih h]
      simp [Nat.add_assoc, Nat.add_comm 1]

lemma exists_declareAll_iff :
    (∃ u, t.declareAll index ss = .ok u) ↔
      (Statement.declared ss).Nodup ∧ ∀ name ∈ Statement.declared ss, t.find? name = none := by
  induction ss generalizing t index with
  | nil => simp [declareAll]
  | cons statement rest ih =>
    cases statement with
    | label n span =>
      have hb : (∃ u, t.declareAll index (.label n span :: rest) = .ok u) ↔
          t.find? n = none ∧
            ∃ u, declareAll ⟨t.declarations.insert n ⟨index, span⟩⟩ (index + 1) rest = .ok u := by
        simp only [declareAll, bind_eq_ok_iff, declare_eq_ok_iff]
        constructor
        · rintro ⟨u, t', ⟨hn, rfl⟩, hu⟩
          exact ⟨hn, u, hu⟩
        · rintro ⟨hn, u, hu⟩
          exact ⟨u, _, ⟨hn, rfl⟩, hu⟩
      rw [hb, ih, Statement.declared_label, List.nodup_cons, List.forall_mem_cons]
      simp only [find?_insert]
      constructor
      · rintro ⟨hn, hd, hf⟩
        refine ⟨⟨fun hm => ?_, hd⟩, hn, fun name hm => ?_⟩
        · simpa using hf n hm
        · have := hf name hm
          split at this
          · cases this
          · exact this
      · rintro ⟨⟨hm, hd⟩, hn, hf⟩
        refine ⟨hn, hd, fun name hname => ?_⟩
        have hne : n ≠ name := by
          rintro rfl
          exact hm hname
        rw [if_neg hne, hf name hname]
    | instruction i span => rw [declareAll, ih, Statement.declared_instruction]

lemma size_declareAll (h : t.declareAll index ss = .ok u) :
    u.size = t.size + (Statement.declared ss).length := by
  induction ss generalizing t index with
  | nil =>
    cases h
    rfl
  | cons statement rest ih =>
    cases statement with
    | label n span =>
      obtain ⟨t', ht, hr⟩ := bind_eq_ok_iff.mp h
      obtain ⟨hn, rfl⟩ := declare_eq_ok_iff.mp ht
      have hnew : n ∉ t.declarations := by simpa [find?] using hn
      have hsize : size ⟨t.declarations.insert n ⟨index, span⟩⟩ = t.size + 1 := by
        simp [size, Std.ExtTreeMap.size_insert, hnew]
      rw [ih hr, hsize, Statement.declared_label, List.length_cons, Nat.add_assoc, Nat.add_comm 1]
    | instruction i span => rw [ih h, Statement.declared_instruction]

lemma declareAll_fault {f : Fault} (h : t.declareAll index ss = .error f) :
    ∃ before after name span u d, ss = before ++ .label name span :: after ∧
      t.declareAll index before = .ok u ∧ u.find? name = some d ∧
      f = .duplicateLabel name span d.span := by
  induction ss generalizing t index with
  | nil => cases h
  | cons statement rest ih =>
    cases statement with
    | label n place =>
      obtain h | ⟨t', ht, h⟩ := bind_eq_error_iff.mp h
      · cases hd : t.find? n with
        | none =>
          simp only [declare, hd] at h
          cases h
        | some d =>
          simp only [declare, hd] at h
          cases h
          exact ⟨[], rest, n, place, t, d, rfl, rfl, hd, rfl⟩
      · obtain ⟨before, after, name, span, u, d, rfl, hu, hd, hf⟩ := ih h
        exact ⟨.label n place :: before, after, name, span, u, d, rfl,
          bind_eq_ok_iff.mpr ⟨t', ht, hu⟩, hd, hf⟩
    | instruction i place =>
      obtain ⟨before, after, name, span, u, d, rfl, hu, hd, hf⟩ := ih h
      exact ⟨.instruction i place :: before, after, name, span, u, d, rfl, hu, hd, hf⟩

lemma exists_ofStatements_iff :
    (∃ u, ofStatements ss = .ok u) ↔ (Statement.declared ss).Nodup := by
  simp [ofStatements, exists_declareAll_iff]

lemma find?_ofStatements (h : ofStatements ss = .ok t) {d : Declaration} :
    t.find? name = some d ↔ ss[d.index]? = some (.label name d.span) := by
  rw [find?_declareAll h]
  simp only [find?_empty, reduceCtorEq, false_or, Nat.zero_add]
  constructor
  · rintro ⟨k, hk, rfl⟩
    exact hk
  · intro hs
    exact ⟨_, hs, rfl⟩

lemma index?_ofStatements (h : ofStatements ss = .ok t) {i : Nat} :
    t.index? name = some i ↔ ∃ span, ss[i]? = some (.label name span) := by
  simp only [index?, Option.map_eq_some_iff, find?_ofStatements h]
  constructor
  · rintro ⟨d, hd, rfl⟩
    exact ⟨d.span, hd⟩
  · rintro ⟨span, hs⟩
    exact ⟨⟨i, span⟩, hs, rfl⟩

lemma size_ofStatements (h : ofStatements ss = .ok t) :
    t.size = (Statement.declared ss).length := by
  rw [size_declareAll h]
  exact Nat.zero_add _

lemma ofStatements_fault {f : Fault} (h : ofStatements ss = .error f) :
    ∃ before after name span first, ss = before ++ .label name span :: after ∧
      .label name first ∈ before ∧ f = .duplicateLabel name span first := by
  obtain ⟨before, after, name, span, u, d, hs, hu, hd, hf⟩ := declareAll_fault h
  obtain hd | ⟨k, hk, -⟩ := (find?_declareAll hu d).mp hd
  · simp at hd
  · exact ⟨before, after, name, span, d.span, hs, List.mem_of_getElem? hk, hf⟩

end LabelTable

namespace Program

lemma parse_eq_ok_iff {source : String} {p : Program} :
    parse source = .ok p ↔ Statement.parseAll source.toList = .ok p.statements.toList := by
  rw [parse, bind_eq_ok_iff]
  constructor
  · rintro ⟨ss, hs, hp⟩
    rw [hs, ofStatements_eq_ok_iff.mp hp]
  · intro h
    exact ⟨_, h, ofStatements_eq_ok_iff.mpr rfl⟩

lemma parse_eq_error_iff {source : String} {f : Fault} :
    parse source = .error f ↔ Statement.parseAll source.toList = .error f ∨
      ∃ ss, Statement.parseAll source.toList = .ok ss ∧ LabelTable.ofStatements ss = .error f := by
  have h : ∀ ss, ofStatements ss = .error f ↔ LabelTable.ofStatements ss = .error f := by
    intro ss
    unfold ofStatements
    split <;> simp_all
  simp only [parse, bind_eq_error_iff, h]

lemma exists_statements_iff {ss : List Statement} :
    (∃ p : Program, p.statements.toList = ss) ↔ (Statement.declared ss).Nodup := by
  rw [← LabelTable.exists_ofStatements_iff]
  constructor
  · rintro ⟨p, rfl⟩
    exact ⟨p.labels, p.labels_built⟩
  · rintro ⟨u, hu⟩
    exact ⟨⟨ss.toArray, u, hu⟩, rfl⟩

lemma size_labels (p : Program) :
    p.labels.size = (Statement.declared p.statements.toList).length :=
  LabelTable.size_ofStatements p.labels_built

variable {p : Program} {name : String} {i : Nat}

theorem index?_eq_some_iff :
    p.labels.index? name = some i ↔ ∃ span, p.statements[i]? = some (.label name span) := by
  rw [LabelTable.index?_ofStatements p.labels_built]
  simp only [Array.getElem?_toList]

lemma index?_eq_none_iff :
    p.labels.index? name = none ↔ name ∉ Statement.declared p.statements.toList := by
  rw [← not_iff_not, not_not, ← ne_eq, Option.ne_none_iff_exists', Statement.mem_declared_iff]
  simp only [index?_eq_some_iff, List.mem_iff_getElem?, Array.getElem?_toList]
  exact exists_comm

lemma target_eq_ok_iff {span : Span} :
    p.labels.target name span = .ok i ↔ p.labels.index? name = some i := by
  cases h : p.labels.index? name <;> simp [LabelTable.target, h]

lemma target_lt {span : Span} (h : p.labels.target name span = .ok i) : i < p.size := by
  obtain ⟨at', hs⟩ := index?_eq_some_iff.mp (target_eq_ok_iff.mp h)
  exact (Array.getElem?_eq_some_iff.mp hs).choose

end Program

end RegAsm
