import Mathlib.Data.Finset.Card
import RegAsm.Proofs.Machine.Transition
import RegAsm.Proofs.Text.ByteOrder

namespace RegAsm.Registers

def ofAssignments (as : List (String × Word)) : Registers :=
  as.foldl (fun r a => r.set a.1 a.2) empty

def Last (as : List (String × Word)) (name : String) (value : Word) : Prop :=
  ∃ before after, as = before ++ (name, value) :: after ∧ name ∉ after.map Prod.fst

variable {as bs : List (String × Word)} {a : String × Word} {name : String} {value : Word}

lemma ofAssignments_concat (as : List (String × Word)) (a : String × Word) :
    ofAssignments (as ++ [a]) = (ofAssignments as).set a.1 a.2 := by
  simp [ofAssignments]

lemma not_last_nil : ¬ Last [] name value := by
  rintro ⟨before, after, he, -⟩
  simp at he

lemma last_concat_iff :
    Last (as ++ [a]) name value ↔ a = (name, value) ∨ a.1 ≠ name ∧ Last as name value := by
  constructor
  · rintro ⟨before, after, he, hn⟩
    rcases List.eq_nil_or_concat' after with rfl | ⟨after, b, rfl⟩
    · exact .inl (List.append_singleton_inj.mp he).2
    · rw [← List.cons_append, ← List.append_assoc] at he
      obtain ⟨rfl, rfl⟩ := List.append_singleton_inj.mp he
      simp only [List.map_append, List.mem_append, not_or] at hn
      exact .inr ⟨fun h => hn.2 (by simp [h]), before, after, rfl, hn.1⟩
  · rintro (rfl | ⟨h, before, after, rfl, hn⟩)
    · exact ⟨as, [], rfl, by simp⟩
    · exact ⟨before, after ++ [a], by simp, by simpa [Ne.symm h] using hn⟩

theorem get?_eq_some_iff_last :
    (ofAssignments as).get? name = some value ↔ Last as name value := by
  induction as using List.reverseRecOn with
  | nil => simp [ofAssignments, not_last_nil]
  | append_singleton as a ih =>
    obtain ⟨other, v⟩ := a
    rw [ofAssignments_concat, get?_set, last_concat_iff, ← ih]
    by_cases h : other = name <;> simp [h]

lemma exists_last_iff : (∃ value, Last as name value) ↔ name ∈ as.map Prod.fst := by
  induction as using List.reverseRecOn with
  | nil => simp [not_last_nil]
  | append_singleton as a ih =>
    obtain ⟨other, v⟩ := a
    simp only [last_concat_iff, Prod.mk.injEq, exists_or, exists_and_left, ih]
    by_cases h : other = name
    · simp [h]
    · simp [h, Ne.symm h]

lemma get?_eq_none_iff_last : (ofAssignments as).get? name = none ↔ name ∉ as.map Prod.fst := by
  rw [← exists_last_iff, Option.eq_none_iff_forall_ne_some, not_exists]
  simp only [ne_eq, get?_eq_some_iff_last]

lemma ofAssignments_inj :
    ofAssignments as = ofAssignments bs ↔ ∀ name value, Last as name value ↔ Last bs name value := by
  simp only [← get?_eq_some_iff_last]
  constructor
  · intro h name value
    rw [h]
  · intro h
    ext name value
    exact h name value

variable {r : Registers} {span : Span}

structure Answers (r : Registers) (name : String) (span : Span) (x : Except Fault Word) : Prop where
  value : ∀ v, x = .ok v ↔ r.get? name = some v
  fault : ∀ f, x = .error f ↔ r.get? name = none ∧ f = .undefinedRegister name span

lemma answers_read (r : Registers) (name : String) (span : Span) :
    r.Answers name span (r.read name span) where
  value v := read_eq_ok_iff
  fault f := by cases h : r.get? name <;> simp [read, h, eq_comm]

lemma mem_toList_iff : (name, value) ∈ r.toList ↔ r.get? name = some value :=
  Std.ExtTreeMap.mem_toList_iff_getElem?_eq_some

lemma toList_ordered (r : Registers) :
    (r.toList.map Prod.fst).Pairwise fun a b => Text.bytes a < Text.bytes b :=
  List.pairwise_map.mpr (Text.bytes_ordered r.values)

lemma nodup_names (r : Registers) : (r.toList.map Prod.fst).Nodup := by
  refine (toList_ordered r).imp ?_
  rintro a b h rfl
  exact List.lt_irrefl _ h

lemma mem_names_iff : name ∈ (ofAssignments as).toList.map Prod.fst ↔ name ∈ as.map Prod.fst := by
  refine Iff.trans ?_ exists_last_iff
  simp only [← get?_eq_some_iff_last, ← mem_toList_iff]
  simp

lemma size_ofAssignments : (ofAssignments as).size = (as.map Prod.fst).toFinset.card := by
  have hnames : (as.map Prod.fst).toFinset = ((ofAssignments as).toList.map Prod.fst).toFinset := by
    ext name
    rw [List.mem_toFinset, List.mem_toFinset, mem_names_iff]
  rw [hnames, List.toFinset_card_of_nodup (nodup_names _), List.length_map]
  exact Std.ExtTreeMap.length_toList.symm

/-- A store holds the value that was last assigned to each register, whatever the assignments are. A
register that has none is reported where it is asked for. The registers are listed in the order of
the bytes of their names, each once, and so they are counted. Two sequences of assignments make the
same store exactly if they have the same last ones. -/
theorem store_holds_last_assignments (as : List (String × Word)) :
    (∀ name value, (ofAssignments as).get? name = some value ↔ Last as name value) ∧
    (∀ name, (ofAssignments as).get? name = none ↔ name ∉ as.map Prod.fst) ∧
    (∀ name span, (ofAssignments as).Answers name span ((ofAssignments as).read name span) ∧
      (ofAssignments as).Answers name span ((ofAssignments as).eval (.register name) span)) ∧
    (∀ name value, (name, value) ∈ (ofAssignments as).toList ↔ Last as name value) ∧
    ((ofAssignments as).toList.map Prod.fst).Pairwise (fun a b => Text.bytes a < Text.bytes b) ∧
    (ofAssignments as).size = (as.map Prod.fst).toFinset.card ∧
    ∀ bs, ofAssignments as = ofAssignments bs ↔
      ∀ name value, Last as name value ↔ Last bs name value := by
  refine ⟨fun name value => get?_eq_some_iff_last, fun name => get?_eq_none_iff_last,
    fun name span => ⟨answers_read _ name span, answers_read _ name span⟩, fun name value => ?_,
    toList_ordered _, size_ofAssignments, fun bs => ofAssignments_inj⟩
  rw [mem_toList_iff, get?_eq_some_iff_last]

end RegAsm.Registers
