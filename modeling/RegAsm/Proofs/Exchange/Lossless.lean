import RegAsm.Exchange.Fault
import RegAsm.Proofs.Exchange.Reread

namespace RegAsm

open Json

class Exchange.Lawful (α : Type) [Exchange α] : Prop where
  ofJson?_toJson (a : α) : Exchange.ofJson? (Exchange.toJson a) = some a

open Exchange

attribute [simp] Lawful.ofJson?_toJson

variable {α : Type}

lemma Exchange.parse?_print [Exchange α] [Lawful α] (a : α) : parse? (print a) = some a := by
  rw [parse?, print, Json.print, String.toList_ofList, read?_write]
  exact Lawful.ofJson?_toJson a

lemma mapM_eq_some {β : Type} {f : α → Option β} {g : α → β} {as : List α}
    (h : ∀ a ∈ as, f a = some (g a)) : as.mapM f = some (as.map g) := by
  induction as with
  | nil => rfl
  | cons a as ih =>
    obtain ⟨ha, has⟩ := List.forall_mem_cons.mp h
    simp [ha, ih has]

namespace Json

variable {fs : List (String × Json)} {a b c : String} {x y z : Json}

lemma member?_record (h : (fs.map Prod.fst).Nodup) (hm : (a, x) ∈ fs) :
    member? a (fs.map fun (name, value) => (some name, value)) = some (some x) := by
  have hf : (fs.map fun (name, value) => (some name, value)).filter (·.1 == some a) =
      [(some a, x)] := by
    induction fs with
    | nil => cases hm
    | cons f fs ih =>
      obtain ⟨name, value⟩ := f
      rw [List.map_cons, List.nodup_cons] at h
      rw [List.map_cons]
      obtain he | hm := List.mem_cons.mp hm
      · obtain ⟨rfl, rfl⟩ := Prod.mk.inj he
        rw [List.filter_cons_of_pos (by simp), List.filter_eq_nil_iff.mpr]
        intro m hm hn
        obtain ⟨f, hf, rfl⟩ := List.mem_map.mp hm
        exact h.1 (List.mem_map.mpr ⟨f, hf, by simpa using hn⟩)
      · have hne : name ≠ a := by
          rintro rfl
          exact h.1 (List.mem_map.mpr ⟨_, hm, rfl⟩)
        rw [List.filter_cons_of_neg (by simpa using hne), ih h.2 hm]
  rw [member?, hf]

lemma fields?_record (h : (fs.map Prod.fst).Nodup) :
    (record fs).fields? (fs.map Prod.fst) = some (fs.map fun f => some f.2) := by
  have hall : (fs.map fun (name, value) => (some name, value)).all (·.1.isSome) = true := by
    simp
  rw [record, fields?, if_pos hall, List.mapM_map]
  exact mapM_eq_some fun f hf => member?_record h hf

lemma field1?_record : (record [(a, x)]).field1? a = some x := by
  have h : (record [(a, x)]).fields? [a] = _ := fields?_record (by simp)
  rw [field1?, h]
  rfl

lemma field2?_record (hab : a ≠ b) : (record [(a, x), (b, y)]).field2? a b = some (x, y) := by
  have h : (record [(a, x), (b, y)]).fields? [a, b] = _ := fields?_record (by simp [hab])
  rw [field2?, h]
  rfl

lemma field3?_record (hab : a ≠ b) (hac : a ≠ c) (hbc : b ≠ c) :
    (record [(a, x), (b, y), (c, z)]).field3? a b c = some (x, y, z) := by
  have h : (record [(a, x), (b, y), (c, z)]).fields? [a, b, c] = _ :=
    fields?_record (by simp [hab, hac, hbc])
  rw [field3?, h]
  rfl

end Json

section Scalars

instance : Lawful String := ⟨fun _ => rfl⟩

instance : Lawful Word := ⟨Word.ofInt?_toInt⟩

instance : Lawful UInt32 where
  ofJson?_toJson n := by
    have h : n.toNat < UInt32.size := n.toNat_lt
    simp [toJson, ofJson?, h]

instance : Lawful UInt64 where
  ofJson?_toJson n := by
    have h : n.toNat < UInt64.size := n.toNat_lt
    simp [toJson, ofJson?, h]

instance [Exchange α] [Lawful α] : Lawful (List α) where
  ofJson?_toJson as := by
    have h : as.mapM (ofJson? ∘ toJson) = some (as.map id) :=
      mapM_eq_some fun a _ => Lawful.ofJson?_toJson a
    rw [List.map_id, ← List.mapM_map] at h
    exact h

instance : Lawful (Option UInt64) where
  ofJson?_toJson o := by
    cases o with
    | none => rfl
    | some n =>
      change (ofJson? (toJson n)).map some = some (some n)
      rw [Lawful.ofJson?_toJson]
      rfl

lemma lawful_ofNames {all : List α} {name : α → String}
    (h : ∀ a ∈ all, all.find? (name · == name a) = some a) (hall : ∀ a, a ∈ all) :
    @Lawful α (ofNames all name) :=
  @Lawful.mk α (ofNames all name) fun a => h a (hall a)

instance : Lawful Ordering :=
  lawful_ofNames (by decide) fun a => by cases a <;> decide

instance : Lawful Condition :=
  lawful_ofNames (by decide) fun a => by cases a <;> decide

instance : Lawful Mnemonic :=
  lawful_ofNames (by decide) Mnemonic.mem_all

instance : Lawful Arithmetic :=
  lawful_ofNames (by decide) fun a => by cases a <;> decide

end Scalars

section Records

variable {β γ δ : Type} [Exchange α] [Lawful α] [Exchange β] [Lawful β] [Exchange γ] [Lawful γ]

lemma read_content (f : α → δ) (x : α) : (ofJson? (toJson x)).map f = some (f x) := by
  rw [Lawful.ofJson?_toJson, Option.map_some]

lemma read_record1 (f : α → δ) (a : String) (x : α) :
    (do
      let x ← (record [(a, toJson x)]).field1? a
      return f (← ofJson? x)) = some (f x) := by
  simp [field1?_record]

lemma read_record2 (f : α → β → δ) {a b : String} (hab : a ≠ b) (x : α) (y : β) :
    (do
      let (x, y) ← (record [(a, toJson x), (b, toJson y)]).field2? a b
      return f (← ofJson? x) (← ofJson? y)) = some (f x y) := by
  simp [field2?_record hab]

lemma read_record3 (f : α → β → γ → δ) {a b c : String} (hab : a ≠ b) (hac : a ≠ c) (hbc : b ≠ c)
    (x : α) (y : β) (z : γ) :
    (do
      let (x, y, z) ← (record [(a, toJson x), (b, toJson y), (c, toJson z)]).field3? a b c
      return f (← ofJson? x) (← ofJson? y) (← ofJson? z)) = some (f x y z) := by
  simp [field3?_record hab hac hbc]

end Records

instance : Lawful Span where
  ofJson?_toJson s := read_record2 Span.mk (by decide) s.line s.col

instance : Lawful Operand where
  ofJson?_toJson o := by
    cases o with
    | immediate value => exact read_content Operand.immediate value
    | register name => exact read_content Operand.register name

instance : Lawful MessagePart where
  ofJson?_toJson p := by
    cases p with
    | text content => exact read_content MessagePart.text content
    | value operand => exact read_content MessagePart.value operand

instance : Lawful Instruction where
  ofJson?_toJson i := by
    cases i with
    | mov dst src => exact read_record2 Instruction.mov (by decide : "dst" ≠ "src") dst src
    | inc reg => exact read_content Instruction.inc reg
    | dec reg => exact read_content Instruction.dec reg
    | arith op dst src =>
      exact read_record3 Instruction.arith (by decide : "op" ≠ "dst") (by decide : "op" ≠ "src")
        (by decide) op dst src
    | cmp lhs rhs => exact read_record2 Instruction.cmp (by decide : "lhs" ≠ "rhs") lhs rhs
    | jump cond label =>
      exact read_record2 Instruction.jump (by decide : "cond" ≠ "label") cond label
    | call label => exact read_content Instruction.call label
    | msg parts => exact read_content Instruction.msg parts
    | ret | halt => rfl

instance : Lawful Statement where
  ofJson?_toJson s := by
    cases s with
    | label name span => exact read_record2 Statement.label (by decide : "name" ≠ "span") name span
    | instruction i span =>
      exact read_record2 Statement.instruction (by decide : "instruction" ≠ "span") i span

lemma Fault.ofSubject?_record {name : String} (hn : name ≠ "span") (build : String → Span → Fault)
    (subject : String) (span : Span) :
    ofSubject? name build (.record [(name, toJson subject), ("span", toJson span)]) =
      some (build subject span) :=
  read_record2 build hn subject span

instance : Lawful Fault where
  ofJson?_toJson f := by
    cases f with
    | duplicateLabel label span first =>
      exact read_record3 Fault.duplicateLabel (by decide : "label" ≠ "span")
        (by decide : "label" ≠ "first_span") (by decide) label span first
    | divisionByZero span => exact read_record1 Fault.divisionByZero "span" span
    | emptyCallStack span => exact read_record1 Fault.emptyCallStack "span" span
    | limitExceeded resource limit =>
      exact read_record2 Fault.limitExceeded (by decide : "resource" ≠ "limit") resource limit
    | undefinedRegister subject span | undefinedLabel subject span | malformedOperand subject span
    | unknownMnemonic subject span | invalidOperands subject span | illFormed subject span =>
      exact Fault.ofSubject?_record (by decide) _ subject span

instance : Lawful Limits where
  ofJson?_toJson l := by
    have h : (toJson l).fields? ["max_steps", "max_call_depth", "max_source_bytes"] =
        some [some (toJson l.maxSteps), some (toJson l.maxCallDepth),
          some (toJson l.maxSourceBytes)] := fields?_record (by simp)
    change (match (toJson l).fields? ["max_steps", "max_call_depth", "max_source_bytes"] with
      | some [steps, depth, some bytes] => do
        return Limits.mk (← ofJson? (steps.getD .null)) (← ofJson? (depth.getD .null))
          (← ofJson? bytes)
      | _ => none) = some l
    rw [h]
    simp

/-- Every value that can be exchanged is read from its text as it was. -/
theorem exchanged_values_survive :
    (∀ x : Span, parse? (print x) = some x) ∧
    (∀ x : Operand, parse? (print x) = some x) ∧
    (∀ x : MessagePart, parse? (print x) = some x) ∧
    (∀ x : Ordering, parse? (print x) = some x) ∧
    (∀ x : Condition, parse? (print x) = some x) ∧
    (∀ x : Arithmetic, parse? (print x) = some x) ∧
    (∀ x : Mnemonic, parse? (print x) = some x) ∧
    (∀ x : Instruction, parse? (print x) = some x) ∧
    (∀ x : Statement, parse? (print x) = some x) ∧
    (∀ x : List Statement, parse? (print x) = some x) ∧
    (∀ x : List MessagePart, parse? (print x) = some x) ∧
    (∀ x : Fault, parse? (print x) = some x) ∧
    ∀ x : Limits, parse? (print x) = some x :=
  ⟨parse?_print, parse?_print, parse?_print, parse?_print, parse?_print, parse?_print,
    parse?_print, parse?_print, parse?_print, parse?_print, parse?_print, parse?_print,
    parse?_print⟩

end RegAsm
