import RegAsm.Proofs.Machine.History

namespace RegAsm

open Fallible

def Operand.reads : Operand → List String
  | immediate _ => []
  | register name => [name]

def MessagePart.reads : MessagePart → List String
  | text _ => []
  | value operand => operand.reads

def Instruction.reads : Instruction → List String
  | mov _ src => src.reads
  | inc reg => [reg]
  | dec reg => [reg]
  | arith _ dst src => dst :: src.reads
  | cmp lhs rhs => lhs.reads ++ rhs.reads
  | msg parts => parts.flatMap MessagePart.reads
  | _ => []

namespace Registers

variable {α β : Type} {r : Registers} {span : Span} {names more : List String}

def lacks (r : Registers) (name : String) : Bool :=
  (r.get? name).isNone

/-- A computation that reads these registers in order, and fails only for the first that is
missing. -/
def Checks (r : Registers) (span : Span) (names : List String) (x : Except Fault α) : Prop :=
  ∀ f, x = .error f ↔ ∃ name, names.find? r.lacks = some name ∧ f = .undefinedRegister name span

lemma checks_ok (a : α) : r.Checks span [] (.ok a) := by
  simp [Checks]

lemma Checks.bind {x : Except Fault α} {g : α → Except Fault β} (hx : r.Checks span names x)
    (hg : ∀ a, r.Checks span more (g a)) : r.Checks span (names ++ more) (x >>= g) := by
  intro f
  rw [List.find?_append, bind_eq_error_iff, hx]
  cases hn : names.find? r.lacks with
  | some name =>
    have hfail : x = .error (.undefinedRegister name span) := (hx _).mpr ⟨name, hn, rfl⟩
    simp [hfail]
  | none =>
    obtain ⟨a, rfl⟩ : ∃ a, x = .ok a := by
      cases x with
      | ok a => exact ⟨a, rfl⟩
      | error e =>
        obtain ⟨name, hname, -⟩ := (hx e).mp rfl
        cases hn.symm.trans hname
    simpa using hg a f

lemma Checks.pure {x : Except Fault α} (hx : r.Checks span names x) (g : α → β) :
    r.Checks span names (x >>= fun a => .ok (g a)) := by
  simpa using hx.bind fun a => checks_ok (g a)

lemma checks_read (name : String) : r.Checks span [name] (r.read name span) := by
  intro f
  cases hr : r.get? name <;> simp [read, lacks, hr, eq_comm]

lemma checks_eval (o : Operand) : r.Checks span o.reads (r.eval o span) := by
  cases o with
  | immediate value => exact checks_ok value
  | register name => exact checks_read name

def readPair (r : Registers) (dst : String) (src : Operand) (span : Span) :
    Except Fault (Word × Word) :=
  r.read dst span >>= fun a => r.eval src span >>= fun b => .ok (a, b)

lemma checks_readPair (dst : String) (src : Operand) :
    r.Checks span (dst :: src.reads) (r.readPair dst src span) :=
  (checks_read dst).bind fun a => (checks_eval src).pure fun b => (a, b)

lemma readPair_eq_ok_iff {dst : String} {src : Operand} {a b : Word} :
    r.readPair dst src span = .ok (a, b) ↔
      r.get? dst = some a ∧ src.value? r.get? = some b := by
  simp only [readPair, bind_eq_ok_iff, read_eq_ok_iff, eval_eq_ok_iff, Except.ok.injEq,
    Prod.mk.injEq]
  constructor
  · rintro ⟨_, ha, _, hb, rfl, rfl⟩
    exact ⟨ha, hb⟩
  · rintro ⟨ha, hb⟩
    exact ⟨a, ha, b, hb, rfl, rfl⟩

end Registers

lemma Message.checks_render {r : Registers} {span : Span} (ps : List MessagePart) :
    r.Checks span (ps.flatMap MessagePart.reads) (render (r.eval · span) ps) := by
  induction ps with
  | nil => exact Registers.checks_ok ""
  | cons p ps ih =>
    rw [List.flatMap_cons]
    cases p with
    | text content => exact ih.pure fun rest => content ++ rest
    | value o => exact (Registers.checks_eval o).bind fun v => ih.pure fun rest => Word.text v ++ rest

namespace Instruction

variable {p : Program} {maxDepth : Option UInt64} {span : Span} {s : State} {f : Fault}

inductive Fails (p : Program) (maxDepth : Option UInt64) (span : Span) (s : State) :
    Instruction → Fault → Prop
  | register {i name} : i.reads.find? s.registers.lacks = some name →
      Fails p maxDepth span s i (.undefinedRegister name span)
  | zero {dst src} : (s.registers.get? dst).isSome → src.value? s.registers.get? = some 0 →
      Fails p maxDepth span s (.arith .div dst src) (.divisionByZero span)
  | jump {cond label} : cond.holds s.flag = true →
      label ∉ Statement.declared p.statements.toList →
      Fails p maxDepth span s (.jump cond label) (.undefinedLabel label span)
  | call {label} : label ∉ Statement.declared p.statements.toList →
      Fails p maxDepth span s (.call label) (.undefinedLabel label span)
  | depth {label max} : label ∈ Statement.declared p.statements.toList → maxDepth = some max →
      max.toNat ≤ s.calls.length → Fails p maxDepth span s (.call label) (.callDepthLimit max)
  | ret : s.calls = [] → Fails p maxDepth span s .ret (.emptyCallStack span)

lemma fails_iff_of_checks {i : Instruction} {x : Except Fault Effect}
    (hx : s.registers.Checks span i.reads x)
    (hi : ∀ f, i.Fails p maxDepth span s f → ∃ name, f = .undefinedRegister name span) :
    x = .error f ↔ i.Fails p maxDepth span s f := by
  rw [hx]
  constructor
  · rintro ⟨name, hname, rfl⟩
    exact .register hname
  · intro hf
    obtain ⟨name, rfl⟩ := hi f hf
    cases hf with
    | register hname => exact ⟨name, hname, rfl⟩

lemma compute_eq_error_iff {op : Arithmetic} {a b : Word} :
    compute op a b span = .error f ↔ op = .div ∧ b = 0 ∧ f = .divisionByZero span := by
  cases op with
  | div =>
    by_cases hb : b = 0
    · simp [compute, Arithmetic.eval?, hb, eq_comm]
    · simp [compute, Arithmetic.eval?, hb]
  | _ => simp [compute, Arithmetic.eval?]

lemma effect_arith {target : String → Span → Except Fault Nat} {op : Arithmetic} {dst : String}
    {src : Operand} :
    (arith op dst src).effect target maxDepth span s =
      s.registers.readPair dst src span >>= fun ab =>
        compute op ab.1 ab.2 span >>= fun value => .ok (.assign dst value) := by
  simp only [effect, Registers.readPair]
  cases s.registers.read dst span with
  | error e => rfl
  | ok a => cases s.registers.eval src span <;> rfl

lemma arith_fails_iff {target : String → Span → Except Fault Nat} {op : Arithmetic} {dst : String}
    {src : Operand} :
    (arith op dst src).effect target maxDepth span s = .error f ↔
      (arith op dst src).Fails p maxDepth span s f := by
  rw [effect_arith, bind_eq_error_iff, Registers.checks_readPair dst src]
  constructor
  · rintro (⟨name, hname, rfl⟩ | ⟨⟨a, b⟩, hab, hf⟩)
    · exact .register hname
    · obtain ⟨ha, hb⟩ := Registers.readPair_eq_ok_iff.mp hab
      obtain hf | ⟨_, _, hf⟩ := bind_eq_error_iff.mp hf
      · obtain ⟨rfl, rfl, rfl⟩ := compute_eq_error_iff.mp hf
        exact .zero (by simp [ha]) hb
      · cases hf
  · intro hf
    cases hf with
    | register hname => exact .inl ⟨_, hname, rfl⟩
    | zero hdst hsrc =>
      obtain ⟨a, ha⟩ := Option.isSome_iff_exists.mp hdst
      have hab : s.registers.readPair dst src span = .ok (a, 0) :=
        Registers.readPair_eq_ok_iff.mpr ⟨ha, hsrc⟩
      refine .inr ⟨(a, 0), hab, bind_eq_error_iff.mpr (.inl ?_)⟩
      exact compute_eq_error_iff.mpr ⟨rfl, rfl, rfl⟩

lemma target_eq_error_iff {label : String} :
    p.labels.target label span = .error f ↔
      label ∉ Statement.declared p.statements.toList ∧ f = .undefinedLabel label span := by
  rw [← Program.index?_eq_none_iff]
  cases h : p.labels.index? label <;> simp [LabelTable.target, h, eq_comm]

lemma exists_target_iff {label : String} :
    (∃ index, p.labels.target label span = .ok index) ↔
      label ∈ Statement.declared p.statements.toList := by
  rw [← not_iff_not, ← Program.index?_eq_none_iff]
  cases h : p.labels.index? label <;> simp [LabelTable.target, h]

lemma jump_fails_iff {cond : Condition} {label : String} :
    (jump cond label).effect p.labels.target maxDepth span s = .error f ↔
      (jump cond label).Fails p maxDepth span s f := by
  simp only [effect]
  constructor
  · intro hf
    split at hf
    · obtain hf | ⟨_, _, hf⟩ := bind_eq_error_iff.mp hf
      · obtain ⟨hl, rfl⟩ := target_eq_error_iff.mp hf
        exact .jump (by assumption) hl
      · cases hf
    · cases hf
  · intro hf
    cases hf with
    | register hname => cases hname
    | jump hc hl =>
      rw [if_pos hc]
      exact bind_eq_error_iff.mpr (.inl (target_eq_error_iff.mpr ⟨hl, rfl⟩))

lemma ret_fails_iff {target : String → Span → Except Fault Nat} :
    ret.effect target maxDepth span s = .error f ↔ ret.Fails p maxDepth span s f := by
  simp only [effect]
  constructor
  · intro hf
    split at hf
    · cases hf
      exact .ret (by assumption)
    · cases hf
  · intro hf
    cases hf with
    | register hname => cases hname
    | ret hs => rw [hs]

lemma call_fails_iff {label : String} :
    (call label).effect p.labels.target maxDepth span s = .error f ↔
      (call label).Fails p maxDepth span s f := by
  simp only [effect, bind_eq_error_iff, target_eq_error_iff]
  constructor
  · rintro (⟨hl, rfl⟩ | ⟨index, hi, hf⟩)
    · exact .call hl
    · split at hf
      · rename_i max hr
        cases hf
        obtain ⟨hm, hle⟩ := Limits.reached?_eq_some_iff.mp hr
        exact .depth (exists_target_iff.mp ⟨index, hi⟩) hm hle
      · cases hf
  · intro hf
    cases hf with
    | register hname => cases hname
    | call hl => exact .inl ⟨hl, rfl⟩
    | depth hl hm hle =>
      obtain ⟨index, hi⟩ := exists_target_iff.mpr hl
      exact .inr ⟨index, hi, by rw [Limits.reached?_eq_some_iff.mpr ⟨hm, hle⟩]; rfl⟩

theorem effect_eq_error_iff {i : Instruction} :
    i.effect p.labels.target maxDepth span s = .error f ↔ i.Fails p maxDepth span s f := by
  cases i with
  | mov dst src =>
    refine fails_iff_of_checks ((Registers.checks_eval src).pure _) ?_
    rintro _ ⟨⟩
    exact ⟨_, rfl⟩
  | inc reg | dec reg =>
    refine fails_iff_of_checks ((Registers.checks_read reg).pure _) ?_
    rintro _ ⟨⟩
    exact ⟨_, rfl⟩
  | arith op dst src => exact arith_fails_iff
  | cmp lhs rhs =>
    refine fails_iff_of_checks ?_ ?_
    · exact (Registers.checks_eval lhs).bind fun a => (Registers.checks_eval rhs).pure _
    · rintro _ ⟨⟩
      exact ⟨_, rfl⟩
  | jump cond label => exact jump_fails_iff
  | call label => exact call_fails_iff
  | ret => exact ret_fails_iff
  | msg parts =>
    refine fails_iff_of_checks ((Message.checks_render parts).pure _) ?_
    rintro _ ⟨⟩
    exact ⟨_, rfl⟩
  | halt =>
    constructor
    · rintro ⟨⟩
    · rintro ⟨⟨⟩⟩

end Instruction

def Fault.isOfText : Fault → Bool
  | duplicateLabel _ _ _ => true
  | malformedOperand _ _ => true
  | unknownMnemonic _ _ => true
  | invalidOperands _ _ => true
  | illFormed _ _ => true
  | limitExceeded resource _ => resource == "source bytes"
  | _ => false

namespace Machine

variable {p : Program} {limits : Limits} {s : State} {statement : Statement} {f : Fault}

inductive Fails (p : Program) (limits : Limits) (s : State) : Statement → Fault → Prop
  | refused {statement max} : limits.maxSteps = some max → max.toNat ≤ s.steps →
      Fails p limits s statement (.stepLimit max)
  | instruction {i span f} : (∀ max, limits.maxSteps = some max → s.steps < max.toNat) →
      i.Fails p limits.maxCallDepth span s f → Fails p limits s (.instruction i span) f

lemma fails_of_step (h : (step p limits s).1 = .fault f) :
    s.halted = false ∧ ∃ statement, p.statements[s.pc]? = some statement ∧
      Fails p limits s statement f := by
  have ht := step_transition p limits s
  rw [h] at ht
  generalize (step p limits s).2 = t at ht
  cases ht with
  | refused hr hs hm =>
    obtain ⟨hmax, hle⟩ := Limits.reached?_eq_some_iff.mp hm
    exact ⟨hr, _, hs, .refused hmax hle⟩
  | fault hf he =>
    rw [effect_count, Instruction.effect_eq_error_iff] at he
    exact ⟨hf.running, _, hf.fetched, .instruction (fun max hm => hf.steps_lt hm) he⟩

lemma step_of_fails (hr : s.halted = false) (hs : p.statements[s.pc]? = some statement)
    (h : Fails p limits s statement f) : (step p limits s).1 = .fault f := by
  cases h with
  | refused hm hle =>
    have hreached := Limits.reached?_eq_some_iff.mpr ⟨hm, hle⟩
    simp [step, hr, hs, hreached]
  | @instruction i span _ hg hi =>
    have hgranted : Limits.reached? limits.maxSteps s.steps = none := by
      rw [Option.eq_none_iff_forall_ne_some]
      intro max hm
      obtain ⟨hmax, hle⟩ := Limits.reached?_eq_some_iff.mp hm
      exact Nat.not_lt.mpr hle (hg max hmax)
    have hfetch : Fetches p limits s (.instruction i span) := ⟨hr, hs, hgranted⟩
    rw [← Instruction.effect_eq_error_iff, ← effect_count] at hi
    rw [hfetch.step_eq, execute_instruction, hi]
    rfl

lemma Fails.isOfText_eq_false (h : Fails p limits s statement f) : f.isOfText = false := by
  cases h with
  | refused => rfl
  | instruction _ hi => cases hi <;> rfl

lemma Fails.span_eq (h : Fails p limits s statement f) {place : Span}
    (hf : f.span? = some place) : place = statement.span := by
  cases h with
  | refused => cases hf
  | instruction _ hi =>
    cases hi with
    | depth => cases hf
    | register | zero | jump | call | ret => exact (Option.some.inj hf).symm

/-- A step fails exactly if the machine has come to a statement and the count of steps is used up,
or an instruction reads a register that is not there, divides by zero, goes to a label that is not
declared, calls too deep, or returns from no call. What comes first in this list is reported, at the
place of the statement, and no step fails as a text can that is no program. -/
theorem step_fails_iff (p : Program) (limits : Limits) (s : State) :
    (∀ f, (step p limits s).1 = .fault f ↔
      s.halted = false ∧ ∃ statement, p.statements[s.pc]? = some statement ∧
        Fails p limits s statement f) ∧
    ∀ f, (step p limits s).1 = .fault f → f.isOfText = false ∧
      ∀ place, f.span? = some place →
        ∃ statement, p.statements[s.pc]? = some statement ∧ statement.span = place := by
  refine ⟨fun f => ⟨fails_of_step, ?_⟩, fun f h => ?_⟩
  · rintro ⟨hr, statement, hs, hf⟩
    exact step_of_fails hr hs hf
  · obtain ⟨-, statement, hs, hf⟩ := fails_of_step h
    exact ⟨hf.isOfText_eq_false, fun place hp => ⟨statement, hs, (hf.span_eq hp).symm⟩⟩

def dividedByZero : Program where
  statements := #[.instruction (.mov "a" (.immediate 0)) ⟨1, 1⟩,
    .instruction (.arith .div "b" (.register "a")) ⟨2, 1⟩]
  labels := .empty
  labels_built := rfl

theorem missing_register_before_zero :
    (step dividedByZero {} (after dividedByZero {} 1 {})).1 =
        .fault (.undefinedRegister "b" ⟨2, 1⟩) ∧
      (Fault.undefinedRegister "b" ⟨2, 1⟩).isOfText = false := by
  have h := step_fails_iff dividedByZero {} (after dividedByZero {} 1 {})
  have hf : (step dividedByZero {} (after dividedByZero {} 1 {})).1 =
      .fault (.undefinedRegister "b" ⟨2, 1⟩) :=
    (h.1 _).mpr ⟨rfl, _, rfl, .instruction (by simp) (.register rfl)⟩
  exact ⟨hf, (h.2 _ hf).1⟩

end Machine

end RegAsm
