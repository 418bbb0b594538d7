import RegAsm.Proofs.Machine.FlatSimulation
import RegAsm.Proofs.Machine.Nesting
import RegAsm.Proofs.Machine.Persistence

/-! Registers, flag and result follow from the instructions that have been carried out, whatever
jumps and calls led from one to the next. -/

namespace RegAsm

open Fallible

def Operand.value? (get : String → Option Word) : Operand → Option Word
  | immediate value => some value
  | register name => get name

def MessagePart.shown? (get : String → Option Word) : MessagePart → Option String
  | text content => some content
  | value operand => (operand.value? get).map Word.text

namespace Instruction

def destination? : Instruction → Option String
  | mov dst _ => some dst
  | inc reg => some reg
  | dec reg => some reg
  | arith _ dst _ => some dst
  | _ => none

def yield? (get : String → Option Word) : Instruction → Option Word
  | mov _ src => src.value? get
  | inc reg => (get reg).map (· + 1)
  | dec reg => (get reg).map (· - 1)
  | arith op dst src => do
    let a ← get dst
    let b ← src.value? get
    op.eval? a b
  | _ => none

end Instruction

def Condition.Relates (a b : Int) : Condition → Prop
  | always => True
  | equal => a = b
  | notEqual => a ≠ b
  | greater => a > b
  | greaterEqual => a ≥ b
  | less => a < b
  | lessEqual => a ≤ b

instance (a b : Int) : DecidablePred (Condition.Relates a b)
  | .always => inferInstanceAs (Decidable True)
  | .equal => inferInstanceAs (Decidable (a = b))
  | .notEqual => inferInstanceAs (Decidable (a ≠ b))
  | .greater => inferInstanceAs (Decidable (a > b))
  | .greaterEqual => inferInstanceAs (Decidable (a ≥ b))
  | .less => inferInstanceAs (Decidable (a < b))
  | .lessEqual => inferInstanceAs (Decidable (a ≤ b))

/-! A history lists the instructions that have been carried out, the newest first. -/

namespace History

def value? : List Instruction → String → Option Word
  | [], _ => none
  | i :: before, name =>
    if i.destination? = some name then i.yield? (value? before) else value? before name

def compared? : List Instruction → Option (Word × Word)
  | [] => none
  | .cmp lhs rhs :: before => do
    let a ← lhs.value? (value? before)
    let b ← rhs.value? (value? before)
    return (a, b)
  | _ :: before => compared? before

def lastCompared (h : List Instruction) : Word × Word :=
  -- before the first comparison the flag is as after one of equal words
  (compared? h).getD (0, 0)

def said? : List Instruction → Option String
  | [] => none
  | .msg parts :: before => (parts.mapM (MessagePart.shown? (value? before))).map String.join
  | _ :: before => said? before

end History

open History

structure Registers.Follow (h : List Instruction) (r : Registers) : Prop where
  value : ∀ name, r.get? name = value? h name
  moved : ∀ name, (r.get? name).isSome ↔ ∃ src, .mov name src ∈ h

structure FlagFollows (h : List Instruction) (flag : Ordering) : Prop where
  value : flag = ((compared? h).map fun (a, b) => compare a.toInt b.toInt).getD .eq
  compared : (compared? h).isSome ↔ ∃ lhs rhs, .cmp lhs rhs ∈ h

structure ResultFollows (h : List Instruction) (result : Option String) : Prop where
  value : result = said? h
  said : result.isSome ↔ ∃ parts, .msg parts ∈ h

structure State.Follows (h : List Instruction) (s : State) : Prop where
  registers : s.registers.Follow h
  flag : FlagFollows h s.flag
  result : ResultFollows h s.result
  halted : s.halted = true ↔ .halt ∈ h

variable {s t : State} {h : List Instruction} {i : Instruction} {span : Span}

lemma Condition.holds_compare_iff (cond : Condition) (a b : Int) :
    cond.holds (compare a b) = true ↔ cond.Relates a b := by
  obtain hc | hc | hc := Int.lt_trichotomy a b
  · have ho : compare a b = .lt := compare_lt_iff_lt.mpr hc
    cases cond <;> simp [holds, Relates, ho] <;> omega
  · have ho : compare a b = .eq := compare_eq_iff_eq.mpr hc
    cases cond <;> simp [holds, Relates, ho] <;> omega
  · have ho : compare a b = .gt := compare_gt_iff_gt.mpr hc
    cases cond <;> simp [holds, Relates, ho] <;> omega

lemma Registers.eval_eq_ok_iff {r : Registers} {o : Operand} {value : Word} :
    r.eval o span = .ok value ↔ o.value? r.get? = some value := by
  cases o with
  | immediate v => simp [eval, Operand.value?]
  | register name => exact read_eq_ok_iff

lemma Registers.read_eq_error_iff {r : Registers} {name : String} :
    r.read name span = .error (.undefinedRegister name span) ↔ r.get? name = none := by
  cases hr : r.get? name <;> simp [read, hr]

lemma Message.render_eq_ok_iff {r : Registers} {parts : List MessagePart} {text : String} :
    render (r.eval · span) parts = .ok text ↔
      (parts.mapM (MessagePart.shown? r.get?)).map String.join = some text := by
  induction parts generalizing text with
  | nil => simp [render]
  | cons p ps ih =>
    cases p with
    | text content =>
      simp only [render, bind_eq_ok_iff, ih, pure_eq_ok_iff, List.mapM_cons, MessagePart.shown?]
      cases ps.mapM (MessagePart.shown? r.get?) <;> simp
    | value o =>
      simp only [render, bind_eq_ok_iff, ih, pure_eq_ok_iff, Registers.eval_eq_ok_iff,
        List.mapM_cons, MessagePart.shown?]
      cases o.value? r.get? with
      | none => simp
      | some v => cases ps.mapM (MessagePart.shown? r.get?) <;> simp

namespace Registers.Follow

variable {r : Registers} {dst : String} {v : Word}

lemma get?_eq (hr : r.Follow h) : value? h = r.get? :=
  (funext hr.value).symm

lemma keep (hr : r.Follow h) (hi : i.destination? = none) : r.Follow (i :: h) where
  value name := by
    rw [value?, hi, hr.value]
    simp
  moved name := by
    have hne : ∀ src, .mov name src ≠ i := by
      rintro src rfl
      cases hi
    simp [hr.moved, hne]

lemma assign (hr : r.Follow h) (hd : i.destination? = some dst)
    (hy : i.yield? r.get? = some v) (hm : (∃ src, i = .mov dst src) ∨ (r.get? dst).isSome) :
    (r.set dst v).Follow (i :: h) where
  value name := by
    rw [get?_set, value?, hd, hr.get?_eq, hy]
    simp
  moved name := by
    by_cases he : dst = name
    · subst he
      rw [get?_set_self]
      refine iff_of_true rfl ?_
      obtain ⟨src, rfl⟩ | hs := hm
      · exact ⟨src, List.mem_cons_self⟩
      · obtain ⟨src, hsrc⟩ := (hr.moved dst).mp hs
        exact ⟨src, List.mem_cons_of_mem i hsrc⟩
    · have hne : ∀ src, .mov name src ≠ i := by
        rintro src rfl
        exact he (Option.some.inj hd).symm
      rw [get?_set_of_ne _ he]
      simp [hr.moved, hne]

end Registers.Follow

lemma FlagFollows.keep {flag : Ordering} (hf : FlagFollows h flag)
    (hi : ∀ lhs rhs, i ≠ .cmp lhs rhs) : FlagFollows (i :: h) flag := by
  have hc : compared? (i :: h) = compared? h := by
    cases i with
    | cmp lhs rhs => exact (hi lhs rhs rfl).elim
    | _ => rfl
  refine ⟨hc ▸ hf.value, ?_⟩
  simp [hc, hf.compared, fun lhs rhs => (hi lhs rhs).symm]

lemma FlagFollows.holds_iff {flag : Ordering} (hf : FlagFollows h flag) (cond : Condition) :
    cond.holds flag = true ↔
      cond.Relates (lastCompared h).1.toInt (lastCompared h).2.toInt := by
  have hv : flag = Ord.compare (lastCompared h).1.toInt (lastCompared h).2.toInt := by
    rw [hf.value, lastCompared]
    cases compared? h <;> rfl
  rw [hv, cond.holds_compare_iff]

lemma flagFollows_cmp {lhs rhs : Operand} {a b : Word} (ha : lhs.value? (value? h) = some a)
    (hb : rhs.value? (value? h) = some b) :
    FlagFollows (.cmp lhs rhs :: h) (Word.order a b) := by
  have hc : compared? (.cmp lhs rhs :: h) = some (a, b) := by simp [compared?, ha, hb]
  refine ⟨by rw [hc]; rfl, ?_⟩
  rw [hc]
  exact iff_of_true rfl ⟨lhs, rhs, List.mem_cons_self⟩

lemma ResultFollows.keep {result : Option String} (hr : ResultFollows h result)
    (hi : ∀ parts, i ≠ .msg parts) : ResultFollows (i :: h) result := by
  have hs : said? (i :: h) = said? h := by
    cases i with
    | msg parts => exact (hi parts rfl).elim
    | _ => rfl
  refine ⟨hs ▸ hr.value, ?_⟩
  simp [hr.said, fun parts => (hi parts).symm]

lemma resultFollows_msg {parts : List MessagePart} {text : String}
    (ht : (parts.mapM (MessagePart.shown? (value? h))).map String.join = some text) :
    ResultFollows (.msg parts :: h) (some text) :=
  ⟨ht.symm, iff_of_true rfl ⟨parts, List.mem_cons_self⟩⟩

namespace State.Follows

lemma start : State.Follows [] {} where
  registers := ⟨fun name => by simp [value?], fun name => by simp⟩
  flag := ⟨rfl, by simp [compared?]⟩
  result := ⟨rfl, by simp⟩
  halted := by simp

lemma assign {name : String} {v : Word} (hs : s.Follows h) (hd : i.destination? = some name)
    (hy : i.yield? s.registers.get? = some v)
    (hm : (∃ src, i = .mov name src) ∨ (s.registers.get? name).isSome) :
    (s.apply (.assign name v)).Follows (i :: h) := by
  have hne : ∀ j, j.destination? = none → i ≠ j := by
    rintro j hj rfl
    cases hd.symm.trans hj
  refine ⟨hs.registers.assign hd hy hm, hs.flag.keep fun lhs rhs => hne _ rfl,
    hs.result.keep fun parts => hne _ rfl, ?_⟩
  simp [State.apply, State.next, hs.halted, (hne .halt rfl).symm]

lemma performs {target : String → Span → Except Fault Nat} {maxDepth : Option UInt64} {e : Effect}
    (hs : s.Follows h) (hp : i.Performs target maxDepth span s e) : (s.apply e).Follows (i :: h) := by
  cases hp with
  | mov hv => exact hs.assign rfl (Registers.eval_eq_ok_iff.mp hv) (.inl ⟨_, rfl⟩)
  | inc hv | dec hv =>
    exact hs.assign rfl (by simp [Instruction.yield?, hv]) (.inr (by simp [hv]))
  | arith ha hb hv =>
    have hb := Registers.eval_eq_ok_iff.mp hb
    exact hs.assign rfl (by simp [Instruction.yield?, ha, hb, hv]) (.inr (by simp [ha]))
  | cmp ha hb =>
    have ha := Registers.eval_eq_ok_iff.mp ha
    have hb := Registers.eval_eq_ok_iff.mp hb
    rw [← hs.registers.get?_eq] at ha hb
    refine ⟨hs.registers.keep rfl, flagFollows_cmp ha hb, hs.result.keep (by simp), ?_⟩
    simp [State.apply, State.next, hs.halted]
  | msg ht =>
    have ht := Message.render_eq_ok_iff.mp ht
    rw [← hs.registers.get?_eq] at ht
    refine ⟨hs.registers.keep rfl, hs.flag.keep (by simp), resultFollows_msg ht, ?_⟩
    simp [State.apply, State.next, hs.halted]
  | jump | pass | call | ret | halt =>
    refine ⟨hs.registers.keep rfl, hs.flag.keep (by simp), hs.result.keep (by simp), ?_⟩
    simp [State.apply, State.next, hs.halted]

lemma unique (hs : s.Follows h) (ht : t.Follows h) :
    s.registers = t.registers ∧ s.flag = t.flag ∧ s.result = t.result ∧ s.halted = t.halted := by
  refine ⟨?_, hs.flag.value.trans ht.flag.value.symm, hs.result.value.trans ht.result.value.symm, ?_⟩
  · ext1 name
    rw [hs.registers.value, ht.registers.value]
  · rw [Bool.eq_iff_iff, hs.halted, ht.halted]

end State.Follows

namespace Machine

variable {p : Program} {limits : Limits} {n : Nat}

def executed? (p : Program) (limits : Limits) (s : State) : Option Instruction :=
  match (step p limits s).1 with
  | .fault _ => none
  | _ => (instructionAt p s).map Prod.fst

def completed (p : Program) (limits : Limits) : Nat → List Instruction
  | 0 => []
  | n + 1 => (executed? p limits (after p limits n {})).toList ++ completed p limits n

lemma Fetches.instructionAt (hf : Fetches p limits s (.instruction i span)) :
    instructionAt p s = some (i, span) := by
  simp [Machine.instructionAt, hf.running, hf.fetched, Statement.code?]

lemma step_follows (hs : s.Follows h) :
    (step p limits s).2.Follows ((executed? p limits s).toList ++ h) := by
  have ht := step_transition p limits s
  rw [executed?]
  generalize (step p limits s).1 = answer at ht ⊢
  generalize (step p limits s).2 = t at ht ⊢
  have hcount : s.count.Follows h := ⟨hs.registers, hs.flag, hs.result, hs.halted⟩
  cases ht with
  | halted hh => simpa [instructionAt, hh] using hs
  | fellOff hh hn => simpa [instructionAt, hh, hn] using hs
  | refused => exact hs
  | label hf =>
    have hi : instructionAt p s = none := by
      simp [instructionAt, hf.running, hf.fetched, Statement.code?]
    rw [hi]
    exact ⟨hs.registers, hs.flag, hs.result, hs.halted⟩
  | fault => exact hcount
  | @ended span hf =>
    rw [hf.instructionAt]
    exact hcount.performs (@Instruction.Performs.halt p.labels.target none span s.count)
  | ran hf _ hp =>
    rw [hf.instructionAt]
    exact hcount.performs hp

lemma after_follows (n : Nat) : (after p limits n {}).Follows (completed p limits n) := by
  induction n with
  | zero => exact .start
  | succ n ih =>
    rw [after_succ]
    exact step_follows ih

lemma after_succ_of_step {answer : Step} (hs : step p limits s = (answer, t)) (n : Nat) :
    after p limits (n + 1) s = after p limits n t := by
  rw [after, Function.iterate_succ_apply, hs, after]

lemma after_of_fixed (hs : (step p limits s).2 = s) (n : Nat) : after p limits n s = s :=
  Function.iterate_fixed hs n

lemma after_of_fault {f : Fault} (hs : step p limits s = (.fault f, t)) (n : Nat) :
    (after p limits n s).halted = false := by
  induction n generalizing s t f with
  | zero =>
    have ht := step_transition p limits s
    rw [hs] at ht
    cases ht with
    | refused hh => exact hh
    | fault hf => exact hf.running
  | succ n ih =>
    rw [after_succ_of_step hs]
    obtain ⟨u, hu⟩ | ⟨max, -, hu⟩ := step_fault_again hs
    · exact ih hu
    · exact ih hu

lemma running_of_ran (hs : step p limits s = (.ran, t)) : t.halted = false := by
  have ht := step_transition p limits s
  rw [hs] at ht
  cases ht with
  | label hf => exact hf.running
  | ran hf hne => exact (apply_halted hne).trans hf.running

lemma advance_eq_halted_iff (hs : s.halted = false) :
    advance p limits n s = (.halted, t) ↔
      (after p limits n s).halted = true ∧ after p limits n s = t := by
  induction n generalizing s with
  | zero => simp [advance, after_zero, hs]
  | succ n ih =>
    have ht := step_transition p limits s
    generalize hr : step p limits s = r at ht
    obtain ⟨answer, u⟩ := r
    cases answer with
    | ran => rw [advance_succ_of_ran hr, ih (running_of_ran hr), after_succ_of_step hr]
    | halted =>
      have hu : u.halted = true := by
        cases ht with
        | halted hh => exact hh
        | ended => rfl
      rw [advance_succ_of_ne_ran (by simp [hr]), hr, after_succ_of_step hr,
        after_of_fixed (by simp [step, hu])]
      simp [hu]
    | fellOff =>
      have hu : u = s := by
        cases ht with
        | fellOff => rfl
      rw [advance_succ_of_ne_ran (by simp [hr]), hr, after_of_fixed (by rw [hr, hu])]
      simp [hs]
    | fault f =>
      rw [advance_succ_of_ne_ran (by simp [hr]), hr, after_of_fault hr]
      simp

lemma run_output_iff (n : Nat) (x : String) :
    (∃ t, run p limits n {} = some (.output x, t)) ↔
      (after p limits n {}).halted = true ∧ x = (after p limits n {}).result.getD "" := by
  have houtput : ∀ {answer t}, Step.outcome? t answer = some (.output x) ↔
      answer = .halted ∧ t.result.getD "" = x := by
    intro answer t
    cases answer <;> simp [Step.outcome?]
  simp only [run_eq_some_iff, houtput]
  constructor
  · rintro ⟨t, _, ha, rfl, rfl⟩
    obtain ⟨hh, ht⟩ := (advance_eq_halted_iff rfl).mp ha
    exact ⟨hh, by rw [ht]⟩
  · rintro ⟨hh, rfl⟩
    exact ⟨_, _, (advance_eq_halted_iff rfl).mpr ⟨hh, rfl⟩, rfl, rfl⟩

def taken (p : Program) (s : State) (label : String) (span : Span) : Step × State :=
  match p.labels.index? label with
  | some index => (.ran, { s.count with pc := index })
  | none => (.fault (.undefinedLabel label span), s.count)

lemma Fetches.step_eq {statement : Statement} (hf : Fetches p limits s statement) :
    step p limits s = execute p limits s.count statement := by
  simp [step, hf.running, hf.fetched, hf.granted]

lemma Fetches.step_of_performs {e : Effect} (hf : Fetches p limits s (.instruction i span))
    (hp : i.Performs p.labels.target limits.maxCallDepth span s.count e) (he : e ≠ .halt) :
    step p limits s = (.ran, s.count.apply e) := by
  rw [hf.step_eq, execute_instruction, Instruction.effect_of_performs hp]
  simp only [Step.ofEffect]

lemma Fetches.step_jump {cond : Condition} {label : String}
    (hf : Fetches p limits s (.instruction (.jump cond label) span)) :
    step p limits s =
      if cond.holds s.flag then taken p s label span else (.ran, s.count.next) := by
  have hflag : s.count.flag = s.flag := rfl
  rw [hf.step_eq, execute_instruction]
  simp only [Instruction.effect, hflag]
  cases cond.holds s.flag with
  | false => rfl
  | true =>
    simp only [if_true, taken, LabelTable.target]
    cases p.labels.index? label <;> rfl

/-- Registers, flag and result are what the history of a machine makes them, and the same for all
machines with that history. The outcome is an output exactly if `end` has been carried out, and then
it is the last message. A jump is taken exactly if its relation holds between the operands of the
last comparison, and reading a register fails exactly if nothing has been moved to it. -/
theorem state_follows_history (p : Program) (limits : Limits) (n : Nat) :
    let s := after p limits n {}
    let h := completed p limits n
    s.Follows h ∧
    (∀ q other m, completed q other m = h →
      (after q other m {}).registers = s.registers ∧ (after q other m {}).flag = s.flag ∧
        (after q other m {}).result = s.result ∧ (after q other m {}).halted = s.halted) ∧
    (∀ x, (∃ t, run p limits n {} = some (.output x, t)) ↔
      .halt ∈ h ∧ x = (said? h).getD "") ∧
    (∀ cond label span, Fetches p limits s (.instruction (.jump cond label) span) →
      (cond.Relates (lastCompared h).1.toInt (lastCompared h).2.toInt →
        step p limits s = taken p s label span) ∧
      (¬ cond.Relates (lastCompared h).1.toInt (lastCompared h).2.toInt →
        step p limits s = (.ran, s.count.next))) ∧
    ∀ name span, s.registers.read name span = .error (.undefinedRegister name span) ↔
      ∀ src, .mov name src ∉ h := by
  intro s h
  have hs : s.Follows h := after_follows n
  refine ⟨hs, fun q other m hq => ?_, fun x => ?_, fun cond label span hf => ?_,
    fun name span => ?_⟩
  · have hm : (after q other m {}).Follows (completed q other m) := after_follows m
    exact (hq ▸ hm).unique hs
  · rw [run_output_iff, hs.halted, hs.result.value]
  · rw [hf.step_jump, ← hs.flag.holds_iff]
    exact ⟨fun hc => if_pos hc, fun hc => if_neg hc⟩
  · rw [Registers.read_eq_error_iff, ← Option.not_isSome_iff_eq_none, hs.registers.moved,
      not_exists]

def countdown : Program where
  statements := #[.instruction (.mov "n" (.immediate 2)) ⟨1, 1⟩, .label "top" ⟨2, 1⟩,
    .instruction (.dec "n") ⟨3, 1⟩, .instruction (.cmp (.register "n") (.immediate 0)) ⟨4, 1⟩,
    .instruction (.jump .greater "top") ⟨5, 1⟩, .instruction (.msg [.value (.register "n")]) ⟨6, 1⟩,
    .instruction .halt ⟨7, 1⟩]
  labels := ⟨LabelTable.empty.declarations.insert "top" ⟨1, ⟨2, 1⟩⟩⟩
  labels_built := rfl

theorem countdown_follows_history :
    completed countdown {} 4 =
        [.cmp (.register "n") (.immediate 0), .dec "n", .mov "n" (.immediate 2)] ∧
      step countdown {} (after countdown {} 4 {}) =
        taken countdown (after countdown {} 4 {}) "top" ⟨5, 1⟩ ∧
      (∃ t, run countdown {} 11 {} = some (.output "0", t)) := by
  have hj := (state_follows_history countdown {} 4).2.2.2.1 .greater "top" ⟨5, 1⟩
    ⟨rfl, rfl, rfl⟩
  have ho := (state_follows_history countdown {} 11).2.2.1 "0"
  exact ⟨rfl, hj.1 (by decide), ho.mpr (by decide)⟩

end Machine

end RegAsm
