import Mathlib.Data.Int.ModEq
import RegAsm.Proofs.Embedding
import RegAsm.Proofs.Machine.Failure
import RegAsm.Proofs.Printing.RoundTrip

namespace RegAsm

variable {a b v : Word} {source : String} {o : Outcome}

def Yields (source : String) (o : Outcome) : Prop :=
  ∀ x, Interprets source x ↔ x = o

namespace Word

lemma text_eq (w : Word) : w.text = toString w.toInt := by
  rw [text]
  cases w.toInt <;> rfl

lemma toInt_modEq_iff {w : Word} {n : Int} :
    w.toInt ≡ n [ZMOD 2 ^ 64] ↔ w = Int64.ofInt n := by
  rw [← Int64.toInt_inj, Int64.toInt_ofInt]
  constructor
  · intro h
    -- a word is its own balanced remainder
    rw [← w.toInt_bmod_size, ← Int.emod_bmod w.toInt, ← Int.emod_bmod n]
    exact congrArg (Int.bmod · Int64.size) h
  · intro h
    rw [h]
    exact Int.bmod_emod

lemma eq_zero_iff : b = 0 ↔ b.toInt = 0 := by
  rw [← Int64.toInt_inj]
  rfl

lemma toInt_div (a b : Word) :
    (a / b).toInt =
      if a.toInt = -2 ^ 63 ∧ b.toInt = -1 then -2 ^ 63 else a.toInt.tdiv b.toInt := by
  have hmin : a.toInt = -2 ^ 63 ↔ a = Int64.minValue := by
    rw [← Int64.toInt_inj]
    rfl
  have hneg : b.toInt = -1 ↔ b = -1 := by
    rw [← Int64.toInt_inj]
    rfl
  simp only [hmin, hneg]
  split_ifs with h
  · obtain ⟨rfl, rfl⟩ := h
    rfl
  · by_cases ha : a = Int64.minValue
    · exact Int64.toInt_div_of_ne_right a b fun hb => h ⟨ha, hb⟩
    · exact Int64.toInt_div_of_ne_left a b ha

end Word

lemma Program.yields_printed {p : Program} {budget : Nat} {t : State}
    (hsource : "\n".intercalate (p.statements.toList.map Statement.print) = source)
    (hw : ∀ s ∈ p.statements.toList, s.WellFormed)
    (hp : (p.statements.toList.mapIdx fun k s => s.placed ⟨UInt32.ofNat (k + 1), 1⟩) =
      p.statements.toList)
    (hr : Machine.run p {} budget {} = some (o, t)) : Yields source o := by
  have hparse : parse source = .ok p := by
    rw [parse_eq_ok_iff, ← hsource, Statement.parseAll_print hw, hp]
  have ho : Interprets source o := by
    refine ⟨budget, ?_⟩
    rw [interpret, hparse]
    exact congrArg (Option.map Prod.fst) hr
  exact fun x => ⟨ho.unique, fun hx => hx ▸ ho⟩

namespace Machine

lemma run_message {p : Program} {limits : Limits} {s : State} {parts : List MessagePart}
    {text : String} {span place : Span}
    (hm : Fetches p limits s (.instruction (.msg parts) span))
    (ht : Message.render (s.registers.eval · span) parts = .ok text)
    (he : Fetches p limits (s.count.apply (.say text)) (.instruction .halt place)) :
    ∃ t, run p limits 2 s = some (.output text, t) := by
  have hend : step p limits (s.count.apply (.say text)) =
      (.halted, (s.count.apply (.say text)).count.apply .halt) := he.step_eq
  rw [run_succ_of_ran (hm.step_of_performs (.msg ht) (by simp)), run,
    advance_succ_of_ne_ran (by simp [hend]), hend]
  exact ⟨_, rfl⟩

end Machine

def calculation (operation : String) (a b : Int) : String :=
  "\n".intercalate ["mov r, " ++ toString a, operation ++ " r, " ++ toString b, "msg r", "end"]

def Program.calculating (op : Arithmetic) (a b : Word) : Program where
  statements := #[.instruction (.mov "r" (.immediate a)) ⟨1, 1⟩,
    .instruction (.arith op "r" (.immediate b)) ⟨2, 1⟩,
    .instruction (.msg [.value (.register "r")]) ⟨3, 1⟩, .instruction .halt ⟨4, 1⟩]
  labels := .empty
  labels_built := rfl

lemma print_calculating (op : Arithmetic) (a b : Word) :
    "\n".intercalate ((Program.calculating op a b).statements.toList.map Statement.print) =
      calculation op.mnemonic.name a.toInt b.toInt := by
  rw [← String.toList_inj]
  simp [calculation, Program.calculating, Statement.print, Instruction.print,
    Instruction.operands, Instruction.mnemonic, Operand.print, MessagePart.print, Word.text_eq,
    Mnemonic.name]

lemma yields_calculation (op : Arithmetic) {budget : Nat} {t : State}
    (h : Machine.run (.calculating op a b) {} budget {} = some (o, t)) :
    Yields (calculation op.mnemonic.name a.toInt b.toInt) o := by
  refine Program.yields_printed (print_calculating op a b) ?_ rfl h
  have hr : IsName "r" := by decide
  simp [Program.calculating, Statement.WellFormed, Instruction.WellFormed, Operand.WellFormed,
    MessagePart.WellFormed, hr]

namespace Machine

lemma step_calculating (op : Arithmetic) (a b : Word) :
    step (.calculating op a b) {} {} = (.ran, State.apply (State.count {}) (.assign "r" a)) :=
  Fetches.step_of_performs ⟨rfl, rfl, rfl⟩ (.mov rfl) (by simp)

lemma run_calculating {op : Arithmetic} (h : op.eval? a b = some v) :
    ∃ t, run (.calculating op a b) {} 4 {} = some (.output v.text, t) := by
  have hop : step (.calculating op a b) {} (State.apply (State.count {}) (.assign "r" a)) = _ :=
    Fetches.step_of_performs ⟨rfl, rfl, rfl⟩ (.arith (Registers.get?_set_self _ _ _) rfl h)
      (by simp)
  rw [run_succ_of_ran (step_calculating op a b), run_succ_of_ran hop]
  refine run_message ⟨rfl, rfl, rfl⟩ ?_ ⟨rfl, rfl, rfl⟩
  rw [Message.render_eq_ok_iff]
  simp [MessagePart.shown?, Operand.value?, State.apply, State.next, State.count]

lemma run_calculating_by_zero (a : Word) :
    ∃ t, run (.calculating .div a 0) {} 2 {} = some (.fault (.divisionByZero ⟨2, 1⟩), t) := by
  rw [run_succ_of_ran (step_calculating .div a 0)]
  refine run_succ_of_fault (step_of_fails rfl rfl (.instruction (by simp) (.zero ?_ rfl))) 0
  exact Option.isSome_iff_exists.mpr ⟨a, Registers.get?_set_self _ _ _⟩

end Machine

def branch (jump : String) (a b : Int) : String :=
  "\n".intercalate ["mov x, " ++ toString a, "cmp x, " ++ toString b, jump ++ " taken",
    "msg 'no'", "end", "taken:", "msg 'yes'", "end"]

def Program.branching (cond : Condition) (a b : Word) : Program where
  statements := #[.instruction (.mov "x" (.immediate a)) ⟨1, 1⟩,
    .instruction (.cmp (.register "x") (.immediate b)) ⟨2, 1⟩,
    .instruction (.jump cond "taken") ⟨3, 1⟩, .instruction (.msg [.text "no"]) ⟨4, 1⟩,
    .instruction .halt ⟨5, 1⟩, .label "taken" ⟨6, 1⟩,
    .instruction (.msg [.text "yes"]) ⟨7, 1⟩, .instruction .halt ⟨8, 1⟩]
  labels := ⟨LabelTable.empty.declarations.insert "taken" ⟨5, ⟨6, 1⟩⟩⟩
  labels_built := rfl

lemma print_branching (cond : Condition) (a b : Word) :
    "\n".intercalate ((Program.branching cond a b).statements.toList.map Statement.print) =
      branch cond.mnemonic.name a.toInt b.toInt := by
  rw [← String.toList_inj]
  simp [branch, Program.branching, Statement.print, Instruction.print, Instruction.operands,
    Instruction.mnemonic, Operand.print, MessagePart.print, Word.text_eq, Mnemonic.name]

lemma yields_branch {cond : Condition} {budget : Nat} {t : State}
    (h : Machine.run (.branching cond a b) {} budget {} = some (o, t)) :
    Yields (branch cond.mnemonic.name a.toInt b.toInt) o := by
  refine Program.yields_printed (print_branching cond a b) ?_ rfl h
  have hx : IsName "x" := by decide
  have ht : IsName "taken" := by decide
  have hno : (MessagePart.text "no").WellFormed := by decide
  have hyes : (MessagePart.text "yes").WellFormed := by decide
  simp [Program.branching, Statement.WellFormed, Instruction.WellFormed, Operand.WellFormed, hx, ht,
    hno, hyes]

def State.compared (a b : Word) : State where
  registers := Registers.empty.set "x" a
  flag := Word.order a b
  pc := 2
  steps := 2

namespace Machine

lemma run_branching_compared (cond : Condition) (a b : Word) (n : Nat) :
    run (.branching cond a b) {} (n + 2) {} = run (.branching cond a b) {} n (.compared a b) := by
  have hmov : step (.branching cond a b) {} {} =
      (.ran, State.apply (State.count {}) (.assign "x" a)) :=
    Fetches.step_of_performs ⟨rfl, rfl, rfl⟩ (.mov rfl) (by simp)
  have hx : (Registers.empty.set "x" a).eval (.register "x") ⟨2, 1⟩ = .ok a :=
    Registers.eval_eq_ok_iff.mpr (Registers.get?_set_self _ _ _)
  have hfetch : Fetches (.branching cond a b) {} (State.apply (State.count {}) (.assign "x" a))
      (.instruction (.cmp (.register "x") (.immediate b)) ⟨2, 1⟩) := ⟨rfl, rfl, rfl⟩
  have hcmp : step (.branching cond a b) {} (State.apply (State.count {}) (.assign "x" a)) =
      (.ran, .compared a b) := hfetch.step_of_performs (.cmp hx rfl) (by simp)
  rw [run_succ_of_ran hmov, run_succ_of_ran hcmp]

lemma run_branching (cond : Condition) (a b : Word) :
    ∃ budget t, run (.branching cond a b) {} budget {} =
      some (.output (if cond.Relates a.toInt b.toInt then "yes" else "no"), t) := by
  have hfetch : Fetches (.branching cond a b) {} (.compared a b)
      (.instruction (.jump cond "taken") ⟨3, 1⟩) := ⟨rfl, rfl, rfl⟩
  have hflag : cond.holds (Word.order a b) = true ↔ cond.Relates a.toInt b.toInt :=
    cond.holds_compare_iff _ _
  split_ifs with hc
  · have hjump := hfetch.step_of_performs (e := .goto 5) (.jump (hflag.mpr hc) rfl) (by simp)
    -- the declaration of the label is a step of its own
    have hlabel : step (.branching cond a b) {} ((State.compared a b).count.apply (.goto 5)) = _ :=
      Fetches.step_eq ⟨rfl, rfl, rfl⟩
    refine ⟨6, ?_⟩
    rw [run_branching_compared, run_succ_of_ran hjump, run_succ_of_ran hlabel]
    exact run_message ⟨rfl, rfl, rfl⟩ rfl ⟨rfl, rfl, rfl⟩
  · have hpass := hfetch.step_of_performs (.pass (Bool.eq_false_iff.mpr (mt hflag.mp hc))) (by simp)
    refine ⟨5, ?_⟩
    rw [run_branching_compared, run_succ_of_ran hpass]
    exact run_message ⟨rfl, rfl, rfl⟩ rfl ⟨rfl, rfl, rfl⟩

end Machine

def YieldsWord (source : String) (n : Int) : Prop :=
  ∃ v : Word, (∀ w : Word, w.toInt ≡ n [ZMOD 2 ^ 64] ↔ w = v) ∧
    Yields source (.output (toString v.toInt))

lemma yields_of_eval (op : Arithmetic) (h : op.eval? a b = some v) :
    Yields (calculation op.mnemonic.name a.toInt b.toInt) (.output (toString v.toInt)) := by
  obtain ⟨t, ht⟩ := Machine.run_calculating h
  rw [← v.text_eq]
  exact yields_calculation op ht

lemma yieldsWord_of_eval (op : Arithmetic) {n : Int} (h : op.eval? a b = some (Int64.ofInt n)) :
    YieldsWord (calculation op.mnemonic.name a.toInt b.toInt) n :=
  ⟨Int64.ofInt n, fun _ => Word.toInt_modEq_iff, yields_of_eval op h⟩

lemma yields_quotient (h : b.toInt ≠ 0) :
    Yields (calculation "div" a.toInt b.toInt) (.output (toString
      (if a.toInt = -2 ^ 63 ∧ b.toInt = -1 then -2 ^ 63 else a.toInt.tdiv b.toInt))) := by
  have hb : b ≠ 0 := fun hb => h (Word.eq_zero_iff.mp hb)
  rw [← Word.toInt_div]
  exact yields_of_eval .div (if_neg hb)

lemma yields_divisionByZero (h : b.toInt = 0) :
    Yields (calculation "div" a.toInt b.toInt) (.fault (.divisionByZero ⟨2, 1⟩)) := by
  obtain rfl := Word.eq_zero_iff.mpr h
  obtain ⟨t, ht⟩ := Machine.run_calculating_by_zero a
  exact yields_calculation .div ht

lemma yields_relation (cond : Condition) (a b : Word) :
    Yields (branch cond.mnemonic.name a.toInt b.toInt)
      (.output (if cond.Relates a.toInt b.toInt then "yes" else "no")) := by
  obtain ⟨budget, t, ht⟩ := Machine.run_branching cond a b
  exact yields_branch ht

/-- What comes of two words that stand in a text in decimal. A sum, a difference or a product is the
one word congruent to it. A quotient is rounded toward zero, but for the one that is no word, and a
division by zero is reported where it stands. A jump is taken exactly if its relation holds between
the integers. -/
theorem operations_and_jumps_from_text_to_output (a b : Word) :
    YieldsWord (calculation "add" a.toInt b.toInt) (a.toInt + b.toInt) ∧
    YieldsWord (calculation "sub" a.toInt b.toInt) (a.toInt - b.toInt) ∧
    YieldsWord (calculation "mul" a.toInt b.toInt) (a.toInt * b.toInt) ∧
    (b.toInt ≠ 0 → Yields (calculation "div" a.toInt b.toInt) (.output (toString
      (if a.toInt = -2 ^ 63 ∧ b.toInt = -1 then -2 ^ 63 else a.toInt.tdiv b.toInt)))) ∧
    (b.toInt = 0 →
      Yields (calculation "div" a.toInt b.toInt) (.fault (.divisionByZero ⟨2, 1⟩))) ∧
    Yields (branch "je" a.toInt b.toInt) (.output (if a.toInt = b.toInt then "yes" else "no")) ∧
    Yields (branch "jne" a.toInt b.toInt) (.output (if a.toInt ≠ b.toInt then "yes" else "no")) ∧
    Yields (branch "jg" a.toInt b.toInt) (.output (if a.toInt > b.toInt then "yes" else "no")) ∧
    Yields (branch "jge" a.toInt b.toInt) (.output (if a.toInt ≥ b.toInt then "yes" else "no")) ∧
    Yields (branch "jl" a.toInt b.toInt) (.output (if a.toInt < b.toInt then "yes" else "no")) ∧
    Yields (branch "jle" a.toInt b.toInt)
      (.output (if a.toInt ≤ b.toInt then "yes" else "no")) := by
  refine ⟨yieldsWord_of_eval .add ?_, yieldsWord_of_eval .sub ?_,
    yieldsWord_of_eval .mul ?_, yields_quotient, yields_divisionByZero,
    yields_relation .equal a b, yields_relation .notEqual a b, yields_relation .greater a b,
    yields_relation .greaterEqual a b, yields_relation .less a b, yields_relation .lessEqual a b⟩
  · rw [Int64.ofInt_add, Int64.ofInt_toInt, Int64.ofInt_toInt]
    rfl
  · rw [Int64.ofInt_sub, Int64.ofInt_toInt, Int64.ofInt_toInt]
    rfl
  · rw [Int64.ofInt_mul, Int64.ofInt_toInt, Int64.ofInt_toInt]
    rfl

theorem least_word_divided :
    Yields (calculation "div" (-2 ^ 63) (-1)) (.output "-9223372036854775808") ∧
      Yields (calculation "div" (-2 ^ 63) 0) (.fault (.divisionByZero ⟨2, 1⟩)) :=
  ⟨(operations_and_jumps_from_text_to_output Int64.minValue (-1)).2.2.2.1 (by decide),
    (operations_and_jumps_from_text_to_output Int64.minValue 0).2.2.2.2.1 rfl⟩

end RegAsm
