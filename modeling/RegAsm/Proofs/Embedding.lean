import RegAsm.Embedding
import RegAsm.Proofs.Labels
import RegAsm.Proofs.Machine.Truncation

namespace RegAsm

open Fallible

def Outcome.ofOutput : Option String → Outcome
  | some text => .output text
  | none => .fellOff

lemma Outcome.ofOutput_ne_fault (x : Option String) (f : Fault) : ofOutput x ≠ .fault f := by
  cases x <;> simp [ofOutput]

def Interprets (source : String) (o : Outcome) : Prop :=
  ∃ budget, interpret budget source = some o

/-- Running a text without limits ends so, after at most `steps` statements and with never more than
`depth` pending calls. -/
def InterpretsWithin (steps depth : Nat) (source : String) (o : Outcome) : Prop :=
  ∃ p budget t, Program.parse source = .ok p ∧ Machine.run p {} budget {} = some (o, t) ∧
    t.steps ≤ steps ∧ ∀ d ∈ Machine.depths p, d ≤ depth

lemma Machine.run_mono {p : Program} {limits : Limits} {s : State} {m n : Nat} {r : Outcome × State}
    (h : run p limits m s = some r) (hn : m ≤ n) : run p limits n s = some r := by
  obtain ⟨o, t⟩ := r
  obtain ⟨answer, ha, ho⟩ := run_eq_some_iff.mp h
  have hs : (advance p limits m s).1 ≠ .ran := by
    rw [ha]
    exact ne_ran_of_outcome ho
  exact run_eq_some_iff.mpr ⟨answer, (advance_of_stopped hs hn).trans ha, ho⟩

lemma Interprets.unique {source : String} {o x : Outcome} (h : Interprets source o)
    (hx : Interprets source x) : x = o := by
  obtain ⟨m, hm⟩ := h
  obtain ⟨n, hn⟩ := hx
  unfold interpret at hm hn
  cases hp : Program.parse source with
  | error f =>
    rw [hp] at hm hn
    exact Option.some.inj (hn.symm.trans hm)
  | ok p =>
    rw [hp] at hm hn
    obtain ⟨r, hr, rfl⟩ := Option.map_eq_some_iff.mp hm
    obtain ⟨q, hq, rfl⟩ := Option.map_eq_some_iff.mp hn
    have hr := Machine.run_mono hr (Nat.le_max_left m n)
    have hq := Machine.run_mono hq (Nat.le_max_right m n)
    rw [Option.some.inj (hq.symm.trans hr)]

namespace Limits

variable {limits : Limits} {source : String} {o : Outcome} {max depth : UInt64}

def Ends (limits : Limits) (source : String) (o : Outcome) : Prop :=
  ∃ budget, limits.run budget source = some o

lemma run_mono {m n : Nat} (h : limits.run m source = some o) (hn : m ≤ n) :
    limits.run n source = some o := by
  unfold run at h ⊢
  cases hp : limits.parse source with
  | error f => rwa [hp] at h
  | ok p =>
    rw [hp] at h
    obtain ⟨r, hr, rfl⟩ := Option.map_eq_some_iff.mp h
    simp [Machine.run_mono hr hn]

lemma outcome_eq_iff (hm : limits.maxSteps = some max) :
    limits.outcome max hm source = o ↔ limits.Ends source o := by
  have hget : limits.run (max.toNat + 1) source = some (limits.outcome max hm source) :=
    (Option.some_get (run_isSome hm source)).symm
  constructor
  · rintro rfl
    exact ⟨_, hget⟩
  · rintro ⟨budget, h⟩
    have h₁ := run_mono hget (Nat.le_max_left _ budget)
    have h₂ := run_mono h (Nat.le_max_right (max.toNat + 1) budget)
    exact Option.some.inj (h₁.symm.trans h₂)

lemma run_eq_some_iff_of_ne_fault {budget : Nat} (ho : ∀ f, o ≠ .fault f) :
    limits.run budget source = some o ↔
      source.utf8ByteSize ≤ limits.maxSourceBytes.toNat ∧
        ∃ p t, Program.parse source = .ok p ∧ Machine.run p limits budget {} = some (o, t) := by
  have hfault : ∀ f, some (.fault f) ≠ some o := fun f h => ho f (Option.some.inj h).symm
  rw [run, parse]
  split_ifs with hsize
  · simp [hfault, hsize]
  · cases hp : Program.parse source with
    | error f => simp [hfault]
    | ok p => simp [Nat.le_of_not_lt hsize]

lemma ends_iff (hs : limits.maxSteps = some max) (hd : limits.maxCallDepth = some depth)
    (ho : ∀ f, o ≠ .fault f) :
    limits.Ends source o ↔
      source.utf8ByteSize ≤ limits.maxSourceBytes.toNat ∧
        InterpretsWithin max.toNat depth.toNat source o := by
  have hnot : ¬ o.IsLimit := by
    rintro ⟨resource, limit, h⟩
    exact ho _ h
  have hfree : ∀ a : Option UInt64, AtMost a none := fun a n hn => by cases hn
  simp only [Ends, run_eq_some_iff_of_ne_fault ho]
  constructor
  · rintro ⟨budget, hsize, p, t, hp, hr⟩
    have hu : Machine.run p {} budget {} = some (o, t) :=
      Machine.run_relax hr hnot (hfree _) (hfree _)
    obtain ⟨d, hg, -, hrefused⟩ := @Machine.run_of_ended _ limits _ _ _ hu
    have ha : limits.Allows t.steps d := by
      by_contra hn
      obtain ⟨o', u, hr', hl⟩ := hrefused hn
      cases hr.symm.trans hr'
      exact hnot hl
    exact ⟨hsize, p, budget, t, hp, hu, ha.1 max hs, fun e he => (hg.2 he).trans (ha.2 depth hd)⟩
  · rintro ⟨hsize, p, budget, t, hp, hu, hsteps, hdepth⟩
    obtain ⟨d, hg, hrun, -⟩ := @Machine.run_of_ended _ limits _ _ _ hu
    have ha : limits.Allows t.steps d := by
      constructor
      · intro m hm
        cases hs.symm.trans hm
        exact hsteps
      · intro m hm
        cases hd.symm.trans hm
        exact hdepth d hg.1
    exact ⟨budget, hsize, p, t, hp, hrun ha⟩

end Limits

lemma InterpretsWithin.interprets {steps depth : Nat} {source : String} {o : Outcome}
    (h : InterpretsWithin steps depth source o) : Interprets source o := by
  obtain ⟨p, budget, t, hp, hr, -⟩ := h
  refine ⟨budget, ?_⟩
  rw [interpret, hp]
  exact congrArg (Option.map Prod.fst) hr

namespace Embedding

variable {tokens : List HostToken}

def Hold (tokens : List HostToken) (spelling : String) : Prop :=
  tokens = [.literal spelling] ∨ tokens = [.literal spelling, .punctuation ',']

lemma checkRest_eq_ok_iff {rest : List HostToken} :
    checkRest rest = .ok ⟨⟩ ↔ rest = [] ∨ rest = [.punctuation ','] := by
  unfold checkRest
  split <;> simp_all

lemma source_eq_ok_iff {text : String} :
    source tokens = .ok text ↔
      ∃ spelling cs, Hold tokens spelling ∧ Literal.decode spelling.toList = .ok cs ∧
        String.ofList cs = text := by
  constructor
  · intro h
    unfold source at h
    split at h
    · cases h
    · rename_i spelling rest
      split at h
      · cases h
      · rename_i cs hcs
        obtain ⟨_, hrest, ht⟩ := bind_eq_ok_iff.mp h
        obtain rfl | rfl := checkRest_eq_ok_iff.mp hrest
        · exact ⟨spelling, cs, .inl rfl, hcs, pure_eq_ok_iff.mp ht⟩
        · exact ⟨spelling, cs, .inr rfl, hcs, pure_eq_ok_iff.mp ht⟩
    · cases h
  · rintro ⟨spelling, cs, rfl | rfl, hcs, rfl⟩
    · simp only [source, hcs]
      rfl
    · simp only [source, hcs]
      rfl

lemma evaluate_eq_ok_iff {x : Option String} :
    evaluate tokens = .ok x ↔
      ∃ text, source tokens = .ok text ∧ limits.Ends text (.ofOutput x) := by
  rw [evaluate, bind_eq_ok_iff]
  apply exists_congr
  intro text
  apply and_congr_right
  intro _
  rw [← Limits.outcome_eq_iff rfl]
  split
  · rename_i out ho
    rw [ho]
    cases x <;> simp [Outcome.ofOutput]
  · rename_i ho
    rw [ho]
    cases x <;> simp [Outcome.ofOutput]
  · rename_i f ho
    rw [ho]
    simp [(Outcome.ofOutput_ne_fault x f).symm, throw, throwThe, MonadExceptOf.throw]

lemma evaluateText_eq (tokens : List HostToken) :
    evaluateText tokens =
      match evaluate tokens with
      | .ok (some out) => .ok out
      | .ok none => .error ⟨.fellOff, some 0⟩
      | .error d => .error d := by
  rw [evaluateText]
  cases evaluate tokens with
  | error d => rfl
  | ok x => cases x <;> rfl

/-- A literal, and perhaps a comma after it, are run as the text that the literal stands for, with
at most ten million steps and 4096 pending calls. They give an output exactly if running the text
under these limits does, so if its size is allowed and running it without limits gives that output
and keeps to them. An embedded text is the output if there is one; if there is none, the literal is
to blame, and all other problems are the same. -/
theorem embedding_agrees_with_interpreter (tokens : List HostToken) :
    (∀ x, evaluate tokens = .ok x ↔
      ∃ spelling cs, Hold tokens spelling ∧ Literal.decode spelling.toList = .ok cs ∧
        Limits.Ends { maxSteps := some 10000000, maxCallDepth := some 4096 } (String.ofList cs)
          (.ofOutput x)) ∧
    (∀ text x,
      Limits.Ends { maxSteps := some 10000000, maxCallDepth := some 4096 } text (.ofOutput x) ↔
        text.utf8ByteSize ≤ 64 * 1024 * 1024 ∧
          InterpretsWithin 10000000 4096 text (.ofOutput x)) ∧
    (∀ text x,
      Limits.Ends { maxSteps := some 10000000, maxCallDepth := some 4096 } text (.ofOutput x) →
        Interprets text (.ofOutput x)) ∧
    (∀ out, evaluateText tokens = .ok out ↔ evaluate tokens = .ok (some out)) ∧
    (evaluate tokens = .ok none → ∃ i spelling, tokens[i]? = some (.literal spelling) ∧
      evaluateText tokens = .error ⟨.fellOff, some i⟩) ∧
    ∀ d, evaluate tokens = .error d → evaluateText tokens = .error d := by
  have hlimits : ∀ text x, limits.Ends text (.ofOutput x) ↔ _ :=
    fun text x => Limits.ends_iff rfl rfl (Outcome.ofOutput_ne_fault x)
  refine ⟨fun x => ?_, hlimits, fun text x h => ((hlimits text x).mp h).2.interprets,
    fun out => ?_, fun h => ?_, fun d h => ?_⟩
  · simp only [evaluate_eq_ok_iff, source_eq_ok_iff]
    constructor
    · rintro ⟨_, ⟨spelling, cs, hh, hcs, rfl⟩, he⟩
      exact ⟨spelling, cs, hh, hcs, he⟩
    · rintro ⟨spelling, cs, hh, hcs, he⟩
      exact ⟨_, ⟨spelling, cs, hh, hcs, rfl⟩, he⟩
  · rw [evaluateText_eq]
    split <;> simp_all
  · obtain ⟨text, hs, -⟩ := evaluate_eq_ok_iff.mp h
    obtain ⟨spelling, cs, hh, -⟩ := source_eq_ok_iff.mp hs
    refine ⟨0, spelling, ?_, by rw [evaluateText_eq, h]⟩
    obtain rfl | rfl := hh <;> rfl
  · rw [evaluateText_eq, h]

def callOnce : Program where
  statements := #[.instruction (.call "f") ⟨1, 1⟩, .instruction .halt ⟨2, 1⟩, .label "f" ⟨3, 1⟩,
    .instruction (.msg [.text "A"]) ⟨3, 4⟩, .instruction .ret ⟨4, 1⟩]
  labels := ⟨LabelTable.empty.declarations.insert "f" ⟨2, ⟨3, 1⟩⟩⟩
  labels_built := rfl

def callTokens : List HostToken :=
  [.literal "\"call f\\nend\\nf: msg '\\x41'\\nret\"", .punctuation ',']

theorem embedded_call_is_run :
    evaluate callTokens = .ok (some "A") ∧ evaluateText callTokens = .ok "A" := by
  have h := embedding_agrees_with_interpreter callTokens
  have hd : Literal.decode "\"call f\\nend\\nf: msg '\\x41'\\nret\"".toList =
      .ok "call f\nend\nf: msg 'A'\nret".toList := by decide +kernel
  have hp : Program.parse "call f\nend\nf: msg 'A'\nret" = .ok callOnce :=
    Program.parse_eq_ok_iff.mpr (by decide +kernel)
  have hr : Machine.run callOnce {} 5 {} =
      some (.output "A", { pc := 1, result := some "A", steps := 5, halted := true }) := by rfl
  have hdepth : ∀ d ∈ Machine.depths callOnce, d ≤ 4096 := by
    have hfirst : ∀ n ≤ 5, (Machine.advance callOnce {} n {}).2.calls.length ≤ 4096 := by decide
    have hstop : (Machine.advance callOnce {} 5 {}).1 ≠ .ran := by decide
    rintro _ ⟨n, rfl⟩
    obtain hn | hn := Nat.le_total n 5
    · exact hfirst n hn
    · have he := Machine.advance_of_stopped hstop hn
      exact (congrArg (fun r => r.2.calls.length) he).trans_le (hfirst 5 le_rfl)
  have he := (h.1 (some "A")).mpr ⟨_, _, .inr rfl, hd, (h.2.1 _ _).mpr
    ⟨by decide, callOnce, 5, _, hp, hr, by decide, hdepth⟩⟩
  exact ⟨he, (h.2.2.2.1 "A").mpr he⟩

end Embedding

end RegAsm
