import Mathlib.Data.List.DropRight
import Mathlib.Data.List.TakeWhile
import RegAsm.Text.Line

namespace RegAsm.Text

lemma lines_eq_splitOn (cs : List Char) : lines cs = cs.splitOn '\n' := by
  induction cs with
  | nil => rfl
  | cons c cs ih =>
    rw [List.splitOn_cons_eq_if_modifyHead, ← ih]
    by_cases h : c = '\n'
    · simp [h]
    · simp [h, lines_cons h]

lemma lines_intercalate {ls : List (List Char)} (hls : ls ≠ []) (h : ∀ l ∈ ls, '\n' ∉ l) :
    lines (['\n'].intercalate ls) = ls := by
  rw [lines_eq_splitOn, List.splitOn_intercalate '\n' h hls]

lemma newline_notMem_of_mem_lines {cs l : List Char} (h : l ∈ lines cs) : '\n' ∉ l := by
  induction cs generalizing l with
  | nil =>
    obtain rfl := List.mem_singleton.mp h
    exact List.not_mem_nil
  | cons c cs ih =>
    by_cases hc : c = '\n'
    · subst hc
      obtain rfl | h := List.mem_cons.mp h
      · exact List.not_mem_nil
      · exact ih h
    · rw [lines_cons hc] at h
      cases hl : lines cs with
      | nil => simp [hl] at h
      | cons l' ls =>
        rw [hl, List.modifyHead_cons] at h
        obtain rfl | h := List.mem_cons.mp h
        · have hn : '\n' ∉ l' := ih (hl ▸ List.mem_cons_self)
          exact fun hm => (List.mem_cons.mp hm).elim (fun he => hc he.symm) hn
        · exact ih (hl ▸ List.mem_cons_of_mem _ h)

def Blanks (cs : List Char) : Prop :=
  ∀ c ∈ cs, isBlank c = true

structure Trimmed (cs : List Char) : Prop where
  ne_nil : cs ≠ []
  head : ∀ c ∈ cs.head?, isBlank c = false
  last : ∀ c ∈ cs.getLast?, isBlank c = false

variable {a b cs : List Char}

lemma Blanks.append (ha : Blanks a) (hb : Blanks b) : Blanks (a ++ b) := by
  intro c hc
  exact (List.mem_append.mp hc).elim (ha c) (hb c)

lemma blanks_takeWhile (cs : List Char) : Blanks (cs.takeWhile isBlank) :=
  fun _ hc => List.mem_takeWhile_imp hc

lemma head_dropWhile (f : Char → Bool) (cs : List Char) :
    ∀ c ∈ (cs.dropWhile f).head?, f c = false := by
  intro c hc
  have hn := List.head?_dropWhile_not f cs
  rwa [Option.mem_def.mp hc] at hn

lemma trimEnd_append (hb : Blanks b) (cs : List Char) : trimEnd (cs ++ b) = trimEnd cs := by
  have hr : ∀ c ∈ b.reverse, isBlank c = true := fun c hc => hb c (List.mem_reverse.mp hc)
  rw [trimEnd, List.reverse_append, List.dropWhile_append_of_pos hr, trimEnd]

lemma trimStart_of_head (h : ∀ c ∈ cs.head?, isBlank c = false) : trimStart cs = cs := by
  cases cs with
  | nil => rfl
  | cons c cs => exact List.dropWhile_cons_of_neg (by simp [h c rfl])

lemma trimEnd_of_last (h : ∀ c ∈ cs.getLast?, isBlank c = false) : trimEnd cs = cs := by
  have hr : trimStart cs.reverse = cs.reverse := trimStart_of_head (by simpa using h)
  rw [trimEnd, ← trimStart, hr, List.reverse_reverse]

lemma exists_trimEnd (cs : List Char) : ∃ b, Blanks b ∧ cs = trimEnd cs ++ b :=
  ⟨cs.rtakeWhile isBlank, fun _ hc => List.mem_rtakeWhile_imp hc,
    List.rdropWhile_append_rtakeWhile.symm⟩

lemma exists_trim (cs : List Char) :
    ∃ b, Blanks b ∧ cs = cs.takeWhile isBlank ++ trim cs ++ b := by
  obtain ⟨b, hb, he⟩ := exists_trimEnd (trimStart cs)
  refine ⟨b, hb, ?_⟩
  rw [List.append_assoc, trim, ← he, trimStart, List.takeWhile_append_dropWhile]

lemma trim_of_blanks (h : Blanks cs) : trim cs = [] := by
  have hs : trimStart cs = [] := List.dropWhile_eq_nil_iff.mpr h
  rw [trim, hs]
  rfl

lemma trim_append (ha : Blanks a) (hb : Blanks b) (ht : Trimmed cs) : trim (a ++ cs ++ b) = cs := by
  have hs : trimStart (a ++ cs ++ b) = cs ++ b := by
    rw [List.append_assoc, trimStart, List.dropWhile_append_of_pos ha]
    apply trimStart_of_head
    intro c hc
    rw [List.head?_append_of_ne_nil _ ht.ne_nil] at hc
    exact ht.head c hc
  rw [trim, hs, trimEnd_append hb, trimEnd_of_last ht.last]

lemma indent_append (ha : Blanks a) (ht : Trimmed cs) (b : List Char) :
    indent (a ++ cs ++ b) = width a := by
  obtain ⟨c, cs, rfl⟩ := List.exists_cons_of_ne_nil ht.ne_nil
  have hc : isBlank c = false := ht.head c rfl
  rw [indent, List.append_assoc, List.takeWhile_append_of_pos ha]
  simp [hc]

lemma trimmed_trim (h : trim cs ≠ []) : Trimmed (trim cs) where
  ne_nil := h
  head c hc := by
    have hp : trim cs <+: trimStart cs := List.rdropWhile_prefix isBlank _
    have hh : c ∈ (trimStart cs).head? := by
      obtain ⟨d, ds, hd⟩ := List.exists_cons_of_ne_nil h
      obtain ⟨t, ht⟩ := hp
      rw [hd] at hc ht
      rw [← ht]
      exact hc
    exact head_dropWhile isBlank cs c hh
  last c hc := by
    obtain ⟨hne, rfl⟩ := List.mem_getLast?_eq_getLast hc
    exact Bool.eq_false_iff.mpr (List.rdropWhile_last_not isBlank (trimStart cs) hne)

structure OneLine (cs : List Char) : Prop extends Trimmed cs where
  newline : '\n' ∉ cs

lemma oneLine_of_forall (hne : cs ≠ []) (h : ∀ c ∈ cs, isBlank c = false) : OneLine cs where
  ne_nil := hne
  head c hc := h c (List.mem_of_mem_head? hc)
  last c hc := h c (List.mem_of_mem_getLast? hc)
  newline hm := by
    have := h '\n' hm
    contradiction

lemma OneLine.append (ha : OneLine a) (hb : OneLine b) {gap : List Char} (hg : '\n' ∉ gap) :
    OneLine (a ++ (gap ++ b)) where
  ne_nil := by simp [ha.ne_nil]
  head := by
    rw [List.head?_append_of_ne_nil _ ha.ne_nil]
    exact ha.head
  last := by
    rw [← List.append_assoc, List.getLast?_append_of_ne_nil _ hb.ne_nil]
    exact hb.last
  newline := by simp [ha.newline, hg, hb.newline]

lemma oneLine_intercalate {sep : List Char} {ls : List (List Char)} (hs : '\n' ∉ sep)
    (hne : ls ≠ []) (h : ∀ l ∈ ls, OneLine l) : OneLine (sep.intercalate ls) := by
  induction ls with
  | nil => contradiction
  | cons l ls ih =>
    obtain ⟨hl, hls⟩ := List.forall_mem_cons.mp h
    cases ls with
    | nil => simpa using hl
    | cons l' ls =>
      rw [List.intercalate_cons_cons, List.append_assoc]
      exact hl.append (ih (by simp) hls) hs

end RegAsm.Text
