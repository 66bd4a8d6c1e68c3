import Mathlib

/-!
# Texts with separators

When can a text be taken apart again that was put together with separators?  One separator is
found again if as many separators stand before it on both sides (`append_cons_inj_of_count`), in
particular if none does, or if none follows.  Everything else is built on this: lines that are
closed by an empty one, and parts that are joined.
-/

namespace Separators

open List

variable {α : Type*} [DecidableEq α] {a : α} {x x' y y' : List α}

/-- The separator after equally many separators is the same one. -/
theorem append_cons_inj_of_count (hcount : x.count a = x'.count a)
    (heq : x ++ a :: y = x' ++ a :: y') : x = x' ∧ y = y' := by
  induction x generalizing x' with
  | nil =>
    cases x' with
    | nil => exact ⟨rfl, (List.cons.inj heq).2⟩
    | cons b x' =>
      obtain ⟨rfl, -⟩ := List.cons.inj heq
      rw [count_nil, count_cons_self] at hcount
      omega
  | cons b x ih =>
    cases x' with
    | nil =>
      obtain ⟨rfl, -⟩ := List.cons.inj heq
      rw [count_nil, count_cons_self] at hcount
      omega
    | cons c x' =>
      obtain ⟨rfl, htail⟩ := List.cons.inj heq
      have hcount' : x.count a = x'.count a := by
        rw [count_cons, count_cons] at hcount
        omega
      obtain ⟨rfl, rfl⟩ := ih hcount' htail
      exact ⟨rfl, rfl⟩

theorem append_cons_inj (hx : a ∉ x) (hx' : a ∉ x') (heq : x ++ a :: y = x' ++ a :: y') :
    x = x' ∧ y = y' := by
  refine append_cons_inj_of_count ?_ heq
  rw [count_eq_zero_of_not_mem hx, count_eq_zero_of_not_mem hx']

/-- The last separator is found from the other end. -/
theorem append_cons_inj_last (hy : a ∉ y) (hy' : a ∉ y') (heq : x ++ a :: y = x' ++ a :: y') :
    x = x' ∧ y = y' := by
  have hcount : x.count a = x'.count a := by
    have hall := congrArg (List.count a) heq
    rw [count_append, count_append, count_cons_self, count_cons_self,
      count_eq_zero_of_not_mem hy, count_eq_zero_of_not_mem hy'] at hall
    omega
  exact append_cons_inj_of_count hcount heq

/-! ## Lines -/

/-- Each line with a separator at its end. -/
def closeLines (a : α) (lines : List (List α)) : List α := lines.flatMap fun line => line ++ [a]

/-- Lines that are not empty are closed by one that is. -/
theorem closeLines_inj {lines lines' : List (List α)}
    (hlines : ∀ line ∈ lines, line ≠ [] ∧ a ∉ line)
    (hlines' : ∀ line ∈ lines', line ≠ [] ∧ a ∉ line)
    (heq : closeLines a lines ++ a :: y = closeLines a lines' ++ a :: y') :
    lines = lines' ∧ y = y' := by
  -- an empty line cannot be one of the others
  have hclosed : ∀ {line rest z z' : List α}, line ≠ [] → a ∉ line →
      a :: z ≠ line ++ [a] ++ rest ++ a :: z' := by
    intro line rest z z' hne hline hsame
    cases line with
    | nil => exact hne rfl
    | cons b line =>
      rw [append_assoc, append_assoc, cons_append] at hsame
      exact hline ((List.cons.inj hsame).1 ▸ mem_cons_self)
  induction lines generalizing lines' with
  | nil =>
    cases lines' with
    | nil => exact ⟨rfl, (List.cons.inj heq).2⟩
    | cons line' rest' =>
      obtain ⟨hne, hline⟩ := hlines' line' mem_cons_self
      exact absurd heq (hclosed hne hline)
  | cons line rest ih =>
    cases lines' with
    | nil =>
      obtain ⟨hne, hline⟩ := hlines line mem_cons_self
      exact absurd heq.symm (hclosed hne hline)
    | cons line' rest' =>
      simp only [closeLines, flatMap_cons, append_assoc, singleton_append] at heq
      obtain ⟨rfl, htail⟩ := append_cons_inj (hlines line mem_cons_self).2
        (hlines' line' mem_cons_self).2 heq
      obtain ⟨rfl, rfl⟩ := ih (fun l hl => hlines l (mem_cons_of_mem _ hl))
        (fun l hl => hlines' l (mem_cons_of_mem _ hl)) htail
      exact ⟨rfl, rfl⟩

omit [DecidableEq α] in
/-- Closed lines behind a separator end with a separator. -/
theorem exists_append_closeLines (x : List α) (lines : List (List α)) :
    ∃ front, x ++ a :: closeLines a lines = front ++ [a] := by
  rcases eq_nil_or_concat lines with rfl | ⟨init, last, rfl⟩
  · exact ⟨x, rfl⟩
  · refine ⟨x ++ a :: (closeLines a init ++ last), ?_⟩
    simp [closeLines]

/-! ## Joined parts -/

variable {parts parts' : List (List α)}

/-- Parts that have equally many separators of their own. -/
theorem intercalate_inj_of_count (hcount : parts.map (List.count a) = parts'.map (List.count a))
    (heq : [a].intercalate parts = [a].intercalate parts') : parts = parts' := by
  induction parts generalizing parts' with
  | nil =>
    rw [map_nil, eq_comm, map_eq_nil_iff] at hcount
    exact hcount.symm
  | cons part parts ih =>
    cases parts' with
    | nil => cases hcount
    | cons part' parts' =>
      obtain ⟨hpart, hparts⟩ := List.cons.inj hcount
      cases parts with
      | nil =>
        rw [map_nil, eq_comm, map_eq_nil_iff] at hparts
        subst hparts
        rw [intercalate_singleton, intercalate_singleton] at heq
        rw [heq]
      | cons second parts =>
        cases parts' with
        | nil => cases hparts
        | cons second' parts' =>
          rw [intercalate_cons_cons, intercalate_cons_cons, append_assoc,
            append_assoc, singleton_append, singleton_append] at heq
          obtain ⟨rfl, hrest⟩ := append_cons_inj_of_count hpart heq
          rw [ih hparts hrest]

/-- Parts without separators. -/
theorem intercalate_inj (hparts : ∀ part ∈ parts, a ∉ part) (hparts' : ∀ part ∈ parts', a ∉ part)
    (hne : parts ≠ []) (hne' : parts' ≠ []) (heq : [a].intercalate parts = [a].intercalate parts') :
    parts = parts' := by
  rw [← splitOn_intercalate a hparts hne, heq, splitOn_intercalate a hparts' hne']

omit [DecidableEq α] in
theorem mem_intercalate {b : α} (hb : b ∈ [a].intercalate parts) :
    b = a ∨ ∃ part ∈ parts, b ∈ part := by
  induction parts with
  | nil => cases hb
  | cons part parts ih =>
    cases parts with
    | nil =>
      rw [intercalate_singleton] at hb
      exact .inr ⟨part, mem_cons_self, hb⟩
    | cons second parts =>
      rw [intercalate_cons_cons, mem_append, mem_append, mem_singleton] at hb
      rcases hb with (hb | hb) | hb
      · exact .inr ⟨part, mem_cons_self, hb⟩
      · exact .inl hb
      · rcases ih hb with rfl | ⟨other, hother, hb⟩
        · exact .inl rfl
        · exact .inr ⟨other, mem_cons_of_mem _ hother, hb⟩

/-- Parts without separators that are not empty. -/
theorem intercalate_inj_of_ne_nil (hparts : ∀ part ∈ parts, part ≠ [] ∧ a ∉ part)
    (hparts' : ∀ part ∈ parts', part ≠ [] ∧ a ∉ part)
    (heq : [a].intercalate parts = [a].intercalate parts') : parts = parts' := by
  -- joined parts are empty only if there are none
  have hnil : ∀ {parts : List (List α)}, (∀ part ∈ parts, part ≠ [] ∧ a ∉ part) →
      [a].intercalate parts = [] → parts = [] := by
    intro parts hall hempty
    cases parts with
    | nil => rfl
    | cons part parts =>
      refine absurd ?_ (hall part mem_cons_self).1
      cases parts with
      | nil => rwa [intercalate_singleton] at hempty
      | cons second parts =>
        rw [intercalate_cons_cons, append_assoc, append_eq_nil_iff] at hempty
        exact hempty.1
  by_cases hempty : parts = []
  · subst hempty
    exact (hnil hparts' heq.symm).symm
  · have hempty' : parts' ≠ [] := by
      rintro rfl
      exact hempty (hnil hparts heq)
    exact intercalate_inj (fun part hp => (hparts part hp).2) (fun part hp => (hparts' part hp).2)
      hempty hempty' heq

/-- A separator of the joined parts joins two of them or is in one of them. -/
theorem count_intercalate (parts : List (List α)) (hparts : parts ≠ []) :
    ([a].intercalate parts).count a + 1 = (parts.map fun part => part.count a + 1).sum := by
  induction parts with
  | nil => exact absurd rfl hparts
  | cons part parts ih =>
    cases parts with
    | nil => simp
    | cons second parts =>
      rw [intercalate_cons_cons, count_append, count_append,
        count_singleton_self, map_cons, sum_cons,
        ← ih (cons_ne_nil _ _)]
      omega

theorem mem_of_mem_splitOn {b : α} {part text : List α} (hpart : part ∈ text.splitOn a)
    (hb : b ∈ part) : b ∈ text := by
  have hjoin : [a].intercalate (text.splitOn a) = text := intercalate_splitOn a
  rw [← hjoin, List.intercalate, mem_flatten]
  refine ⟨part, ?_, hb⟩
  generalize text.splitOn a = parts at hpart
  induction parts with
  | nil => cases hpart
  | cons first rest ih =>
    cases rest with
    | nil => simpa using hpart
    | cons second rest =>
      rw [intersperse_cons_cons]
      rcases mem_cons.mp hpart with rfl | hlater
      · exact mem_cons_self
      · exact mem_cons_of_mem _ (mem_cons_of_mem _ (ih hlater))

theorem notMem_of_mem_splitOn {part text : List α} (hpart : part ∈ text.splitOn a) :
    a ∉ part := by
  induction text generalizing part with
  | nil =>
    rw [splitOn_nil, mem_singleton] at hpart
    rw [hpart]
    exact not_mem_nil
  | cons b text ih =>
    rw [List.splitOn, splitOnP_cons_eq_if_modifyHead, ← List.splitOn] at hpart
    split_ifs at hpart with hb
    · rcases mem_cons.mp hpart with rfl | hlater
      · exact not_mem_nil
      · exact ih hlater
    · cases hsplit : text.splitOn a with
      | nil => exact absurd hsplit (splitOn_ne_nil a text)
      | cons first rest =>
        rw [hsplit, modifyHead_cons] at hpart
        rcases mem_cons.mp hpart with rfl | hlater
        · intro hmem
          rcases mem_cons.mp hmem with rfl | htail
          · exact hb (beq_self_eq_true a)
          · exact ih (hsplit ▸ mem_cons_self) htail
        · exact ih (hsplit ▸ mem_cons_of_mem _ hlater)

end Separators
