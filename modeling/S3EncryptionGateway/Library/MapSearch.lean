import S3EncryptionGateway.Library.MapRange

/-!
# Searching a map by its keys

A loop that stops at the first key with some property finds one of the keys that have it; which
one is left open if there are several.  A `Chooser` is one way in which such loops may choose,
and a statement about a search speaks of all choosers.

If only one key has the property, every chooser finds that one, and the search is a look-up
(`find_eq_lookup`).  For keys that are ordered there is a chooser that can be computed, so
functions with searches can be evaluated.
-/

namespace MapRange

open List

universe u v

variable {κ : Type u} {α : Type v} [DecidableEq κ]

/-- A loop that stores the entries of one map over those of another. -/
theorem lookup_union (m m' : Map κ α) (k : κ) :
    (m ∪ m').lookup k = (m.lookup k).or (m'.lookup k) := by
  cases hlookup : m.lookup k with
  | none => rw [Finmap.lookup_union_right (Finmap.lookup_eq_none.mp hlookup), Option.none_or]
  | some v =>
    have hmem : k ∈ m := Finmap.mem_iff.mpr ⟨v, hlookup⟩
    rw [Finmap.lookup_union_left hmem, hlookup, Option.some_or]

omit [DecidableEq κ] in
/-- The keys of the entries that a loop over `items` stores, for the items that pass a test and
each under a key of its own. -/
theorem keys_filterMap_sublist {β : Type*} {items : List β} {entryOf : β → Option (κ × α)}
    {test : β → Bool} {keyOf : β → κ}
    (hkey : ∀ item entry, entryOf item = some entry → test item = true ∧ entry.1 = keyOf item) :
    ((items.filterMap entryOf).map Prod.fst).Sublist ((items.filter test).map keyOf) := by
  induction items with
  | nil => exact List.Sublist.slnil
  | cons item items ih =>
    cases hentry : entryOf item with
    | none =>
      rw [filterMap_cons_none hentry]
      exact ih.trans ((List.Sublist.filter test (sublist_cons_self item items)).map keyOf)
    | some entry =>
      obtain ⟨htest, hfst⟩ := hkey item entry hentry
      rw [filterMap_cons_some hentry, map_cons, filter_cons_of_pos htest, map_cons, hfst]
      exact ih.cons_cons _

theorem lookup_renameKeys_id {entries : List (κ × α)} (hnodup : (entries.map Prod.fst).Nodup)
    {k : κ} {v : α} : (renameKeys id entries).lookup k = some v ↔ (k, v) ∈ entries :=
  ((Order.ofEntries entries hnodup).mem_iff k v).symm

/-- What such a loop stores for one of the items. -/
theorem lookup_renameKeys_filterMap {β : Type*} {items : List β} {entryOf : β → Option (κ × α)}
    {test : β → Bool} {keyOf : β → κ}
    (hkey : ∀ item entry, entryOf item = some entry → test item = true ∧ entry.1 = keyOf item)
    (hnodup : ((items.filter test).map keyOf).Nodup) {item : β} (hitem : item ∈ items)
    (htest : test item = true) :
    (renameKeys id (items.filterMap entryOf)).lookup (keyOf item) =
      (entryOf item).map Prod.snd := by
  apply Option.ext
  intro value
  rw [lookup_renameKeys_id (hnodup.sublist (keys_filterMap_sublist hkey)), mem_filterMap,
    Option.map_eq_some_iff]
  constructor
  · rintro ⟨item', hitem', hentry⟩
    obtain ⟨htest', hsame⟩ := hkey item' _ hentry
    obtain rfl : item' = item := inj_on_of_nodup_map hnodup
      (mem_filter.mpr ⟨hitem', htest'⟩) (mem_filter.mpr ⟨hitem, htest⟩) hsame.symm
    exact ⟨_, hentry, rfl⟩
  · rintro ⟨⟨key, value'⟩, hentry, rfl⟩
    refine ⟨item, hitem, ?_⟩
    rw [hentry, ← (hkey item _ hentry).2]

/-- How loops that stop at the first key that passes a test choose it. -/
structure Chooser (κ : Type u) (α : Type v) [DecidableEq κ] where
  choose : (κ → Bool) → Map κ α → Option κ
  passes : ∀ {test m k}, choose test m = some k → k ∈ m ∧ test k = true
  misses : ∀ {test m}, choose test m = none → ∀ k ∈ m, test k = false

namespace Chooser

variable (chooser : Chooser κ α)

/-- The value of the key found. -/
def find (test : κ → Bool) (m : Map κ α) : Option α :=
  (chooser.choose test m).bind m.lookup

variable {chooser} {test : κ → Bool} {m : Map κ α} {k : κ}

theorem find_eq_none_iff : chooser.find test m = none ↔ ∀ k ∈ m, test k = false := by
  constructor
  · intro hfind
    cases hchoose : chooser.choose test m with
    | none => exact chooser.misses hchoose
    | some k =>
      rw [find, hchoose, Option.bind_some] at hfind
      exact absurd (chooser.passes hchoose).1 (Finmap.lookup_eq_none.mp hfind)
  · intro hall
    cases hchoose : chooser.choose test m with
    | none => rw [find, hchoose, Option.bind_none]
    | some k =>
      obtain ⟨hmem, htest⟩ := chooser.passes hchoose
      rw [hall k hmem] at htest
      cases htest

/-- A search that can only find one key is a look-up. -/
theorem find_eq_lookup (hself : test k = true) (honly : ∀ k' ∈ m, test k' = true → k' = k) :
    chooser.find test m = m.lookup k := by
  cases hchoose : chooser.choose test m with
  | none =>
    have hnot : k ∉ m := fun hmem => by
      rw [chooser.misses hchoose k hmem] at hself
      cases hself
    rw [find, hchoose, Option.bind_none, Finmap.lookup_eq_none.mpr hnot]
  | some k' =>
    obtain ⟨hmem, htest⟩ := chooser.passes hchoose
    rw [find, hchoose, Option.bind_some, honly k' hmem htest]

end Chooser

def leastKey (order : LinearOrder κ) : Chooser κ α where
  choose test m := @Finset.min κ order (m.keys.filter fun k => test k = true)
  passes := by
    intro test m k hmin
    have hmem := Finset.mem_of_min hmin
    rw [Finset.mem_filter, Finmap.mem_keys] at hmem
    exact hmem
  misses := by
    intro test m hmin k hk
    have hempty := Finset.min_eq_top.mp hmin
    rw [Finset.filter_eq_empty_iff] at hempty
    exact (Bool.not_eq_true _).mp (hempty (Finmap.mem_keys.mpr hk))

end MapRange
