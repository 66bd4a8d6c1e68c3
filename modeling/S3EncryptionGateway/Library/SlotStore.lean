import S3EncryptionGateway.Library.MapRange

/-!
# A map over a preallocated array

The values of the map live in an array of fixed capacity, one slot for each key in the
order the keys came; the map itself only knows the slots.  A new value for a known key
goes into the key's slot.  A new key needs the next slot, and there may be none.

As long as it has room the store is a finite map (`get_of_putAll`), and it runs out of
room exactly when there are more different keys than slots (`putAll_eq_none_iff`).
-/

namespace SlotStore

open MapRange

universe u v

variable {κ : Type u} {α : Type v} [DecidableEq κ] {capacity : ℕ}

open Finmap

theorem keys_insert (m : Map κ α) (k : κ) (value : α) :
    (m.insert k value).keys = insert k m.keys := by
  ext k'
  rw [mem_keys, mem_insert, Finset.mem_insert, mem_keys]

/-- The slot of every key, and the values written so far. -/
structure Slots (κ : Type u) (α : Type v) [DecidableEq κ] (capacity : ℕ) where
  slot : Map κ ℕ
  values : List α
  slot_lt : ∀ k i, slot.lookup k = some i → i < values.length
  slot_inj : ∀ k k' i, slot.lookup k = some i → slot.lookup k' = some i → k = k'
  card_keys : slot.keys.card = values.length
  length_le : values.length ≤ capacity

namespace Slots

def empty : Slots κ α capacity where
  slot := ∅
  values := []
  slot_lt := by
    intro k i hslot
    rw [Finmap.lookup_empty] at hslot
    cases hslot
  slot_inj := by
    intro k k' i hslot
    rw [Finmap.lookup_empty] at hslot
    cases hslot
  card_keys := by rw [Finmap.keys_empty, Finset.card_empty, List.length_nil]
  length_le := Nat.zero_le _

variable (s : Slots κ α capacity)

def get (k : κ) : Option α :=
  (s.slot.lookup k).bind fun i => s.values[i]?

/-- The value of a known key is overwritten. -/
def overwrite (i : ℕ) (value : α) : Slots κ α capacity where
  slot := s.slot
  values := s.values.set i value
  slot_lt := by
    intro k j hslot
    rw [List.length_set]
    exact s.slot_lt k j hslot
  slot_inj := s.slot_inj
  card_keys := by rw [List.length_set, s.card_keys]
  length_le := by rw [List.length_set]; exact s.length_le

/-- A new key gets the next slot. -/
def push (k : κ) (value : α) (hnew : s.slot.lookup k = none)
    (hroom : s.values.length + 1 ≤ capacity) : Slots κ α capacity where
  slot := s.slot.insert k s.values.length
  values := s.values ++ [value]
  slot_lt := by
    intro k' i hslot
    rw [List.length_append, List.length_singleton]
    by_cases heq : k' = k
    · subst heq
      rw [Finmap.lookup_insert] at hslot
      rw [← Option.some.inj hslot]
      exact Nat.lt_succ_self _
    · rw [Finmap.lookup_insert_of_ne _ heq] at hslot
      exact Nat.lt_succ_of_lt (s.slot_lt k' i hslot)
  slot_inj := by
    have hfresh : ∀ k', s.slot.lookup k' ≠ some s.values.length := by
      intro k' hslot
      exact Nat.lt_irrefl _ (s.slot_lt k' _ hslot)
    intro k₁ k₂ i hslot₁ hslot₂
    by_cases heq₁ : k₁ = k <;> by_cases heq₂ : k₂ = k
    · rw [heq₁, heq₂]
    · subst heq₁
      rw [Finmap.lookup_insert] at hslot₁
      rw [Finmap.lookup_insert_of_ne _ heq₂, ← hslot₁] at hslot₂
      exact absurd hslot₂ (hfresh k₂)
    · subst heq₂
      rw [Finmap.lookup_insert] at hslot₂
      rw [Finmap.lookup_insert_of_ne _ heq₁, ← hslot₂] at hslot₁
      exact absurd hslot₁ (hfresh k₁)
    · rw [Finmap.lookup_insert_of_ne _ heq₁] at hslot₁
      rw [Finmap.lookup_insert_of_ne _ heq₂] at hslot₂
      exact s.slot_inj k₁ k₂ i hslot₁ hslot₂
  card_keys := by
    have hnot : k ∉ s.slot.keys := by
      rw [Finmap.mem_keys, ← Finmap.lookup_eq_none]
      exact hnew
    rw [keys_insert, Finset.card_insert_of_notMem hnot, s.card_keys, List.length_append,
      List.length_singleton]
  length_le := by
    rw [List.length_append, List.length_singleton]
    exact hroom

/-- Sets a key; nothing if there is no slot left for a new one. -/
def put (k : κ) (value : α) : Option (Slots κ α capacity) :=
  match hslot : s.slot.lookup k with
  | some i => some (s.overwrite i value)
  | none =>
    if hroom : s.values.length + 1 ≤ capacity then some (s.push k value hslot hroom) else none

def putAll (entries : List (κ × α)) : Option (Slots κ α capacity) :=
  entries.foldlM (fun s entry => s.put entry.1 entry.2) s

/-! ## One key -/

/-- **What a `put` can do.** -/
theorem put_cases (k : κ) (value : α) :
    (∃ i, s.slot.lookup k = some i ∧ s.put k value = some (s.overwrite i value)) ∨
    (∃ hnew hroom, s.put k value = some (s.push k value hnew hroom)) ∨
    (s.slot.lookup k = none ∧ capacity = s.values.length ∧ s.put k value = none) := by
  unfold put
  split
  · rename_i i hslot
    exact .inl ⟨i, hslot, rfl⟩
  · rename_i hslot
    split
    · rename_i hroom
      exact .inr (.inl ⟨hslot, hroom, rfl⟩)
    · rename_i hfull
      have hle := s.length_le
      exact .inr (.inr ⟨hslot, by omega, rfl⟩)

theorem get_overwrite {k : κ} {i : ℕ} (hslot : s.slot.lookup k = some i) (value : α) (k' : κ) :
    (s.overwrite i value).get k' = if k' = k then some value else s.get k' := by
  by_cases heq : k' = k
  · subst heq
    have hlt := s.slot_lt k' i hslot
    simp [get, overwrite, hslot, hlt]
  · rw [if_neg heq]
    unfold get overwrite
    rcases hslot' : s.slot.lookup k' with - | j
    · rfl
    -- the slots of different keys are different
    have hne : i ≠ j := by
      rintro rfl
      exact heq (s.slot_inj k' k i hslot' hslot)
    simp [hne]

variable {value : α}

theorem get_push (s : Slots κ α capacity) {k : κ} (hnew : s.slot.lookup k = none)
    (hroom : s.values.length + 1 ≤ capacity) (k' : κ) :
    (s.push k value hnew hroom).get k' = if k' = k then some value else s.get k' := by
  by_cases heq : k' = k
  · subst heq
    simp [get, push, lookup_insert]
  · rw [if_neg heq]
    unfold get push
    simp only [lookup_insert_of_ne _ heq]
    rcases hslot : s.slot.lookup k' with - | j
    · rfl
    · exact List.getElem?_append_left (s.slot_lt k' j hslot)

variable {s s' : Slots κ α capacity}

theorem get_of_put {k : κ} (hput : s.put k value = some s') (k' : κ) :
    s'.get k' = if k' = k then some value else s.get k' := by
  rcases s.put_cases k value with ⟨i, hslot, hsome⟩ | ⟨hnew, hroom, hsome⟩ | ⟨-, -, hnone⟩
  · obtain rfl := Option.some.inj (hsome.symm.trans hput)
    exact s.get_overwrite hslot value k'
  · obtain rfl := Option.some.inj (hsome.symm.trans hput)
    exact s.get_push hnew hroom k'
  · exact absurd (hnone.symm.trans hput) nofun

theorem keys_of_put {k : κ} (hput : s.put k value = some s') :
    s'.slot.keys = insert k s.slot.keys := by
  rcases s.put_cases k value with ⟨i, hslot, hsome⟩ | ⟨hnew, hroom, hsome⟩ | ⟨-, -, hnone⟩
  · obtain rfl := Option.some.inj (hsome.symm.trans hput)
    have hmem : k ∈ s.slot.keys := mem_keys.mpr (mem_iff.mpr ⟨i, hslot⟩)
    exact (Finset.insert_eq_of_mem hmem).symm
  · obtain rfl := Option.some.inj (hsome.symm.trans hput)
    exact keys_insert s.slot k _
  · exact absurd (hnone.symm.trans hput) nofun

theorem card_keys_le (s : Slots κ α capacity) : s.slot.keys.card ≤ capacity := by
  rw [s.card_keys]
  exact s.length_le

theorem put_eq_none_iff {k : κ} :
    s.put k value = none ↔ capacity < (insert k s.slot.keys).card := by
  constructor
  · intro hput
    rcases s.put_cases k value with ⟨i, -, hsome⟩ | ⟨_, _, hsome⟩ | ⟨hnew, hfull, -⟩
    · exact absurd (hput.symm.trans hsome) nofun
    · exact absurd (hput.symm.trans hsome) nofun
    · have hnot : k ∉ s.slot.keys := by
        rw [mem_keys, ← lookup_eq_none]
        exact hnew
      rw [Finset.card_insert_of_notMem hnot, s.card_keys]
      omega
  · intro hlt
    rcases hput : s.put k value with - | s'
    · rfl
    · have hle := s'.card_keys_le
      rw [keys_of_put hput] at hle
      omega

/-! ## Many keys -/

/-- **The store runs out of room exactly when there are more keys than slots.** -/
theorem putAll_eq_none_iff {entries : List (κ × α)} :
    s.putAll entries = none ↔
      capacity < (s.slot.keys ∪ (entries.map Prod.fst).toFinset).card := by
  induction entries generalizing s with
  | nil =>
    have hle := s.card_keys_le
    simp [putAll, hle]
  | cons entry entries ih =>
    have hkeys : s.slot.keys ∪ ((entry :: entries).map Prod.fst).toFinset =
        insert entry.1 s.slot.keys ∪ (entries.map Prod.fst).toFinset := by
      rw [List.map_cons, List.toFinset_cons, Finset.union_insert, Finset.insert_union]
    rw [hkeys]
    rcases hput : s.put entry.1 entry.2 with - | s'
    · have hlt := put_eq_none_iff.mp hput
      have hle : (insert entry.1 s.slot.keys).card ≤
          (insert entry.1 s.slot.keys ∪ (entries.map Prod.fst).toFinset).card :=
        Finset.card_le_card Finset.subset_union_left
      simp only [putAll, List.foldlM_cons, hput, Option.bind_eq_bind, Option.bind_none, true_iff]
      exact hlt.trans_le hle
    · rw [← keys_of_put hput, ← ih]
      simp only [putAll, List.foldlM_cons, hput, Option.bind_eq_bind, Option.bind_some]

/-- **With enough room the store is the map that the entries make one after the other.** -/
theorem get_of_putAll {entries : List (κ × α)} (hput : s.putAll entries = some s') {m : Map κ α}
    (hm : ∀ k, s.get k = m.lookup k) (k : κ) : s'.get k = (store id entries m).lookup k := by
  induction entries generalizing s m with
  | nil =>
    cases hput
    exact hm k
  | cons entry entries ih =>
    obtain ⟨next, hnext, hrest⟩ := Option.bind_eq_some_iff.mp
      (show (s.put entry.1 entry.2).bind (fun next => next.putAll entries) = some s' from hput)
    apply ih hrest
    intro k'
    rw [get_of_put hnext k']
    by_cases heq : k' = entry.1
    · subst heq
      rw [if_pos rfl]
      exact (lookup_insert m).symm
    · rw [if_neg heq, hm k']
      exact (lookup_insert_of_ne m heq).symm

end Slots

end SlotStore
