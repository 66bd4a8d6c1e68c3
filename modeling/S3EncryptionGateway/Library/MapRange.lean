import Mathlib

/-!
# Loops over maps

A map is a finite map.  A loop over a map visits its entries in an order that the
language leaves open, so a loop is a function of the list of entries visited, and a
statement about its result speaks of all orders.

The loops of interest copy a map into a new one and give every key another name.
Two keys with the same new name collide, and the entry visited last stays.

## Strategy

* `store` is the loop body repeated.  `lookup_store_of_forall_ne` and
  `exists_of_lookup_store` hold for any renaming; `lookup_store_of_mem` needs that
  no two of the visited keys collide.
* `Piped` chains loops, each over the result of the one before and each in an order
  of its own.  If the composed renaming is injective on the keys of the first map,
  no loop of the chain has a collision, and `Piped.lookup_eq_some_iff` gives the
  result whatever the orders were.
-/

namespace MapRange

universe u v w

abbrev Map (κ : Type u) (α : Type v) := Finmap fun _ : κ => α

variable {κ : Type u} {κ' : Type v} {α : Type w} [DecidableEq κ] [DecidableEq κ']

/-- An order in which a loop may visit the entries of `m`. -/
structure Order (m : Map κ α) where
  entries : List (κ × α)
  nodup : (entries.map Prod.fst).Nodup
  mem_iff : ∀ k v, (k, v) ∈ entries ↔ m.lookup k = some v

open Finmap List

theorem nonempty_order (m : Map κ α) : Nonempty (Order m) := by
  induction m using induction_on with
  | H s =>
    refine ⟨⟨s.entries.map fun entry => (entry.1, entry.2), ?_, ?_⟩⟩
    · rw [map_map]
      exact s.nodupKeys
    · intro k v
      rw [lookup_toFinmap, ← Option.mem_def, AList.mem_lookup_iff, mem_map]
      constructor
      · rintro ⟨⟨k', v'⟩, hmem, heq⟩
        obtain ⟨rfl, rfl⟩ := Prod.mk.injEq .. ▸ heq
        exact hmem
      · intro hmem
        exact ⟨⟨k, v⟩, hmem, rfl⟩

/-! ## The entries with some keys -/

/-- The entries that pass the test; a loop that deletes the others leaves this map in every
order. -/
def retain (test : κ → α → Bool) (m : Map κ α) : Map κ α where
  entries := m.entries.filter fun entry => test entry.1 entry.2
  nodupKeys := by
    induction m using Finmap.induction_on with
    | H s => exact List.NodupKeys.sublist List.filter_sublist s.nodupKeys

theorem lookup_retain (test : κ → α → Bool) (m : Map κ α) (k : κ) :
    (retain test m).lookup k = (m.lookup k).filter (test k) := by
  apply Option.ext
  intro v
  rw [← Option.mem_def, mem_lookup_iff, Option.filter_eq_some_iff, ← Option.mem_def,
    mem_lookup_iff]
  unfold retain
  exact Multiset.mem_filter

/-- The entries whose keys pass the test; a loop that copies them gives this map in
every order. -/
def keep (test : κ → Bool) (m : Map κ α) : Map κ α where
  entries := m.entries.filter fun entry => test entry.1
  nodupKeys := (retain (fun k _ => test k) m).nodupKeys

theorem lookup_keep (test : κ → Bool) (m : Map κ α) (k : κ) :
    (keep test m).lookup k = if test k then m.lookup k else none := by
  show (retain (fun k _ => test k) m).lookup k = _
  rw [lookup_retain]
  cases m.lookup k <;> simp [Option.filter]

/-! ## One loop -/

/-- The entries visited, each stored in `out` under its new name. -/
def store (g : κ → κ') (entries : List (κ × α)) (out : Map κ' α) : Map κ' α :=
  entries.foldl (fun out entry => out.insert (g entry.1) entry.2) out

def renameKeys (g : κ → κ') (entries : List (κ × α)) : Map κ' α :=
  store g entries ∅

omit [DecidableEq κ] in
theorem lookup_store_of_forall_ne {g : κ → κ'} {k' : κ'} {entries : List (κ × α)}
    (hne : ∀ entry ∈ entries, g entry.1 ≠ k') (out : Map κ' α) :
    (store g entries out).lookup k' = out.lookup k' := by
  induction entries generalizing out with
  | nil => rfl
  | cons entry entries ih =>
    obtain ⟨hhead, htail⟩ := forall_mem_cons.mp hne
    calc (store g (entry :: entries) out).lookup k'
        = (out.insert (g entry.1) entry.2).lookup k' := ih htail _
      _ = out.lookup k' := lookup_insert_of_ne _ hhead.symm

omit [DecidableEq κ] in
theorem exists_of_lookup_store {g : κ → κ'} {k' : κ'} {v : α} {entries : List (κ × α)}
    {out : Map κ' α} (hlookup : (store g entries out).lookup k' = some v) :
    out.lookup k' = some v ∨ ∃ k, (k, v) ∈ entries ∧ g k = k' := by
  induction entries generalizing out with
  | nil => exact .inl hlookup
  | cons entry entries ih =>
    rcases ih hlookup with hout | ⟨k, hmem, hk⟩
    · by_cases heq : k' = g entry.1
      · subst heq
        rw [lookup_insert] at hout
        cases hout
        exact .inr ⟨entry.1, mem_cons_self, rfl⟩
      · rw [lookup_insert_of_ne _ heq] at hout
        exact .inl hout
    · exact .inr ⟨k, mem_cons_of_mem _ hmem, hk⟩

omit [DecidableEq κ] in
theorem exists_of_lookup_renameKeys {g : κ → κ'} {k' : κ'} {v : α} {entries : List (κ × α)}
    (hlookup : (renameKeys g entries).lookup k' = some v) :
    ∃ k, (k, v) ∈ entries ∧ g k = k' := by
  rcases exists_of_lookup_store hlookup with hempty | hentry
  · rw [lookup_empty] at hempty
    cases hempty
  · exact hentry

omit [DecidableEq κ] in
omit [DecidableEq κ] in
theorem lookup_store_of_mem {g : κ → κ'} {k : κ} {v : α} {entries : List (κ × α)}
    (hnodup : (entries.map fun entry => g entry.1).Nodup) (hmem : (k, v) ∈ entries)
    (out : Map κ' α) : (store g entries out).lookup (g k) = some v := by
  induction entries generalizing out with
  | nil => exact absurd hmem not_mem_nil
  | cons entry entries ih =>
    rw [map_cons, nodup_cons] at hnodup
    rcases mem_cons.mp hmem with rfl | htail
    · -- nothing visited later has this name
      have hne : ∀ entry ∈ entries, g entry.1 ≠ g k := by
        intro entry hentry heq
        exact hnodup.1 (mem_map.mpr ⟨entry, hentry, heq⟩)
      calc (store g ((k, v) :: entries) out).lookup (g k)
          = (out.insert (g k) v).lookup (g k) := lookup_store_of_forall_ne hne _
        _ = some v := lookup_insert _
    · exact ih hnodup.2 htail _

omit [DecidableEq κ] in
theorem store_append (g : κ → κ') (entries entries' : List (κ × α)) (out : Map κ' α) :
    store g (entries ++ entries') out = store g entries' (store g entries out) :=
  List.foldl_append

omit [DecidableEq κ] in
theorem store_id_map (g : κ → κ') (entries : List (κ × α)) (out : Map κ' α) :
    store id (entries.map fun entry => (g entry.1, entry.2)) out = store g entries out :=
  List.foldl_map

omit [DecidableEq κ] in
/-- Without collisions the order of the visits does not matter. -/
theorem store_eq_of_perm {g : κ → κ'} {entries entries' : List (κ × α)}
    (hperm : entries.Perm entries') (hnodup : (entries.map fun entry => g entry.1).Nodup)
    (out : Map κ' α) : store g entries out = store g entries' out := by
  apply ext_lookup
  intro k'
  by_cases hsome : ∃ entry ∈ entries, g entry.1 = k'
  · obtain ⟨⟨k, v⟩, hmem, rfl⟩ := hsome
    have hnodup' : (entries'.map fun entry => g entry.1).Nodup :=
      (hperm.map fun entry => g entry.1).nodup_iff.mp hnodup
    rw [lookup_store_of_mem hnodup hmem, lookup_store_of_mem hnodup' (hperm.mem_iff.mp hmem)]
  · have hne : ∀ entry ∈ entries, g entry.1 ≠ k' := by
      intro entry hmem heq
      exact hsome ⟨entry, hmem, heq⟩
    rw [lookup_store_of_forall_ne hne, lookup_store_of_forall_ne]
    intro entry hmem
    exact hne entry (hperm.mem_iff.mpr hmem)

/-- Two orders of one map have the same entries. -/
theorem Order.perm {m : Map κ α} (order order' : Order m) :
    order.entries.Perm order'.entries := by
  apply (perm_ext_iff_of_nodup order.nodup.of_map order'.nodup.of_map).mpr
  rintro ⟨k, v⟩
  rw [order.mem_iff, order'.mem_iff]

/-- The map with these entries, which a loop may visit in the order given. -/
def Order.ofEntries (entries : List (κ × α)) (hnodup : (entries.map Prod.fst).Nodup) :
    Order (renameKeys id entries) where
  entries := entries
  nodup := hnodup
  mem_iff := by
    intro k v
    constructor
    · intro hmem
      exact lookup_store_of_mem hnodup hmem ∅
    · intro hlookup
      obtain ⟨_, hentry, rfl⟩ := exists_of_lookup_renameKeys hlookup
      exact hentry

/-- A loop may visit any of the entries first. -/
theorem exists_order_first {m : Map κ α} {k : κ} {v : α} (hlookup : m.lookup k = some v) :
    ∃ (order : Order m) (rest : List (κ × α)), order.entries = (k, v) :: rest := by
  obtain ⟨order⟩ := nonempty_order m
  refine ⟨⟨(k, v) :: order.entries.filter fun entry => entry.1 ≠ k, ?_, ?_⟩, _, rfl⟩
  · rw [map_cons, nodup_cons]
    refine ⟨?_, order.nodup.sublist (filter_sublist.map Prod.fst)⟩
    rintro hmem
    obtain ⟨entry, hentry, hkey⟩ := mem_map.mp hmem
    exact of_decide_eq_true (mem_filter.mp hentry).2 hkey
  · intro k' v'
    rw [mem_cons, mem_filter, order.mem_iff, decide_eq_true_iff, Prod.mk.injEq]
    by_cases hkey : k' = k
    · subst hkey
      rw [hlookup, Option.some.injEq]
      simp [eq_comm]
    · simp [hkey]

/-- The loop over `m`, in some order, has the result `out`. -/
def Ranges {β : Type*} (loop : List (κ × α) → β) (m : Map κ α) (out : β) : Prop :=
  ∃ order : Order m, loop order.entries = out

theorem Ranges.exists_of_mem {g : κ → κ'} {m : Map κ α} {out : Map κ' α}
    (hrange : Ranges (renameKeys g) m out) {k' : κ'} (hmem : k' ∈ out) :
    ∃ k ∈ m, g k = k' := by
  obtain ⟨order, rfl⟩ := hrange
  obtain ⟨v, hv⟩ := mem_iff.mp hmem
  obtain ⟨k, hentry, hk⟩ := exists_of_lookup_renameKeys hv
  exact ⟨k, mem_iff.mpr ⟨v, (order.mem_iff k v).mp hentry⟩, hk⟩

theorem Ranges.lookup_eq_some_iff {g : κ → κ'} {m : Map κ α} {out : Map κ' α}
    (hrange : Ranges (renameKeys g) m out) (hinj : Set.InjOn g {k | k ∈ m}) {k' : κ'} {v : α} :
    out.lookup k' = some v ↔ ∃ k, m.lookup k = some v ∧ g k = k' := by
  obtain ⟨order, rfl⟩ := hrange
  constructor
  · intro hlookup
    obtain ⟨k, hentry, hk⟩ := exists_of_lookup_renameKeys hlookup
    exact ⟨k, (order.mem_iff k v).mp hentry, hk⟩
  · rintro ⟨k, hlookup, rfl⟩
    apply lookup_store_of_mem _ ((order.mem_iff k v).mpr hlookup)
    rw [show (order.entries.map fun entry => g entry.1) =
      (order.entries.map Prod.fst).map g by rw [map_map]; rfl]
    apply order.nodup.map_on
    intro k₁ h₁ k₂ h₂ heq
    have hkeys : ∀ k ∈ order.entries.map Prod.fst, k ∈ m := by
      intro k hk
      obtain ⟨entry, hentry, rfl⟩ := mem_map.mp hk
      exact mem_iff.mpr ⟨entry.2, (order.mem_iff _ _).mp hentry⟩
    exact hinj (hkeys k₁ h₁) (hkeys k₂ h₂) heq

/-! ## A chain of loops -/

/-- Each loop runs over the result of the one before. -/
def Piped : List (List (κ × α) → Map κ α) → Map κ α → Map κ α → Prop
  | [], m, out => out = m
  | loop :: loops, m, out => ∃ mid, Ranges loop m mid ∧ Piped loops mid out

/-- The name a key has after all the renamings. -/
def renameAll (gs : List (κ → κ)) (k : κ) : κ :=
  gs.foldl (fun k g => g k) k

theorem exists_piped (loops : List (List (κ × α) → Map κ α)) (m : Map κ α) :
    ∃ out, Piped loops m out := by
  induction loops generalizing m with
  | nil => exact ⟨m, rfl⟩
  | cons loop loops ih =>
    obtain ⟨order⟩ := nonempty_order m
    obtain ⟨out, hout⟩ := ih (loop order.entries)
    exact ⟨out, loop order.entries, ⟨order, rfl⟩, hout⟩

section

variable {gs : List (κ → κ)} {m out : Map κ α} (hpiped : Piped (gs.map renameKeys) m out)

include hpiped

theorem Piped.exists_of_mem {k' : κ} (hmem : k' ∈ out) : ∃ k ∈ m, renameAll gs k = k' := by
  induction gs generalizing m with
  | nil =>
    obtain rfl : out = m := hpiped
    exact ⟨k', hmem, rfl⟩
  | cons g gs ih =>
    obtain ⟨mid, hrange, hrest⟩ := hpiped
    obtain ⟨k₁, hk₁, rfl⟩ := ih hrest
    obtain ⟨k, hk, rfl⟩ := hrange.exists_of_mem hk₁
    exact ⟨k, hk, rfl⟩

theorem Piped.lookup_eq_some_iff (hinj : Set.InjOn (renameAll gs) {k | k ∈ m}) {k' : κ} {v : α} :
    out.lookup k' = some v ↔ ∃ k, m.lookup k = some v ∧ renameAll gs k = k' := by
  induction gs generalizing m with
  | nil =>
    obtain rfl : out = m := hpiped
    constructor
    · intro hlookup
      exact ⟨k', hlookup, rfl⟩
    · rintro ⟨k, hlookup, rfl⟩
      exact hlookup
  | cons g gs ih =>
    obtain ⟨mid, hrange, hrest⟩ := hpiped
    have hfirst : Set.InjOn g {k | k ∈ m} := by
      intro k₁ h₁ k₂ h₂ heq
      exact hinj h₁ h₂ (congrArg (renameAll gs) heq)
    have hlater : Set.InjOn (renameAll gs) {k | k ∈ mid} := by
      intro k₁ h₁ k₂ h₂ heq
      obtain ⟨k₁, hm₁, rfl⟩ := hrange.exists_of_mem h₁
      obtain ⟨k₂, hm₂, rfl⟩ := hrange.exists_of_mem h₂
      exact congrArg g (hinj hm₁ hm₂ heq)
    rw [ih hrest hlater]
    constructor
    · rintro ⟨k₁, hlookup, rfl⟩
      obtain ⟨k, hk, rfl⟩ := (hrange.lookup_eq_some_iff hfirst).mp hlookup
      exact ⟨k, hk, rfl⟩
    · rintro ⟨k, hlookup, rfl⟩
      exact ⟨g k, (hrange.lookup_eq_some_iff hfirst).mpr ⟨k, hlookup, rfl⟩, rfl⟩

/-- A chain that gives every key its own name back changes nothing. -/
theorem Piped.eq_of_forall_renameAll_eq (hid : ∀ k ∈ m, renameAll gs k = k) : out = m := by
  have hinj : Set.InjOn (renameAll gs) {k | k ∈ m} := by
    intro k₁ h₁ k₂ h₂ heq
    rwa [hid k₁ h₁, hid k₂ h₂] at heq
  apply ext_lookup
  intro k
  apply Option.ext
  intro v
  rw [hpiped.lookup_eq_some_iff hinj]
  constructor
  · rintro ⟨k₀, hlookup, rfl⟩
    rwa [hid k₀ (mem_iff.mpr ⟨v, hlookup⟩)]
  · intro hlookup
    exact ⟨k, hlookup, hid k (mem_iff.mpr ⟨v, hlookup⟩)⟩

end

end MapRange
