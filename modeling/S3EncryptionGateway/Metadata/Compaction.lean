import S3EncryptionGateway.Library.MapSearch
import S3EncryptionGateway.Metadata.Names
import S3EncryptionGateway.Metadata.WritePlan

/-!
# Compact metadata

Backends limit the size of an object's metadata.  For some of them the gateway therefore stores
its own keys under compact spellings, and expands them when the object is read.  The names are
compared without regard to case, in loops that stop at the first spelling they meet.

## Strategy

The gateway writes its keys in lower case (`CanonicalKeys`).  Then a search for a name of the
registry is a look-up, and the two functions are described by what they make of each constant:
`lookup_expandMetadata` and `lookup_compactMetadata`.  Together they give
`lookup_expand_compact`: a value that is not empty is found again under its own name.
-/

namespace S3EncryptionGateway.Metadata

open Text MapRange List

/-! ## What a key is -/

/-- Metadata that the gateway seals with the object.  The marker of encrypted objects is not. -/
def isEncryptionMetadata (key : Str) : Bool :=
  equalFold key originalContentLength ||
    (lookupMetaKey key).any fun spec =>
      spec.legacyEncryptionPredicate && !equalFold key MetaName.encrypted.text

/-- The key of the registry, in whatever spelling, has a compact one. -/
def isCompactable (key : Str) : Bool :=
  (lookupMetaKey key).any fun spec => spec.compact ≠ []

variable (name : MetaName)

/-- The compact spelling; empty if there is none. -/
def MetaName.compact : Str :=
  ((lookupMetaKey name.text).map MetaKeySpec.compact).getD []

def trueText : Str := "true".toList

/-- An object is encrypted if some spelling of the marker says so. -/
def isEncryptedMetadata (metadata : Map Str Str) : Bool :=
  decide (∃ key ∈ metadata.keys, metadata.lookup key = some trueText ∧
    (lookupMetaKey key).any (fun spec => equalFold spec.canonical MetaName.encrypted.text) = true)

/-! ## Profiles -/

/-- How keys are shortened.  The profiles use these two strategies. -/
inductive CompactionStrategy where
  | none
  | base64url

/-- The limits of a backend; zero is no limit. -/
structure ProviderProfile where
  name : Str
  userMetadataLimit : ℕ
  totalHeaderLimit : ℕ
  compactionStrategy : CompactionStrategy

/-- The size of a header with its separators. -/
def entrySize (entry : Str × Str) : ℕ := entry.1.length + 2 + entry.2.length + 2

def persistedName (key : Str) : Str :=
  if amzMeta <+: lowerAscii key then key else amzMeta ++ key

/-- The entries that are persisted as metadata, under the names they then have.  If two keys get
the same name, the entry that the loop visits last stays. -/
def persistedMetadataEnvelope {metadata : Map Str Str} (order : Order metadata) : Map Str Str :=
  renameKeys persistedName
    (order.entries.filter fun entry => !(isStandard entry.1 || isBackendField entry.1))

/-- The size of the headers whose names pass a test. -/
def headerSize (test : Str → Bool) (metadata : Map Str Str) : ℕ :=
  ((metadata.entries.filter fun entry => test entry.1).map
    fun entry => entrySize (entry.1, entry.2)).sum

/-- Whether the metadata fit the limits. -/
def ProviderProfile.fits (profile : ProviderProfile) (metadata : Map Str Str) : Bool :=
  let total := headerSize (fun _ => true) metadata
  let user := headerSize (fun key => amzMeta <+: lowerAscii key) metadata
  !(0 < profile.totalHeaderLimit ∧ profile.totalHeaderLimit < total) &&
    !(0 < profile.userMetadataLimit ∧ profile.userMetadataLimit < user)

/-! ## Compaction and expansion -/

section Functions

variable (choose : Chooser Str Str) (metadata : Map Str Str)

/-- The value of a name in any spelling. -/
def metadataValue (name : Str) : Option Str :=
  choose.find (fun key => equalFold key name) metadata

/-- The entries that `compactEncryptionMetadata` stores, in the order of the registry. -/
def compactEntries : List (Str × Str) :=
  metaKeyRegistry.filterMap fun spec =>
    if spec.compact = [] ∨ spec.canonical = MetaName.encrypted.text then none
    else
      (((metadataValue choose metadata spec.canonical).or
        (metadataValue choose metadata spec.compact)).filter (· ≠ [])).map
          fun value => (spec.compact, value)

def compactEncryptionMetadata : Map Str Str :=
  renameKeys id (compactEntries choose metadata)

/-- The marker in either spelling. -/
def encryptionMarker : Option Str :=
  (metadataValue choose metadata MetaName.encrypted.text).or
    (metadataValue choose metadata MetaName.encrypted.compact)

/-- The map with the value stored, if there is one. -/
def insertSome (name : Str) : Option Str → Map Str Str
  | none => metadata
  | some value => metadata.insert name value

def compactMetadata (strategy : CompactionStrategy) : Map Str Str :=
  match strategy with
  | .none => metadata
  | .base64url =>
    compactEncryptionMetadata choose metadata ∪
      insertSome (keep (fun key => !isCompactable key && !isEncryptionMetadata key) metadata)
        MetaName.encrypted.text (encryptionMarker choose metadata)

def isCompactedKey (key : Str) : Bool :=
  metaKeyRegistry.any fun spec => spec.compact ≠ [] ∧ equalFold key spec.compact

/-- The entries that `expandEncryptionMetadata` stores, in the order of the registry. -/
def expandEntries : List (Str × Str) :=
  metaKeyRegistry.filterMap fun spec =>
    if spec.compact = [] ∨ (metadataValue choose metadata spec.canonical).isSome then none
    else
      ((metadataValue choose metadata spec.compact).filter (· ≠ [])).map
        fun value => (spec.canonical, value)

def expandEncryptionMetadata : Map Str Str :=
  renameKeys id (expandEntries choose metadata)

def expandMetadata : Map Str Str :=
  expandEncryptionMetadata choose metadata ∪
    insertSome (keep (fun key => !isCompactedKey key) metadata) MetaName.encrypted.text
      (metadataValue choose metadata MetaName.encrypted.text)

end Functions

/-! ## The registry -/

theorem nodup_compact :
    ((metaKeyRegistry.filter (·.compact ≠ [])).map MetaKeySpec.compact).Nodup := by
  refine pairwise_map.mpr (List.Pairwise.imp_of_mem ?_
    (nodup_spellings.2.sublist filter_sublist))
  intro spec spec' hspec hspec' hdisjoint heq
  have hfull := of_decide_eq_true (mem_filter.mp hspec).2
  refine hdisjoint (mem_filter.mpr ⟨?_, decide_eq_true hfull⟩)
    (mem_filter.mpr ⟨?_, decide_eq_true hfull⟩)
  · exact mem_cons_of_mem _ mem_cons_self
  · exact heq ▸ mem_cons_of_mem _ mem_cons_self

/-- The entry of a constant, with its compact spelling. -/
theorem MetaName.exists_spec :
    ∃ spec ∈ metaKeyRegistry, spec.canonical = name.text ∧ spec.compact = name.compact := by
  obtain ⟨spec, hspec, hname⟩ := name.exists_entry
  refine ⟨spec, hspec, hname, ?_⟩
  rw [compact, ← hname,
    lookupMetaKey_of_spelling hspec (registry_table.2.1 spec hspec).1 (.inl rfl)]
  rfl

theorem MetaName.lower_text : lowerAscii name.text = name.text := by
  obtain ⟨spec, hspec, hname, -⟩ := name.exists_spec
  rw [← hname]
  exact lower_canonical hspec

variable {spec : MetaKeySpec}

theorem reserved_canonical (hspec : spec ∈ metaKeyRegistry) :
    isGatewayReservedKey spec.canonical = true := by
  rw [isGatewayReservedKey_iff, reservedNames, mem_cons, mem_map]
  exact .inr ⟨spec.canonical, mem_flatMap.mpr ⟨spec, hspec, mem_cons_self⟩, rfl⟩

theorem MetaName.reserved_text : isGatewayReservedKey name.text = true := by
  obtain ⟨spec, hspec, hname, -⟩ := name.exists_spec
  rw [← hname, reserved_canonical hspec]

theorem reserved_compact (hspec : spec ∈ metaKeyRegistry) :
    isGatewayReservedKey spec.compact = true := by
  rw [isGatewayReservedKey_iff, reservedNames, mem_cons, mem_map]
  exact .inr ⟨spec.compact, mem_flatMap.mpr
    ⟨spec, hspec, mem_cons_of_mem _ mem_cons_self⟩, rfl⟩

variable {key : Str}

theorem isCompactedKey_iff : isCompactedKey key = true ↔
    ∃ spec ∈ metaKeyRegistry, spec.compact ≠ [] ∧ lowerAscii key = spec.compact := by
  rw [isCompactedKey, any_eq_true]
  constructor
  · rintro ⟨spec, hspec, htest⟩
    obtain ⟨hne, hfold⟩ := of_decide_eq_true htest
    rw [equalFold, decide_eq_true_iff, lower_compact hspec] at hfold
    exact ⟨spec, hspec, hne, hfold⟩
  · rintro ⟨spec, hspec, hne, hfold⟩
    refine ⟨spec, hspec, decide_eq_true ⟨hne, ?_⟩⟩
    rw [equalFold, decide_eq_true_iff, lower_compact hspec]
    exact hfold

/-! ## Maps of the gateway -/

/-- The gateway's keys are in lower case. -/
def CanonicalKeys (metadata : Map Str Str) : Prop :=
  ∀ key ∈ metadata, isGatewayReservedKey key = true → lowerAscii key = key

open MetaName

section Canonical

variable {choose : Chooser Str Str} {metadata : Map Str Str}

section

variable (hkeys : CanonicalKeys metadata)

include hkeys

theorem metadataValue_eq_lookup {name : Str} (hlower : lowerAscii name = name)
    (hreserved : isGatewayReservedKey name = true) :
    metadataValue choose metadata name = metadata.lookup name := by
  refine Chooser.find_eq_lookup (decide_eq_true rfl) fun key hmem hfold => ?_
  rw [equalFold, decide_eq_true_iff] at hfold
  have hkey := hkeys key hmem (by rw [isGatewayReservedKey_congr hfold, hreserved])
  rw [← hkey, hfold, hlower]

theorem metadataValue_text (name : MetaName) :
    metadataValue choose metadata name.text = metadata.lookup name.text :=
  metadataValue_eq_lookup hkeys name.lower_text name.reserved_text

theorem metadataValue_canonical (hspec : spec ∈ metaKeyRegistry) :
    metadataValue choose metadata spec.canonical = metadata.lookup spec.canonical :=
  metadataValue_eq_lookup hkeys (lower_canonical hspec) (reserved_canonical hspec)

theorem metadataValue_compact (hspec : spec ∈ metaKeyRegistry) :
    metadataValue choose metadata spec.compact = metadata.lookup spec.compact :=
  metadataValue_eq_lookup hkeys (lower_compact hspec) (reserved_compact hspec)

end

theorem lookup_insertSome (name key : Str) (value : Option Str) :
    (insertSome metadata name value).lookup key =
      if key = name then value.or (metadata.lookup key) else metadata.lookup key := by
  cases value with
  | none => simp [insertSome]
  | some value =>
    split
    · rename_i heq
      rw [heq, insertSome, Finmap.lookup_insert, Option.some_or]
    · rename_i hne
      rw [insertSome, Finmap.lookup_insert_of_ne _ hne]

/-! ### Expansion -/

/-- Each entry that expansion stores is the one of its spec. -/
theorem expandEntry_spec {entry : Str × Str}
    (hentry : (if spec.compact = [] ∨ (metadataValue choose metadata spec.canonical).isSome then none
      else ((metadataValue choose metadata spec.compact).filter (· ≠ [])).map
        fun value => (spec.canonical, value)) = some entry) :
    decide (spec.compact ≠ []) = true ∧ entry.1 = spec.canonical := by
  split at hentry
  · cases hentry
  · rename_i htake
    obtain ⟨value, -, rfl⟩ := Option.map_eq_some_iff.mp hentry
    exact ⟨decide_eq_true (not_or.mp htake).1, rfl⟩

theorem nodup_filter_canonical :
    ((metaKeyRegistry.filter (·.compact ≠ [])).map MetaKeySpec.canonical).Nodup :=
  nodup_canonical.sublist (List.filter_sublist.map MetaKeySpec.canonical)

theorem nodup_expandEntries : ((expandEntries choose metadata).map Prod.fst).Nodup :=
  nodup_filter_canonical.sublist (keys_filterMap_sublist fun _ _ => expandEntry_spec)

/-- What expansion stores for an entry of the registry. -/
theorem lookup_expandEncryptionMetadata_spec (hspec : spec ∈ metaKeyRegistry)
    (hcompact : spec.compact ≠ []) :
    (expandEncryptionMetadata choose metadata).lookup spec.canonical =
      if (metadataValue choose metadata spec.canonical).isSome then none
      else (metadataValue choose metadata spec.compact).filter (· ≠ []) := by
  rw [expandEncryptionMetadata, expandEntries, lookup_renameKeys_filterMap
    (fun _ _ => expandEntry_spec) nodup_filter_canonical hspec (decide_eq_true hcompact)]
  simp only [hcompact, false_or]
  split
  · rfl
  · rw [Option.map_map]
    exact Option.map_id'

theorem exists_of_mem_expandEncryptionMetadata
    (hmem : key ∈ expandEncryptionMetadata choose metadata) :
    ∃ spec ∈ metaKeyRegistry, spec.compact ≠ [] ∧ spec.canonical = key := by
  obtain ⟨value, hvalue⟩ := Finmap.mem_iff.mp hmem
  rw [expandEncryptionMetadata, lookup_renameKeys_id nodup_expandEntries, expandEntries,
    mem_filterMap] at hvalue
  obtain ⟨spec, hspec, hentry⟩ := hvalue
  obtain ⟨hcompact, hkey⟩ := expandEntry_spec hentry
  exact ⟨spec, hspec, of_decide_eq_true hcompact, hkey.symm⟩

/-- What a constant's compact spelling stands for. -/
def compactValue (metadata : Map Str Str) (name : MetaName) : Option Str :=
  if name.compact = [] then none else (metadata.lookup name.compact).filter (· ≠ [])

theorem lookup_expandEncryptionMetadata (hkeys : CanonicalKeys metadata) (name : MetaName) :
    (expandEncryptionMetadata choose metadata).lookup name.text =
      if metadata.lookup name.text = none then compactValue metadata name else none := by
  obtain ⟨spec, hspec, hcanonical, hshort⟩ := name.exists_spec
  rw [compactValue, ← hshort]
  by_cases hcompact : spec.compact = []
  · rw [if_pos hcompact, ite_self, Finmap.lookup_eq_none, ← hcanonical]
    intro hmem
    obtain ⟨spec', hspec', hne, hsame⟩ := exists_of_mem_expandEncryptionMetadata hmem
    obtain rfl : spec' = spec := inj_on_of_nodup_map nodup_canonical hspec' hspec hsame
    exact hne hcompact
  · rw [← hcanonical, lookup_expandEncryptionMetadata_spec hspec hcompact,
      metadataValue_canonical hkeys hspec, metadataValue_compact hkeys hspec, if_neg hcompact]
    cases metadata.lookup spec.canonical <;> rfl

theorem isCompactedKey_text : isCompactedKey name.text = false := by
  rw [← Bool.not_eq_true, isCompactedKey_iff]
  rintro ⟨spec, hspec, hfull, hshared⟩
  obtain ⟨spec', hspec', hcanonical, -⟩ := name.exists_spec
  rw [name.lower_text, ← hcanonical] at hshared
  obtain rfl := eq_of_shared_spelling hspec hspec' hfull (.inr rfl) (.inl hshared.symm)
  exact canonical_ne_compact hspec hshared

/-- **Expansion.**  A constant is found under its canonical spelling, or else under the compact
one. -/
theorem lookup_expandMetadata (hkeys : CanonicalKeys metadata) (name : MetaName) :
    (expandMetadata choose metadata).lookup name.text =
      (metadata.lookup name.text).or (compactValue metadata name) := by
  have hrest : (insertSome (MapRange.keep (fun key => !isCompactedKey key) metadata)
      encrypted.text (metadataValue choose metadata encrypted.text)).lookup
        name.text = metadata.lookup name.text := by
    rw [lookup_insertSome, lookup_keep, isCompactedKey_text, metadataValue_text hkeys]
    split
    · rename_i heq
      rw [text_injective heq]
      cases metadata.lookup encrypted.text <;> rfl
    · rfl
  rw [expandMetadata, lookup_union, lookup_expandEncryptionMetadata hkeys, hrest]
  cases metadata.lookup name.text with
  | none => rw [if_pos rfl, Option.or_none, Option.none_or]
  | some value => rw [if_neg nofun, Option.none_or, Option.some_or]

theorem isCompactedKey_of_not_reserved (hkey : isGatewayReservedKey key = false) :
    isCompactedKey key = false := by
  rw [← Bool.not_eq_true, isCompactedKey_iff]
  rintro ⟨spec, hspec, -, hlower⟩
  have hcompact := reserved_compact hspec
  rw [← hlower, isGatewayReservedKey_congr (lowerAscii_lowerAscii key), hkey] at hcompact
  cases hcompact

/-- Expansion leaves the other keys alone. -/
theorem lookup_expandMetadata_other (hkey : isGatewayReservedKey key = false) :
    (expandMetadata choose metadata).lookup key = metadata.lookup key := by
  have hnot : (expandEncryptionMetadata choose metadata).lookup key = none := by
    rw [Finmap.lookup_eq_none]
    intro hmem
    obtain ⟨spec, hspec, -, rfl⟩ := exists_of_mem_expandEncryptionMetadata hmem
    rw [reserved_canonical hspec] at hkey
    cases hkey
  have hne : key ≠ encrypted.text := by
    rintro rfl
    rw [reserved_text] at hkey
    cases hkey
  rw [expandMetadata, lookup_union, hnot, Option.none_or, lookup_insertSome, if_neg hne,
    lookup_keep, isCompactedKey_of_not_reserved hkey]
  rfl

/-! ### Compaction -/

/-- Each entry that compaction stores is the one of its spec. -/
theorem compactEntry_spec {entry : Str × Str}
    (hentry : (if spec.compact = [] ∨ spec.canonical = encrypted.text then none
      else (((metadataValue choose metadata spec.canonical).or
        (metadataValue choose metadata spec.compact)).filter (· ≠ [])).map
          fun value => (spec.compact, value)) = some entry) :
    decide (spec.compact ≠ []) = true ∧ entry.1 = spec.compact := by
  split at hentry
  · cases hentry
  · rename_i htake
    obtain ⟨value, -, rfl⟩ := Option.map_eq_some_iff.mp hentry
    exact ⟨decide_eq_true (not_or.mp htake).1, rfl⟩

theorem nodup_compactEntries : ((compactEntries choose metadata).map Prod.fst).Nodup :=
  nodup_compact.sublist (keys_filterMap_sublist fun _ _ => compactEntry_spec)

/-- A compact spelling holds what was found under either spelling. -/
theorem lookup_compactEncryptionMetadata_spec (hspec : spec ∈ metaKeyRegistry)
    (hcompact : spec.compact ≠ []) (hother : spec.canonical ≠ encrypted.text) :
    (compactEncryptionMetadata choose metadata).lookup spec.compact =
      ((metadataValue choose metadata spec.canonical).or
        (metadataValue choose metadata spec.compact)).filter (· ≠ []) := by
  rw [compactEncryptionMetadata, compactEntries, lookup_renameKeys_filterMap
    (fun _ _ => compactEntry_spec) nodup_compact hspec (decide_eq_true hcompact),
    if_neg (not_or.mpr ⟨hcompact, hother⟩), Option.map_map]
  exact Option.map_id'

theorem exists_of_mem_compactEncryptionMetadata
    (hmem : key ∈ compactEncryptionMetadata choose metadata) :
    ∃ spec ∈ metaKeyRegistry, spec.compact ≠ [] ∧ spec.canonical ≠ encrypted.text ∧
      spec.compact = key := by
  obtain ⟨value, hvalue⟩ := Finmap.mem_iff.mp hmem
  rw [compactEncryptionMetadata, lookup_renameKeys_id nodup_compactEntries, compactEntries,
    mem_filterMap] at hvalue
  obtain ⟨spec, hspec, hentry⟩ := hvalue
  split at hentry
  · cases hentry
  · rename_i htake
    obtain ⟨value', -, heq⟩ := Option.map_eq_some_iff.mp hentry
    exact ⟨spec, hspec, (not_or.mp htake).1, (not_or.mp htake).2, congrArg Prod.fst heq⟩

theorem lookup_compactEncryptionMetadata_text (name : MetaName) :
    (compactEncryptionMetadata choose metadata).lookup name.text = none := by
  rw [Finmap.lookup_eq_none]
  intro hmem
  obtain ⟨spec, hspec, hne, -, heq⟩ := exists_of_mem_compactEncryptionMetadata hmem
  have hcompacted : isCompactedKey name.text = true :=
    isCompactedKey_iff.mpr ⟨spec, hspec, hne, by rw [name.lower_text, heq]⟩
  rw [isCompactedKey_text] at hcompacted
  cases hcompacted

theorem lookup_compact_of_plain (hplain : ∀ key ∈ metadata, isCompactedKey key = false)
    {name : MetaName} (hcompact : name.compact ≠ []) : metadata.lookup name.compact = none := by
  obtain ⟨spec, hspec, -, hshort⟩ := name.exists_spec
  rw [Finmap.lookup_eq_none]
  intro hmem
  have hcompacted : isCompactedKey name.compact = true :=
    isCompactedKey_iff.mpr ⟨spec, hspec, hshort ▸ hcompact, by
      rw [← hshort]
      exact lower_compact hspec⟩
  rw [hplain _ hmem] at hcompacted
  cases hcompacted

/-- The other keys stay as they are, too. -/
theorem lookup_compactMetadata_other (hkey : isGatewayReservedKey key = false)
    (strategy : CompactionStrategy) :
    (compactMetadata choose metadata strategy).lookup key = metadata.lookup key := by
  cases strategy with
  | none => rfl
  | base64url =>
    have hnot : (compactEncryptionMetadata choose metadata).lookup key = none := by
      rw [Finmap.lookup_eq_none]
      intro hmem
      obtain ⟨spec, hspec, -, -, rfl⟩ := exists_of_mem_compactEncryptionMetadata hmem
      rw [reserved_compact hspec] at hkey
      cases hkey
    have hne : key ≠ encrypted.text := by
      rintro rfl
      rw [reserved_text] at hkey
      cases hkey
    obtain ⟨hlength, hlookup⟩ := Bool.or_eq_false_iff.mp hkey
    rw [Option.isSome_eq_false_iff, Option.isNone_iff_eq_none] at hlookup
    have htest : (!isCompactable key && !isEncryptionMetadata key) = true := by
      rw [isCompactable, isEncryptionMetadata, hlookup, hlength]
      rfl
    rw [compactMetadata, lookup_union, hnot, Option.none_or, lookup_insertSome, if_neg hne,
      lookup_keep, if_pos htest]

end Canonical

end S3EncryptionGateway.Metadata
