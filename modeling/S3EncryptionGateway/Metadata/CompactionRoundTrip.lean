import S3EncryptionGateway.Metadata.Compaction

/-!
# What compaction loses

Compaction and expansion are separate functions, and three tests decide in compaction what becomes
of a key: whether its entry has a compact spelling, whether it is sealed with the object, and
whether it is the marker of encrypted objects.  Here the keys may be spelled in any way, as long
as no two of them stand for the same entry (`DistinctKeys`).

## Result

* Ordinary keys come back, no key is added, and compaction changes its own output no more.
* A key of the registry comes back unless it falls between the tests: `Survives` says which do.
  An entry that has no compact spelling but is sealed with the object is dropped, and so is a
  value under an old spelling.
-/

namespace S3EncryptionGateway.Metadata

open Text MapRange

/-! ## Expansion for a profile -/

def expandMetadataFor (choose : Chooser Str Str) (metadata : Map Str Str) :
    CompactionStrategy → Map Str Str
  | .none =>
    keep isEncryptionMetadata metadata ∪
      insertSome metadata MetaName.encrypted.text
        (metadataValue choose metadata MetaName.encrypted.text)
  | .base64url => expandMetadata choose metadata

/-- No two keys are spellings of one name, or names of one entry. -/
def DistinctKeys (metadata : Map Str Str) : Prop :=
  ∀ key ∈ metadata, ∀ key' ∈ metadata,
    lowerAscii key = lowerAscii key' ∨
      (lookupMetaKey key).isSome ∧ lookupMetaKey key = lookupMetaKey key' → key = key'

/-- Expanding what compaction made gives back the keys of the registry that have a value, in
canonical spelling, and the ordinary keys, and no others; and compaction is idempotent. -/
structure Restores (choose choose' : Chooser Str Str) (metadata : Map Str Str)
    (strategy : CompactionStrategy) : Prop where
  registered : ∀ key spec value, lookupMetaKey key = some spec →
    metadata.lookup key = some value → value ≠ [] →
      (expandMetadataFor choose' (compactMetadata choose metadata strategy) strategy).lookup
        spec.canonical = some value
  ordinary : ∀ key, isGatewayReservedKey key = false →
    (expandMetadataFor choose' (compactMetadata choose metadata strategy) strategy).lookup key =
      metadata.lookup key
  no_other : ∀ key ∈ expandMetadataFor choose' (compactMetadata choose metadata strategy) strategy,
    key ∈ metadata ∨ ∃ key' ∈ metadata, ∃ spec, lookupMetaKey key' = some spec ∧
      key = spec.canonical
  idempotent : compactMetadata choose' (compactMetadata choose metadata strategy) strategy =
    compactMetadata choose metadata strategy

/-- The spellings under which the value of an entry is kept. -/
def Survives (strategy : CompactionStrategy) (spec : MetaKeySpec) (key : Str) : Prop :=
  match strategy with
  | .none =>
    key = spec.canonical ∨
      spec.canonical = MetaName.encrypted.text ∧ equalFold key spec.canonical = true
  | .base64url =>
    if spec.compact = [] then key = spec.canonical ∧ spec.legacyEncryptionPredicate = false
    else equalFold key spec.canonical = true ∨ equalFold key spec.compact = true

/-! ## Spellings -/

variable {key : Str}

theorem lookupMetaKey_congr {key' : Str} (hlower : lowerAscii key = lowerAscii key') :
    lookupMetaKey key = lookupMetaKey key' := by
  unfold lookupMetaKey
  rw [hlower]

open MetaName

section Entry

variable {spec : MetaKeySpec} (hspec : spec ∈ metaKeyRegistry) {key : Str}

include hspec

theorem lookupMetaKey_of_fold_canonical (hfold : lowerAscii key = lowerAscii spec.canonical) :
    lookupMetaKey key = some spec := by
  rw [lookupMetaKey_congr hfold]
  exact lookupMetaKey_of_spelling hspec (registry_table.2.1 spec hspec).1 (.inl rfl)

theorem lookupMetaKey_of_fold_compact (hcompact : spec.compact ≠ [])
    (hfold : lowerAscii key = lowerAscii spec.compact) : lookupMetaKey key = some spec := by
  rw [lookupMetaKey_congr hfold]
  exact lookupMetaKey_of_spelling hspec hcompact (.inr rfl)

omit hspec in
theorem isCompactable_of_lookup (hlookup : lookupMetaKey key = some spec)
    (hcompact : spec.compact ≠ []) : isCompactable key = true := by
  rw [isCompactable, hlookup]
  exact decide_eq_true hcompact

theorem compact_of_encrypted (hencrypted : spec.canonical = encrypted.text) :
    spec.compact ≠ [] := by
  obtain ⟨spec', hspec', htext, hshort⟩ := exists_spec .encrypted
  obtain rfl : spec = spec' :=
    List.inj_on_of_nodup_map nodup_canonical hspec hspec' (hencrypted.trans htext.symm)
  rw [hshort]
  decide

end Entry

theorem lookupMetaKey_encrypted :
    ∃ spec ∈ metaKeyRegistry, spec.canonical = encrypted.text ∧
      spec.compact = encrypted.compact ∧ spec.compact ≠ [] ∧
      lookupMetaKey encrypted.text = some spec := by
  obtain ⟨spec, hspec, htext, hshort⟩ := exists_spec .encrypted
  refine ⟨spec, hspec, htext, hshort, compact_of_encrypted hspec htext, ?_⟩
  exact lookupMetaKey_of_fold_canonical hspec (by rw [htext])

open Finmap

section Search

variable {choose choose' : Chooser Str Str} {metadata : Map Str Str}

theorem metadataValue_of_mem (hdistinct : DistinctKeys metadata) {name : Str}
    (hmem : key ∈ metadata) (hfold : lowerAscii key = lowerAscii name) :
    metadataValue choose metadata name = metadata.lookup key := by
  refine Chooser.find_eq_lookup (decide_eq_true hfold) fun key' hmem' hfold' => ?_
  have hlower : lowerAscii key' = lowerAscii name := of_decide_eq_true hfold'
  exact hdistinct key' hmem' key hmem (.inl (hlower.trans hfold.symm))

theorem metadataValue_eq_none_iff {name : Str} :
    metadataValue choose metadata name = none ↔
      ∀ key ∈ metadata, lowerAscii key ≠ lowerAscii name := by
  rw [metadataValue, Chooser.find_eq_none_iff]
  refine forall₂_congr fun key _ => ?_
  rw [equalFold, decide_eq_false_iff_not]

theorem mem_of_metadataValue {name value : Str}
    (hvalue : metadataValue choose metadata name = some value) :
    ∃ key ∈ metadata, lowerAscii key = lowerAscii name := by
  obtain ⟨key, hchoose, hlookup⟩ := Option.bind_eq_some_iff.mp hvalue
  exact ⟨key, mem_iff.mpr ⟨value, hlookup⟩, of_decide_eq_true (choose.passes hchoose).2⟩

/-! ## The keys of a compacted map -/

/-- Where a key of a compacted map comes from. -/
theorem mem_compactMetadata (hmem : key ∈ compactMetadata choose metadata .base64url) :
    key ∈ metadata ∧ isCompactable key = false ∧ isEncryptionMetadata key = false ∨
      key = encrypted.text ∧ (encryptionMarker choose metadata).isSome ∨
      ∃ spec ∈ metaKeyRegistry, spec.compact ≠ [] ∧ spec.canonical ≠ encrypted.text ∧
        spec.compact = key := by
  rcases mem_union.mp hmem with hcompact | hrest
  · exact .inr (.inr (exists_of_mem_compactEncryptionMetadata hcompact))
  obtain ⟨value, hvalue⟩ := mem_iff.mp hrest
  rw [lookup_insertSome, lookup_keep] at hvalue
  have hkept : ∀ {value}, (if (!isCompactable key && !isEncryptionMetadata key) = true then
      metadata.lookup key else none) = some value →
      key ∈ metadata ∧ isCompactable key = false ∧ isEncryptionMetadata key = false := by
    intro value hkeep
    split at hkeep
    · rename_i htest
      simp only [Bool.and_eq_true, Bool.not_eq_true'] at htest
      exact ⟨mem_iff.mpr ⟨value, hkeep⟩, htest⟩
    · cases hkeep
  split at hvalue
  · rename_i hencrypted
    cases hmarker : encryptionMarker choose metadata with
    | none =>
      rw [hmarker, Option.none_or] at hvalue
      exact .inl (hkept hvalue)
    | some marker => exact .inr (.inl ⟨hencrypted, rfl⟩)
  · exact .inl (hkept hvalue)

section Compacted

variable {spec : MetaKeySpec} (hspec : spec ∈ metaKeyRegistry) (hcompact : spec.compact ≠ [])

include hspec hcompact

/-- In a compacted map only the marker stands under the canonical spelling of an entry that has a
compact one. -/
theorem fold_canonical_of_mem_compactMetadata
    (hmem : key ∈ compactMetadata choose metadata .base64url)
    (hfold : lowerAscii key = lowerAscii spec.canonical) :
    key = encrypted.text ∧ spec.canonical = encrypted.text := by
  rcases mem_compactMetadata hmem with ⟨-, hnot, -⟩ | ⟨rfl, -⟩ | ⟨spec', hspec', hne, -, rfl⟩
  · rw [isCompactable_of_lookup (lookupMetaKey_of_fold_canonical hspec hfold) hcompact] at hnot
    cases hnot
  · rw [lower_text, lower_canonical hspec] at hfold
    exact ⟨rfl, hfold.symm⟩
  · rw [lower_compact hspec', lower_canonical hspec] at hfold
    obtain rfl := eq_of_shared_spelling hspec' hspec hne (.inr rfl) (.inl hfold)
    exact absurd hfold.symm (canonical_ne_compact hspec)

/-- And only the entry itself under its compact spelling. -/
theorem fold_compact_of_mem_compactMetadata
    (hmem : key ∈ compactMetadata choose metadata .base64url)
    (hfold : lowerAscii key = lowerAscii spec.compact) :
    key = spec.compact ∧ spec.canonical ≠ encrypted.text := by
  rcases mem_compactMetadata hmem with ⟨-, hnot, -⟩ | ⟨rfl, -⟩ | ⟨spec', hspec', hne, hother, rfl⟩
  · rw [isCompactable_of_lookup (lookupMetaKey_of_fold_compact hspec hcompact hfold) hcompact]
      at hnot
    cases hnot
  · rw [lower_text, lower_compact hspec] at hfold
    obtain ⟨spec', hspec', htext, -⟩ := exists_spec .encrypted
    rw [← htext] at hfold
    obtain rfl := eq_of_shared_spelling hspec hspec' hcompact (.inr rfl) (.inl hfold.symm)
    exact absurd hfold (canonical_ne_compact hspec)
  · rw [lower_compact hspec', lower_compact hspec] at hfold
    obtain rfl := eq_of_shared_spelling hspec' hspec hne (.inr rfl) (.inr hfold)
    exact ⟨rfl, hother⟩

theorem metadataValue_compact_compacted :
    metadataValue choose' (compactMetadata choose metadata .base64url) spec.compact =
      (compactMetadata choose metadata .base64url).lookup spec.compact :=
  Chooser.find_eq_lookup (decide_eq_true rfl) fun _ hmem hfold =>
    (fold_compact_of_mem_compactMetadata hspec hcompact hmem (of_decide_eq_true hfold)).1

theorem metadataValue_canonical_compacted (hother : spec.canonical ≠ encrypted.text) :
    metadataValue choose' (compactMetadata choose metadata .base64url) spec.canonical = none :=
  metadataValue_eq_none_iff.mpr fun _ hmem hfold =>
    hother (fold_canonical_of_mem_compactMetadata hspec hcompact hmem hfold).2

/-- What stands under the compact spelling. -/
theorem lookup_compactMetadata_compact (hother : spec.canonical ≠ encrypted.text) :
    (compactMetadata choose metadata .base64url).lookup spec.compact =
      ((metadataValue choose metadata spec.canonical).or
        (metadataValue choose metadata spec.compact)).filter (· ≠ []) := by
  have hne : spec.compact ≠ encrypted.text := by
    intro heq
    obtain ⟨spec', hspec', htext, -⟩ := exists_spec .encrypted
    rw [← htext] at heq hother
    obtain rfl := eq_of_shared_spelling hspec hspec' hcompact (.inr rfl) (.inl heq)
    exact hother rfl
  have hdropped : isCompactable spec.compact = true :=
    isCompactable_of_lookup (lookupMetaKey_of_spelling hspec hcompact (.inr rfl)) hcompact
  rw [compactMetadata, lookup_union, lookup_compactEncryptionMetadata_spec hspec hcompact hother,
    lookup_insertSome, if_neg hne, lookup_keep, hdropped]
  exact Option.or_none

end Compacted

theorem metadataValue_encrypted_compacted :
    metadataValue choose' (compactMetadata choose metadata .base64url) encrypted.text =
      (compactMetadata choose metadata .base64url).lookup encrypted.text := by
  obtain ⟨spec, hspec, htext, -, hcompact, -⟩ := lookupMetaKey_encrypted
  refine Chooser.find_eq_lookup (decide_eq_true rfl) fun key hmem hfold => ?_
  rw [← htext] at hfold
  exact (fold_canonical_of_mem_compactMetadata hspec hcompact hmem (of_decide_eq_true hfold)).1

theorem lookup_encrypted_compacted :
    (compactMetadata choose metadata .base64url).lookup encrypted.text =
      encryptionMarker choose metadata := by
  obtain ⟨spec, hspec, htext, -, hcompact, hlookup⟩ := lookupMetaKey_encrypted
  rw [compactMetadata, lookup_union, lookup_compactEncryptionMetadata_text, Option.none_or,
    lookup_insertSome, if_pos rfl, lookup_keep, isCompactable_of_lookup hlookup hcompact]
  exact Option.or_none

/-! ## Idempotence -/

theorem encryptionMarker_compacted :
    encryptionMarker choose' (compactMetadata choose metadata .base64url) =
      encryptionMarker choose metadata := by
  obtain ⟨spec, hspec, htext, hshort, hcompact, -⟩ := lookupMetaKey_encrypted
  have hnone : metadataValue choose' (compactMetadata choose metadata .base64url)
      encrypted.compact = none := by
    rw [← hshort]
    exact metadataValue_eq_none_iff.mpr fun key hmem hfold =>
      (fold_compact_of_mem_compactMetadata hspec hcompact hmem hfold).2 htext
  rw [encryptionMarker, metadataValue_encrypted_compacted, lookup_encrypted_compacted, hnone,
    Option.or_none]

theorem compactMetadata_compacted (strategy : CompactionStrategy) :
    compactMetadata choose' (compactMetadata choose metadata strategy) strategy =
      compactMetadata choose metadata strategy := by
  cases strategy with
  | none => rfl
  | base64url =>
    apply ext_lookup
    intro key
    by_cases hcompacted : ∃ spec ∈ metaKeyRegistry, spec.compact ≠ [] ∧
        spec.canonical ≠ encrypted.text ∧ spec.compact = key
    · -- a compact spelling: what was stored has a value, so it is stored again
      obtain ⟨spec, hspec, hcompact, hother, rfl⟩ := hcompacted
      rw [lookup_compactMetadata_compact hspec hcompact hother,
        metadataValue_canonical_compacted hspec hcompact hother, Option.none_or,
        metadataValue_compact_compacted hspec hcompact,
        lookup_compactMetadata_compact hspec hcompact hother, Option.filter_filter]
      simp
    · have hnone : ∀ {choose : Chooser Str Str} {metadata : Map Str Str},
          (compactEncryptionMetadata choose metadata).lookup key = none := by
        intro choose metadata
        exact lookup_eq_none.mpr fun hmem =>
          hcompacted (exists_of_mem_compactEncryptionMetadata hmem)
      by_cases hencrypted : key = encrypted.text
      · rw [hencrypted, lookup_encrypted_compacted, encryptionMarker_compacted,
          lookup_encrypted_compacted]
      · have hrest : ∀ {choose : Chooser Str Str} {metadata : Map Str Str},
            (compactMetadata choose metadata .base64url).lookup key =
              if (!isCompactable key && !isEncryptionMetadata key) = true then
                metadata.lookup key else none := by
          intro choose metadata
          rw [compactMetadata, lookup_union, hnone, Option.none_or, lookup_insertSome,
            if_neg hencrypted, lookup_keep]
        rw [hrest, hrest]
        split <;> rfl

/-! ## Expansion of a compacted map -/

variable {spec : MetaKeySpec}

/-- What expansion gives for an entry with a compact spelling. -/
theorem lookup_canonical_expanded (hspec : spec ∈ metaKeyRegistry) (hcompact : spec.compact ≠ [])
    (hother : spec.canonical ≠ encrypted.text) :
    (expandMetadata choose' (compactMetadata choose metadata .base64url)).lookup spec.canonical =
      ((metadataValue choose metadata spec.canonical).or
        (metadataValue choose metadata spec.compact)).filter (· ≠ []) := by
  have hnone : (compactMetadata choose metadata .base64url).lookup spec.canonical = none := by
    rw [lookup_eq_none]
    intro hmem
    exact hother (fold_canonical_of_mem_compactMetadata hspec hcompact hmem rfl).2
  rw [expandMetadata, lookup_union, lookup_expandEncryptionMetadata_spec hspec hcompact,
    metadataValue_canonical_compacted hspec hcompact hother,
    metadataValue_compact_compacted hspec hcompact,
    lookup_compactMetadata_compact hspec hcompact hother, lookup_insertSome, if_neg hother,
    lookup_keep, hnone, Option.filter_filter]
  simp

theorem lookup_encrypted_expanded :
    (expandMetadata choose' (compactMetadata choose metadata .base64url)).lookup
      encrypted.text = encryptionMarker choose metadata := by
  obtain ⟨spec, hspec, htext, hshort, hcompact, -⟩ := lookupMetaKey_encrypted
  have hnone : (expandEncryptionMetadata choose' (compactMetadata choose metadata .base64url)).lookup
      encrypted.text = none := by
    rw [← htext, lookup_expandEncryptionMetadata_spec hspec hcompact,
      metadataValue_compact_compacted hspec hcompact]
    have habsent : (compactMetadata choose metadata .base64url).lookup spec.compact = none := by
      rw [lookup_eq_none]
      intro hmem
      exact (fold_compact_of_mem_compactMetadata hspec hcompact hmem rfl).2 htext
    rw [habsent]
    split <;> rfl
  rw [expandMetadata, lookup_union, hnone, Option.none_or, lookup_insertSome, if_pos rfl,
    metadataValue_encrypted_compacted, lookup_encrypted_compacted, lookup_keep,
    lookup_encrypted_compacted, isCompactedKey_text]
  cases encryptionMarker choose metadata <;> rfl

theorem isEncryptionMetadata_canonical (hspec : spec ∈ metaKeyRegistry)
    (hother : spec.canonical ≠ encrypted.text) :
    isEncryptionMetadata spec.canonical = spec.legacyEncryptionPredicate := by
  have hlength : equalFold spec.canonical originalContentLength = false := by
    rw [equalFold, decide_eq_false_iff_not, lower_canonical hspec,
      (registry_table.1 originalContentLength List.mem_cons_self).2.1]
    intro heq
    have hnodup := (List.nodup_cons.mp registry_table.2.2.of_map).1
    refine hnodup (List.mem_flatMap.mpr ⟨spec, hspec, List.mem_filter.mpr ⟨?_, ?_⟩⟩)
    · exact heq ▸ List.mem_cons_self
    · exact decide_eq_true (heq ▸ (registry_table.2.1 spec hspec).1)
  have hmarker : equalFold spec.canonical encrypted.text = false := by
    rw [equalFold, decide_eq_false_iff_not, lower_canonical hspec, lower_text]
    exact hother
  simp [isEncryptionMetadata, lookupMetaKey_of_fold_canonical hspec rfl, hlength, hmarker]

/-- An entry without a compact spelling is copied, if it is not sealed with the object. -/
theorem lookup_uncompacted_expanded (hspec : spec ∈ metaKeyRegistry)
    (hcompact : spec.compact = []) : 
    (expandMetadata choose' (compactMetadata choose metadata .base64url)).lookup spec.canonical =
      if spec.legacyEncryptionPredicate then none else metadata.lookup spec.canonical := by
  have hencrypted : spec.canonical ≠ encrypted.text := fun heq =>
    compact_of_encrypted hspec heq hcompact
  have hlookup : lookupMetaKey spec.canonical = some spec :=
    lookupMetaKey_of_fold_canonical hspec rfl
  have hexpand : ∀ {metadata : Map Str Str},
      (expandEncryptionMetadata choose' metadata).lookup spec.canonical = none := by
    intro metadata
    rw [lookup_eq_none]
    intro hmem
    obtain ⟨spec', hspec', hne, hsame⟩ := exists_of_mem_expandEncryptionMetadata hmem
    obtain rfl : spec' = spec := List.inj_on_of_nodup_map nodup_canonical hspec' hspec hsame
    exact hne hcompact
  have hcompacted : isCompactedKey spec.canonical = false := by
    rw [← Bool.not_eq_true, isCompactedKey_iff]
    rintro ⟨spec', hspec', hne, hshared⟩
    rw [lower_canonical hspec] at hshared
    obtain rfl := eq_of_shared_spelling hspec' hspec hne (.inr rfl) (.inl hshared.symm)
    exact hne hcompact
  have hshort : (compactEncryptionMetadata choose metadata).lookup spec.canonical = none := by
    rw [lookup_eq_none]
    intro hmem
    obtain ⟨spec', hspec', hne, -, hshared⟩ := exists_of_mem_compactEncryptionMetadata hmem
    obtain rfl := eq_of_shared_spelling hspec' hspec hne (.inr rfl) (.inl hshared)
    exact hne hcompact
  have htest : (!isCompactable spec.canonical && !isEncryptionMetadata spec.canonical) =
      !spec.legacyEncryptionPredicate := by
    rw [isEncryptionMetadata_canonical hspec hencrypted]
    simp [isCompactable, hlookup, hcompact]
  rw [expandMetadata, lookup_union, hexpand, Option.none_or, lookup_insertSome, if_neg hencrypted,
    lookup_keep, hcompacted, compactMetadata, lookup_union, hshort, Option.none_or,
    lookup_insertSome, if_neg hencrypted, lookup_keep, htest]
  cases spec.legacyEncryptionPredicate <;> rfl

/-! ## The keys of the registry -/

section Registered

variable (hdistinct : DistinctKeys metadata) {key value : Str} {spec : MetaKeySpec}
  (hlookup : lookupMetaKey key = some spec) (hvalue : metadata.lookup key = some value)

include hdistinct hlookup hvalue

/-- A name of an entry is found if the entry's key is spelled that way. -/
theorem metadataValue_of_registered {name : Str}
    (hname : ∀ other, lowerAscii other = lowerAscii name → lookupMetaKey other = some spec) :
    metadataValue choose metadata name =
      if lowerAscii key = lowerAscii name then some value else none := by
  have hmem : key ∈ metadata := mem_iff.mpr ⟨value, hvalue⟩
  split_ifs with hfold
  · rw [metadataValue_of_mem hdistinct hmem hfold, hvalue]
  · refine metadataValue_eq_none_iff.mpr fun other hother hsame => hfold ?_
    have hregistered : (lookupMetaKey other).isSome ∧ lookupMetaKey other = lookupMetaKey key := by
      rw [hname other hsame, hlookup]
      exact ⟨rfl, rfl⟩
    rw [← hdistinct other hother key hmem (.inr hregistered), hsame]

/-- The canonical spelling of an entry is in the map only as the entry's key. -/
theorem lookup_canonical_of_registered :
    metadata.lookup spec.canonical = some value ↔ key = spec.canonical := by
  constructor
  · intro hcanonical
    have hspec := List.mem_of_find?_eq_some hlookup
    refine hdistinct key (mem_iff.mpr ⟨value, hvalue⟩) spec.canonical
      (mem_iff.mpr ⟨value, hcanonical⟩) (.inr ?_)
    rw [hlookup, lookupMetaKey_of_fold_canonical hspec rfl]
    exact ⟨rfl, rfl⟩
  · rintro rfl
    exact hvalue

variable (hfull : value ≠ [])

include hfull

theorem lookup_expanded_base64url_iff :
    (expandMetadata choose' (compactMetadata choose metadata .base64url)).lookup spec.canonical =
      some value ↔ Survives .base64url spec key := by
  have hspec := List.mem_of_find?_eq_some hlookup
  have hcanonical := @metadataValue_of_registered choose _ hdistinct _ _ _ hlookup hvalue
    spec.canonical fun _ => lookupMetaKey_of_fold_canonical hspec
  by_cases hcompact : spec.compact = []
  · rw [lookup_uncompacted_expanded hspec hcompact, Survives, if_pos hcompact]
    cases spec.legacyEncryptionPredicate with
    | true => simp
    | false => simpa using lookup_canonical_of_registered hdistinct hlookup hvalue
  · have hshort := @metadataValue_of_registered choose _ hdistinct _ _ _ hlookup hvalue
      spec.compact fun _ => lookupMetaKey_of_fold_compact hspec hcompact
    have hfound : (((metadataValue choose metadata spec.canonical).or
        (metadataValue choose metadata spec.compact)) = some value) ↔
        Survives .base64url spec key := by
      rw [hcanonical, hshort, Survives, if_neg hcompact, equalFold, equalFold, decide_eq_true_iff,
        decide_eq_true_iff]
      split_ifs <;> simp [*]
    by_cases hencrypted : spec.canonical = encrypted.text
    · obtain ⟨spec', hspec', htext, hmarker, -⟩ := lookupMetaKey_encrypted
      obtain rfl : spec = spec' :=
        List.inj_on_of_nodup_map nodup_canonical hspec hspec' (hencrypted.trans htext.symm)
      rw [hencrypted, lookup_encrypted_expanded, encryptionMarker, ← hencrypted, ← hmarker, hfound]
    · rw [lookup_canonical_expanded hspec hcompact hencrypted, Option.filter_eq_some_iff, hfound]
      simp [hfull]

omit hfull in
theorem lookup_expanded_none_iff :
    (expandMetadataFor choose' metadata .none).lookup spec.canonical = some value ↔
      Survives .none spec key := by
  have hspec := List.mem_of_find?_eq_some hlookup
  have hcanonical := @metadataValue_of_registered choose' _ hdistinct _ _ _ hlookup hvalue
    spec.canonical fun _ => lookupMetaKey_of_fold_canonical hspec
  rw [expandMetadataFor, lookup_union, lookup_keep, lookup_insertSome, Survives]
  by_cases hencrypted : spec.canonical = encrypted.text
  · have hnot : isEncryptionMetadata spec.canonical = false := by
      rw [hencrypted]
      decide
    rw [if_pos hencrypted, hnot, ← hencrypted, hcanonical]
    simp only [Bool.false_eq_true, if_false, Option.none_or, true_and, equalFold,
      decide_eq_true_eq]
    split_ifs with hfold
    · simp [hfold]
    · rw [Option.none_or, lookup_canonical_of_registered hdistinct hlookup hvalue, or_iff_left hfold]
  · rw [if_neg hencrypted]
    have hsame : (if isEncryptionMetadata spec.canonical = true then
        metadata.lookup spec.canonical else none).or (metadata.lookup spec.canonical) =
          metadata.lookup spec.canonical := by
      split
      · cases metadata.lookup spec.canonical <;> rfl
      · exact Option.none_or
    rw [hsame, lookup_canonical_of_registered hdistinct hlookup hvalue]
    simp [hencrypted]

end Registered

/-! ## The other keys -/

theorem lookup_ordinary_expanded (hkey : isGatewayReservedKey key = false)
    (strategy : CompactionStrategy) :
    (expandMetadataFor choose' (compactMetadata choose metadata strategy) strategy).lookup key =
      metadata.lookup key := by
  cases strategy with
  | base64url =>
    rw [expandMetadataFor, lookup_expandMetadata_other hkey, lookup_compactMetadata_other hkey]
  | none =>
    have hne : key ≠ encrypted.text := by
      rintro rfl
      rw [reserved_text] at hkey
      cases hkey
    obtain ⟨hlength, hlookup⟩ := Bool.or_eq_false_iff.mp hkey
    rw [Option.isSome_eq_false_iff, Option.isNone_iff_eq_none] at hlookup
    have hnot : isEncryptionMetadata key = false := by
      rw [isEncryptionMetadata, hlookup, hlength]
      rfl
    rw [expandMetadataFor, compactMetadata, lookup_union, lookup_keep, hnot, lookup_insertSome,
      if_neg hne]
    exact Option.none_or

theorem mem_of_encryptionMarker (hmarker : (encryptionMarker choose metadata).isSome) :
    ∃ key ∈ metadata, ∃ spec, lookupMetaKey key = some spec ∧
      encrypted.text = spec.canonical := by
  obtain ⟨spec, hspec, htext, hshort, hcompact, -⟩ := lookupMetaKey_encrypted
  obtain ⟨value, hvalue⟩ := Option.isSome_iff_exists.mp hmarker
  rcases Option.or_eq_some_iff.mp hvalue with hcanonical | ⟨-, hcompacted⟩
  · obtain ⟨key, hmem, hfold⟩ := mem_of_metadataValue hcanonical
    rw [← htext] at hfold
    exact ⟨key, hmem, spec, lookupMetaKey_of_fold_canonical hspec hfold, htext.symm⟩
  · obtain ⟨key, hmem, hfold⟩ := mem_of_metadataValue hcompacted
    rw [← hshort] at hfold
    exact ⟨key, hmem, spec, lookupMetaKey_of_fold_compact hspec hcompact hfold, htext.symm⟩

/-- A compact spelling is stored for a key of the entry. -/
theorem mem_of_lookup_compact (hspec : spec ∈ metaKeyRegistry) (hcompact : spec.compact ≠ [])
    (hother : spec.canonical ≠ encrypted.text)
    (hmem : spec.compact ∈ compactMetadata choose metadata .base64url) :
    ∃ key ∈ metadata, lookupMetaKey key = some spec := by
  obtain ⟨value, hvalue⟩ := mem_iff.mp hmem
  rw [lookup_compactMetadata_compact hspec hcompact hother, Option.filter_eq_some_iff] at hvalue
  rcases Option.or_eq_some_iff.mp hvalue.1 with hcanonical | ⟨-, hcompacted⟩
  · obtain ⟨key, hkey, hfold⟩ := mem_of_metadataValue hcanonical
    exact ⟨key, hkey, lookupMetaKey_of_fold_canonical hspec hfold⟩
  · obtain ⟨key, hkey, hfold⟩ := mem_of_metadataValue hcompacted
    exact ⟨key, hkey, lookupMetaKey_of_fold_compact hspec hcompact hfold⟩

theorem mem_of_mem_expanded (strategy : CompactionStrategy)
    (hmem : key ∈ expandMetadataFor choose' (compactMetadata choose metadata strategy) strategy) :
    key ∈ metadata ∨ ∃ key' ∈ metadata, ∃ spec, lookupMetaKey key' = some spec ∧
      key = spec.canonical := by
  cases strategy with
  | none =>
    rcases mem_union.mp hmem with hkept | hrest
    · obtain ⟨value, hvalue⟩ := mem_iff.mp hkept
      rw [lookup_keep] at hvalue
      split at hvalue
      · exact .inl (mem_iff.mpr ⟨value, hvalue⟩)
      · cases hvalue
    · obtain ⟨value, hvalue⟩ := mem_iff.mp hrest
      rw [lookup_insertSome] at hvalue
      split_ifs at hvalue with hencrypted
      · rcases Option.or_eq_some_iff.mp hvalue with hfound | ⟨-, hold⟩
        · right
          rw [hencrypted]
          apply @mem_of_encryptionMarker choose'
          rw [encryptionMarker]
          exact Option.isSome_iff_exists.mpr ⟨value, by rw [show metadataValue choose' metadata
            encrypted.text = some value from hfound, Option.some_or]⟩
        · exact .inl (mem_iff.mpr ⟨value, hold⟩)
      · exact .inl (mem_iff.mpr ⟨value, hvalue⟩)
  | base64url =>
    -- a key is registered under a compact spelling, is the marker, or was copied
    by_cases hregistered : ∃ spec ∈ metaKeyRegistry, spec.compact ≠ [] ∧ spec.canonical = key
    · obtain ⟨spec, hspec, hcompact, rfl⟩ := hregistered
      right
      by_cases hencrypted : spec.canonical = encrypted.text
      · rw [hencrypted] at hmem ⊢
        obtain ⟨value, hvalue⟩ := mem_iff.mp hmem
        rw [expandMetadataFor, lookup_encrypted_expanded] at hvalue
        exact mem_of_encryptionMarker (Option.isSome_iff_exists.mpr ⟨value, hvalue⟩)
      · obtain ⟨value, hvalue⟩ := mem_iff.mp hmem
        rw [expandMetadataFor, lookup_canonical_expanded hspec hcompact hencrypted,
          ← lookup_compactMetadata_compact hspec hcompact hencrypted] at hvalue
        obtain ⟨key', hkey', hlookup⟩ := mem_of_lookup_compact hspec hcompact hencrypted
          (mem_iff.mpr ⟨value, hvalue⟩)
        exact ⟨key', hkey', spec, hlookup, rfl⟩
    · have hne : key ≠ encrypted.text := by
        rintro rfl
        obtain ⟨spec, hspec, htext, -, hcompact, -⟩ := lookupMetaKey_encrypted
        exact hregistered ⟨spec, hspec, hcompact, htext⟩
      have hexpand : (expandEncryptionMetadata choose'
          (compactMetadata choose metadata .base64url)).lookup key = none :=
        lookup_eq_none.mpr fun hmem =>
          hregistered (exists_of_mem_expandEncryptionMetadata hmem)
      obtain ⟨value, hvalue⟩ := mem_iff.mp hmem
      rw [expandMetadataFor, expandMetadata, lookup_union, hexpand, Option.none_or,
        lookup_insertSome, if_neg hne, lookup_keep] at hvalue
      split at hvalue
      · rename_i hplain
        rcases mem_compactMetadata (mem_iff.mpr ⟨value, hvalue⟩) with
          ⟨hold, -⟩ | ⟨heq, -⟩ | ⟨spec, hspec, hcompact, -, rfl⟩
        · exact .inl hold
        · exact absurd heq hne
        · have hcompacted : isCompactedKey spec.compact = true :=
            isCompactedKey_iff.mpr ⟨spec, hspec, hcompact, lower_compact hspec⟩
          rw [hcompacted] at hplain
          cases hplain
      · cases hvalue

/-- **What survives compaction.**  Of a map without duplicates everything is restored exactly if
every value of the registry is under a spelling that survives. -/
theorem restores_iff (hdistinct : DistinctKeys metadata) (strategy : CompactionStrategy) :
    Restores choose choose' metadata strategy ↔
      ∀ key spec value, lookupMetaKey key = some spec → metadata.lookup key = some value →
        value ≠ [] → Survives strategy spec key := by
  have hregistered : ∀ key spec value, lookupMetaKey key = some spec →
      metadata.lookup key = some value → value ≠ [] →
        ((expandMetadataFor choose' (compactMetadata choose metadata strategy) strategy).lookup
          spec.canonical = some value ↔ Survives strategy spec key) := by
    intro key spec value hlookup hvalue hfull
    cases strategy with
    | none => exact lookup_expanded_none_iff hdistinct hlookup hvalue
    | base64url => exact lookup_expanded_base64url_iff hdistinct hlookup hvalue hfull
  constructor
  · intro hrestores key spec value hlookup hvalue hfull
    exact (hregistered key spec value hlookup hvalue hfull).mp
      (hrestores.registered key spec value hlookup hvalue hfull)
  · intro hsurvives
    refine ⟨?_, ?_, ?_, ?_⟩
    · intro key spec value hlookup hvalue hfull
      exact (hregistered key spec value hlookup hvalue hfull).mpr
        (hsurvives key spec value hlookup hvalue hfull)
    · exact fun key hkey => lookup_ordinary_expanded hkey strategy
    · exact fun key => mem_of_mem_expanded strategy
    · exact compactMetadata_compacted strategy

end Search

/-! ## The derivation of the chunk nonces -/

/-- The controls of a chunked object say how its nonces were derived. -/
def ivDerivationOnly : Map Str Str :=
  Finmap.singleton MetaName.ivDerivation.text "hkdf-sha256".toList

theorem distinctKeys_singleton (key value : Str) :
    DistinctKeys (singleton key value) := by
  intro key₁ hkey₁ key₂ hkey₂ _
  rw [mem_singleton] at hkey₁ hkey₂
  rw [hkey₁, hkey₂]

/-- The marker of an encrypted object is restored. -/
theorem restores_marker :
    DistinctKeys (Finmap.singleton MetaName.encrypted.text trueText) ∧
      Restores (leastKey (inferInstance : LinearOrder (List Char)))
        (leastKey (inferInstance : LinearOrder (List Char)))
        (Finmap.singleton MetaName.encrypted.text trueText) .base64url := by
  refine ⟨distinctKeys_singleton _ _, (restores_iff (distinctKeys_singleton _ _) _).mpr ?_⟩
  intro key spec value hlookup hvalue hfull
  obtain rfl : key = encrypted.text := by
    rw [← mem_singleton (β := fun _ => Str) key encrypted.text trueText]
    exact mem_iff.mpr ⟨value, hvalue⟩
  obtain ⟨spec', hspec', htext, -, hcompact, hmarker⟩ := lookupMetaKey_encrypted
  obtain rfl : spec' = spec := Option.some.inj (hmarker.symm.trans hlookup)
  rw [Survives, if_neg hcompact, htext]
  exact .inl (decide_eq_true rfl)

/-- How the nonces of a chunked object were derived is lost. -/
theorem ivDerivation_lost :
    DistinctKeys ivDerivationOnly ∧
      ∀ choose choose', ¬ Restores choose choose' ivDerivationOnly .base64url := by
  refine ⟨distinctKeys_singleton _ _, fun choose choose' hrestores => ?_⟩
  obtain ⟨spec, hspec, htext⟩ := exists_entry .ivDerivation
  have hlookup : lookupMetaKey ivDerivation.text = some spec :=
    lookupMetaKey_of_fold_canonical hspec (by rw [htext])
  have hshape : (lookupMetaKey ivDerivation.text).map
      (fun spec => (spec.compact, spec.legacyEncryptionPredicate)) = some ([], true) := by
    decide +kernel
  rw [hlookup] at hshape
  obtain ⟨hcompact, hlegacy⟩ := Prod.mk.injEq .. ▸ Option.some.inj hshape
  have hvalue := hrestores.registered _ spec "hkdf-sha256".toList hlookup
    (lookup_singleton_eq) (by decide)
  rw [expandMetadataFor, lookup_uncompacted_expanded hspec hcompact, hlegacy, if_pos rfl] at hvalue
  cases hvalue

end S3EncryptionGateway.Metadata
