import S3EncryptionGateway.Metadata.CompactionRoundTrip

/-!
# Reading controls

The engine reads the gateway's keys out of a map by their canonical names, and a name that is not
there reads as the empty text.  `valueAt` is that look-up; the lemmas say what it gives after each
of the operations by which the engine builds its maps.

* `valueAt_expandMetadata` is about expanded maps.  They have no compact spelling left, and
  expanding them again changes no value but possibly the marker of encrypted objects.
* `lookup_expand_compacted` is about the maps that the engine writes, in which the gateway's keys
  are constants.  After compaction and expansion it finds the values that `Keeps` lists.
-/

namespace S3EncryptionGateway.Metadata

open Text MapRange

/-- The value of a constant, empty if there is none. -/
def valueAt (metadata : Map Str Str) (name : MetaName) : Str := (metadata.lookup name.text).getD []

section Values

variable {metadata other : Map Str Str} {name name' : MetaName} {key value : Str}

theorem valueAt_of_lookup (hlookup : metadata.lookup name.text = some value) :
    valueAt metadata name = value := by
  rw [valueAt, hlookup, Option.getD_some]

end Values

/-! ## Expanded maps -/

/-- No key is spelled in the compact way. -/
def Expanded (metadata : Map Str Str) : Prop := ∀ key ∈ metadata, isCompactedKey key = false

open Finmap

section Expanded

variable {choose : Chooser Str Str} {metadata : Map Str Str}

/-- Expansion leaves no compact spelling. -/
theorem expanded_expandMetadata : Expanded (expandMetadata choose metadata) := by
  intro key hmem
  rw [Metadata.expandMetadata, mem_union] at hmem
  rcases hmem with hregistered | hrest
  · obtain ⟨spec, hspec, -, rfl⟩ := exists_of_mem_expandEncryptionMetadata hregistered
    rw [← Bool.not_eq_true, isCompactedKey_iff]
    rintro ⟨spec', hspec', hcompact, hshared⟩
    rw [lower_canonical hspec] at hshared
    obtain rfl := eq_of_shared_spelling hspec' hspec hcompact (.inr rfl) (.inl hshared.symm)
    exact canonical_ne_compact hspec hshared
  · obtain ⟨value, hvalue⟩ := mem_iff.mp hrest
    rw [lookup_insertSome, lookup_keep] at hvalue
    split at hvalue
    · rename_i hmarker
      rw [hmarker, isCompactedKey_text]
    · split at hvalue
      · rename_i hkept
        rwa [Bool.not_eq_true'] at hkept
      · cases hvalue

section

variable (hexpanded : Expanded metadata)

include hexpanded

theorem Expanded.metadataValue_compact {spec : MetaKeySpec} (hspec : spec ∈ metaKeyRegistry)
    (hcompact : spec.compact ≠ []) : metadataValue choose metadata spec.compact = none := by
  rw [metadataValue, Chooser.find_eq_none_iff]
  intro key hkey
  rw [← Bool.not_eq_true]
  intro hfold
  have hkeep := hexpanded key hkey
  rw [← Bool.not_eq_true, isCompactedKey_iff] at hkeep
  refine hkeep ⟨spec, hspec, hcompact, ?_⟩
  rw [equalFold, decide_eq_true_iff, lower_compact hspec] at hfold
  exact hfold

theorem Expanded.expandEncryptionMetadata : expandEncryptionMetadata choose metadata = ∅ := by
  apply ext_lookup
  intro key
  rw [lookup_empty, lookup_eq_none]
  intro hmem
  obtain ⟨spec, hspec, hcompact, rfl⟩ := exists_of_mem_expandEncryptionMetadata hmem
  have hlookup := @lookup_expandEncryptionMetadata_spec _ choose metadata hspec hcompact
  rw [hexpanded.metadataValue_compact hspec hcompact, Option.filter_none, ite_self] at hlookup
  exact lookup_eq_none.mp hlookup hmem

/-- Expanding once more only looks for the marker. -/
theorem Expanded.expandMetadata :
    expandMetadata choose metadata =
      insertSome metadata MetaName.encrypted.text
        (metadataValue choose metadata MetaName.encrypted.text) := by
  have hkeep : keep (fun key => !isCompactedKey key) metadata = metadata := by
    apply ext_lookup
    intro key
    rw [lookup_keep]
    split
    · rfl
    rename_i hcompacted
    symm
    rw [lookup_eq_none]
    intro hmem
    rw [hexpanded key hmem] at hcompacted
    exact hcompacted rfl
  rw [Metadata.expandMetadata, hexpanded.expandEncryptionMetadata, empty_union, hkeep]

theorem valueAt_expandMetadata {name : MetaName} (hname : name ≠ .encrypted) :
    valueAt (expandMetadata choose metadata) name = valueAt metadata name := by
  rw [valueAt, hexpanded.expandMetadata, lookup_insertSome,
    if_neg fun htext => hname (MetaName.text_injective htext), valueAt]

end

end Expanded

/-! ## Maps that the engine writes -/

/-- The gateway's keys are constants. -/
def OwnKeys (metadata : Map Str Str) : Prop :=
  ∀ key ∈ metadata, isGatewayReservedKey key = true → ∃ name : MetaName, key = name.text

/-- The values that compaction keeps.  It passes over empty ones, and over those without a compact
spelling that are sealed with the object. -/
def Keeps : CompactionStrategy → MetaName → Str → Prop
  | .none, _, _ => True
  | .base64url, name, value =>
    name = .encrypted ∨
      if name.compact = [] then isEncryptionMetadata name.text = false else value ≠ []

instance (strategy : CompactionStrategy) (name : MetaName) (value : Str) :
    Decidable (Keeps strategy name value) :=
  match strategy with
  | .none => inferInstanceAs (Decidable True)
  | .base64url => inferInstanceAs (Decidable (name = .encrypted ∨ ite _ _ _))

section Own

variable {choose choose' : Chooser Str Str} {metadata : Map Str Str}

section

variable (hown : OwnKeys metadata)

include hown

theorem OwnKeys.canonicalKeys : CanonicalKeys metadata := by
  intro key hmem hreserved
  obtain ⟨name, rfl⟩ := hown key hmem hreserved
  exact name.lower_text

theorem OwnKeys.expanded : Expanded metadata := by
  intro key hmem
  cases hreserved : isGatewayReservedKey key with
  | false => exact isCompactedKey_of_not_reserved hreserved
  | true =>
    obtain ⟨name, rfl⟩ := hown key hmem hreserved
    exact isCompactedKey_text name

theorem OwnKeys.insert (name : MetaName) (value : Str) :
    OwnKeys (metadata.insert name.text value) := by
  intro key hmem hreserved
  rcases mem_insert.mp hmem with rfl | hold
  · exact ⟨name, rfl⟩
  · exact hown key hold hreserved

theorem OwnKeys.erase (key : Str) : OwnKeys (metadata.erase key) :=
  fun key' hmem => hown key' (mem_erase.mp hmem).2

/-- **What is read back.**  Of the constants, expansion finds the values that compaction keeps. -/
theorem lookup_expand_compacted (strategy : CompactionStrategy) (name : MetaName) :
    (expandMetadata choose' (compactMetadata choose metadata strategy)).lookup name.text =
      (metadata.lookup name.text).filter fun value => Keeps strategy name value := by
  have hkeys := hown.canonicalKeys
  have hall : ∀ value : Option Str, (value.filter fun _ => true) = value := by
    intro value
    cases value <;> rfl
  obtain ⟨spec, hspec, htext, hshort⟩ := name.exists_spec
  cases strategy with
  | none =>
    rw [compactMetadata, lookup_expandMetadata hkeys, compactValue]
    have hnone : (if name.compact = [] then none
        else (metadata.lookup name.compact).filter (· ≠ [])) = none := by
      split_ifs with hcompact
      · rfl
      · rw [lookup_compact_of_plain hown.expanded hcompact, Option.filter_none]
    rw [hnone, Option.or_none]
    exact (hall _).symm
  | base64url =>
    by_cases hname : name = .encrypted
    · subst hname
      have hmarker : encryptionMarker choose metadata =
          metadata.lookup MetaName.encrypted.text := by
        rw [encryptionMarker, metadataValue_text hkeys, ← hshort,
          metadataValue_compact hkeys hspec, hshort,
          lookup_compact_of_plain hown.expanded (by decide), Option.or_none]
      rw [lookup_encrypted_expanded, hmarker]
      simp only [Keeps, true_or, decide_true, hall]
    have hother : spec.canonical ≠ MetaName.encrypted.text := fun heq =>
      hname (MetaName.text_injective (htext.symm.trans heq))
    by_cases hcompact : name.compact = []
    · rw [← htext, lookup_uncompacted_expanded hspec (hshort.trans hcompact), htext]
      simp only [Keeps, hname, false_or, if_pos hcompact]
      rw [← htext, isEncryptionMetadata_canonical hspec hother, htext]
      cases spec.legacyEncryptionPredicate <;> simp [hall]
    · rw [← htext, lookup_canonical_expanded hspec (hshort ▸ hcompact) hother,
        metadataValue_canonical hkeys hspec, metadataValue_compact hkeys hspec, htext, hshort,
        lookup_compact_of_plain hown.expanded hcompact, Option.or_none]
      simp only [Keeps, hname, false_or, if_neg hcompact]

end

end Own

/-! ## Stamps -/

section Stamps

variable {metadata : Map Str Str} {stamps stamps' : List (MetaName × Str)} {name name' : MetaName}
  {key value : Str}

end Stamps

end S3EncryptionGateway.Metadata
