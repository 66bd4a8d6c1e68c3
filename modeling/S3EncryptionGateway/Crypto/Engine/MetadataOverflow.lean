import S3EncryptionGateway.Crypto.Engine.FallbackPrefix

/-!
# Metadata that do not fit

If the metadata of a chunked object are too large for the backend, they are written in front of
the ciphertext, and ordinary fields are removed from the headers, the largest first, until the
headers fit.  The gateway's own fields are meant to stay in the headers, and the removed ones to
come back from the body.

## Strategy

`shedFields_eq_ok_iff` describes the loop by the fields that it removes: a first part of the sorted
fields, no shorter part of which is enough.  So whether a field overflows is a matter of the
metadata alone (`Overflows`), and what becomes of a field is read off the lemmas about compaction
and about the merge.
-/

namespace S3EncryptionGateway.Crypto

open Text Encoding MapRange Metadata Streams Fallible

/-! ## The loop -/

variable (headers : Map Str Str)

section Functions

variable (lib : Libraries) (e : Engine)

/-- The metadata as the backend gets them. -/
def Engine.compacted (metadata : Map Str Str) : Map Str Str :=
  compactMetadata lib.choose metadata e.providerProfile.compactionStrategy

/-- Whether what is persisted of the metadata fits the backend. -/
def Engine.fits (metadata : Map Str Str) : Bool :=
  e.providerProfile.fits (persistedMetadataEnvelope (lib.visit metadata))

/-- Fields are sorted by size, the largest first, and then by name. -/
def fieldRank (key : Str) : ℕᵒᵈ ×ₗ Str :=
  toLex (OrderDual.toDual (key.length + ((headers.lookup key).getD []).length), key)

def ordinaryFields : List Str :=
  (((headers.keys.filter fun key => isOrdinaryField key).image (fieldRank headers)).sort
    (· ≤ ·)).map fun rank => (ofLex rank).2

/-- Remove fields until the rest fits. -/
def Engine.shedFields : List Str → Map Str Str → Except EngineError (Map Str Str)
  | [], headers =>
    if e.fits lib (e.compacted lib headers) then .ok (e.compacted lib headers)
    else .error .metadataTooLarge
  | key :: ordinary, headers =>
    if e.fits lib (e.compacted lib headers) then .ok (e.compacted lib headers)
    else Engine.shedFields ordinary (headers.erase key)

/-- The headers before any field is removed. -/
def fallbackHeaders (full : Map Str Str) : Map Str Str :=
  (full.insert MetaName.fallbackMode.text trueText).insert MetaName.fallbackVersion.text
    "2".toList

/-- The bytes in front of the ciphertext, and the headers.  The bound on the text of the metadata
is below that of the length field. -/
def Engine.chunkedFallbackFromFinal (full : Map Str Str) :
    Except EngineError (Bytes × Map Str Str) :=
  if maxFallbackPrefixBytes - 4 < (lib.json.marshal full).length then .error .metadataTooLarge
  else do
    let headers ← e.shedFields lib (ordinaryFields (fallbackHeaders full)) (fallbackHeaders full)
    return (lengthPrefixed 4 (lib.json.marshal full), headers)

end Functions

/-! ## What the loop removes -/

def without (keys : List Str) : Map Str Str :=
  keys.foldl (fun headers key => headers.erase key) headers

open Finmap

section Loop

variable {lib : Libraries} {e : Engine} {headers result : Map Str Str} {ordinary keys : List Str}
  {key : Str}

@[simp] theorem without_nil : without headers [] = headers := rfl

@[simp] theorem without_cons : without headers (key :: keys) = without (headers.erase key) keys :=
  rfl

theorem lookup_without :
    (without headers keys).lookup key = if key ∈ keys then none else headers.lookup key := by
  induction keys generalizing headers with
  | nil => simp
  | cons key' keys ih =>
    rw [without_cons, ih]
    by_cases hkey : key = key'
    · subst hkey
      simp
    · rw [lookup_erase_ne hkey]
      simp [hkey]

theorem ownKeys_without (hown : OwnKeys headers) (keys : List Str) :
    OwnKeys (without headers keys) := by
  induction keys generalizing headers with
  | nil => exact hown
  | cons key keys ih => exact ih (hown.erase key)

/-- **The loop.**  It removes a first part of the fields, with which the headers fit and without
any part of which they do not. -/
theorem Engine.shedFields_eq_ok_iff :
    e.shedFields lib ordinary headers = .ok result ↔
      ∃ shed, shed <+: ordinary ∧ e.fits lib (e.compacted lib (without headers shed)) = true ∧
        (∀ fewer, fewer <+: shed → fewer ≠ shed →
          e.fits lib (e.compacted lib (without headers fewer)) = false) ∧
        result = e.compacted lib (without headers shed) := by
  -- if the headers fit already, nothing is removed
  have hnone : ∀ {ordinary headers}, e.fits lib (e.compacted lib headers) = true →
      (Except.ok (e.compacted lib headers) = (Except.ok result : Except EngineError _) ↔
        ∃ shed, shed <+: ordinary ∧ e.fits lib (e.compacted lib (without headers shed)) = true ∧
          (∀ fewer, fewer <+: shed → fewer ≠ shed →
            e.fits lib (e.compacted lib (without headers fewer)) = false) ∧
          result = e.compacted lib (without headers shed)) := by
    intro ordinary headers hfits
    constructor
    · intro hok
      refine ⟨[], List.nil_prefix, hfits, ?_, (Except.ok.inj hok).symm⟩
      intro fewer hfewer hne
      exact absurd (List.prefix_nil.mp hfewer) hne
    · rintro ⟨shed, -, -, hfewer, rfl⟩
      cases shed with
      | nil => rfl
      | cons key shed =>
        have hnot := hfewer [] List.nil_prefix nofun
        rw [without_nil, hfits] at hnot
        cases hnot
  induction ordinary generalizing headers with
  | nil =>
    rw [shedFields]
    split_ifs with hfits
    · exact hnone hfits
    · refine iff_of_false nofun ?_
      rintro ⟨shed, hshed, hfit, -⟩
      rw [List.prefix_nil.mp hshed, without_nil] at hfit
      exact hfits hfit
  | cons key ordinary ih =>
    rw [shedFields]
    split_ifs with hfits
    · exact hnone hfits
    · rw [Bool.not_eq_true] at hfits
      refine ih.trans ?_
      constructor
      · rintro ⟨shed, hshed, hfit, hfewer, hresult⟩
        refine ⟨key :: shed, List.cons_prefix_cons.mpr ⟨rfl, hshed⟩, hfit, ?_, hresult⟩
        intro fewer hfront hne
        cases fewer with
        | nil => exact hfits
        | cons key' fewer =>
          obtain ⟨rfl, hfirst⟩ := List.cons_prefix_cons.mp hfront
          exact hfewer fewer hfirst fun heq => hne (by rw [heq])
      · rintro ⟨shed, hshed, hfit, hfewer, hresult⟩
        cases shed with
        | nil =>
          rw [without_nil, hfits] at hfit
          cases hfit
        | cons key' shed =>
          obtain ⟨rfl, hfirst⟩ := List.cons_prefix_cons.mp hshed
          refine ⟨shed, hfirst, hfit, ?_, hresult⟩
          intro fewer hfront hne
          exact hfewer (key' :: fewer) (List.cons_prefix_cons.mpr ⟨rfl, hfront⟩)
            fun heq => hne (List.cons.inj heq).2

/-- The loop succeeds if the headers fit without any of the fields. -/
theorem Engine.exists_shedFields
    (hfits : e.fits lib (e.compacted lib (without headers ordinary)) = true) :
    ∃ result, e.shedFields lib ordinary headers = .ok result := by
  induction ordinary generalizing headers with
  | nil => exact ⟨_, if_pos hfits⟩
  | cons key ordinary ih =>
    rw [shedFields]
    split
    · exact ⟨_, rfl⟩
    · exact ih hfits

theorem mem_ordinaryFields :
    key ∈ ordinaryFields headers ↔ key ∈ headers ∧ isOrdinaryField key = true := by
  rw [ordinaryFields, List.mem_map]
  constructor
  · rintro ⟨rank, hrank, rfl⟩
    rw [Finset.mem_sort, Finset.mem_image] at hrank
    obtain ⟨key, hkey, rfl⟩ := hrank
    rw [Finset.mem_filter, mem_keys] at hkey
    exact hkey
  · intro hkey
    refine ⟨fieldRank headers key, ?_, rfl⟩
    rw [Finset.mem_sort, Finset.mem_image]
    refine ⟨key, ?_, rfl⟩
    rwa [Finset.mem_filter, mem_keys]

end Loop

/-! ## What is kept and restored -/

/-- The final metadata of a chunked object: the gateway's keys are constants, and the markers of
the fallback are not among them. -/
structure FinalMetadata (full : Map Str Str) : Prop where
  ownKeys : OwnKeys full
  no_mode : MetaName.fallbackMode.text ∉ full
  no_version : MetaName.fallbackVersion.text ∉ full

/-- The headers fit and keep the gateway's fields.  The body can be read, and together with the
headers it has all ordinary fields.  None of the gateway's fields comes from the body, whatever is
there. -/
structure OverflowSafe (lib : Libraries) (e : Engine) (choose : Chooser Str Str)
    (full : Map Str Str) (lead : Bytes) (headers : Map Str Str) : Prop where
  fits : e.fits lib headers = true
  keeps_reserved : ∀ key value, isGatewayReservedKey key = true → full.lookup key = some value →
    (expandMetadata choose headers).lookup key = some value
  reads_back : ∀ (source : Script UInt8 CryptoError) (ciphertext : Bytes), source.Clean →
    source.bytes = lead ++ ciphertext → ∃ embedded left,
      readFallbackV2Prefix lib source = .ok (embedded, left) ∧ left.Clean ∧
        left.bytes = ciphertext ∧
      ∀ (order : Order embedded) (key value : Str), isOrdinaryField key = true →
        full.lookup key = some value →
          (mergeFallbackV2Metadata (expandMetadata choose headers) order).lookup key = some value
  no_control : ∀ (embedded : Map Str Str) (order : Order embedded) (key : Str),
    isGatewayReservedKey key = true →
      (mergeFallbackV2Metadata (expandMetadata choose headers) order).lookup key =
        (expandMetadata choose headers).lookup key

/-- The field has to be removed: the headers do not fit before all fields sorted before it are
gone, nor then. -/
def Overflows (lib : Libraries) (e : Engine) (full : Map Str Str) (key : Str) : Prop :=
  ∃ before after, ordinaryFields (fallbackHeaders full) = before ++ key :: after ∧
    ∀ fewer, fewer <+: before →
      e.fits lib (e.compacted lib (without (fallbackHeaders full) fewer)) = false

/-- The field is written to the body as it is, and no other spelling of its name is in the way. -/
def Restorable (lib : Libraries) (full : Map Str Str) (key : Str) : Prop :=
  (lib.json.readBack full).lookup key = full.lookup key ∧
    ∀ key', key' ∈ full ∨ key' ∈ lib.json.readBack full → lowerAscii key' = lowerAscii key →
      key' = key

section Overflow

variable {lib : Libraries} {e : Engine} {choose : Chooser Str Str} {full headers : Map Str Str}
  {lead : Bytes} {shed : List Str} {key value : Str}

theorem not_reserved_fallbackHeaders (hkey : isGatewayReservedKey key = false) :
    (fallbackHeaders full).lookup key = full.lookup key := by
  have hne : ∀ name : MetaName, key ≠ name.text := by
    rintro name rfl
    exact absurd (hkey.symm.trans name.reserved_text) nofun
  rw [fallbackHeaders, lookup_insert_of_ne _ (hne _), lookup_insert_of_ne _ (hne _)]

theorem FinalMetadata.lookup_fallbackHeaders (hfinal : FinalMetadata full) {name : MetaName}
    (hlookup : full.lookup name.text = some value) :
    (fallbackHeaders full).lookup name.text = some value := by
  have hmem : name.text ∈ full := mem_iff.mpr ⟨value, hlookup⟩
  rw [fallbackHeaders, lookup_insert_of_ne, lookup_insert_of_ne, hlookup]
  · exact fun heq => hfinal.no_mode (heq ▸ hmem)
  · exact fun heq => hfinal.no_version (heq ▸ hmem)

/-- Only ordinary fields are removed. -/
theorem ordinary_of_mem_shed (hshed : shed <+: ordinaryFields (fallbackHeaders full))
    (hkey : key ∈ shed) : isOrdinaryField key = true :=
  (mem_ordinaryFields.mp (hshed.subset hkey)).2

/-- The gateway's fields in the headers. -/
theorem lookup_reserved_headers (hfinal : FinalMetadata full)
    (hshed : shed <+: ordinaryFields (fallbackHeaders full)) {name : MetaName}
    (hlookup : full.lookup name.text = some value) :
    (expandMetadata choose (e.compacted lib (without (fallbackHeaders full) shed))).lookup
        name.text =
      if Keeps e.providerProfile.compactionStrategy name value then some value else none := by
  have hnot : name.text ∉ shed := fun hmem =>
    absurd (name.reserved_text.symm.trans
      (not_reserved_of_ordinary (ordinary_of_mem_shed hshed hmem))) nofun
  rw [Engine.compacted, lookup_expand_compacted (ownKeys_without
    (show OwnKeys (fallbackHeaders full) from (hfinal.ownKeys.insert _ _).insert _ _) shed),
    lookup_without, if_neg hnot, hfinal.lookup_fallbackHeaders hlookup, Option.filter_some]
  simp only [decide_eq_true_eq]

theorem lookup_ordinary_headers (hkey : isOrdinaryField key = true) :
    (expandMetadata choose (e.compacted lib (without (fallbackHeaders full) shed))).lookup key =
      if key ∈ shed then none else full.lookup key := by
  have hreserved := not_reserved_of_ordinary hkey
  rw [Engine.compacted, lookup_expandMetadata_other hreserved,
    lookup_compactMetadata_other hreserved, lookup_without,
    not_reserved_fallbackHeaders hreserved]

/-- The fields that are removed are those that overflow. -/
theorem mem_shed_iff (hshed : shed <+: ordinaryFields (fallbackHeaders full))
    (hfit : e.fits lib (e.compacted lib (without (fallbackHeaders full) shed)) = true)
    (hfewer : ∀ fewer, fewer <+: shed → fewer ≠ shed →
      e.fits lib (e.compacted lib (without (fallbackHeaders full) fewer)) = false) :
    key ∈ shed ↔ Overflows lib e full key := by
  constructor
  · intro hmem
    obtain ⟨before, after, rfl⟩ := List.append_of_mem hmem
    obtain ⟨rest, hrest⟩ := hshed
    refine ⟨before, after ++ rest, ?_, ?_⟩
    · rw [← hrest, List.append_assoc, List.cons_append]
    · intro fewer hfront
      refine hfewer fewer (hfront.trans (List.prefix_append _ _)) ?_
      rintro rfl
      have hlength := hfront.length_le
      rw [List.length_append, List.length_cons] at hlength
      omega
  · rintro ⟨before, after, hsplit, hnot⟩
    -- what is removed is no first part of what comes before the field
    have hlonger : before ++ [key] <+: shed := by
      have hfirst : before ++ [key] <+: ordinaryFields (fallbackHeaders full) := by
        rw [hsplit]
        exact ⟨after, List.append_cons .. |>.symm⟩
      rcases List.prefix_or_prefix_of_prefix hshed hfirst with hle | hle
      · rcases List.prefix_concat_iff.mp hle with heq | hbefore
        · rw [heq]
        · rw [hnot shed hbefore] at hfit
          cases hfit
      · exact hle
    exact hlonger.subset (by simp)

theorem Engine.chunkedFallbackFromFinal_eq_ok_iff :
    e.chunkedFallbackFromFinal lib full = .ok (lead, headers) ↔
      (lib.json.marshal full).length ≤ maxFallbackPrefixBytes - 4 ∧
        lead = lengthPrefixed 4 (lib.json.marshal full) ∧
        e.shedFields lib (ordinaryFields (fallbackHeaders full)) (fallbackHeaders full) =
          .ok headers := by
  rw [chunkedFallbackFromFinal]
  split
  · rename_i hlong
    exact iff_of_false nofun fun h => absurd h.1 (not_le.mpr hlong)
  · rename_i hshort
    rw [bind_eq_ok_iff]
    constructor
    · rintro ⟨headers', hshed, hok⟩
      cases hok
      exact ⟨not_lt.mp hshort, rfl, hshed⟩
    · rintro ⟨-, rfl, hshed⟩
      exact ⟨headers, hshed, rfl⟩

end Overflow

/-! ## Two objects -/

/-- If all keys are metadata already, they are persisted under their own names. -/
theorem persistedMetadataEnvelope_of_meta {metadata : Map Str Str} (order : Order metadata)
    (hmeta : ∀ key ∈ metadata.keys, amzMeta <+: lowerAscii key) :
    persistedMetadataEnvelope order =
      keep (fun key => !(isStandard key || isBackendField key)) metadata := by
  have hname : ∀ entry ∈ order.entries, persistedName entry.1 = entry.1 := by
    rintro ⟨key, value⟩ hentry
    have hmem : key ∈ metadata := mem_iff.mpr ⟨value, (order.mem_iff key value).mp hentry⟩
    exact if_pos (hmeta key (mem_keys.mpr hmem))
  have hsame : persistedMetadataEnvelope order = renameKeys id
      (order.entries.filter fun entry => !(isStandard entry.1 || isBackendField entry.1)) := by
    refine List.foldl_ext _ _ _ fun out entry hentry => ?_
    rw [hname entry (List.mem_filter.mp hentry).1, id]
  rw [hsame]
  apply ext_lookup
  intro key
  apply Option.ext
  intro value
  rw [lookup_renameKeys_id (order.nodup.sublist (List.filter_sublist.map _)), List.mem_filter,
    order.mem_iff, lookup_keep]
  split_ifs with htest
  · exact and_iff_left htest
  · exact iff_of_false (fun h => htest h.2) nofun

theorem without_ordinaryFields :
    without headers (ordinaryFields headers) =
      keep (fun key => !isOrdinaryField key) headers := by
  apply ext_lookup
  intro key
  rw [lookup_without, lookup_keep]
  by_cases hmem : key ∈ headers
  · simp only [mem_ordinaryFields, hmem, true_and]
    cases isOrdinaryField key <;> rfl
  · rw [lookup_eq_none.mpr hmem, ite_self, ite_self]

def markedOnly : Map Str Str := Finmap.singleton MetaName.encrypted.text trueText

open MetaName

theorem finalMetadata_markedOnly : FinalMetadata markedOnly := by
  have hmem : ∀ {key}, key ∈ markedOnly → key = encrypted.text := by
    intro key hkey
    exact mem_singleton _ _ _ |>.mp hkey
  exact ⟨fun key hkey _ => ⟨.encrypted, hmem hkey⟩,
    fun hkey => absurd (text_injective (hmem hkey)) nofun,
    fun hkey => absurd (text_injective (hmem hkey)) nofun⟩

/-- The limits and the strategy that most backends are given. -/
def providerAws : ProviderProfile := ⟨"aws".toList, 2048, 8192, .base64url⟩

def noteKey : Str := "x-amz-meta-note".toList

/-- Final metadata with a large field of the user. -/
def withLongNote : Map Str Str :=
  (Finmap.singleton MetaName.ivDerivation.text hkdfSha256Text).insert noteKey
    (List.replicate 2048 'n')

def smallestKey : Chooser Str Str := leastKey (inferInstance : LinearOrder (List Char))

/-- What is in the headers if all of the user's fields are removed. -/
def controlsOnly : Map Str Str :=
  keep (fun key => !isOrdinaryField key) (fallbackHeaders withLongNote)

/-- What is persisted of a map of metadata, if compacted. -/
def persistedOf (metadata : Map Str Str) : Map Str Str :=
  keep (fun key => !(isStandard key || isBackendField key))
    (compactMetadata smallestKey metadata .base64url)

/-- The facts about these maps; the registry is evaluated once. -/
theorem longNote_table :
    isGatewayReservedKey noteKey = false ∧
    withLongNote.lookup ivDerivation.text = some hkdfSha256Text ∧
    ¬Keeps .base64url .ivDerivation hkdfSha256Text ∧
    ((∀ key ∈ (compactMetadata smallestKey withLongNote .base64url).keys,
      amzMeta <+: lowerAscii key) ∧ providerAws.fits (persistedOf withLongNote) = false) ∧
    (∀ key ∈ (compactMetadata smallestKey controlsOnly .base64url).keys,
      amzMeta <+: lowerAscii key) ∧ providerAws.fits (persistedOf controlsOnly) = true := by
  decide +kernel

theorem finalMetadata_withLongNote : FinalMetadata withLongNote := by
  have hmem : ∀ {key}, key ∈ withLongNote → isGatewayReservedKey key = true →
      key = ivDerivation.text := by
    intro key hkey hreserved
    rcases mem_insert.mp hkey with rfl | hold
    · exact absurd (longNote_table.1.symm.trans hreserved) nofun
    · exact mem_singleton _ _ _ |>.mp hold
  exact ⟨fun key hkey hreserved => ⟨.ivDerivation, hmem hkey hreserved⟩,
    fun hkey => absurd (text_injective (hmem hkey (reserved_text _))) nofun,
    fun hkey => absurd (text_injective (hmem hkey (reserved_text _))) nofun⟩

end S3EncryptionGateway.Crypto
