import S3EncryptionGateway.Library.Text

/-!
# Metadata keys

The gateway keeps what it needs to decrypt an object in the object's own user metadata,
under names that begin with `x-amz-meta-`.  The registry lists those names; most have a
compact spelling, some an older one.  A client may not set any of them.

The standard headers of an object, such as its content type, are kept apart from the
user metadata.
-/

namespace S3EncryptionGateway.Metadata

open Text List

/-- What every name of user metadata begins with. -/
def amzMeta : Str := "x-amz-meta-".toList

/-! ## The registry -/

inductive MetaKeyClass where
  | control
  | protectedStandard
  | structural
  deriving DecidableEq

structure MetaKeySpec where
  canonical : Str
  /-- Empty if there is none. -/
  compact : Str
  legacy : List Str
  keyClass : MetaKeyClass
  /-- The standard header whose value the key protects. -/
  header : Str
  legacyEncryptionPredicate : Bool
  deriving DecidableEq

def MetaKeySpec.of (canonical compact : String) (legacy : List String) (keyClass : MetaKeyClass)
    (header : String) (legacyEncryptionPredicate : Bool) : MetaKeySpec where
  canonical := canonical.toList
  compact := compact.toList
  legacy := legacy.map String.toList
  keyClass := keyClass
  header := header.toList
  legacyEncryptionPredicate := legacyEncryptionPredicate

def metaKeyRegistry : List MetaKeySpec := [
  .of "x-amz-meta-encrypted" "x-amz-meta-e" [] .control "" true,
  .of "x-amz-meta-encryption-algorithm" "x-amz-meta-a" [] .control "" true,
  .of "x-amz-meta-encryption-key-salt" "x-amz-meta-s" [] .control "" true,
  .of "x-amz-meta-encryption-iv" "x-amz-meta-i" [] .control "" true,
  .of "x-amz-meta-encryption-auth-tag" "" [] .control "" true,
  .of "x-amz-meta-encryption-original-size" "x-amz-meta-os" [] .control "" true,
  .of "x-amz-meta-encryption-original-etag" "x-amz-meta-oe" [] .control "" true,
  .of "x-amz-meta-encryption-content-type" "x-amz-meta-ct" ["encryption-content-type"]
    .protectedStandard "Content-Type" true,
  .of "x-amz-meta-encryption-cache-control" "x-amz-meta-ccache" ["encryption-cache-control"]
    .protectedStandard "Cache-Control" true,
  .of "x-amz-meta-encryption-content-disposition" "x-amz-meta-cdisp"
    ["encryption-content-disposition"] .protectedStandard "Content-Disposition" true,
  .of "x-amz-meta-encryption-content-encoding" "x-amz-meta-cenc" []
    .protectedStandard "Content-Encoding" false,
  .of "x-amz-meta-encryption-content-language" "x-amz-meta-clang" []
    .protectedStandard "Content-Language" false,
  .of "x-amz-meta-encryption-expires" "x-amz-meta-cexp" [] .protectedStandard "Expires" false,
  .of "x-amz-meta-encryption-chunked" "x-amz-meta-c" [] .control "" true,
  .of "x-amz-meta-encryption-chunk-size" "x-amz-meta-cs" [] .control "" true,
  .of "x-amz-meta-encryption-chunk-count" "x-amz-meta-cc" [] .control "" true,
  .of "x-amz-meta-encryption-manifest" "x-amz-meta-m" [] .control "" true,
  .of "x-amz-meta-encryption-key-version" "x-amz-meta-kv" [] .control "" true,
  .of "x-amz-meta-encryption-wrapped-key" "x-amz-meta-wk" [] .control "" true,
  .of "x-amz-meta-encryption-kms-id" "x-amz-meta-kid" [] .control "" true,
  .of "x-amz-meta-encryption-kms-provider" "x-amz-meta-kp" [] .control "" true,
  .of "x-amz-meta-encryption-kdf-params" "x-amz-meta-kdf" [] .control "" true,
  .of "x-amz-meta-encryption-fallback" "x-amz-meta-fb" [] .structural "" true,
  .of "x-amz-meta-encryption-fallback-ptr" "" [] .structural "" true,
  .of "x-amz-meta-encryption-fallback-version" "x-amz-meta-fbv" [] .structural "" true,
  .of "x-amz-meta-enc-iv-deriv" "" [] .control "" true,
  .of "x-amz-meta-enc-legacy-no-aad" "" [] .control "" true,
  .of "x-amz-meta-encryption-format-version" "x-amz-meta-fmt" [] .structural "" true,
  .of "x-amz-meta-encryption-binding-id" "x-amz-meta-bid" [] .structural "" true,
  .of "x-amz-meta-encryption-mpu-manifest-version" "" [] .structural "" true,
  .of "x-amz-meta-encrypted-mpu" "" [] .structural "" false,
  .of "x-amz-meta-enc-metadata" "x-amz-meta-em" [] .structural "" false]

def originalContentLength : Str := "x-amz-meta-original-content-length".toList

/-- A key without a compact spelling has the empty one, so the empty key is found too. -/
def lookupMetaKey (key : Str) : Option MetaKeySpec :=
  metaKeyRegistry.find? fun spec =>
    lowerAscii spec.canonical = lowerAscii key || lowerAscii spec.compact = lowerAscii key ||
      spec.legacy.any fun name => lowerAscii name = lowerAscii key

def isGatewayReservedKey (key : Str) : Bool :=
  equalFold key originalContentLength || (lookupMetaKey key).isSome

/-- The names under which the gateway stores metadata. -/
def gatewayKeys : List Str :=
  originalContentLength ::
    metaKeyRegistry.flatMap fun spec => [spec.canonical, spec.compact].filter (· ≠ [])

/-- All the names, in lower case, that a client may not set. -/
def reservedNames : List Str :=
  lowerAscii originalContentLength ::
    (metaKeyRegistry.flatMap fun spec => spec.canonical :: spec.compact :: spec.legacy).map
      lowerAscii

theorem isGatewayReservedKey_iff (key : Str) :
    isGatewayReservedKey key = true ↔ lowerAscii key ∈ reservedNames := by
  unfold isGatewayReservedKey lookupMetaKey reservedNames
  rw [Bool.or_eq_true, List.find?_isSome, mem_cons]
  apply or_congr
  · rw [equalFold, decide_eq_true_iff]
  · simp only [mem_map, mem_flatMap, mem_cons, Bool.or_eq_true, any_eq_true,
      decide_eq_true_iff]
    constructor
    · rintro ⟨spec, hspec, (hname | hname) | ⟨name, hmem, hname⟩⟩
      · exact ⟨spec.canonical, ⟨spec, hspec, .inl rfl⟩, hname⟩
      · exact ⟨spec.compact, ⟨spec, hspec, .inr (.inl rfl)⟩, hname⟩
      · exact ⟨name, ⟨spec, hspec, .inr (.inr hmem)⟩, hname⟩
    · rintro ⟨name, ⟨spec, hspec, rfl | rfl | hmem⟩, hname⟩
      · exact ⟨spec, hspec, .inl (.inl hname)⟩
      · exact ⟨spec, hspec, .inl (.inr hname)⟩
      · exact ⟨spec, hspec, .inr ⟨name, hmem, hname⟩⟩

/-- The spelling does not matter. -/
theorem isGatewayReservedKey_congr {key key' : Str} (hlower : lowerAscii key = lowerAscii key') :
    isGatewayReservedKey key = isGatewayReservedKey key' := by
  rw [Bool.eq_iff_iff, isGatewayReservedKey_iff, isGatewayReservedKey_iff, hlower]

/-- What the table looks like.  It is evaluated once; the names are compared from their ends,
where they differ. -/
theorem registry_table :
    (∀ key ∈ gatewayKeys, amzMeta <+: key ∧ lowerAscii key = key ∧ ¬amzMeta ++ amzMeta <+: key) ∧
    (∀ spec ∈ metaKeyRegistry, spec.canonical ≠ [] ∧ ∀ name ∈ spec.legacy,
      lowerAscii name = name ∧ "encryption-".toList <+: name ∧ ¬amzMeta <+: name) ∧
    (gatewayKeys.map List.reverse).Nodup := by
  decide +kernel

/-- What the gateway's names have in common. -/
theorem shape_of_mem_gatewayKeys :
    ∀ key ∈ gatewayKeys,
      amzMeta <+: key ∧ lowerAscii key = key ∧ ¬amzMeta ++ amzMeta <+: key :=
  registry_table.1

section Entries

variable {spec spec' : MetaKeySpec}

section

variable (hspec : spec ∈ metaKeyRegistry)

include hspec

theorem canonical_mem_gatewayKeys : spec.canonical ∈ gatewayKeys := by
  refine mem_cons_of_mem _ (mem_flatMap.mpr ⟨spec, hspec, mem_filter.mpr ⟨?_, ?_⟩⟩)
  · exact mem_cons_self
  · exact decide_eq_true (registry_table.2.1 spec hspec).1

theorem compact_mem_gatewayKeys (hcompact : spec.compact ≠ []) : spec.compact ∈ gatewayKeys := by
  refine mem_cons_of_mem _ (mem_flatMap.mpr ⟨spec, hspec, mem_filter.mpr ⟨?_, ?_⟩⟩)
  · exact mem_cons_of_mem _ mem_cons_self
  · exact decide_eq_true hcompact

theorem lower_canonical : lowerAscii spec.canonical = spec.canonical :=
  (registry_table.1 _ (canonical_mem_gatewayKeys hspec)).2.1

theorem lower_compact : lowerAscii spec.compact = spec.compact := by
  by_cases hcompact : spec.compact = []
  · rw [hcompact]
    rfl
  · exact (registry_table.1 _ (compact_mem_gatewayKeys hspec hcompact)).2.1

end

/-- A reserved name is a name of user metadata, one of the old names, or empty. -/
theorem shape_of_mem_reservedNames :
    ∀ name ∈ reservedNames,
      name = [] ∨ amzMeta <+: name ∨ "encryption-".toList <+: name := by
  intro name hname
  rcases mem_cons.mp hname with rfl | htable
  · obtain ⟨hmeta, hlower, -⟩ := registry_table.1 originalContentLength mem_cons_self
    exact .inr (.inl (hlower.symm ▸ hmeta))
  · obtain ⟨spelling, hspelling, rfl⟩ := mem_map.mp htable
    obtain ⟨spec, hspec, hmem⟩ := mem_flatMap.mp hspelling
    rcases mem_cons.mp hmem with rfl | hmem
    · rw [lower_canonical hspec]
      exact .inr (.inl (registry_table.1 _ (canonical_mem_gatewayKeys hspec)).1)
    · rcases mem_cons.mp hmem with rfl | hlegacy
      · by_cases hcompact : spec.compact = []
        · exact .inl (by rw [hcompact]; rfl)
        · rw [lower_compact hspec]
          exact .inr (.inl (registry_table.1 _ (compact_mem_gatewayKeys hspec hcompact)).1)
      · obtain ⟨hlower, hold, -⟩ := (registry_table.2.1 spec hspec).2 spelling hlegacy
        exact .inr (.inr (hlower.symm ▸ hold))

/-- No name of user metadata belongs to two entries, or to one entry twice. -/
theorem nodup_spellings :
    (∀ spec ∈ metaKeyRegistry, ([spec.canonical, spec.compact].filter (· ≠ [])).Nodup) ∧
      metaKeyRegistry.Pairwise fun spec spec' =>
        List.Disjoint ([spec.canonical, spec.compact].filter (· ≠ []))
          ([spec'.canonical, spec'.compact].filter (· ≠ [])) :=
  List.nodup_flatMap.mp (List.nodup_cons.mp registry_table.2.2.of_map).2

section

variable (hspec : spec ∈ metaKeyRegistry)

include hspec

/-- Two entries that share a name of user metadata are one. -/
theorem eq_of_shared_spelling (hspec' : spec' ∈ metaKeyRegistry) {name : Str} (hfull : name ≠ [])
    (hname : name = spec.canonical ∨ name = spec.compact)
    (hname' : name = spec'.canonical ∨ name = spec'.compact) : spec = spec' := by
  by_contra hne
  let spellings := fun spec : MetaKeySpec => [spec.canonical, spec.compact].filter (· ≠ [])
  have : Std.Symm fun spec spec' => List.Disjoint (spellings spec) (spellings spec') :=
    ⟨fun _ _ hdisjoint => hdisjoint.symm⟩
  refine nodup_spellings.2.forall hspec hspec' hne
    (mem_filter.mpr ⟨?_, decide_eq_true hfull⟩)
    (mem_filter.mpr ⟨?_, decide_eq_true hfull⟩)
  · simpa using hname
  · simpa using hname'

theorem canonical_ne_compact : spec.canonical ≠ spec.compact := by
  intro heq
  have hfull := (registry_table.2.1 spec hspec).1
  have hnodup := nodup_spellings.1 spec hspec
  rw [← heq] at hnodup
  simp [hfull] at hnodup

/-- An entry is found under its own names. -/
theorem lookupMetaKey_of_spelling {name : Str} (hfull : name ≠ [])
    (hname : name = spec.canonical ∨ name = spec.compact) : lookupMetaKey name = some spec := by
  have hkey : name ∈ gatewayKeys := by
    rcases hname with rfl | rfl
    · exact canonical_mem_gatewayKeys hspec
    · exact compact_mem_gatewayKeys hspec hfull
  obtain ⟨hmeta, hlower, -⟩ := registry_table.1 name hkey
  have hfound : (lookupMetaKey name).isSome = true := by
    rw [lookupMetaKey, List.find?_isSome]
    refine ⟨spec, hspec, ?_⟩
    rcases hname with rfl | rfl
    · simp
    · simp
  obtain ⟨spec', hspec'⟩ := Option.isSome_iff_exists.mp hfound
  have hmem' := mem_of_find?_eq_some hspec'
  have htest := List.find?_some hspec'
  rw [lower_canonical hmem', lower_compact hmem', hlower] at htest
  rw [hspec']
  congr 1
  simp only [Bool.or_eq_true, decide_eq_true_eq, any_eq_true] at htest
  rcases htest with htest | ⟨old, hold, htest⟩
  · exact (eq_of_shared_spelling hspec hmem' hfull hname (htest.imp Eq.symm Eq.symm)).symm
  · obtain ⟨hsame, -, hother⟩ := (registry_table.2.1 spec' hmem').2 old hold
    rw [← htest, hsame] at hmeta
    exact absurd hmeta hother

end

end Entries

/-! ## Standard headers -/

inductive StandardHeader where
  | contentType
  | cacheControl
  | contentDisposition
  | contentEncoding
  | contentLanguage
  | expires
  deriving DecidableEq

def StandardHeader.name : StandardHeader → Str
  | contentType => "Content-Type".toList
  | cacheControl => "Cache-Control".toList
  | contentDisposition => "Content-Disposition".toList
  | contentEncoding => "Content-Encoding".toList
  | contentLanguage => "Content-Language".toList
  | expires => "Expires".toList

/-- The standard headers in their fixed order. -/
def standardHeaders : List StandardHeader :=
  [.contentType, .cacheControl, .contentDisposition, .contentEncoding, .contentLanguage, .expires]

/-- The place of a header in the fixed order. -/
def StandardHeader.index : StandardHeader → ℕ
  | contentType => 0
  | cacheControl => 1
  | contentDisposition => 2
  | contentEncoding => 3
  | contentLanguage => 4
  | expires => 5

def protectedStandardKeys : List MetaKeySpec :=
  standardHeaders.flatMap fun header =>
    metaKeyRegistry.filter fun spec =>
      spec.keyClass = .protectedStandard ∧ spec.header = header.name

/-- The values of the standard headers, empty where there is none. -/
abbrev Standard := StandardHeader → Str

/-- Every header is looked for in a loop of its own over the request headers, so each has
its own order of visits.  The last spelling visited gives the value. -/
def Standard.fromHeader (visits : StandardHeader → List (Str × List Str)) : Standard :=
  fun header => (visits header).foldl (fun value entry =>
    match entry with
    | (name, first :: _) => if equalFold name header.name then first else value
    | (_, []) => value) []

end S3EncryptionGateway.Metadata
