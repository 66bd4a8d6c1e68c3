import S3EncryptionGateway.Metadata.Keys

/-!
# The names of the registry

The gateway refers to the keys it stores by constants, one for each entry of the registry.
`lookupMetaKey_text` connects the two: a constant finds its own entry, and no other.
-/

namespace S3EncryptionGateway.Metadata

open Text List

/-- The constants, in the order of the registry. -/
inductive MetaName where
  | encrypted
  | algorithm
  | keySalt
  | iv
  | authTag
  | originalSize
  | originalETag
  | contentType
  | cacheControl
  | contentDisposition
  | contentEncoding
  | contentLanguage
  | expires
  | chunkedFormat
  | chunkSize
  | chunkCount
  | manifest
  | keyVersion
  | wrappedKeyCiphertext
  | kmsKeyId
  | kmsProvider
  | kdfParams
  | fallbackMode
  | fallbackPointer
  | fallbackVersion
  | ivDerivation
  | legacyNoAad
  | objectFormatVersion
  | objectBindingId
  | mpuManifestVersion
  | mpuEncrypted
  | encryptedMetadata
  deriving DecidableEq

def MetaName.text : MetaName → Str
  | encrypted => "x-amz-meta-encrypted".toList
  | algorithm => "x-amz-meta-encryption-algorithm".toList
  | keySalt => "x-amz-meta-encryption-key-salt".toList
  | iv => "x-amz-meta-encryption-iv".toList
  | authTag => "x-amz-meta-encryption-auth-tag".toList
  | originalSize => "x-amz-meta-encryption-original-size".toList
  | originalETag => "x-amz-meta-encryption-original-etag".toList
  | contentType => "x-amz-meta-encryption-content-type".toList
  | cacheControl => "x-amz-meta-encryption-cache-control".toList
  | contentDisposition => "x-amz-meta-encryption-content-disposition".toList
  | contentEncoding => "x-amz-meta-encryption-content-encoding".toList
  | contentLanguage => "x-amz-meta-encryption-content-language".toList
  | expires => "x-amz-meta-encryption-expires".toList
  | chunkedFormat => "x-amz-meta-encryption-chunked".toList
  | chunkSize => "x-amz-meta-encryption-chunk-size".toList
  | chunkCount => "x-amz-meta-encryption-chunk-count".toList
  | manifest => "x-amz-meta-encryption-manifest".toList
  | keyVersion => "x-amz-meta-encryption-key-version".toList
  | wrappedKeyCiphertext => "x-amz-meta-encryption-wrapped-key".toList
  | kmsKeyId => "x-amz-meta-encryption-kms-id".toList
  | kmsProvider => "x-amz-meta-encryption-kms-provider".toList
  | kdfParams => "x-amz-meta-encryption-kdf-params".toList
  | fallbackMode => "x-amz-meta-encryption-fallback".toList
  | fallbackPointer => "x-amz-meta-encryption-fallback-ptr".toList
  | fallbackVersion => "x-amz-meta-encryption-fallback-version".toList
  | ivDerivation => "x-amz-meta-enc-iv-deriv".toList
  | legacyNoAad => "x-amz-meta-enc-legacy-no-aad".toList
  | objectFormatVersion => "x-amz-meta-encryption-format-version".toList
  | objectBindingId => "x-amz-meta-encryption-binding-id".toList
  | mpuManifestVersion => "x-amz-meta-encryption-mpu-manifest-version".toList
  | mpuEncrypted => "x-amz-meta-encrypted-mpu".toList
  | encryptedMetadata => "x-amz-meta-enc-metadata".toList

def MetaName.all : List MetaName := [
  .encrypted, .algorithm, .keySalt, .iv, .authTag, .originalSize, .originalETag, .contentType,
  .cacheControl, .contentDisposition, .contentEncoding, .contentLanguage, .expires,
  .chunkedFormat, .chunkSize, .chunkCount, .manifest, .keyVersion, .wrappedKeyCiphertext,
  .kmsKeyId, .kmsProvider, .kdfParams, .fallbackMode, .fallbackPointer, .fallbackVersion,
  .ivDerivation, .legacyNoAad, .objectFormatVersion, .objectBindingId, .mpuManifestVersion,
  .mpuEncrypted, .encryptedMetadata]

theorem MetaName.mem_all (name : MetaName) : name ∈ all := by
  cases name <;> decide

/-- The constants are the canonical spellings of the registry, in its order. -/
theorem MetaName.map_text_all : all.map text = metaKeyRegistry.map MetaKeySpec.canonical := by
  -- the texts are the same literals on both sides, so they need not be evaluated
  delta all text metaKeyRegistry MetaKeySpec.of
  simp only [map_cons, map_nil, -String.reduceToList]

theorem MetaName.exists_entry (name : MetaName) :
    ∃ spec ∈ metaKeyRegistry, spec.canonical = name.text := by
  have hmem : name.text ∈ all.map text := mem_map_of_mem name.mem_all
  rw [map_text_all] at hmem
  exact mem_map.mp hmem

theorem nodup_canonical : (metaKeyRegistry.map MetaKeySpec.canonical).Nodup := by
  rw [List.Nodup, pairwise_map]
  apply List.Pairwise.imp_of_mem ?_ nodup_spellings.2
  intro spec spec' hspec hspec' hdisjoint heq
  have hfull := (registry_table.2.1 spec hspec).1
  have hmem : spec.canonical ∈ [spec.canonical, spec.compact].filter (· ≠ []) := by
    apply mem_filter.mpr
    exact ⟨mem_cons_self, decide_eq_true hfull⟩
  have hmem' : spec.canonical ∈ [spec'.canonical, spec'.compact].filter (· ≠ []) := by
    apply mem_filter.mpr
    exact ⟨heq ▸ mem_cons_self, decide_eq_true hfull⟩
  exact hdisjoint hmem hmem'

theorem MetaName.text_injective : Function.Injective text := by
  have hnodup : (all.map text).Nodup := map_text_all ▸ nodup_canonical
  exact fun name name' hsame =>
    inj_on_of_nodup_map hnodup (mem_all name) (mem_all name') hsame

end S3EncryptionGateway.Metadata
