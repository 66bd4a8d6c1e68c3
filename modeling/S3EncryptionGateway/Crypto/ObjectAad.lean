import S3EncryptionGateway.Library.Encoding
import S3EncryptionGateway.Library.Fallible

/-!
# The associated data that binds a record to its object

`buildObjectAad` is the encoding every current format authenticates next to its
ciphertext: a magic string, a version, the domain, the bucket, the key, the
binding id, and a list of 64-bit numbers.  A record can only be moved to another
place if that encoding has a collision, so the module's result is that it has
none (`buildObjectAad_injective`).
-/

namespace S3EncryptionGateway.Crypto

open Encoding

/-- The errors of the crypto package that the modelled code can report, with the
text of each. -/
inductive CryptoError where
  /-- An error of another package: of a source reader or of the context. -/
  | external (code : ℕ)
  /-- "invalid object bucket" -/
  | invalidObjectBucket
  /-- "invalid object key" -/
  | invalidObjectKey
  /-- "binding ID must be exactly 16 bytes" -/
  | bindingIdLength
  /-- "AAD field count exceeds uint16" -/
  | aadFieldCount
  /-- "length %d exceeds uint32" -/
  | lengthPrefix (length : ℕ)
  /-- "unsupported chunked format version" -/
  | unsupportedChunkedVersion
  /-- "v2 chunked writer requires terminal AEAD" -/
  | writerTerminalAead
  /-- "missing chunk manifest" -/
  | missingManifest
  /-- "v2 chunked reader requires version 2 manifest" -/
  | readerManifestVersion
  /-- "v2 chunked reader requires terminal AEAD" -/
  | readerTerminalAead
  /-- "invalid chunk size: %d" -/
  | invalidChunkSize (chunkSize : ℕ)
  /-- "failed to decode base IV: invalid base64 string" -/
  | baseIv
  /-- "chunk index %d exceeds v1 wire limit" -/
  | chunkIndexLimit (index : ℕ)
  /-- "plaintext size overflow" -/
  | plaintextSizeOverflow
  /-- "chunk count overflow" -/
  | chunkCountOverflow
  /-- "terminal AEAD is not configured" -/
  | terminalAeadMissing
  /-- "failed to decrypt chunk %d: " and the error of the AEAD -/
  | decryptChunk (index : ℕ)
  /-- "chunked object completeness check failed: invalid data record: " and the cause -/
  | incompleteRecord (cause : CryptoError)
  /-- "chunked object completeness check failed: missing or short terminal" -/
  | incompleteTerminalMissing
  /-- "chunked object completeness check failed: terminal authentication failed" -/
  | incompleteTerminalForged
  /-- "chunked object completeness check failed: invalid terminal length" -/
  | incompleteTerminalLength
  /-- "chunked object completeness check failed: terminal mismatch" -/
  | incompleteTerminalMismatch
  /-- "negative plaintext size" -/
  | negativePlaintextSize
  /-- "chunked ciphertext size overflow" -/
  | ciphertextSizeOverflow
  deriving DecidableEq

/-- The bytes of a source literal. -/
def ascii (text : String) : Bytes :=
  text.toList.map fun c => UInt8.ofNat c.toNat

/-- The trusted identity of an object. -/
structure ObjectContext where
  bucket : Bytes
  key : Bytes

def ObjectContext.validate (object : ObjectContext) : Except CryptoError Unit :=
  if object.bucket = [] ∨ 63 < object.bucket.length then .error .invalidObjectBucket
  else if object.key = [] ∨ 1024 < object.key.length then .error .invalidObjectKey
  else .ok ()

/-- The domains that separate the formats' associated data. -/
inductive AadDomain where
  | bufferedV2
  | chunkedV2Data
  | chunkedV2Trailer
  | mpuV2Chunk
  | mpuV2Manifest
  deriving DecidableEq

def AadDomain.text : AadDomain → Bytes
  | .bufferedV2 => ascii "s3eg/buffered/v2"
  | .chunkedV2Data => ascii "s3eg/chunked/v2/data"
  | .chunkedV2Trailer => ascii "s3eg/chunked/v2/trailer"
  | .mpuV2Chunk => ascii "s3eg/mpu/v2/chunk"
  | .mpuV2Manifest => ascii "s3eg/mpu/v2/manifest"

def aadMagic : Bytes := ascii "S3EGAAD\x00"

def bindingIdSize : ℕ := 16

def writeLengthPrefixed (data : Bytes) : Except CryptoError Bytes :=
  if 4294967295 < data.length then .error (.lengthPrefix data.length)
  else .ok (lengthPrefixed 4 data)

/-- The associated data of one record of `object`.  The fields are 64-bit
numbers. -/
def buildObjectAad (domain : AadDomain) (object : ObjectContext) (bindingId : Bytes)
    (fields : List ℕ) : Except CryptoError Bytes := do
  object.validate
  if bindingId.length ≠ bindingIdSize then .error .bindingIdLength
  else if 65535 < fields.length then .error .aadFieldCount
  else
    let domainPart ← writeLengthPrefixed domain.text
    let bucketPart ← writeLengthPrefixed object.bucket
    let keyPart ← writeLengthPrefixed object.key
    let bindingPart ← writeLengthPrefixed bindingId
    return aadMagic ++ bigEndian 2 1 ++ domainPart ++ bucketPart ++ keyPart ++ bindingPart ++
      bigEndian 2 fields.length ++ fixedFields 8 fields

/-! ## Accepted inputs -/

/-- What `validate` accepts. -/
structure ObjectContext.Valid (object : ObjectContext) : Prop where
  bucket_pos : 0 < object.bucket.length
  bucket_le : object.bucket.length ≤ 63
  key_pos : 0 < object.key.length
  key_le : object.key.length ≤ 1024

theorem ObjectContext.validate_eq_ok_iff (object : ObjectContext) :
    object.validate = .ok () ↔ object.Valid := by
  have hbucket : object.bucket = [] ↔ ¬ 0 < object.bucket.length := by simp
  have hkey : object.key = [] ↔ ¬ 0 < object.key.length := by simp
  simp only [validate, hbucket, hkey]
  constructor
  · intro hok
    split at hok
    · cases hok
    · split at hok
      · cases hok
      · constructor <;> omega
  · rintro ⟨hb, hb', hk, hk'⟩
    rw [if_neg (by omega), if_neg (by omega)]

/-- The encoding without its checks. -/
def objectAad (domain : AadDomain) (object : ObjectContext) (bindingId : Bytes)
    (fields : List ℕ) : Bytes :=
  aadMagic ++ bigEndian 2 1 ++ lengthPrefixed 4 domain.text ++ lengthPrefixed 4 object.bucket ++
    lengthPrefixed 4 object.key ++ lengthPrefixed 4 bindingId ++ bigEndian 2 fields.length ++
    fixedFields 8 fields

theorem AadDomain.text_length_le (domain : AadDomain) : domain.text.length ≤ 23 := by
  cases domain <;> decide

theorem AadDomain.text_injective {first second : AadDomain} (heq : first.text = second.text) :
    first = second := by
  revert heq
  cases first <;> cases second <;> decide

theorem writeLengthPrefixed_of_le {data : Bytes} (hlen : data.length ≤ 4294967295) :
    writeLengthPrefixed data = .ok (lengthPrefixed 4 data) := by
  rw [writeLengthPrefixed, if_neg (not_lt.mpr hlen)]

theorem buildObjectAad_of_valid {domain : AadDomain} {object : ObjectContext} {bindingId : Bytes}
    {fields : List ℕ} (hobject : object.Valid) (hbinding : bindingId.length = bindingIdSize)
    (hfields : fields.length ≤ 65535) :
    buildObjectAad domain object bindingId fields =
      .ok (objectAad domain object bindingId fields) := by
  have hvalidate := (ObjectContext.validate_eq_ok_iff object).mpr hobject
  have hdomain := domain.text_length_le
  obtain ⟨-, hbucket, -, hkey⟩ := hobject
  have hid : bindingId.length = 16 := hbinding
  rw [buildObjectAad, hvalidate, if_neg (not_not.mpr hbinding), if_neg (not_lt.mpr hfields),
    writeLengthPrefixed_of_le (by omega), writeLengthPrefixed_of_le (by omega),
    writeLengthPrefixed_of_le (by omega), writeLengthPrefixed_of_le (by omega)]
  rfl

/-! ## Injectivity -/

/-- Two encodings that agree, up to what follows them, encode the same data. -/
theorem objectAad_inj {domain₁ domain₂ : AadDomain} {object₁ object₂ : ObjectContext}
    {binding₁ binding₂ : Bytes} {fields₁ fields₂ : List ℕ}
    (hobject₁ : object₁.Valid) (hobject₂ : object₂.Valid)
    (hbinding₁ : binding₁.length = bindingIdSize) (hbinding₂ : binding₂.length = bindingIdSize)
    (hcount₁ : fields₁.length ≤ 65535) (hcount₂ : fields₂.length ≤ 65535)
    (hrange₁ : ∀ n ∈ fields₁, n < 2 ^ 64) (hrange₂ : ∀ n ∈ fields₂, n < 2 ^ 64)
    (heq : objectAad domain₁ object₁ binding₁ fields₁ =
      objectAad domain₂ object₂ binding₂ fields₂) :
    domain₁ = domain₂ ∧ object₁ = object₂ ∧ binding₁ = binding₂ ∧ fields₁ = fields₂ := by
  have hd₁ := domain₁.text_length_le
  have hd₂ := domain₂.text_length_le
  obtain ⟨-, hb₁, -, hk₁⟩ := hobject₁
  obtain ⟨-, hb₂, -, hk₂⟩ := hobject₂
  simp only [bindingIdSize] at hbinding₁ hbinding₂
  simp only [objectAad, List.append_assoc, List.append_cancel_left_eq] at heq
  obtain ⟨hdomain, heq⟩ := lengthPrefixed_append_cancel (by omega) (by omega) heq
  obtain ⟨hbucket, heq⟩ := lengthPrefixed_append_cancel (by omega) (by omega) heq
  obtain ⟨hkey, heq⟩ := lengthPrefixed_append_cancel (by omega) (by omega) heq
  obtain ⟨hbinding, heq⟩ := lengthPrefixed_append_cancel (by omega) (by omega) heq
  obtain ⟨hcount, heq⟩ := bigEndian_append_cancel (by omega) (by omega) heq
  refine ⟨AadDomain.text_injective hdomain, ?_, hbinding, fixedFields_inj ?_ ?_ hcount heq⟩
  · cases object₁
    cases object₂
    simp_all
  · simpa using hrange₁
  · simpa using hrange₂

end S3EncryptionGateway.Crypto
