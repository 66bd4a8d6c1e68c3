import S3EncryptionGateway.Library.JsonMap
import S3EncryptionGateway.Crypto.Kdf
import S3EncryptionGateway.Crypto.KeyManager
import S3EncryptionGateway.Crypto.AadSeparation
import S3EncryptionGateway.Crypto.Chunked.RangePlan
import S3EncryptionGateway.Metadata.Controls

/-!
# The engine

What an engine is configured with, what it takes from libraries, and what it can fail with.  The
ciphers, the derivation functions and the encoders are parameters; so are the key managers, of
which the engine only uses that they wrap and unwrap data keys.
-/

namespace S3EncryptionGateway.Crypto

open Text Encoding MapRange Metadata Decimal

/-! ## Key managers -/

/-- A manager of key-encryption keys, as the engine sees it. -/
structure KeyManager where
  wrapKey : (plaintext : Bytes) → (metadata : Map Str Str) → Except KeyManagerError KeyEnvelope
  unwrapKey : (envelope : KeyEnvelope) → (metadata : Map Str Str) → Except KeyManagerError Bytes

/-! ## Libraries -/

/-- The numbers are integers of the platform, and the base nonce is text that JSON keeps. -/
structure ChunkManifest.Representable (manifest : ChunkManifest) : Prop where
  version_le : manifest.version ≤ maxInt64
  chunkSize_le : manifest.chunkSize ≤ maxInt64
  chunkCount_le : manifest.chunkCount ≤ maxInt64
  baseIv_ascii : IsAscii manifest.baseIv

/-- How chunk manifests are written as text. -/
structure ManifestCodec where
  encode : ChunkManifest → Str
  decode : Str → Option ChunkManifest
  decode_encode : ∀ manifest, manifest.Representable → decode (encode manifest) = some manifest
  /-- The text is not empty and in the alphabet of base64. -/
  encode_ne_nil : ∀ manifest, encode manifest ≠ []
  encode_ascii : ∀ manifest, IsAscii (encode manifest)

structure Libraries where
  ciphers : AeadCiphers
  hkdf : Hkdf
  kdf : KdfFunctions
  json : JsonCodec
  manifests : ManifestCodec
  computeETag : Bytes → Str
  /-- How loops over maps choose if several keys are spellings of one name. -/
  choose : Chooser Str Str
  /-- The order in which other loops visit a map. -/
  visit : ∀ metadata : Map Str Str, Order metadata

/-! ## Engines -/

structure Argon2idConfig where
  time : ℕ
  memory : ℕ
  threads : ℕ

/-- The key under which metadata are sealed; the options take no key of another size. -/
abbrev MetadataKey := { key : Bytes // key.length = aesKeySize }

structure Engine where
  password : Bytes
  pbkdf2Iterations : ℤ
  kdfAlgorithm : KdfAlgorithm
  argon2idParams : Argon2idConfig
  preferredAlgorithm : Str
  supportedAlgorithms : List Str
  chunkedMode : Bool
  chunkSize : ℕ
  providerProfile : ProviderProfile
  kmsManager : Option KeyManager
  metadataKey : Option MetadataKey
  allowUnmarkedNoAad : Bool
  kdfLimits : KdfLimits

inductive EngineError where
  /-- An error of the object's name, of the associated data, of a reader or of the source. -/
  | crypto (err : CryptoError)
  | cipher (err : AeadCipherError)
  | kdf (err : KdfError)
  /-- "failed to wrap data key: " or "failed to unwrap data key: " and the cause -/
  | keyManager (err : KeyManagerError)
  | manifest (err : RangeError)
  /-- "failed to read plaintext: " or "failed to read encrypted data: " and the cause -/
  | source (err : Streams.ReadError CryptoError)
  /-- "failed to decode salt: ", "failed to decode IV: ", "failed to decode wrapped data key: " -/
  | undecodable (name : MetaName)
  /-- "invalid encryption binding ID" -/
  | bindingId
  /-- "metadata key not configured" -/
  | metadataKeyAbsent
  /-- "base64 decode: " and the cause -/
  | metadataBase64
  /-- "ciphertext too short" -/
  | metadataShort
  /-- "gcm open: " and the cause -/
  | metadataForged
  /-- "unmarshal: " and the cause -/
  | metadataJson
  /-- A value is stored in a map that is not there; the goroutine stops. -/
  | metadataNull
  /-- "fallback-v2: sealed header identity mismatch" -/
  | sealedIdentity
  /-- "fallback-v2: unsupported or missing bound format marker" -/
  | fallbackMarker
  /-- "fallback: unsupported format version %q" -/
  | fallbackVersion (version : Str)
  /-- "unsupported encryption format version %q" -/
  | formatVersion (marker : Str)
  /-- "buffered-v2 format marker cannot use chunked metadata" -/
  | bufferedMarker
  /-- "chunked-v2 format marker requires chunked metadata" -/
  | chunkedMarker
  /-- "chunked-v2 format marker requires a v2 manifest" -/
  | manifestMarker
  /-- "chunked-v2 trailer authentication requires declared chunked-v2 marker" -/
  | trailerMarker
  /-- "unsupported algorithm %s (not in supported list)" -/
  | unsupportedAlgorithm (algorithm : Str)
  /-- "failed to unwrap data key: KMS key ID is missing from metadata" -/
  | keyIdMissing
  /-- "failed to unwrap data key: wrapped key ciphertext is empty" -/
  | wrappedKeyEmpty
  /-- "failed to unwrap data key: wrapped key ciphertext has unexpected size %d bytes" -/
  | wrappedKeySize (size : ℕ)
  /-- "KMS returned key of size %d, expected %d", "invalid data key size %d (want %d)" -/
  | keySize (actual : ℕ)
  /-- "fallback-v2: incomplete wrapped key metadata" -/
  | wrappedKeyIncomplete
  /-- "failed to decrypt data …", "failed to decrypt buffered-v2 object: …",
  "fallback-v2: authentication failed: …" -/
  | notAuthentic
  /-- "fallback-v2: encrypted data too short" -/
  | fallbackShort
  /-- "fallback-v2: invalid metadata length" -/
  | fallbackLength
  /-- "fallback-v2: failed to decode metadata: " and the cause -/
  | fallbackJson
  /-- "fallback-v2: invalid prefix framing: " and the cause -/
  | prefixFraming (err : Streams.ReadError CryptoError)
  /-- "fallback-v2: metadata length %d exceeds sanity limit" -/
  | prefixLength (length : ℕ)
  /-- "fallback-v2: truncated metadata: " and the cause -/
  | prefixTruncated (err : Streams.ReadError CryptoError)
  /-- "fallback-v2: invalid metadata JSON" -/
  | prefixJson
  /-- The metadata do not fit the profile of the backend. -/
  | metadataTooLarge
  /-- "fallback-v2: plaintext size exceeds int" -/
  | fallbackSize

/-! ## Texts -/

def bufferedV2Text : Str := "buffered-v2".toList
def chunkedV2Text : Str := "chunked-v2".toList
def bufferedFallbackV2Text : Str := "buffered-fallback-v2".toList
def hkdfSha256Text : Str := "hkdf-sha256".toList

def parseObjectBindingId (value : Str) : Except EngineError Bytes :=
  match Base64.decodeRawUrl value with
  | none => .error .bindingId
  | some bindingId =>
    if bindingId.length ≠ bindingIdSize ∨ Base64.encodeRawUrl bindingId ≠ value then
      .error .bindingId
    else .ok bindingId

/-! ## A small engine -/

theorem nonempty_manifestCodec : Nonempty ManifestCodec := by
  have hchar : Countable Char :=
    Function.Injective.countable (f := Char.toNat) fun c c' heq => Char.toNat_inj.mp heq
  have hderivation : Countable IvDerivation :=
    Function.Injective.countable (f := IvDerivation.ctorIdx) (by
      intro derivation derivation' heq
      cases derivation <;> cases derivation' <;> first | rfl | cases heq)
  have hmanifest : Countable ChunkManifest :=
    Function.Injective.countable (f := fun manifest : ChunkManifest =>
      (manifest.version, manifest.chunkSize, manifest.chunkCount, manifest.baseIv,
        manifest.ivDerivation)) (by
          intro manifest manifest' heq
          simp only [Prod.mk.injEq] at heq
          obtain ⟨hversion, hsize, hcount, hiv, hderivation⟩ := heq
          cases manifest
          cases manifest'
          simp_all)
  obtain ⟨number, hnumber⟩ := hmanifest.exists_injective_nat
  classical
  refine ⟨⟨fun manifest => List.replicate (number manifest + 1) 'A',
    fun text => if h : ∃ manifest, List.replicate (number manifest + 1) 'A' = text then
      some h.choose else none, ?_, ?_, ?_⟩⟩
  · intro manifest _
    have hexists : ∃ other, List.replicate (number other + 1) 'A' =
        List.replicate (number manifest + 1) 'A' := ⟨manifest, rfl⟩
    rw [dif_pos hexists]
    have hlength := congrArg List.length hexists.choose_spec
    simp only [List.length_replicate, Nat.add_right_cancel_iff] at hlength
    exact congrArg some (hnumber hlength)
  · intro manifest
    simp
  · intro manifest c hc
    rw [List.eq_of_mem_replicate hc]
    decide

/-- Libraries without secrecy. -/
noncomputable def sampleLibraries (json : JsonCodec) : Libraries where
  ciphers := ⟨fun _ => zeroTagAead, fun _ => zeroTagAead⟩
  hkdf := zeroHkdf
  kdf := ⟨fun _ _ _ size => .ok (List.replicate size 0), fun _ _ _ _ _ size => List.replicate size 0⟩
  json := json
  manifests := nonempty_manifestCodec.some
  computeETag := fun _ => []
  choose := leastKey (inferInstance : LinearOrder (List Char))
  visit := fun metadata => (nonempty_order metadata).some

/-- An engine with a password and the options of the shortest constructor, for a backend without
limits. -/
def sampleEngine : Engine where
  password := List.replicate 12 0
  pbkdf2Iterations := defaultPbkdf2Iterations
  kdfAlgorithm := .pbkdf2Sha256
  argon2idParams := ⟨2, 19456, 1⟩
  preferredAlgorithm := "AES256-GCM".toList
  supportedAlgorithms := ["AES256-GCM".toList, "ChaCha20-Poly1305".toList]
  chunkedMode := false
  chunkSize := minChunkSize
  providerProfile := ⟨[], 0, 0, .none⟩
  kmsManager := none
  metadataKey := none
  allowUnmarkedNoAad := false
  kdfLimits := defaultKdfLimits

end S3EncryptionGateway.Crypto
