import S3EncryptionGateway.Crypto.Chunked.Format

/-!
# Separation of the associated data

Five functions build associated data: `buildObjectAad` for the current formats,
`buildAad` and `buildAadLegacy` for the older buffered ones, and `buildChunkAad` and
`buildTerminalAad` for chunked objects that are not bound to a name.  A ciphertext of one
format is refused by the others as long as no two of these encodings meet.

## Strategy

* `buildAad` is a loop over six fields; `buildAad_eq_ok_iff` says what it returns, and the
  fields are recovered by peeling off one length prefix after the other.
* The encodings are told apart by their first byte.  Those with a literal in front show it;
  `buildAad` begins with the length of the algorithm's name, which is short, so with a zero.
-/

namespace S3EncryptionGateway.Crypto

open Encoding

/-! ## Ciphers -/

def algorithmAes256Gcm : Bytes := ascii "AES256-GCM"
def algorithmChaCha20Poly1305 : Bytes := ascii "ChaCha20-Poly1305"

/-- Both ciphers take a key of this size. -/
def aeadKeySize : ℕ := 32

inductive AeadCipherError where
  /-- "unsupported algorithm: %s" -/
  | unsupportedAlgorithm (algorithm : Bytes)
  /-- "invalid key size for AES-256: expected 32 bytes, got %d" -/
  | aesKeySize (actual : ℕ)
  /-- "invalid key size for ChaCha20: expected 32 bytes, got %d" -/
  | chaCha20KeySize (actual : ℕ)

/-- The two ciphers of the standard libraries, by key. -/
structure AeadCiphers where
  aesGcm : (key : Bytes) → Aead
  chaCha20Poly1305 : (key : Bytes) → Aead

/-- The cipher of an algorithm, in the build that has both. -/
def createAeadCipher (ciphers : AeadCiphers) (algorithm key : Bytes) :
    Except AeadCipherError Aead :=
  if algorithm = algorithmAes256Gcm then
    if key.length ≠ aeadKeySize then .error (.aesKeySize key.length) else .ok (ciphers.aesGcm key)
  else if algorithm = algorithmChaCha20Poly1305 then
    if key.length ≠ aeadKeySize then .error (.chaCha20KeySize key.length)
    else .ok (ciphers.chaCha20Poly1305 key)
  else .error (.unsupportedAlgorithm algorithm)

/-! ## The older encodings -/

def metaKeyVersion : Bytes := ascii "x-amz-meta-encryption-key-version"
def metaOriginalSize : Bytes := ascii "x-amz-meta-encryption-original-size"
def contentTypeHeader : Bytes := ascii "Content-Type"

/-- Metadata as it is read here: the value under a name, empty if there is none. -/
abbrev AadMetadata := (name : Bytes) → Bytes

variable (algorithm salt nonce : Bytes) (metadata : AadMetadata)

/-- The fields of `buildAad` in their canonical order. -/
def aadFields : List Bytes :=
  [algorithm, salt, nonce, metadata metaKeyVersion, metadata contentTypeHeader,
    metadata metaOriginalSize]

/-- The loop of `buildAad`, with what is already in the buffer. -/
def writeFields (out : Bytes) : List Bytes → Except CryptoError Bytes
  | [] => .ok out
  | field :: fields => do
      let written ← writeLengthPrefixed field
      writeFields (out ++ written) fields

def buildAad : Except CryptoError Bytes :=
  writeFields [] (aadFields algorithm salt nonce metadata)

/-- An optional field of the oldest encoding. -/
def legacyField (label value : Bytes) : Bytes :=
  if value ≠ [] then label ++ value else []

def base64Bytes (data : Bytes) : Bytes :=
  (encodeBase64 data).map fun c => UInt8.ofNat c.toNat

def buildAadLegacy : Bytes :=
  ascii "alg:" ++ algorithm ++ ascii "|salt:" ++ base64Bytes salt ++ ascii "|iv:" ++
    base64Bytes nonce ++ legacyField (ascii "|kv:") (metadata metaKeyVersion) ++
    legacyField (ascii "|ct:") (metadata contentTypeHeader) ++
    legacyField (ascii "|osz:") (metadata metaOriginalSize)

/-! ## What the checks accept -/

theorem writeFields_eq_ok_iff {out result : Bytes} {fields : List Bytes} :
    writeFields out fields = .ok result ↔
      (∀ field ∈ fields, field.length ≤ 4294967295) ∧
        result = out ++ lengthPrefixedFields 4 fields := by
  induction fields generalizing out with
  | nil => simp [writeFields, lengthPrefixedFields, eq_comm]
  | cons field fields ih =>
    rw [writeFields]
    by_cases hlen : field.length ≤ 4294967295
    · rw [writeLengthPrefixed_of_le hlen]
      change writeFields (out ++ lengthPrefixed 4 field) fields = .ok result ↔ _
      rw [ih]
      simp [lengthPrefixedFields, hlen]
    · have herror : writeLengthPrefixed field = .error (.lengthPrefix field.length) :=
        if_pos (not_le.mp hlen)
      rw [herror]
      constructor
      · rintro ⟨⟩
      · rintro ⟨hall, -⟩
        exact absurd (hall field (List.mem_cons_self ..)) hlen

theorem buildAad_eq_ok_iff {algorithm salt nonce out : Bytes} {metadata : AadMetadata} :
    buildAad algorithm salt nonce metadata = .ok out ↔
      (∀ field ∈ aadFields algorithm salt nonce metadata, field.length ≤ 4294967295) ∧
        out = lengthPrefixedFields 4 (aadFields algorithm salt nonce metadata) := by
  rw [buildAad, writeFields_eq_ok_iff, List.nil_append]

theorem buildObjectAad_eq_ok {domain : AadDomain} {object : ObjectContext} {bindingId out : Bytes}
    {fields : List ℕ} (hok : buildObjectAad domain object bindingId fields = .ok out) :
    object.Valid ∧ bindingId.length = bindingIdSize ∧ fields.length ≤ 65535 ∧
      out = objectAad domain object bindingId fields := by
  obtain ⟨_, hvalidate, -⟩ := Fallible.bind_eq_ok_iff.mp hok
  have hvalid := (ObjectContext.validate_eq_ok_iff object).mp hvalidate
  have hbinding : bindingId.length = bindingIdSize := by
    by_contra hne
    rw [buildObjectAad, hvalidate, if_pos hne] at hok
    cases hok
  have hfields : fields.length ≤ 65535 := by
    by_contra hgt
    rw [buildObjectAad, hvalidate, if_neg (not_not.mpr hbinding), if_pos (not_le.mp hgt)] at hok
    cases hok
  rw [buildObjectAad_of_valid hvalid hbinding hfields] at hok
  cases hok
  exact ⟨hvalid, hbinding, hfields, rfl⟩

/-! ## First bytes -/

theorem head?_objectAad (domain : AadDomain) (object : ObjectContext) (bindingId : Bytes)
    (fields : List ℕ) : (objectAad domain object bindingId fields).head? = some 83 := by
  have hmagic : aadMagic = 83 :: aadMagic.tail := by decide
  unfold objectAad
  rw [hmagic]
  rfl

theorem head?_buildAadLegacy : (buildAadLegacy algorithm salt nonce metadata).head? = some 97 := by
  have hlabel : ascii "alg:" = 97 :: (ascii "alg:").tail := by decide
  unfold buildAadLegacy
  rw [hlabel]
  rfl

theorem head?_buildChunkAad (version index : ℕ) :
    (buildChunkAad version index).head? = none ∨
      (buildChunkAad version index).head? = some 99 := by
  have hlabel : ascii "chunked-v2/data" = 99 :: (ascii "chunked-v2/data").tail := by decide
  unfold buildChunkAad
  split
  · exact .inl rfl
  · right
    rw [hlabel]
    rfl

theorem head?_buildTerminalAad (version : ℕ) :
    (buildTerminalAad version).head? = none ∨ (buildTerminalAad version).head? = some 99 := by
  unfold buildTerminalAad
  split
  · exact .inl rfl
  · right
    decide

/-! ## Results -/

/-- `out` is associated data of none of the other encodings. -/
structure Separate (out : Bytes) : Prop where
  buildAad : ∀ (ciphers : AeadCiphers) (algorithm key salt nonce : Bytes)
    (metadata : AadMetadata) (aead : Aead),
    createAeadCipher ciphers algorithm key = .ok aead →
      buildAad algorithm salt nonce metadata ≠ .ok out
  buildAadLegacy : ∀ (algorithm salt nonce : Bytes) (metadata : AadMetadata),
    buildAadLegacy algorithm salt nonce metadata ≠ out
  buildChunkAad : ∀ version index, buildChunkAad version index ≠ out
  buildTerminalAad : ∀ version, buildTerminalAad version ≠ out
  empty : out ≠ []

theorem separate_objectAad (domain : AadDomain) (object : ObjectContext) (bindingId : Bytes)
    (fields : List ℕ) : Separate (objectAad domain object bindingId fields) := by
  have hhead := head?_objectAad domain object bindingId fields
  constructor
  · intro ciphers algorithm key salt nonce metadata aead hcipher hok
    have hshort : algorithm.length < 2 ^ 24 := by
      -- an accepted algorithm is one of the two
      unfold createAeadCipher at hcipher
      split_ifs at hcipher with haes _ hchacha
      · exact haes ▸ by decide
      · exact hchacha ▸ by decide
    obtain ⟨-, heq⟩ := buildAad_eq_ok_iff.mp hok
    rw [heq] at hhead
    -- the first byte of a four-byte length below `2 ^ 24` is zero
    have hzero : algorithm.length / 256 / 256 / 256 = 0 := by omega
    simp [lengthPrefixedFields, aadFields, lengthPrefixed, bigEndian, hzero] at hhead
  · intro algorithm salt nonce metadata heq
    rw [← heq, head?_buildAadLegacy] at hhead
    exact absurd hhead (by decide)
  · intro version index heq
    rw [← heq] at hhead
    rcases head?_buildChunkAad version index with hfirst | hfirst <;>
      exact absurd (hfirst.symm.trans hhead) (by decide)
  · intro version heq
    rw [← heq] at hhead
    rcases head?_buildTerminalAad version with hfirst | hfirst <;>
      exact absurd (hfirst.symm.trans hhead) (by decide)
  · intro hnil
    rw [hnil] at hhead
    exact absurd hhead (by decide)

/-- **Associated data is injective and domain separated.**  What `buildObjectAad` returns
determines its arguments and is returned by none of the other encodings; `buildAad`
determines its six fields. -/
theorem aad_injective_and_separate :
    (∀ (domain domain' : AadDomain) (object object' : ObjectContext) (bindingId bindingId' : Bytes)
      (fields fields' : List UInt64) (out : Bytes),
      buildObjectAad domain object bindingId (fields.map UInt64.toNat) = .ok out →
      buildObjectAad domain' object' bindingId' (fields'.map UInt64.toNat) = .ok out →
      domain = domain' ∧ object.bucket = object'.bucket ∧ object.key = object'.key ∧
        bindingId = bindingId' ∧ fields = fields') ∧
    (∀ (domain : AadDomain) (object : ObjectContext) (bindingId : Bytes) (fields : List UInt64)
      (out : Bytes), buildObjectAad domain object bindingId (fields.map UInt64.toNat) = .ok out →
      Separate out) ∧
    (∀ (algorithm algorithm' salt salt' nonce nonce' : Bytes) (metadata metadata' : AadMetadata)
      (out : Bytes), buildAad algorithm salt nonce metadata = .ok out →
      buildAad algorithm' salt' nonce' metadata' = .ok out →
      algorithm = algorithm' ∧ salt = salt' ∧ nonce = nonce' ∧
        metadata metaKeyVersion = metadata' metaKeyVersion ∧
        metadata contentTypeHeader = metadata' contentTypeHeader ∧
        metadata metaOriginalSize = metadata' metaOriginalSize) := by
  refine ⟨?_, ?_, ?_⟩
  · intro domain domain' object object' bindingId bindingId' fields fields' out hok hok'
    obtain ⟨hobject, hbinding, hcount, hout⟩ := buildObjectAad_eq_ok hok
    obtain ⟨hobject', hbinding', hcount', hout'⟩ := buildObjectAad_eq_ok hok'
    have hrange : ∀ numbers : List UInt64, ∀ n ∈ numbers.map UInt64.toNat, n < 2 ^ 64 := by
      intro numbers n hn
      obtain ⟨number, -, rfl⟩ := List.mem_map.mp hn
      exact number.toNat_lt
    obtain ⟨hdomain, rfl, hid, hfields⟩ := objectAad_inj hobject hobject' hbinding hbinding'
      hcount hcount' (hrange fields) (hrange fields') (hout.symm.trans hout')
    have hinjective : Function.Injective UInt64.toNat := fun _ _ => UInt64.toNat_inj.mp
    exact ⟨hdomain, rfl, rfl, hid, hinjective.list_map hfields⟩
  · intro domain object bindingId fields out hok
    obtain ⟨-, -, -, rfl⟩ := buildObjectAad_eq_ok hok
    exact separate_objectAad ..
  · intro algorithm algorithm' salt salt' nonce nonce' metadata metadata' out hok hok'
    obtain ⟨hlen, hout⟩ := buildAad_eq_ok_iff.mp hok
    obtain ⟨hlen', hout'⟩ := buildAad_eq_ok_iff.mp hok'
    have hbound : ∀ n : ℕ, n ≤ 4294967295 → n < 256 ^ 4 := by omega
    have heq := lengthPrefixedFields_inj (fun field hmem => hbound _ (hlen field hmem))
      (fun field hmem => hbound _ (hlen' field hmem)) rfl (hout.symm.trans hout')
    simpa [aadFields] using heq

/-- The results at an object with one field and at empty metadata. -/
theorem aad_injective_and_separate_sample :
    Separate (objectAad .chunkedV2Data ⟨ascii "bucket", ascii "key"⟩ (List.replicate 16 7) [3]) ∧
      buildAad algorithmAes256Gcm [1] [2] (fun _ => []) ≠
        buildAad algorithmAes256Gcm [1, 2] [] (fun _ => []) := by
  refine ⟨aad_injective_and_separate.2.1 .chunkedV2Data ⟨ascii "bucket", ascii "key"⟩
    (List.replicate 16 7) [3] _ (by decide), ?_⟩
  intro heq
  have hok : buildAad algorithmAes256Gcm [1] [2] (fun _ => []) =
      .ok (lengthPrefixedFields 4 (aadFields algorithmAes256Gcm [1] [2] fun _ => [])) := by
    decide
  have hsalt := (aad_injective_and_separate.2.2 _ _ _ _ _ _ _ _ _ hok (heq.symm.trans hok)).2.1
  exact absurd hsalt (by decide)

end S3EncryptionGateway.Crypto
