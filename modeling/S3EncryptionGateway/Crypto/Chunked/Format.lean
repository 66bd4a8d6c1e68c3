import S3EncryptionGateway.Library.Base64
import S3EncryptionGateway.Crypto.ObjectAad

/-!
# The chunked object format

The pieces the chunked writer and reader share: the AEAD and key derivation
they are given, the nonces of data records and of the terminal record, the
contents of the terminal record, the manifest, and the size arithmetic.

Counters are natural numbers with the source's 64-bit bounds checked where the
source checks them.  The AEADs and the HKDF are parameters: nothing is assumed
of them here, and `Aead.Lawful` states what the round trip needs.
-/

namespace S3EncryptionGateway.Crypto

open Encoding

/-- An AEAD under a fixed key: the results of `Seal` and `Open`. -/
structure Aead where
  sealed : (nonce plaintext aad : Bytes) → Bytes
  opened : (nonce ciphertext aad : Bytes) → Option Bytes

/-- `Open` inverts `Seal` for equal nonce and associated data, and `Seal` adds
the 16 bytes of its tag. -/
structure Aead.Lawful (aead : Aead) : Prop where
  opened_sealed : ∀ nonce plaintext aad,
    aead.opened nonce (aead.sealed nonce plaintext aad) aad = some plaintext
  length_sealed : ∀ nonce plaintext aad,
    (aead.sealed nonce plaintext aad).length = plaintext.length + 16

/-- The two ways HKDF-SHA256 is used: extract-and-expand with an empty salt, and
expand only.  The last argument is the number of bytes read. -/
structure Hkdf where
  extractExpand : (secret info : Bytes) → ℕ → Bytes
  expand : (secret info : Bytes) → ℕ → Bytes

/-- A context as its polls see it: the number of polls before it is cancelled,
or `none` if it never is, and the error it then reports. -/
structure Context where
  pollsLeft : Option ℕ
  code : ℕ

def Context.background : Context := ⟨none, 0⟩

/-- One look at `ctx.Done()`. -/
def Context.poll (ctx : Context) : Option CryptoError × Context :=
  match ctx.pollsLeft with
  | none => (none, ctx)
  | some 0 => (some (.external ctx.code), ctx)
  | some (n + 1) => (none, { ctx with pollsLeft := some n })

@[simp] theorem Context.poll_background : Context.background.poll = (none, .background) := rfl

/-! ## Constants -/

def chunkedFormatV1 : ℕ := 1
def chunkedFormatV2 : ℕ := 2
def chunkedTerminalSize : ℕ := 32
def chunkedTerminalPlainSize : ℕ := 16
def minChunkSize : ℕ := 16384
def maxChunkSize : ℕ := 1048576
def tagSize : ℕ := 16
def nonceSize : ℕ := 12
def maxUint64 : ℕ := 18446744073709551615
def maxInt64 : ℕ := 9223372036854775807

/-! ## Nonces -/

/-- HKDF-Expand with SHA-256 gives at most 255 blocks of 32 bytes. -/
def hkdfLimit : ℕ := 8160

variable (hkdf : Hkdf)

/-- The chunk IV of format 1. -/
def deriveChunkIvHkdfIndex (baseIv : Bytes) (index : ℕ) : Except CryptoError Bytes :=
  if 4294967295 < index then .error (.chunkIndexLimit index)
  else if hkdfLimit < baseIv.length then .error (.external 0)
  else .ok (hkdf.expand baseIv (ascii "chunk-iv" ++ bigEndian 4 index) baseIv.length)

/-- The chunk IV of the earliest format 1 objects: the index is xored onto the
last four bytes. -/
def deriveLegacyChunkIvIndex (baseIv : Bytes) (index : ℕ) : Except CryptoError Bytes :=
  if 4294967295 < index then .error (.chunkIndexLimit index)
  else
    let reversed := baseIv.reverse
    .ok ((List.zipWith (· ^^^ ·) (reversed.take 4) (bigEndian 4 index).reverse) ++
      reversed.drop 4).reverse

def readHkdfNonce (baseIv info : Bytes) : Bytes :=
  hkdf.extractExpand baseIv info nonceSize

def dataNonceInfo (index : ℕ) : Bytes :=
  ascii "chunked-v2/data-nonce" ++ [0] ++ bigEndian 8 index

def terminalNonceInfo : Bytes := ascii "chunked-v2/terminal-nonce\x00"

def deriveChunkNonceHkdf (baseIv : Bytes) (version index : ℕ) : Except CryptoError Bytes :=
  if version ≠ chunkedFormatV2 then .error .unsupportedChunkedVersion
  else .ok (readHkdfNonce hkdf baseIv (dataNonceInfo index))

def deriveTerminalNonceHkdf (baseIv : Bytes) (version : ℕ) : Except CryptoError Bytes :=
  if version ≠ chunkedFormatV2 then .error .unsupportedChunkedVersion
  else .ok (readHkdfNonce hkdf baseIv terminalNonceInfo)

/-- The associated data of a data record that is not bound to an object. -/
def buildChunkAad (version index : ℕ) : Bytes :=
  if version ≠ chunkedFormatV2 then []
  else ascii "chunked-v2/data" ++ [0] ++ bigEndian 8 index

/-- The associated data of a terminal record that is not bound to an object. -/
def buildTerminalAad (version : ℕ) : Bytes :=
  if version ≠ chunkedFormatV2 then [] else ascii "chunked-v2/terminal\x00"

/-! ## The terminal record -/

def encodeChunkedTerminal (chunkCount plaintextSize : ℕ) : Bytes :=
  bigEndian 8 chunkCount ++ bigEndian 8 plaintextSize

def decodeChunkedTerminal (plaintext : Bytes) : Except CryptoError (ℕ × ℕ) :=
  if plaintext.length ≠ chunkedTerminalPlainSize then .error .incompleteTerminalLength
  else .ok (ofBigEndian (plaintext.take 8), ofBigEndian (plaintext.drop 8))

@[simp] theorem length_encodeChunkedTerminal (chunkCount plaintextSize : ℕ) :
    (encodeChunkedTerminal chunkCount plaintextSize).length = chunkedTerminalPlainSize := by
  simp [encodeChunkedTerminal, chunkedTerminalPlainSize]

theorem decodeChunkedTerminal_encode {chunkCount plaintextSize : ℕ}
    (hcount : chunkCount ≤ maxUint64) (hsize : plaintextSize ≤ maxUint64) :
    decodeChunkedTerminal (encodeChunkedTerminal chunkCount plaintextSize) =
      .ok (chunkCount, plaintextSize) := by
  have htake : (encodeChunkedTerminal chunkCount plaintextSize).take 8 =
      bigEndian 8 chunkCount := by
    simp [encodeChunkedTerminal]
  have hdrop : (encodeChunkedTerminal chunkCount plaintextSize).drop 8 =
      bigEndian 8 plaintextSize := by
    simp [encodeChunkedTerminal]
  simp only [maxUint64] at hcount hsize
  rw [decodeChunkedTerminal, if_neg (by simp), htake, hdrop,
    ofBigEndian_bigEndian_of_lt (by omega), ofBigEndian_bigEndian_of_lt (by omega)]

/-! ## The manifest -/

/-- How the writer derived a record's IV; anything but `hkdfSha256` is read as
the legacy derivation. -/
inductive IvDerivation where
  | hkdfSha256
  | legacyXor

structure ChunkManifest where
  version : ℕ
  chunkSize : ℕ
  chunkCount : ℕ
  baseIv : List Char
  ivDerivation : IvDerivation

def encodeBase64 (data : Bytes) : List Char := Base64.encode data

def decodeBase64 (text : List Char) : Option Bytes := Base64.decode text

/-! ## What a record is sealed under -/

/-- The fields of the readers that decide under which nonce and associated data
a record is sealed. -/
structure RecordFormat where
  version : ℕ
  baseIv : Bytes
  object : ObjectContext
  bindingId : Bytes
  boundV2 : Bool

/-- Nonce and associated data of data record `index`. -/
def RecordFormat.dataNonceAndAad (derivation : IvDerivation) (format : RecordFormat) (index : ℕ) :
    Except CryptoError (Bytes × Bytes) :=
  if format.version = chunkedFormatV2 then
    let nonce := deriveChunkNonceHkdf hkdf format.baseIv format.version index
    if format.boundV2 then do
      -- an error of the nonce is overwritten here by the result for the associated data
      let aad ← buildObjectAad .chunkedV2Data format.object format.bindingId [index]
      return (nonce.toOption.getD [], aad)
    else do
      return (← nonce, buildChunkAad format.version index)
  else do
    let nonce ←
      match derivation with
      | .hkdfSha256 => deriveChunkIvHkdfIndex hkdf format.baseIv index
      | .legacyXor => deriveLegacyChunkIvIndex format.baseIv index
    return (nonce, [])

variable (format : RecordFormat)

/-- Nonce and associated data of the terminal record. -/
def RecordFormat.terminalNonceAndAad (index plainSize : ℕ) :
    Except CryptoError (Bytes × Bytes) := do
  let nonce ← deriveTerminalNonceHkdf hkdf format.baseIv format.version
  if format.boundV2 then
    let aad ← buildObjectAad .chunkedV2Trailer format.object format.bindingId [index, plainSize]
    return (nonce, aad)
  else return (nonce, buildTerminalAad format.version)

/-- The format of a version 2 reader or writer bound to a valid object. -/
structure RecordFormat.Bound (format : RecordFormat) : Prop where
  version_eq : format.version = chunkedFormatV2
  boundV2_eq : format.boundV2 = true
  object_valid : format.object.Valid
  bindingId_length : format.bindingId.length = bindingIdSize

namespace RecordFormat

def dataNonce (index : ℕ) : Bytes :=
  readHkdfNonce hkdf format.baseIv (dataNonceInfo index)

def terminalNonce : Bytes :=
  readHkdfNonce hkdf format.baseIv terminalNonceInfo

def dataAad (index : ℕ) : Bytes :=
  objectAad .chunkedV2Data format.object format.bindingId [index]

def terminalAad (index plainSize : ℕ) : Bytes :=
  objectAad .chunkedV2Trailer format.object format.bindingId [index, plainSize]

theorem dataNonceAndAad_of_bound {hkdf : Hkdf} {derivation : IvDerivation}
    {format : RecordFormat} (hbound : format.Bound) (index : ℕ) :
    format.dataNonceAndAad hkdf derivation index =
      .ok (format.dataNonce hkdf index, format.dataAad index) := by
  rw [dataNonceAndAad, if_pos hbound.version_eq, if_pos hbound.boundV2_eq,
    buildObjectAad_of_valid hbound.object_valid hbound.bindingId_length (by simp),
    deriveChunkNonceHkdf, if_neg (not_not.mpr hbound.version_eq)]
  rfl

theorem terminalNonceAndAad_of_bound {hkdf : Hkdf} {format : RecordFormat}
    (hbound : format.Bound) (index plainSize : ℕ) :
    format.terminalNonceAndAad hkdf index plainSize =
      .ok (format.terminalNonce hkdf, format.terminalAad index plainSize) := by
  simp only [terminalNonceAndAad, if_pos hbound.boundV2_eq,
    buildObjectAad_of_valid hbound.object_valid hbound.bindingId_length
      (show [index, plainSize].length ≤ 65535 by simp),
    deriveTerminalNonceHkdf, if_neg (not_not.mpr hbound.version_eq)]
  rfl

section

variable {first second : RecordFormat} (hfirst : first.Bound) (hsecond : second.Bound)

include hfirst hsecond

/-- A data record's associated data names its object, its binding id and its
index. -/
theorem dataAad_inj {i j : ℕ} (hi : i ≤ maxUint64) (hj : j ≤ maxUint64)
    (heq : first.dataAad i = second.dataAad j) :
    first.object = second.object ∧ first.bindingId = second.bindingId ∧ i = j := by
  simp only [maxUint64] at hi hj
  obtain ⟨-, hobject, hbinding, hfields⟩ := objectAad_inj hfirst.object_valid
    hsecond.object_valid hfirst.bindingId_length hsecond.bindingId_length (by simp) (by simp)
    (by simp; omega) (by simp; omega) heq
  exact ⟨hobject, hbinding, List.head_eq_of_cons_eq hfields⟩

/-- The terminal record's associated data names the object, the binding id, the
number of records and the plaintext size. -/
theorem terminalAad_inj {i j size size' : ℕ} (hi : i ≤ maxUint64) (hj : j ≤ maxUint64)
    (hsize : size ≤ maxUint64) (hsize' : size' ≤ maxUint64)
    (heq : first.terminalAad i size = second.terminalAad j size') :
    first.object = second.object ∧ first.bindingId = second.bindingId ∧ i = j ∧
      size = size' := by
  simp only [maxUint64] at hi hj hsize hsize'
  obtain ⟨-, hobject, hbinding, hfields⟩ := objectAad_inj hfirst.object_valid
    hsecond.object_valid hfirst.bindingId_length hsecond.bindingId_length (by simp) (by simp)
    (by simp; omega) (by simp; omega) heq
  simp only [List.cons.injEq, and_true] at hfields
  exact ⟨hobject, hbinding, hfields⟩

/-- Data records and terminal records are told apart by their domain. -/
theorem dataAad_ne_terminalAad {i j size : ℕ} (hi : i ≤ maxUint64) (hj : j ≤ maxUint64)
    (hsize : size ≤ maxUint64) : first.dataAad i ≠ second.terminalAad j size := by
  intro heq
  simp only [maxUint64] at hi hj hsize
  obtain ⟨hdomain, -⟩ := objectAad_inj hfirst.object_valid
    hsecond.object_valid hfirst.bindingId_length hsecond.bindingId_length (by simp) (by simp)
    (by simp; omega) (by simp; omega) heq
  cases hdomain

end

end RecordFormat

/-! ## Sizes -/

def validateChunkedVersion (version : ℕ) : Except CryptoError Unit :=
  if version ≠ chunkedFormatV1 ∧ version ≠ chunkedFormatV2 then
    .error .unsupportedChunkedVersion
  else .ok ()

def validateChunkSize (chunkSize : ℕ) : Except CryptoError Unit :=
  if maxInt64 - tagSize < chunkSize then .error (.invalidChunkSize chunkSize)
  else if chunkSize < minChunkSize ∨ maxChunkSize < chunkSize then
    .error (.invalidChunkSize chunkSize)
  else .ok ()

def chunkedDataChunkCount (plaintextSize : ℤ) (chunkSize : ℕ) : Except CryptoError ℕ := do
  if plaintextSize < 0 then .error .negativePlaintextSize
  else
    validateChunkSize chunkSize
    if plaintextSize = 0 then return 0
    else
      let count := (plaintextSize - 1) / chunkSize + 1
      if count < 0 then .error .chunkCountOverflow else return count.toNat

def chunkedCiphertextSize (plaintextSize : ℤ) (chunkSize version : ℕ) :
    Except CryptoError ℤ := do
  validateChunkedVersion version
  let count ← chunkedDataChunkCount plaintextSize chunkSize
  if (maxInt64 - chunkedTerminalSize) / tagSize < count then .error .ciphertextSizeOverflow
  else
    let overhead := count * tagSize
    if version = chunkedFormatV2 ∧ maxInt64 - chunkedTerminalSize < overhead then
      .error .ciphertextSizeOverflow
    else
      let overhead := if version = chunkedFormatV2 then overhead + chunkedTerminalSize else overhead
      if maxInt64 < overhead ∨ (maxInt64 : ℤ) - overhead < plaintextSize then
        .error .ciphertextSizeOverflow
      else return plaintextSize + overhead

/-- A chunk size the readers accept. -/
structure ValidChunkSize (chunkSize : ℕ) : Prop where
  min_le : minChunkSize ≤ chunkSize
  le_max : chunkSize ≤ maxChunkSize

theorem validateChunkSize_eq_ok_iff {chunkSize : ℕ} :
    validateChunkSize chunkSize = .ok () ↔ ValidChunkSize chunkSize := by
  unfold validateChunkSize
  constructor
  · intro hok
    split_ifs at hok with hmax hsize
    exact ⟨not_lt.mp (not_or.mp hsize).1, not_lt.mp (not_or.mp hsize).2⟩
  · rintro ⟨hmin, hmax⟩
    simp only [minChunkSize, maxChunkSize] at hmin hmax
    rw [if_neg (by simp only [maxInt64, tagSize]; omega),
      if_neg (by simp only [minChunkSize, maxChunkSize]; omega)]

theorem validateChunkSize_of_valid {chunkSize : ℕ} (hsize : ValidChunkSize chunkSize) :
    validateChunkSize chunkSize = .ok () :=
  validateChunkSize_eq_ok_iff.mpr hsize

/-- The number of data records of a plaintext of length `size`. -/
def recordCount (size chunkSize : ℕ) : ℕ :=
  if size = 0 then 0 else (size - 1) / chunkSize + 1

theorem chunkedDataChunkCount_natCast {chunkSize : ℕ} (hsize : ValidChunkSize chunkSize)
    (size : ℕ) : chunkedDataChunkCount size chunkSize = .ok (recordCount size chunkSize) := by
  rw [chunkedDataChunkCount, if_neg (by omega), validateChunkSize_of_valid hsize]
  by_cases hzero : size = 0
  · simp [recordCount, hzero]
  have hcount : ((size : ℤ) - 1) / chunkSize + 1 = (((size - 1) / chunkSize + 1 : ℕ) : ℤ) := by
    push_cast [Nat.one_le_iff_ne_zero.mpr hzero]
    rfl
  simp only [recordCount, if_neg hzero, Int.natCast_eq_zero, hcount]
  rw [if_neg (not_lt.mpr (Int.natCast_nonneg _)), Int.toNat_natCast]
  rfl

def ciphertextLength (size chunkSize : ℕ) : ℕ :=
  size + recordCount size chunkSize * tagSize + chunkedTerminalSize

/-- The size function is exact and refuses exactly what does not fit an `int64`. -/
theorem chunkedCiphertextSize_v2 {chunkSize : ℕ} (hsize : ValidChunkSize chunkSize) (size : ℕ) :
    chunkedCiphertextSize size chunkSize chunkedFormatV2 =
      if ciphertextLength size chunkSize ≤ maxInt64 then
        .ok (ciphertextLength size chunkSize : ℤ)
      else .error .ciphertextSizeOverflow := by
  have hversion : validateChunkedVersion chunkedFormatV2 = .ok () := rfl
  rw [chunkedCiphertextSize, hversion, chunkedDataChunkCount_natCast hsize]
  generalize hcount : recordCount size chunkSize = count
  show (if (maxInt64 - chunkedTerminalSize) / tagSize < count then _ else _) = _
  simp only [ciphertextLength, hcount, maxInt64, chunkedTerminalSize, tagSize, if_true, true_and]
  by_cases hfits : size + count * 16 + 32 ≤ 9223372036854775807
  · rw [if_pos hfits, if_neg (by omega), if_neg (by omega), if_neg (by omega)]
    show Except.ok _ = Except.ok _
    push_cast
    rw [add_assoc]
  · rw [if_neg hfits]
    split
    · rfl
    · split
      · rfl
      · rw [if_pos (by omega)]

end S3EncryptionGateway.Crypto
