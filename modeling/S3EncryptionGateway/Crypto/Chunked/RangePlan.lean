import S3EncryptionGateway.Library.Decimal
import S3EncryptionGateway.Crypto.Chunked.Format

/-!
# Planning a ranged read of a chunked object

Which records a plaintext range touches and where they are in the ciphertext.  The plan is
made from the object's metadata: its manifest, and its plaintext size, which is computed
from the length of the stored ciphertext.

## Sizes

`lt_recordCount_iff` is the one fact about the number of records: record `i` exists exactly
if the plaintext goes beyond `i` chunks.  From it follow

* `chunkedPlaintextSize_eq`: the size function is inverted exactly.  Of the two record counts
  it tries, the smaller one is refused unless the last chunk is full;
* `calculateEncryptedRangeForPlaintextRange_eq`: the plan begins with the record of the first
  byte and ends with the record of the last one, without the terminal record.
-/

namespace S3EncryptionGateway.Crypto

open Encoding Text

/-- What a ranged read of a chunked object can fail with. -/
inductive RangeError where
  /-- An error shared with the whole-object reader. -/
  | crypto (err : CryptoError)
  /-- "negative ciphertext size" -/
  | negativeCiphertextSize
  /-- "ciphertext shorter than terminal" -/
  | shorterThanTerminal
  /-- "non-canonical chunked ciphertext size" -/
  | nonCanonicalSize
  /-- "invalid chunk range" -/
  | invalidChunkRange
  /-- "encrypted range overflow" -/
  | encryptedRangeOverflow
  /-- "manifest not found in metadata" -/
  | manifestNotFound
  /-- "failed to decode manifest: " or "failed to parse manifest: " and the cause -/
  | manifestUndecodable
  /-- "invalid ciphertext size" -/
  | invalidCiphertextSize
  /-- "exact plaintext size not available in metadata" -/
  | sizeNotAvailable
  /-- "invalid chunked manifest" -/
  | invalidManifest
  /-- "chunk range overflow" -/
  | chunkRangeOverflow
  /-- "failed to skip to start chunk: " and the error of the source -/
  | skipFailed (err : CryptoError)
  /-- "unexpected EOF while skipping to chunk %d" -/
  | skipEnded (chunk : ℕ)
  /-- "exact plaintext size required for optimized v2 final chunk" -/
  | finalSizeUnknown
  /-- "final chunk offset overflow" -/
  | finalOffsetOverflow
  /-- "start offset %d exceeds chunk size %d" -/
  | startOffset (offset size : ℕ)
  /-- "unexpected EOF" -/
  | unexpectedEof
  /-- "range not satisfiable: %d-%d (size: %d)" -/
  | notSatisfiable (first last size : ℤ)
  deriving DecidableEq

def liftCrypto {α : Type} : Except CryptoError α → Except RangeError α :=
  Except.mapError .crypto

/-! ## The number of records -/

theorem ValidChunkSize.pos {chunkSize : ℕ} (hvalid : ValidChunkSize chunkSize) : 0 < chunkSize := by
  have := hvalid.min_le
  simp only [minChunkSize] at this
  omega

section RecordCount

variable {size chunkSize i : ℕ}

theorem lt_recordCount_iff (hpos : 0 < chunkSize) :
    i < recordCount size chunkSize ↔ i * chunkSize < size := by
  rw [recordCount]
  split
  · simp_all
  · rw [Nat.lt_succ_iff, Nat.le_div_iff_mul_le hpos]
    omega

theorem recordCount_le_iff (hpos : 0 < chunkSize) :
    recordCount size chunkSize ≤ i ↔ size ≤ i * chunkSize := by
  rw [← not_lt, lt_recordCount_iff hpos, not_lt]

theorem div_lt_recordCount (hpos : 0 < chunkSize) (hlt : i < size) :
    i / chunkSize < recordCount size chunkSize :=
  (lt_recordCount_iff hpos).mpr ((Nat.div_mul_le_self i chunkSize).trans_lt hlt)

end RecordCount

def dataLength (size chunkSize : ℕ) : ℕ :=
  size + recordCount size chunkSize * tagSize

/-- The length of what follows the data records. -/
def terminalLength (version : ℕ) : ℕ :=
  if version = chunkedFormatV2 then chunkedTerminalSize else 0

/-- A version that is read and written. -/
def SupportedVersion (version : ℕ) : Prop :=
  version = chunkedFormatV1 ∨ version = chunkedFormatV2

theorem validateChunkedVersion_of_supported {version : ℕ} (hversion : SupportedVersion version) :
    validateChunkedVersion version = .ok () := by
  rcases hversion with rfl | rfl <;> rfl

/-- The size function is exact, and succeeds on what fits an `int64`. -/
theorem chunkedCiphertextSize_eq_ok_iff {size chunkSize version : ℕ} {ciphertextSize : ℤ}
    (hversion : SupportedVersion version) (hvalid : ValidChunkSize chunkSize) :
    chunkedCiphertextSize size chunkSize version = .ok ciphertextSize ↔
      dataLength size chunkSize + terminalLength version ≤ maxInt64 ∧
        ciphertextSize = (dataLength size chunkSize + terminalLength version : ℕ) := by
  have hcount : recordCount size chunkSize ≤ size := by
    rw [recordCount_le_iff hvalid.pos]
    exact Nat.le_mul_of_pos_right size hvalid.pos
  rcases hversion with rfl | rfl
  · have hterminal : terminalLength chunkedFormatV1 = 0 := rfl
    have hne : chunkedFormatV1 ≠ chunkedFormatV2 := by decide
    rw [chunkedCiphertextSize, show validateChunkedVersion chunkedFormatV1 = .ok () from rfl,
      chunkedDataChunkCount_natCast hvalid, hterminal, dataLength]
    generalize recordCount size chunkSize = count at *
    show (if (maxInt64 - chunkedTerminalSize) / tagSize < count then _ else _) = _ ↔ _
    simp only [hne, false_and, if_false, maxInt64, chunkedTerminalSize, tagSize]
    split_ifs
    · exact iff_of_false (by rintro ⟨⟩) (by omega)
    · exact iff_of_false (by rintro ⟨⟩) (by omega)
    · show Except.ok _ = Except.ok _ ↔ _
      rw [Except.ok.injEq]
      omega
  · rw [chunkedCiphertextSize_v2 hvalid]
    show (if dataLength size chunkSize + terminalLength chunkedFormatV2 ≤ maxInt64 then _ else _) =
      _ ↔ _
    split_ifs with hfits
    · rw [Except.ok.injEq, eq_comm, and_iff_right hfits]
      rfl
    · exact iff_of_false (by rintro ⟨⟩) fun h => hfits h.1

/-! ## From the ciphertext length to the plaintext size -/

/-- Plaintext size and record count, if `dataSize` bytes are `count` sealed records. -/
def plaintextSizeFor (dataSize : ℤ) (chunkSize count : ℕ) : Option (ℤ × ℕ) :=
  if maxInt64 / tagSize < count then none
  else
    let plain := dataSize - (count * tagSize : ℕ)
    if plain < 0 then none
    else
      match chunkedDataChunkCount plain chunkSize with
      | .error _ => none
      | .ok actual => if actual = count then some (plain, count) else none

def chunkedPlaintextSize (ciphertextSize : ℤ) (chunkSize version : ℕ) :
    Except RangeError (ℤ × ℕ) := do
  liftCrypto (validateChunkedVersion version)
  liftCrypto (validateChunkSize chunkSize)
  if ciphertextSize < 0 then .error .negativeCiphertextSize
  else
    let overhead : ℤ := if version = chunkedFormatV2 then chunkedTerminalSize else 0
    if ciphertextSize < overhead then .error .shorterThanTerminal
    else
      let dataSize := ciphertextSize - overhead
      if dataSize = 0 then return (0, 0)
      else if version = chunkedFormatV2 ∧ dataSize < tagSize then .error .nonCanonicalSize
      else
        let candidate := (dataSize / (chunkSize + tagSize : ℕ)).toNat
        let candidate := if candidate = 0 then 1 else candidate
        match plaintextSizeFor dataSize chunkSize candidate with
        | some found => return found
        | none =>
          match plaintextSizeFor dataSize chunkSize (candidate + 1) with
          | some found => return found
          | none => .error .nonCanonicalSize

section PlaintextSize

variable {size chunkSize : ℕ}

theorem plaintextSizeFor_recordCount (hvalid : ValidChunkSize chunkSize)
    (hfits : dataLength size chunkSize ≤ maxInt64) :
    plaintextSizeFor (dataLength size chunkSize : ℕ) chunkSize (recordCount size chunkSize) =
      some ((size : ℤ), recordCount size chunkSize) := by
  have hplain : ((dataLength size chunkSize : ℕ) : ℤ) -
      (recordCount size chunkSize * tagSize : ℕ) = size := by
    rw [dataLength]
    push_cast
    omega
  simp only [dataLength, tagSize, maxInt64] at hfits
  simp only [plaintextSizeFor, hplain, chunkedDataChunkCount_natCast hvalid, if_true]
  rw [if_neg (by simp only [maxInt64, tagSize]; omega), if_neg (by omega)]

/-- A record fewer would have to hold more than a full chunk. -/
theorem plaintextSizeFor_eq_none (hvalid : ValidChunkSize chunkSize) {count : ℕ}
    (hcount : recordCount size chunkSize = count + 1) :
    plaintextSizeFor (dataLength size chunkSize : ℕ) chunkSize count = none := by
  have hplain : ((dataLength size chunkSize : ℕ) : ℤ) - (count * tagSize : ℕ) =
      ((size + tagSize : ℕ) : ℤ) := by
    rw [dataLength, hcount]
    push_cast
    ring
  have hmore : recordCount (size + tagSize) chunkSize ≠ count := by
    have hlt : count * chunkSize < size := (lt_recordCount_iff hvalid.pos).mp (by omega)
    have : count < recordCount (size + tagSize) chunkSize :=
      (lt_recordCount_iff hvalid.pos).mpr (by omega)
    omega
  simp only [plaintextSizeFor, hplain, chunkedDataChunkCount_natCast hvalid, if_neg hmore,
    ite_self]

/-- The first candidate is the record count, or one less if the last chunk is short. -/
theorem candidate_eq (hpos : 0 < chunkSize) (hsize : 0 < size) :
    dataLength size chunkSize / (chunkSize + tagSize) = recordCount size chunkSize ∨
      dataLength size chunkSize / (chunkSize + tagSize) + 1 = recordCount size chunkSize := by
  obtain ⟨count, hcount⟩ : ∃ count, recordCount size chunkSize = count + 1 :=
    Nat.exists_eq_add_one.mpr ((lt_recordCount_iff hpos).mpr (by omega))
  have hlt : count * chunkSize < size := (lt_recordCount_iff hpos).mp (by omega)
  have hle : size ≤ (count + 1) * chunkSize := hcount ▸ (recordCount_le_iff hpos).mp le_rfl
  rw [dataLength, hcount]
  rcases Nat.lt_or_eq_of_le hle with hshort | hfull
  · refine .inr (congrArg (· + 1) (Nat.div_eq_of_lt_le ?_ ?_))
    · rw [Nat.mul_add, Nat.add_mul]
      omega
    · rw [Nat.mul_add]
      omega
  · left
    rw [hfull, ← Nat.mul_add, Nat.mul_div_cancel _ (by omega)]

/-- **The size function is inverted exactly.** -/
theorem chunkedPlaintextSize_eq {version : ℕ} (hversion : SupportedVersion version)
    (hvalid : ValidChunkSize chunkSize) (hfits : dataLength size chunkSize ≤ maxInt64) :
    chunkedPlaintextSize ((dataLength size chunkSize + terminalLength version : ℕ) : ℤ) chunkSize
      version = .ok ((size : ℤ), recordCount size chunkSize) := by
  have hpos := hvalid.pos
  have hoverhead : (if version = chunkedFormatV2 then (chunkedTerminalSize : ℤ) else 0) =
      terminalLength version := by
    rw [terminalLength]
    split <;> rfl
  have hdata : ((dataLength size chunkSize + terminalLength version : ℕ) : ℤ) -
      (terminalLength version : ℕ) = (dataLength size chunkSize : ℕ) := by
    push_cast
    omega
  simp only [chunkedPlaintextSize, validateChunkedVersion_of_supported hversion,
    validateChunkSize_of_valid hvalid, hoverhead, hdata]
  show (if _ then _ else _) = _
  rw [if_neg (by omega)]
  rcases Nat.eq_zero_or_pos size with rfl | hsize
  · rw [if_pos (by simp [dataLength, recordCount])]
    rfl
  · have hcount : 0 < recordCount size chunkSize := (lt_recordCount_iff hpos).mpr (by omega)
    have htag : size + tagSize ≤ dataLength size chunkSize := by
      rw [dataLength]
      exact Nat.add_le_add_left (Nat.le_mul_of_pos_left _ hcount) _
    rw [if_neg (by omega), if_neg (by omega), ← Int.natCast_div, Int.toNat_natCast]
    rcases candidate_eq hpos hsize with hfull | hshort
    · rw [hfull, if_neg (by omega), plaintextSizeFor_recordCount hvalid hfits]
      rfl
    · by_cases hone : dataLength size chunkSize / (chunkSize + tagSize) = 0
      · have hfound := plaintextSizeFor_recordCount hvalid hfits
        have hsingle : recordCount size chunkSize = 1 := by omega
        rw [hsingle] at hfound
        rw [if_pos hone, hfound, hsingle]
        rfl
      · rw [if_neg hone, plaintextSizeFor_eq_none hvalid hshort.symm, hshort,
          plaintextSizeFor_recordCount hvalid hfits]
        rfl

end PlaintextSize

/-! ## Records and bytes of a range -/

structure ChunkRange where
  startChunk : ℕ
  endChunk : ℕ
  startOffset : ℕ
  endOffset : ℕ

def calculateChunkRangeFromPlaintext (plaintextStart plaintextEnd : ℤ)
    (chunkSize totalChunks : ℕ) : ChunkRange :=
  if chunkSize = 0 ∨ totalChunks = 0 then ⟨0, 0, 0, 0⟩
  else if plaintextStart < 0 ∨ plaintextEnd < 0 then ⟨0, 0, 0, 0⟩
  else
    let startChunk := (plaintextStart / chunkSize).toNat
    let endChunk := (plaintextEnd / chunkSize).toNat
    -- clamp to the records there are
    let startChunk := if totalChunks ≤ startChunk then totalChunks - 1 else startChunk
    let endChunk := if totalChunks ≤ endChunk then totalChunks - 1 else endChunk
    ⟨startChunk, endChunk, (plaintextStart % chunkSize).toNat, (plaintextEnd % chunkSize).toNat⟩

def chunkedEncryptedDataRange (startChunk endChunk chunkSize version : ℕ) :
    Except RangeError (ℤ × ℤ) := do
  liftCrypto (validateChunkedVersion version)
  liftCrypto (validateChunkSize chunkSize)
  if endChunk < startChunk then .error .invalidChunkRange
  else
    let unit := chunkSize + tagSize
    if endChunk = maxUint64 ∨ maxInt64 / unit < startChunk ∨ maxInt64 / unit ≤ endChunk then
      .error .encryptedRangeOverflow
    else
      let first := startChunk * unit
      let last := (endChunk + 1) * unit - 1
      if maxInt64 < last then .error .encryptedRangeOverflow
      else return ((first : ℤ), (last : ℤ))

/-- The bytes of the data records, without the terminal record. -/
def chunkedEncryptedDataRangeForPlaintextSize (startChunk endChunk : ℕ) (plaintextSize : ℤ)
    (chunkSize version : ℕ) : Except RangeError (ℤ × ℤ) := do
  let count ← liftCrypto (chunkedDataChunkCount plaintextSize chunkSize)
  if count = 0 ∨ endChunk < startChunk ∨ count ≤ endChunk then .error .invalidChunkRange
  else
    let (first, last) ← chunkedEncryptedDataRange startChunk endChunk chunkSize version
    let canonical ← liftCrypto (chunkedCiphertextSize plaintextSize chunkSize version)
    let dataEnd := if version = chunkedFormatV2 then canonical - chunkedTerminalSize else canonical
    return (first, if dataEnd ≤ last then dataEnd - 1 else last)

section Ranges

variable {size chunkSize first last version : ℕ}

theorem calculateChunkRangeFromPlaintext_of_lt (hle : first ≤ last) {totalChunks : ℕ}
    (hpos : 0 < chunkSize) (hlast : last / chunkSize < totalChunks) :
    calculateChunkRangeFromPlaintext first last chunkSize totalChunks =
      ⟨first / chunkSize, last / chunkSize, first % chunkSize, last % chunkSize⟩ := by
  have hfirst : first / chunkSize < totalChunks := (Nat.div_le_div_right hle).trans_lt hlast
  have hsome : ¬(chunkSize = 0 ∨ totalChunks = 0) :=
    not_or.mpr ⟨hpos.ne', (Nat.zero_lt_of_lt hfirst).ne'⟩
  have hnonneg : ¬((first : ℤ) < 0 ∨ (last : ℤ) < 0) := by omega
  rw [calculateChunkRangeFromPlaintext, if_neg hsome, if_neg hnonneg]
  simp only [← Int.natCast_div, ← Int.natCast_emod, Int.toNat_natCast, if_neg (not_le.mpr hfirst),
    if_neg (not_le.mpr hlast)]

theorem calculateChunkRangeFromPlaintext_eq (hpos : 0 < chunkSize) (hle : first ≤ last)
    (hlast : last < size) :
    calculateChunkRangeFromPlaintext first last chunkSize (recordCount size chunkSize) =
      ⟨first / chunkSize, last / chunkSize, first % chunkSize, last % chunkSize⟩ :=
  calculateChunkRangeFromPlaintext_of_lt hle hpos (div_lt_recordCount hpos hlast)

/-- The end of the record of byte `last`. -/
def recordEnd (size chunkSize last : ℕ) : ℕ :=
  min ((last / chunkSize + 1) * (chunkSize + tagSize)) (dataLength size chunkSize)

theorem dataEnd_eq (version : ℕ) (length : ℕ) :
    (if version = chunkedFormatV2 then ((length + terminalLength version : ℕ) : ℤ) -
      chunkedTerminalSize else ((length + terminalLength version : ℕ) : ℤ)) = length := by
  rw [terminalLength]
  split
  · push_cast
    omega
  · rfl

/-- Ranges are planned up to the last record whose full size fits an `int64`. -/
theorem chunkedEncryptedDataRangeForPlaintextSize_eq (hversion : SupportedVersion version)
    (hvalid : ValidChunkSize chunkSize) (hle : first ≤ last) (hlast : last < size)
    (hfits : dataLength size chunkSize + terminalLength version ≤ maxInt64) :
    chunkedEncryptedDataRangeForPlaintextSize (first / chunkSize) (last / chunkSize) size chunkSize
        version =
      if maxInt64 / (chunkSize + tagSize) ≤ last / chunkSize then .error .encryptedRangeOverflow
      else .ok (((first / chunkSize * (chunkSize + tagSize) : ℕ) : ℤ),
        (recordEnd size chunkSize last : ℤ) - 1) := by
  have hrecord := div_lt_recordCount hvalid.pos hlast
  have hmono : first / chunkSize ≤ last / chunkSize := Nat.div_le_div_right hle
  simp only [chunkedEncryptedDataRangeForPlaintextSize, chunkedDataChunkCount_natCast hvalid,
    chunkedEncryptedDataRange, validateChunkedVersion_of_supported hversion,
    validateChunkSize_of_valid hvalid,
    (chunkedCiphertextSize_eq_ok_iff hversion hvalid).mpr ⟨hfits, rfl⟩]
  generalize hlastChunk : last / chunkSize = lastChunk at *
  generalize hfirstChunk : first / chunkSize = firstChunk at *
  show (if recordCount size chunkSize = 0 ∨ _ then _ else _) = _
  rw [if_neg (by omega)]
  show Except.bind (if lastChunk < firstChunk then _ else _) _ = _
  rw [if_neg (by omega)]
  by_cases hover : maxInt64 / (chunkSize + tagSize) ≤ lastChunk
  · rw [if_pos (.inr (.inr hover)), if_pos hover]
    rfl
  · have hunit : (lastChunk + 1) * (chunkSize + tagSize) ≤ maxInt64 :=
      (Nat.le_div_iff_mul_le (by have := hvalid.pos; omega)).mp (not_le.mp hover)
    have hinside : ¬(lastChunk = maxUint64 ∨ maxInt64 / (chunkSize + tagSize) < firstChunk ∨
        maxInt64 / (chunkSize + tagSize) ≤ lastChunk) := by
      have hdiv := Nat.div_le_self maxInt64 (chunkSize + tagSize)
      have hlimit : maxInt64 < maxUint64 := by decide
      omega
    rw [if_neg hinside, if_neg (not_lt.mpr ((Nat.sub_le _ _).trans hunit)), if_neg hover]
    show Except.ok (_, if _ ≤ _ then _ else _) = _
    have hsome : 0 < (lastChunk + 1) * (chunkSize + tagSize) :=
      Nat.mul_pos (Nat.succ_pos _) (by have := hvalid.pos; omega)
    rw [dataEnd_eq, recordEnd, hlastChunk]
    congr 2
    generalize (lastChunk + 1) * (chunkSize + tagSize) = stop at *
    push_cast [hsome]
    split <;> omega

end Ranges

/-! ## The plan -/

/-- What the range functions read of an object's metadata.  The manifest is absent, not
decodable, or decoded; the numbers are texts. -/
structure RangeMetadata where
  manifest : Option (Option ChunkManifest)
  contentLength : Option Str
  originalSize : Option Str
  chunkCount : Option Str
  chunkSize : Option Str

variable (metadata : RangeMetadata)

namespace RangeMetadata

def loadManifest : Except RangeError ChunkManifest :=
  match metadata.manifest with
  | none => .error .manifestNotFound
  | some none => .error .manifestUndecodable
  | some (some manifest) => .ok manifest

def chunkedFormatVersion : Except RangeError ℕ := do
  let manifest ← metadata.loadManifest
  if manifest.version = chunkedFormatV1 ∨ manifest.version = chunkedFormatV2 then
    return manifest.version
  else .error (.crypto .unsupportedChunkedVersion)

/-- Without a stored length there is only an upper bound. -/
def legacySize : Except RangeError ℤ :=
  match metadata.chunkCount.bind Decimal.parseUint, metadata.chunkSize.bind Decimal.parseUint with
  | some count, some chunkSize =>
    if 0 < count ∧ chunkSize ≤ maxInt64 then do
      liftCrypto (validateChunkSize chunkSize)
      if 0 < chunkSize ∧ count ≤ maxInt64 / chunkSize then return (count * chunkSize : ℕ)
      else .error .sizeNotAvailable
    else .error .sizeNotAvailable
  | _, _ => .error .sizeNotAvailable

/-- The recorded size, if it is a size. -/
def originalSize? : Option ℤ :=
  (metadata.originalSize.bind Decimal.parseInt).filter (0 ≤ ·)

def sizeWithoutLength : Except RangeError ℤ :=
  match metadata.originalSize? with
  | some size => .ok size
  | none => metadata.legacySize

def getPlaintextSize : Except RangeError ℤ :=
  if metadata.manifest.isSome then do
    let version ← metadata.chunkedFormatVersion
    match metadata.contentLength with
    | some text =>
      match Decimal.parseInt text with
      | none => .error .invalidCiphertextSize
      | some ciphertextSize =>
        let manifest ← metadata.loadManifest
        let (plain, _) ← chunkedPlaintextSize ciphertextSize manifest.chunkSize version
        return plain
    | none => metadata.sizeWithoutLength
  else metadata.sizeWithoutLength

end RangeMetadata

/-- Fill in a record count that the writer left at zero. -/
def ChunkManifest.backfill (manifest : ChunkManifest) (size : Except RangeError ℤ) :
    ChunkManifest :=
  if manifest.chunkCount = 0 ∧ 0 < manifest.chunkSize then
    match size with
    | .error _ => manifest
    | .ok size =>
      if 0 < size then
        match chunkedDataChunkCount size manifest.chunkSize with
        | .error _ => manifest
        | .ok count => { manifest with chunkCount := count }
      else manifest
  else manifest

def calculateEncryptedRangeForPlaintextRange (plaintextStart plaintextEnd : ℤ) :
    Except RangeError (ℤ × ℤ) := do
  let manifest ← metadata.loadManifest
  let version ← metadata.chunkedFormatVersion
  let manifest := manifest.backfill metadata.getPlaintextSize
  if manifest.chunkCount = 0 ∨ manifest.chunkSize = 0 then .error .invalidManifest
  else
    let range := calculateChunkRangeFromPlaintext plaintextStart plaintextEnd manifest.chunkSize
      manifest.chunkCount
    let plaintextSize ←
      match metadata.getPlaintextSize with
      | .ok size => pure size
      | .error err =>
        if maxInt64 / manifest.chunkSize < manifest.chunkCount then .error err
        else pure ((manifest.chunkCount * manifest.chunkSize : ℕ) : ℤ)
    chunkedEncryptedDataRangeForPlaintextSize range.startChunk range.endChunk plaintextSize
      manifest.chunkSize version

/-- The metadata of a stored object of `size` bytes: the manifest, whose record count may not
be filled in, and the length of the ciphertext. -/
structure RangeMetadata.Describes (metadata : RangeMetadata) (manifest : ChunkManifest)
    (size : ℕ) : Prop where
  manifest_eq : metadata.manifest = some (some manifest)
  version : SupportedVersion manifest.version
  chunkSize : ValidChunkSize manifest.chunkSize
  chunkCount : manifest.chunkCount = 0 ∨ manifest.chunkCount = recordCount size manifest.chunkSize
  contentLength : metadata.contentLength =
    some (Decimal.formatNat (dataLength size manifest.chunkSize + terminalLength manifest.version))
  fits : dataLength size manifest.chunkSize + terminalLength manifest.version ≤ maxInt64

section Describes

variable {metadata : RangeMetadata} {manifest : ChunkManifest} {size first last : ℕ}

section

variable (hmeta : metadata.Describes manifest size)

include hmeta

theorem RangeMetadata.Describes.loadManifest_eq : metadata.loadManifest = .ok manifest := by
  rw [loadManifest, hmeta.manifest_eq]

theorem RangeMetadata.Describes.chunkedFormatVersion_eq :
    metadata.chunkedFormatVersion = .ok manifest.version := by
  rw [chunkedFormatVersion, hmeta.loadManifest_eq]
  exact if_pos hmeta.version

theorem RangeMetadata.Describes.getPlaintextSize_eq :
    metadata.getPlaintextSize = .ok (size : ℤ) := by
  have hfits := hmeta.fits
  rw [getPlaintextSize, hmeta.manifest_eq,
    if_pos (show (some (some manifest)).isSome = true from rfl), hmeta.chunkedFormatVersion_eq,
    hmeta.contentLength, hmeta.loadManifest_eq]
  show (match Decimal.parseInt _ with | none => _ | some _ => _) = _
  rw [Decimal.parseInt_formatNat hfits]
  show Except.bind (chunkedPlaintextSize _ _ _) _ = _
  rw [chunkedPlaintextSize_eq hmeta.version hmeta.chunkSize (by omega)]
  rfl

theorem RangeMetadata.Describes.backfill_eq (hsize : 0 < size) :
    manifest.backfill (.ok (size : ℤ)) =
      { manifest with chunkCount := recordCount size manifest.chunkSize } := by
  rw [ChunkManifest.backfill]
  split
  · simp only [chunkedDataChunkCount_natCast hmeta.chunkSize]
    rw [if_pos (by omega)]
  · rename_i hfilled
    have hpos := hmeta.chunkSize.pos
    rcases hmeta.chunkCount with hzero | hcount
    · exact absurd ⟨hzero, hpos⟩ hfilled
    · rw [← hcount]

/-- **The plan of a range.**  From the record of the first byte to the record of the last one,
unless a full record there would not fit an `int64`. -/
theorem calculateEncryptedRangeForPlaintextRange_eq (hle : first ≤ last) (hlast : last < size) :
    calculateEncryptedRangeForPlaintextRange metadata first last =
      if maxInt64 / (manifest.chunkSize + tagSize) ≤ last / manifest.chunkSize then
        .error .encryptedRangeOverflow
      else .ok (((first / manifest.chunkSize * (manifest.chunkSize + tagSize) : ℕ) : ℤ),
        (recordEnd size manifest.chunkSize last : ℤ) - 1) := by
  have hpos := hmeta.chunkSize.pos
  have hcount : 0 < recordCount size manifest.chunkSize :=
    (lt_recordCount_iff hpos).mpr (by omega)
  rw [calculateEncryptedRangeForPlaintextRange, hmeta.loadManifest_eq,
    hmeta.chunkedFormatVersion_eq, hmeta.getPlaintextSize_eq]
  show (if (manifest.backfill (.ok (size : ℤ))).chunkCount = 0 ∨ _ then _ else _) = _
  rw [hmeta.backfill_eq (by omega)]
  rw [if_neg (by simp only; omega), calculateChunkRangeFromPlaintext_eq hpos hle hlast]
  exact chunkedEncryptedDataRangeForPlaintextSize_eq hmeta.version hmeta.chunkSize hle hlast
    hmeta.fits

end

/-- An empty object has no record to plan with. -/
theorem calculateEncryptedRangeForPlaintextRange_of_empty (hmeta : metadata.Describes manifest 0)
    (plaintextStart plaintextEnd : ℤ) :
    calculateEncryptedRangeForPlaintextRange metadata plaintextStart plaintextEnd =
      .error .invalidManifest := by
  have hcount : manifest.chunkCount = 0 := by
    rcases hmeta.chunkCount with hzero | hcount
    · exact hzero
    · exact hcount
  have hsame : manifest.backfill (.ok ((0 : ℕ) : ℤ)) = manifest := by
    rw [ChunkManifest.backfill]
    split
    · exact if_neg (by decide)
    · rfl
  rw [calculateEncryptedRangeForPlaintextRange, hmeta.loadManifest_eq,
    hmeta.chunkedFormatVersion_eq, hmeta.getPlaintextSize_eq]
  show (if (manifest.backfill (.ok ((0 : ℕ) : ℤ))).chunkCount = 0 ∨ _ then _ else _) = _
  rw [hsame, if_pos (.inl hcount)]

end Describes

end S3EncryptionGateway.Crypto
