import S3EncryptionGateway.Library.ReadAll
import S3EncryptionGateway.Crypto.Chunked.RangeDecrypt

/-!
# `DecryptRange`

The engine's entry point for ranges of chunked objects.  It checks the manifest and the format
marker, finds the plaintext size, refuses ranges that do not lie inside the plaintext, fills in
the record count and makes the reader.

For metadata that belong to a stored object (`RangeTarget.IsOf`) there are two outcomes: ranges
that are not inside the plaintext are "not satisfiable" (`decryptRange_of_outside`), and for
those inside there is a reader that has exactly the bytes of the range to give
(`exists_decryptRange`).
-/

namespace S3EncryptionGateway.Crypto

open Encoding Streams Slices

/-- What the format marker in the metadata says. -/
inductive FormatMarker where
  | bufferedV2
  | chunkedV2
  | other
  deriving DecidableEq

inductive DecryptRangeError where
  /-- "buffered-v2 format marker cannot use range chunked metadata" -/
  | bufferedMarker
  /-- "range optimization only supported for chunked format" -/
  | notChunked
  /-- "chunked-v2 format marker requires a v2 manifest" -/
  | markerVersion
  /-- "invalid encryption binding ID" -/
  | bindingId
  /-- "failed to get plaintext size: " and the error of the number's text -/
  | originalSize
  /-- An error of the manifest, of the plan or of the reader. -/
  | range (err : RangeError)
  deriving DecidableEq

def liftRange {α : Type} : Except RangeError α → Except DecryptRangeError α :=
  Except.mapError .range

/-- An object to read a range of: its metadata, and the cipher and the base nonce that were
found through them. -/
structure RangeTarget where
  metadata : RangeMetadata
  chunked : Bool
  marker : FormatMarker
  bindingId : Option Bytes
  aead : Aead
  baseIv : Bytes
  object : ObjectContext

/-- The size that ranges are checked against.  Unless the source was cut to the range, a
recorded size comes first. -/
def RangeMetadata.rangeSize (metadata : RangeMetadata) (isOptimizedSource : Bool) :
    Except DecryptRangeError ℤ :=
  match if isOptimizedSource then none else metadata.originalSize? with
  | some original => .ok original
  | none =>
    match metadata.getPlaintextSize with
    | .ok size => .ok size
    | .error err =>
      match metadata.originalSize with
      | none | some [] => .error (.range err)
      | some text =>
        match Decimal.parseInt text with
        | some original => .ok original
        | none => .error .originalSize

/-- Unlike in the plan of a range, a count that cannot be computed is an error. -/
def ChunkManifest.fillChunkCount (manifest : ChunkManifest) (size : ℤ) :
    Except RangeError ChunkManifest :=
  if manifest.chunkCount = 0 ∧ 0 < manifest.chunkSize ∧ 0 < size then do
    let count ← liftCrypto (chunkedDataChunkCount size manifest.chunkSize)
    return { manifest with chunkCount := count }
  else return manifest

/-- The reader for the format the marker names. -/
def RangeTarget.newReader (target : RangeTarget) (source : Script UInt8 CryptoError)
    (manifest : ChunkManifest) (start stop : ℤ) (isOptimizedSource : Bool) (size : ℤ) :
    Except RangeError RangeDecryptReader :=
  match target.marker, target.bindingId with
  | .chunkedV2, some bindingId =>
    newRangeDecryptReaderBound source target.aead (some manifest) target.baseIv start stop
      isOptimizedSource size target.object bindingId
  | _, _ =>
    newRangeDecryptReader source target.aead (some manifest) target.baseIv start stop
      isOptimizedSource size

def decryptRange (target : RangeTarget) (source : Script UInt8 CryptoError)
    (plaintextStart plaintextEnd : ℤ) (isOptimizedSource : Bool) :
    Except DecryptRangeError RangeDecryptReader := do
  let manifest ← liftRange target.metadata.loadManifest
  match validateChunkSize manifest.chunkSize with
  | .error _ => .error (.range .invalidManifest)
  | .ok () =>
    if target.marker = .bufferedV2 then .error .bufferedMarker
    else if target.chunked = false then .error .notChunked
    else if target.marker = .chunkedV2 ∧ manifest.version ≠ chunkedFormatV2 then
      .error .markerVersion
    else if target.marker = .chunkedV2 ∧ target.bindingId = none then .error .bindingId
    else
      let plaintextSize ← target.metadata.rangeSize isOptimizedSource
      if plaintextStart < 0 ∨ plaintextSize ≤ plaintextStart ∨ plaintextEnd < plaintextStart ∨
          plaintextSize ≤ plaintextEnd then
        .error (.range (.notSatisfiable plaintextStart plaintextEnd plaintextSize))
      else
        liftRange do
          let manifest ← manifest.fillChunkCount plaintextSize
          target.newReader source manifest plaintextStart plaintextEnd isOptimizedSource
            plaintextSize

/-! ## Targets that are stored objects -/

/-- The target is the stored object `o`. -/
structure RangeTarget.IsOf (target : RangeTarget) (o : ChunkedObject) : Prop where
  describes : ∃ written, target.metadata.Describes (o.manifest written) o.plaintext.length
  originalSize : target.metadata.originalSize? = none ∨
    target.metadata.originalSize? = some (o.plaintext.length : ℤ)
  chunked : target.chunked = true
  marker_eq : target.marker = if o.format.version = chunkedFormatV2 then .chunkedV2 else .other
  bindingId_eq : o.format.version = chunkedFormatV2 → target.bindingId = some o.format.bindingId
  aead_eq : target.aead = o.aead
  baseIv_eq : target.baseIv = o.format.baseIv
  object_eq : o.format.version = chunkedFormatV2 → target.object = o.format.object

namespace RangeTarget.IsOf

variable {target : RangeTarget} {o : ChunkedObject} {first last : ℕ}

theorem rangeSize_eq (htarget : target.IsOf o) (isOptimizedSource : Bool) :
    target.metadata.rangeSize isOptimizedSource = .ok (o.plaintext.length : ℤ) := by
  obtain ⟨written, hmeta⟩ := htarget.describes
  rw [RangeMetadata.rangeSize, hmeta.getPlaintextSize_eq]
  cases isOptimizedSource with
  | true => rfl
  | false =>
    rcases htarget.originalSize with hnone | hsome
    · rw [hnone]
      rfl
    · rw [hsome]
      rfl

theorem fillChunkCount_eq {written : ℕ}
    (hmeta : target.metadata.Describes (o.manifest written) o.plaintext.length)
    (hpos : 0 < o.plaintext.length) :
    (o.manifest written).fillChunkCount o.plaintext.length = .ok (o.manifest o.recordCount) := by
  rw [ChunkManifest.fillChunkCount]
  split_ifs with hfilled
  · have hcount : chunkedDataChunkCount o.plaintext.length (o.manifest written).chunkSize =
        .ok o.recordCount := chunkedDataChunkCount_natCast o.chunkSize_valid _
    rw [hcount]
    rfl
  · rcases hmeta.chunkCount with hzero | hcount
    · exact absurd ⟨hzero, o.chunkSize_valid.pos, by omega⟩ hfilled
    · have hsame : written = o.recordCount := hcount
      rw [hsame]
      rfl

section

variable (htarget : target.IsOf o) (source : Script UInt8 CryptoError)

include htarget source

theorem newReader_eq (start stop : ℤ) (isOptimizedSource : Bool) (size : ℤ) (count : ℕ) :
    target.newReader source (o.manifest count) start stop isOptimizedSource size =
      o.newRangeReader source start stop isOptimizedSource size count := by
  rw [RangeTarget.newReader, ChunkedObject.newRangeReader, htarget.marker_eq, htarget.aead_eq,
    htarget.baseIv_eq]
  by_cases hversion : o.format.version = chunkedFormatV2
  · rw [if_pos hversion, if_pos hversion, htarget.bindingId_eq hversion,
      htarget.object_eq hversion]
  · rw [if_neg hversion, if_neg hversion]

theorem decryptRange_eq (start stop : ℤ) (isOptimizedSource : Bool) :
    decryptRange target source start stop isOptimizedSource =
      if start < 0 ∨ (o.plaintext.length : ℤ) ≤ start ∨ stop < start ∨
          (o.plaintext.length : ℤ) ≤ stop then
        .error (.range (.notSatisfiable start stop o.plaintext.length))
      else liftRange
        (o.newRangeReader source start stop isOptimizedSource o.plaintext.length o.recordCount) := by
  obtain ⟨written, hmeta⟩ := htarget.describes
  have hsize : validateChunkSize (o.manifest written).chunkSize = .ok () :=
    validateChunkSize_of_valid o.chunkSize_valid
  have hbuffered : target.marker ≠ .bufferedV2 := by
    rw [htarget.marker_eq]
    split <;> decide
  have hversion : target.marker = .chunkedV2 → o.format.version = chunkedFormatV2 := by
    rw [htarget.marker_eq]
    split
    · exact fun _ => by assumption
    · exact nofun
  have hmarker : ¬(target.marker = .chunkedV2 ∧
      (o.manifest written).version ≠ chunkedFormatV2) := fun h => h.2 (hversion h.1)
  have hbinding : ¬(target.marker = .chunkedV2 ∧ target.bindingId = none) := fun h => by
    rw [htarget.bindingId_eq (hversion h.1)] at h
    cases h.2
  rw [decryptRange, hmeta.loadManifest_eq]
  show (match validateChunkSize (o.manifest written).chunkSize with | .error _ => _ | .ok () => _) = _
  simp only [hsize, if_neg hbuffered, htarget.chunked, if_neg hmarker, if_neg hbinding,
    htarget.rangeSize_eq]
  refine (if_neg (by decide)).trans ?_
  split
  · exact if_pos ‹_›
  rename_i hinside
  refine (if_neg hinside).trans (congrArg liftRange ?_)
  rw [fillChunkCount_eq hmeta (by omega)]
  exact htarget.newReader_eq source start stop isOptimizedSource _ _

end

/-- **Over the whole ciphertext** the reader has the range to give. -/
theorem exists_decryptRange (htarget : target.IsOf o) (hle : first ≤ last)
    (hlast : last < o.plaintext.length) {source : Script UInt8 CryptoError}
    (hclean : Script.Clean source) (hbytes : Script.bytes source = o.ciphertext) :
    ∃ r, decryptRange target source first last false = .ok r ∧ r.Running ∧
      r.rest o.hkdf = slice o.plaintext first (last + 1) ∧ r.ending o.hkdf = .eof := by
  obtain ⟨positioned, hpositioned, hslice, hposition⟩ :=
    ChunkedObject.exists_positioned_of_ciphertext (hle.trans_lt hlast) hclean hbytes
  obtain ⟨r, hnew, hgives⟩ := ChunkedObject.exists_running_of_positioned hle hlast
    ChunkedObject.recordEnd_le_ciphertext hpositioned hslice hposition
  refine ⟨r, ?_, hgives⟩
  rw [htarget.decryptRange_eq, if_neg (by omega), hnew]
  rfl

end RangeTarget.IsOf

/-- A reader keeps to the room of the buffer. -/
theorem RangeDecryptReader.inRoom_read (hkdf : Hkdf) :
    InRoom (RangeDecryptReader.read hkdf) RangeDecryptReader.Running := by
  intro room r hrunning
  cases hopen : r.closed with
  | true =>
    rw [read_of_closed hopen]
    exact Nat.zero_le _
  | false =>
    have hle := (RangeCursor.puller hkdf).loop_length_le (min room r.left) r.toRangeCursor
    rcases hloop : (RangeCursor.puller hkdf).loop (min room r.left) r.toRangeCursor with
      ⟨written, failed, cursor⟩
    rw [hloop] at hle
    replace hle : written.length ≤ room := hle.trans (min_le_left _ _)
    rw [read, if_neg (by simp [hopen]), hrunning.err_eq]
    simp only [hloop]
    cases failed with
    | some failed => exact hle
    | none =>
      dsimp only
      split_ifs
      · exact hle
      · exact Nat.zero_le _
      · exact hle

end S3EncryptionGateway.Crypto
