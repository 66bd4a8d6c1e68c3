import S3EncryptionGateway.Crypto.RangeHeader
import S3EncryptionGateway.Crypto.Chunked.DecryptRange
import S3EncryptionGateway.Api.CopyRange

/-!
# `UploadPartCopy` with a source range

A part can be copied from a range of another object.  The range header is parsed before the
size of the source is known; later each kind of encrypted source cuts the range out in its own
way, and so does each source once more when the destination is an encrypted multipart upload.

## Six ways to cut a range

All of them are supposed to do the same: give the bytes of the range that the source has, and
fail with "range not satisfiable" if the range begins behind its end.

* **Chunked sources** do, into either destination.  Only a copy of more than 5 GiB, which the
  check of the header lets through when the sum wraps around, is refused at the end.
* **Legacy sources** compute `Last + 1` without a check for overflow, and when they are
  re-encrypted the first byte of the range is never compared with the size.
* **Multipart sources** have the same omission; re-encrypted, the range is not clamped to the
  size, an empty source gives another error, and parts with a short last chunk inside the range
  cannot be decoded.

`copiesRange_iff` has the condition of each way; it is the definition of `Copyable`.
-/

namespace S3EncryptionGateway.Api.UploadPartCopy

open Crypto Encoding Streams Slices Text CopyRange

/-- The longest range of a copy, 5 GiB. -/
def maxCopyPartRangeBytes : ℤ := 5368709120

/-- The largest source that is copied without a range. -/
def maxCopySourceSizeBytes : ℤ := 5368709120

structure CopyPartRange where
  first : ℤ
  last : ℤ
  deriving DecidableEq

inductive CopyError where
  /-- "Invalid x-amz-copy-source-range header" -/
  | invalidRangeHeader
  /-- "The specified copy-source-range exceeds the maximum allowable size (5 GiB)" -/
  | rangeTooLong
  /-- "The specified copy source is larger than the maximum allowable size for a copy source" -/
  | sourceTooLarge
  /-- "legacy copy source exceeds gateway cap" -/
  | legacySourceTooLarge
  /-- "range not satisfiable" -/
  | rangeNotSatisfiable
  /-- "cannot determine plaintext size for chunked source" -/
  | sizeUnknown
  /-- "decrypted range exceeds maximum copy-part size (%d bytes)" -/
  | partTooLarge
  /-- The source could not be read. -/
  | readFailed
  /-- An error of `DecryptRange`, with a text in front. -/
  | decryptRange (err : DecryptRangeError)
  /-- An error of the range header that is formatted for a multipart source. -/
  | rangeHeader (err : RangeHeaderError)
  /-- An error of the manifest or of the reader of a multipart source. -/
  | mpu (err : MpuError)
  /-- An error of the decoder of a multipart range. -/
  | decode (err : DecodeError)
  /-- The panic of a slice out of range. -/
  | panic
  deriving DecidableEq

/-- The error itself, or one whose text has "range not satisfiable" in it.  The response is
`InvalidRange`. -/
def CopyError.isRangeNotSatisfiable : CopyError → Bool
  | .rangeNotSatisfiable => true
  | .decryptRange (.range (.notSatisfiable ..)) => true
  | .rangeHeader (.notSatisfiable ..) => true
  | _ => false

/-! ## The request -/

/-- The range header of the request, parsed without a size. -/
def copySourceRange (rangeHeader : Str) : Except CopyError (Option CopyPartRange) :=
  if rangeHeader = [] then .ok none
  else
    match parseHttpRangeHeader rangeHeader (-1) with
    | .error _ => .error .invalidRangeHeader
    | .ok (start, stop) =>
      if maxCopyPartRangeBytes < toInt64 (stop - start + 1) then .error .rangeTooLong
      else .ok (some ⟨start, stop⟩)

def defaultMaxLegacyCopySourceBytes : ℤ := 268435456

def effectiveMaxLegacyCopySourceBytes (configured : ℤ) : ℤ :=
  if 0 < configured then configured else defaultMaxLegacyCopySourceBytes

/-! ## Reading and cutting -/

/-- A Go slice expression. -/
def sliceOf (data : Bytes) (low high : ℤ) : Except CopyError Bytes :=
  if 0 ≤ low ∧ low ≤ high ∧ high ≤ data.length then .ok (slice data low.toNat high.toNat)
  else .error .panic

/-- Read at most `cap` bytes and `cut` the range out; one byte more tells that there are too
many. -/
def readPart {σ ε : Type} (read : ℕ → σ → ReadResult UInt8 ε × σ) (cap : ℤ)
    (tooLarge : CopyError) (cut : Bytes → Except CopyError Bytes) (s : σ) (sizes : ℕ → ℕ)
    (fuel : ℕ) : Option (Except CopyError Bytes) :=
  (readAll (limitRead read) sizes fuel ((toInt64 (cap + 1)).toNat, s)).map fun
    | .error _ => .error .readFailed
    | .ok data => if cap < data.length then .error tooLarge else cut data

def cutLegacy (srcRange : Option CopyPartRange) (data : Bytes) : Except CopyError Bytes :=
  match srcRange with
  | none => .ok data
  | some range =>
    if data.length ≤ range.first then .error .rangeNotSatisfiable
    else
      let stop := toInt64 (range.last + 1)
      sliceOf data range.first (if data.length < stop then data.length else stop)

/-- The range of a source in memory where only the end is compared with the size. -/
def cutClamped (srcRange : Option CopyPartRange) (data : Bytes) : Except CopyError Bytes :=
  match srcRange with
  | none => .ok data
  | some range =>
    let last : ℤ := if data.length ≤ range.last then (data.length : ℤ) - 1 else range.last
    sliceOf data range.first (last + 1)

/-! ## Sources -/

/-- What the check of a chunked source's terminal record found out. -/
structure ChunkedObjectInfo where
  authenticated : Bool
  plaintextSize : ℕ

/-- What the metadata say about the size. -/
structure ResolvedSize where
  size : ℤ
  isExact : Bool

structure ChunkedSource where
  hkdf : Hkdf
  target : RangeTarget
  body : Script UInt8 CryptoError
  info : ChunkedObjectInfo
  resolved : ResolvedSize

def ChunkedSource.plaintextSize (source : ChunkedSource) : Option ℤ :=
  if source.info.authenticated ∧ source.info.plaintextSize ≤ maxInt64 then
    some source.info.plaintextSize
  else if source.resolved.isExact then some source.resolved.size
  else none

/-- A multipart source: its manifest and keys, the stored bytes, and the body of a request for
all of them. -/
structure MpuSource where
  hkdf : SaltedHkdf
  createMpuAeadCipher : Bytes → Except MpuError Aead
  format : MpuFormat
  manifest : MultipartManifest
  stored : Bytes
  body : Script UInt8 ℕ

variable (source : MpuSource)

def MpuSource.decryptMpuObject : Except MpuError MpuPlaintext :=
  if source.format.bound then
    newMpuDecryptReaderFor source.createMpuAeadCipher source.format source.body source.manifest
  else newMpuDecryptReader source.createMpuAeadCipher source.format source.body source.manifest

/-- An encrypted source.  A legacy source is given by what the engine decrypts it to. -/
inductive CopySource where
  | chunked (source : ChunkedSource)
  | legacy (plaintext : Bytes)
  | mpu (source : MpuSource)

inductive Destination where
  | plain
  | encryptedMpu

/-! ## The ways to copy -/

/-- The range of a chunked source that is uploaded as it is. -/
def planChunked (size : ℤ) (srcRange : Option CopyPartRange) : Except CopyError (ℤ × ℤ) :=
  match srcRange with
  | some range =>
    if 0 < size ∧ size ≤ range.first then .error .rangeNotSatisfiable
    else .ok (range.first, if 0 < size ∧ size ≤ range.last then size - 1 else range.last)
  | none => if size ≤ 0 then .error .sizeUnknown else .ok (0, size - 1)

/-- The range of a chunked source that is encrypted again. -/
def planReencrypt (size : ℤ) (srcRange : Option CopyPartRange) : Except CopyError (ℤ × ℤ) :=
  match srcRange with
  | some range =>
    .ok (range.first, if 0 < size ∧ size ≤ range.last then size - 1 else range.last)
  | none => if size ≤ 0 then .error .sizeUnknown else .ok (0, size - 1)

/-- Decrypt the planned range of a chunked source. -/
def copyChunked (plan : ℤ → Option CopyPartRange → Except CopyError (ℤ × ℤ))
    (source : ChunkedSource) (srcRange : Option CopyPartRange) (maxChunkedCap : ℤ)
    (sizes : ℕ → ℕ) (fuel : ℕ) : Option (Except CopyError Bytes) :=
  match source.plaintextSize with
  | none => some (.error .sizeUnknown)
  | some size =>
    match plan size srcRange with
    | .error err => some (.error err)
    | .ok (start, stop) =>
      match Crypto.decryptRange source.target source.body start stop false with
      | .error err => some (.error (.decryptRange err))
      | .ok r =>
        readPart (RangeDecryptReader.read source.hkdf) maxChunkedCap .partTooLarge .ok r sizes
          fuel

def uploadPartCopyChunked := copyChunked planChunked

def uploadPartCopyLegacy (plaintext : Bytes) (srcRange : Option CopyPartRange)
    (srcSizeHint maxLegacyCap : ℤ) (sizes : ℕ → ℕ) (fuel : ℕ) :
    Option (Except CopyError Bytes) :=
  if 0 < srcSizeHint ∧ maxLegacyCap < srcSizeHint then some (.error .legacySourceTooLarge)
  else
    readPart (listRead (ε := CryptoError)) maxLegacyCap .legacySourceTooLarge
      (cutLegacy srcRange) plaintext sizes fuel

def uploadPartCopyFromMpuSource (srcRange : Option CopyPartRange) (maxCap : ℤ) (sizes : ℕ → ℕ)
    (fuel : ℕ) : Option (Except CopyError Bytes) :=
  match source.decryptMpuObject with
  | .error err => some (.error (.mpu err))
  | .ok r =>
    readPart (MpuPlaintext.read source.hkdf) maxCap .legacySourceTooLarge (cutClamped srcRange) r
      sizes fuel

/-- Fetch the planned ciphertext of a range and decode it. -/
def MpuSource.decodePlanned (pStart pEnd : ℤ) : Except CopyError Bytes :=
  match source.manifest.encRangeForPlaintextRange pStart pEnd with
  | .error err => .error (.mpu err)
  | .ok encRange =>
    (decodeFor source.hkdf source.createMpuAeadCipher source.format
      (slice source.stored encRange.encStart.toNat (encRange.encEnd + 1).toNat) source.manifest
      encRange pStart pEnd).mapError .decode

def readMpuPlaintextRange (srcRange : Option CopyPartRange) : Except CopyError Bytes :=
  let total := source.manifest.totalPlainSize
  let range := srcRange.getD ⟨0, total - 1⟩
  match parseHttpRangeHeader (formatRange range.first range.last) total with
  | .error err => .error (.rangeHeader err)
  | .ok (pStart, pEnd) => source.decodePlanned pStart pEnd

/-- The plaintext of a part that is encrypted again. -/
def uploadPartCopyReencryptMpu (source : CopySource) (srcRange : Option CopyPartRange)
    (maxLegacyCap maxChunkedCap : ℤ) (sizes : ℕ → ℕ) (fuel : ℕ) :
    Option (Except CopyError Bytes) :=
  match source with
  | .chunked source => copyChunked planReencrypt source srcRange maxChunkedCap sizes fuel
  | .mpu source => some (readMpuPlaintextRange source srcRange)
  | .legacy plaintext =>
    readPart (listRead (ε := CryptoError)) maxLegacyCap .legacySourceTooLarge
      (cutClamped srcRange) plaintext sizes fuel

/-- The way to copy that goes with destination and source. -/
def copyPart (maxLegacyCap : ℤ) (source : CopySource) (size : ℤ) (destination : Destination)
    (srcRange : Option CopyPartRange) (sizes : ℕ → ℕ) (fuel : ℕ) :
    Option (Except CopyError Bytes) :=
  match destination with
  | .encryptedMpu =>
    uploadPartCopyReencryptMpu source srcRange maxLegacyCap maxCopyPartRangeBytes sizes fuel
  | .plain =>
    match source with
    | .chunked source => uploadPartCopyChunked source srcRange maxCopyPartRangeBytes sizes fuel
    | .legacy plaintext => uploadPartCopyLegacy plaintext srcRange size maxLegacyCap sizes fuel
    | .mpu source => uploadPartCopyFromMpuSource source srcRange maxLegacyCap sizes fuel

/-- The bytes that are uploaded, or encrypted and uploaded, as the part.  `size` is the size
that was found when the source was classified, 0 if none was; the buffers that sources are read
with have the given sizes, and `none` stands for a source that is still being read. -/
def handleUploadPartCopy (configured : ℤ) (source : CopySource) (size : ℤ)
    (destination : Destination) (rangeHeader : Str) (sizes : ℕ → ℕ) (fuel : ℕ) :
    Option (Except CopyError Bytes) :=
  match copySourceRange rangeHeader with
  | .error err => some (.error err)
  | .ok srcRange =>
    if srcRange = none ∧ 0 < size ∧ maxCopySourceSizeBytes < size then
      some (.error .sourceTooLarge)
    else
      copyPart (effectiveMaxLegacyCopySourceBytes configured) source size destination srcRange
        sizes fuel

/-! ## What is stored -/

/-- The object behind an encrypted source. -/
inductive StoredCopy where
  | chunked (o : ChunkedObject)
  | legacy (plaintext : Bytes)
  | mpu (o : StoredObject)

def StoredCopy.plaintext : StoredCopy → Bytes
  | .chunked o => o.plaintext
  | .legacy plaintext => plaintext
  | .mpu o => o.plaintext

/-- Nothing opens but the chunks of the object. -/
def StoredCopy.Ideal : StoredCopy → Prop
  | .mpu o => o.Ideal
  | _ => True

/-- A chunked source, of which the size was found out. -/
structure ChunkedSource.IsOf (source : ChunkedSource) (o : ChunkedObject) : Prop where
  hkdf_eq : source.hkdf = o.hkdf
  target : source.target.IsOf o
  clean : Script.Clean source.body
  bytes_eq : Script.bytes source.body = o.ciphertext
  plaintextSize_eq : source.plaintextSize = some (o.plaintext.length : ℤ)

structure MpuSource.IsOf (source : MpuSource) (o : StoredObject) : Prop where
  hkdf_eq : source.hkdf = o.hkdf
  cipher_eq : source.createMpuAeadCipher = o.createMpuAeadCipher
  format_eq : source.format = o.format
  manifest_eq : source.manifest = o.manifest
  version_eq : o.format.bound = true → o.manifest.version = 2
  stored_eq : source.stored = o.ciphertext
  clean : Script.Clean source.body
  bytes_eq : Script.bytes source.body = o.ciphertext

def CopySource.IsOf : CopySource → StoredCopy → Prop
  | .chunked source, .chunked o => source.IsOf o
  | .legacy plaintext, .legacy plaintext' => plaintext = plaintext'
  | .mpu source, .mpu o => source.IsOf o
  | _, _ => False

/-! ## Copying a range -/

/-- The bytes of the range that the plaintext has, and an error if it has none. -/
def ExactRange (plaintext : Bytes) (range : CopyPartRange) (result : Except CopyError Bytes) :
    Prop :=
  if range.first < plaintext.length then
    result = .ok (slice plaintext range.first.toNat
      (min range.last (plaintext.length - 1) + 1).toNat)
  else ∃ err, result = .error err ∧ err.isRangeNotSatisfiable = true

/-- However the source is read, the copy ends, and with the bytes of the range. -/
def CopiesRange (configured : ℤ) (source : CopySource) (size : ℤ) (destination : Destination)
    (rangeHeader : Str) (range : CopyPartRange) (plaintext : Bytes) : Prop :=
  ∀ sizes, KeepsReading sizes → ∃ fuel result,
    handleUploadPartCopy configured source size destination rangeHeader sizes fuel = some result ∧
      ExactRange plaintext range result

/-- The condition under which a way to copy does that. -/
def Copyable (cap size : ℤ) (stored : StoredCopy) (destination : Destination)
    (range : CopyPartRange) : Prop :=
  match stored, destination with
  | .chunked o, _ =>
    range.first < o.plaintext.length →
      min range.last (o.plaintext.length - 1) - range.first + 1 ≤ maxCopyPartRangeBytes
  | .legacy plaintext, .plain =>
    (0 < size → size ≤ cap) ∧ plaintext.length ≤ cap ∧
      (range.first < plaintext.length → cap < maxInt64 ∧ range.last < maxInt64)
  | .legacy plaintext, .encryptedMpu =>
    plaintext.length ≤ cap ∧ cap < maxInt64 ∧ range.first < plaintext.length
  | .mpu o, .plain =>
    o.plaintext.length ≤ cap ∧ cap < maxInt64 ∧ range.first < o.plaintext.length
  | .mpu o, .encryptedMpu =>
    0 < o.plaintext.length ∧ (range.first < o.plaintext.length →
      range.last < o.plaintext.length ∧ ¬ShortEndInside o.manifest range.first range.last)

/-- All runs that end, end with `result`, and every way of reading gets there. -/
structure Gives (run : (ℕ → ℕ) → ℕ → Option (Except CopyError Bytes))
    (result : Except CopyError Bytes) : Prop where
  unique : ∀ {sizes fuel result'}, run sizes fuel = some result' → result' = result
  ends : ∀ {sizes}, KeepsReading sizes → ∃ fuel, run sizes fuel = some result

theorem gives_some (result : Except CopyError Bytes) : Gives (fun _ _ => some result) result :=
  ⟨fun h => (Option.some.inj h).symm, fun _ => ⟨0, rfl⟩⟩

theorem Gives.forall_iff {run : (ℕ → ℕ) → ℕ → Option (Except CopyError Bytes)}
    {result : Except CopyError Bytes} (hgives : Gives run result)
    (post : Except CopyError Bytes → Prop) :
    (∀ sizes, KeepsReading sizes → ∃ fuel result', run sizes fuel = some result' ∧ post result') ↔
      post result := by
  constructor
  · intro hall
    obtain ⟨fuel, result', hrun, hpost⟩ := hall _ keepsReading_one
    rwa [← hgives.unique hrun]
  · intro hpost sizes hkeeps
    obtain ⟨fuel, hrun⟩ := hgives.ends hkeeps
    exact ⟨fuel, result, hrun, hpost⟩

section ReadPart

variable {σ ε : Type} {read : ℕ → σ → ReadResult UInt8 ε × σ} {inv : σ → Prop} {out : σ → Bytes}
  {ending : σ → ReadError ε} {s : σ}

/-- What a source of `data` comes to. -/
def capped (cap : ℤ) (tooLarge : CopyError) (cut : Bytes → Except CopyError Bytes)
    (data : Bytes) : Except CopyError Bytes :=
  if cap < data.length then .error tooLarge else cut data

theorem gives_readPart (hdelivers : Delivers read inv out ending) (hroom : InRoom read inv)
    (hinv : inv s) (hend : ending s = .eof) (cap : ℤ) (tooLarge : CopyError)
    (cut : Bytes → Except CopyError Bytes) :
    Gives (readPart read cap tooLarge cut s)
      (capped cap tooLarge cut ((out s).take (toInt64 (cap + 1)).toNat)) := by
  have hlimited := hdelivers.limit hroom
  constructor
  · intro sizes fuel result hread
    obtain ⟨data, hdata, rfl⟩ := Option.map_eq_some_iff.mp hread
    rw [hlimited.readAll_eq ⟨hinv, hend⟩ rfl hdata]
    rfl
  · intro sizes hkeeps
    obtain ⟨fuel, hdata⟩ := hlimited.exists_readAll (s := ((toInt64 (cap + 1)).toNat, s))
      ⟨hinv, hend⟩ rfl hkeeps
    exact ⟨fuel, Option.map_eq_some_iff.mpr ⟨_, hdata, rfl⟩⟩

/-- Below the largest cap the limit does not matter. -/
theorem capped_take {cap : ℤ} (hpos : 0 < cap) (hmax : cap < maxInt64) (tooLarge : CopyError)
    (cut : Bytes → Except CopyError Bytes) (data : Bytes) :
    capped cap tooLarge cut (data.take (toInt64 (cap + 1)).toNat) =
      capped cap tooLarge cut data := by
  rw [toInt64_of_fits (by omega) (by omega), capped, capped, List.length_take]
  by_cases hlarge : cap < data.length
  · rw [if_pos (by omega), if_pos hlarge]
  · rw [if_neg (by omega), if_neg hlarge, List.take_of_length_le (by omega)]

/-- One more than the largest cap is negative: nothing is read. -/
theorem capped_take_of_maxInt64 (tooLarge : CopyError) (cut : Bytes → Except CopyError Bytes)
    (data : Bytes) :
    capped maxInt64 tooLarge cut (data.take (toInt64 (maxInt64 + 1)).toNat) = cut [] := by
  rw [show (toInt64 (maxInt64 + 1)).toNat = 0 by decide, List.take_zero]
  exact if_neg (by decide)

end ReadPart

/-! ## The cuts -/

/-- What the handler knows of an accepted range. -/
structure CopyPartRange.InOrder (range : CopyPartRange) : Prop where
  nonneg : 0 ≤ range.first
  le : range.first ≤ range.last
  max : range.last ≤ maxInt64

theorem inOrder_of_copySourceRange {rangeHeader : Str} {range : CopyPartRange}
    (hrange : copySourceRange rangeHeader = .ok (some range)) : range.InOrder := by
  rw [copySourceRange] at hrange
  split at hrange
  · cases hrange
  split at hrange
  · cases hrange
  rename_i hparse
  split at hrange <;> cases hrange
  obtain ⟨hnonneg, hle, hmax⟩ := bounds_of_parse hparse
  exact ⟨hnonneg, hle, hmax⟩

section Cuts

variable {plaintext : Bytes} {range : CopyPartRange}

theorem exactRange_of_lt (hlt : range.first < plaintext.length)
    (result : Except CopyError Bytes) :
    ExactRange plaintext range result ↔ result = .ok (slice plaintext range.first.toNat
      (min range.last (plaintext.length - 1) + 1).toNat) := by
  rw [ExactRange, if_pos hlt]

theorem exactRange_of_le (hle : plaintext.length ≤ range.first)
    (result : Except CopyError Bytes) :
    ExactRange plaintext range result ↔
      ∃ err, result = .error err ∧ err.isRangeNotSatisfiable = true := by
  rw [ExactRange, if_neg (not_lt.mpr hle)]

/-- Any other error is wrong for every range. -/
theorem not_exactRange_error {err : CopyError} (hother : err.isRangeNotSatisfiable = false) :
    ¬ExactRange plaintext range (.error err) := by
  rw [ExactRange]
  split
  · exact nofun
  rintro ⟨err', herr, htrue⟩
  cases herr
  rw [hother] at htrue
  cases htrue

theorem eq_panic_of_sliceOf {data : Bytes} {low high : ℤ} {err : CopyError}
    (hslice : sliceOf data low high = .error err) : err = .panic := by
  rw [sliceOf] at hslice
  split at hslice <;> cases hslice
  rfl

theorem eq_slice_of_sliceOf {data part : Bytes} {low high : ℤ}
    (hslice : sliceOf data low high = .ok part) : part = slice data low.toNat high.toNat := by
  rw [sliceOf] at hslice
  split at hslice <;> cases hslice
  rfl

theorem exactRange_cutClamped (horder : range.InOrder) :
    ExactRange plaintext range (cutClamped (some range) plaintext) ↔
      range.first < plaintext.length := by
  have hnonneg := horder.nonneg
  have hle := horder.le
  constructor
  · intro hexact
    by_contra hbehind
    obtain ⟨err, herr, htrue⟩ := (exactRange_of_le (not_lt.mp hbehind) _).mp hexact
    rw [eq_panic_of_sliceOf herr] at htrue
    cases htrue
  · intro hlt
    have hlast : (if (plaintext.length : ℤ) ≤ range.last then (plaintext.length : ℤ) - 1
        else range.last) = min range.last (plaintext.length - 1) := by
      split <;> omega
    rw [exactRange_of_lt hlt, cutClamped, hlast]
    exact if_pos ⟨hnonneg, by omega, by omega⟩

theorem exactRange_cutLegacy (horder : range.InOrder) :
    ExactRange plaintext range (cutLegacy (some range) plaintext) ↔
      (range.first < plaintext.length → range.last < maxInt64) := by
  have hnonneg := horder.nonneg
  have hle := horder.le
  have hmax := horder.max
  by_cases hlt : range.first < plaintext.length
  · rw [exactRange_of_lt hlt, cutLegacy]
    simp only [if_neg (not_le.mpr hlt), hlt, forall_const]
    constructor
    · intro hexact
      by_contra hlarge
      have hlast : range.last = maxInt64 := by omega
      -- `Last + 1` is the least `int64`
      rw [hlast, show toInt64 (maxInt64 + 1) = -9223372036854775808 by decide, sliceOf,
        if_neg (by omega)] at hexact
      cases hexact
    · intro hsmall
      have hstop : (if (plaintext.length : ℤ) < range.last + 1 then (plaintext.length : ℤ)
          else range.last + 1) = min range.last (plaintext.length - 1) + 1 := by
        split <;> omega
      rw [toInt64_of_fits (by omega) (by omega), hstop]
      exact if_pos ⟨hnonneg, by omega, by omega⟩
  · rw [exactRange_of_le (not_lt.mp hlt), cutLegacy]
    simp only [if_pos (not_lt.mp hlt), hlt, false_implies, iff_true]
    exact ⟨_, rfl, rfl⟩

/-- A cap below the largest one only excludes larger sources. -/
theorem exactRange_capped {cap : ℤ} {tooLarge : CopyError}
    (hother : tooLarge.isRangeNotSatisfiable = false) (cut : Bytes → Except CopyError Bytes) :
    ExactRange plaintext range (capped cap tooLarge cut plaintext) ↔
      plaintext.length ≤ cap ∧ ExactRange plaintext range (cut plaintext) := by
  rw [capped]
  split
  · rename_i hlarge
    simp only [not_exactRange_error hother, not_le.mpr hlarge, false_and]
  · rename_i hsmall
    simp only [not_lt.mp hsmall, true_and]

/-- With the largest cap nothing is read. -/
theorem not_exactRange_cutClamped_nil (horder : range.InOrder) :
    ¬ExactRange plaintext range (cutClamped (some range) []) := by
  have hnonneg := horder.nonneg
  have hle := horder.le
  intro hexact
  rcases lt_or_ge range.first plaintext.length with hlt | hbehind
  · rw [exactRange_of_lt hlt] at hexact
    have hlen := congrArg List.length (eq_slice_of_sliceOf hexact)
    rw [length_slice, length_slice, List.length_nil] at hlen
    omega
  · obtain ⟨err, herr, htrue⟩ := (exactRange_of_le hbehind _).mp hexact
    rw [eq_panic_of_sliceOf herr] at htrue
    cases htrue

variable {cap : ℤ} {tooLarge : CopyError} (hother : tooLarge.isRangeNotSatisfiable = false)
  (hpos : 0 < cap) (hcap : cap ≤ maxInt64) (horder : range.InOrder)

include hother hpos hcap horder

/-- What a source in memory comes to where only the end of the range is compared. -/
theorem exactRange_readClamped :
    ExactRange plaintext range
        (capped cap tooLarge (cutClamped (some range)) (plaintext.take (toInt64 (cap + 1)).toNat)) ↔
      plaintext.length ≤ cap ∧ cap < maxInt64 ∧ range.first < plaintext.length := by
  rcases hcap.lt_or_eq with hlt | rfl
  · rw [capped_take hpos hlt, exactRange_capped hother, exactRange_cutClamped horder]
    simp only [hlt, true_and]
  · rw [capped_take_of_maxInt64]
    simp only [not_exactRange_cutClamped_nil horder, lt_irrefl, false_and, and_false]

theorem exactRange_readLegacy :
    ExactRange plaintext range
        (capped cap tooLarge (cutLegacy (some range)) (plaintext.take (toInt64 (cap + 1)).toNat)) ↔
      plaintext.length ≤ cap ∧
        (range.first < plaintext.length → cap < maxInt64 ∧ range.last < maxInt64) := by
  have hnonneg := horder.nonneg
  have hle := horder.le
  have hmax := horder.max
  rcases hcap.lt_or_eq with hlt | rfl
  · rw [capped_take hpos hlt, exactRange_capped hother, exactRange_cutLegacy horder]
    simp only [hlt, true_and]
  · have hempty : cutLegacy (some range) [] = .error .rangeNotSatisfiable := if_pos hnonneg
    rw [capped_take_of_maxInt64, hempty]
    simp only [lt_irrefl, false_and, imp_false, not_lt]
    constructor
    · intro hexact
      by_contra hbehind
      by_cases hlt : range.first < plaintext.length
      · rw [exactRange_of_lt hlt] at hexact
        cases hexact
      · exact hbehind ⟨by omega, by omega⟩
    · rintro ⟨-, hbehind⟩
      exact (exactRange_of_le hbehind _).mpr ⟨_, rfl, rfl⟩

end Cuts

/-! ## The six ways -/

section Ways

variable {cap size : ℤ} {range : CopyPartRange}

theorem planChunked_of_lt (hpos : 0 < size) (hlt : range.first < size) :
    planChunked size (some range) = .ok (range.first, min range.last (size - 1)) := by
  have hlast : (if 0 < size ∧ size ≤ range.last then size - 1 else range.last) =
      min range.last (size - 1) := by
    split <;> omega
  rw [planChunked, hlast]
  exact if_neg fun hbehind => absurd hbehind.2 (not_le.mpr hlt)

theorem planReencrypt_of_pos (hpos : 0 < size) :
    planReencrypt size (some range) = .ok (range.first, min range.last (size - 1)) := by
  have hlast : (if 0 < size ∧ size ≤ range.last then size - 1 else range.last) =
      min range.last (size - 1) := by
    split <;> omega
  rw [planReencrypt, hlast]

variable (horder : range.InOrder)

include horder

/-- A chunked source is cut to the range by `DecryptRange`. -/
theorem exists_gives_copyChunked {source : ChunkedSource} {o : ChunkedObject}
    (plan : ℤ → Option CopyPartRange → Except CopyError (ℤ × ℤ)) (hsource : source.IsOf o)
    (hinside : range.first < o.plaintext.length → plan o.plaintext.length (some range) =
      .ok (range.first, min range.last (o.plaintext.length - 1)))
    (hbehind : o.plaintext.length ≤ range.first →
      (∃ err, plan o.plaintext.length (some range) = .error err ∧
        err.isRangeNotSatisfiable = true) ∨
      ∃ stop, plan o.plaintext.length (some range) = .ok (range.first, stop)) :
    ∃ result, Gives (copyChunked plan source (some range) maxCopyPartRangeBytes) result ∧
      (ExactRange o.plaintext range result ↔ (range.first < o.plaintext.length →
        min range.last (o.plaintext.length - 1) - range.first + 1 ≤ maxCopyPartRangeBytes)) := by
  have hnonneg := horder.nonneg
  have hle := horder.le
  rcases lt_or_ge range.first o.plaintext.length with hlt | hge
  · obtain ⟨first, hfirst⟩ := Int.eq_ofNat_of_zero_le hnonneg
    obtain ⟨last, hlast⟩ := Int.eq_ofNat_of_zero_le
      (show 0 ≤ min range.last (o.plaintext.length - 1) by omega)
    obtain ⟨r, hdecrypt, hrunning, hrest, hending⟩ := hsource.target.exists_decryptRange
      (show first ≤ last by omega) (show last < o.plaintext.length by omega) hsource.clean
      hsource.bytes_eq
    have hrun : copyChunked plan source (some range) maxCopyPartRangeBytes =
        readPart (RangeDecryptReader.read o.hkdf) maxCopyPartRangeBytes .partTooLarge .ok r := by
      funext sizes fuel
      simp only [copyChunked, hsource.plaintextSize_eq, hinside hlt, hlast, hfirst, hdecrypt,
        hsource.hkdf_eq]
    have hgives := gives_readPart (RangeDecryptReader.delivers_read o.hkdf)
      (RangeDecryptReader.inRoom_read o.hkdf) hrunning hending maxCopyPartRangeBytes .partTooLarge
      .ok
    rw [← hrun, capped_take (by decide) (by decide), hrest, capped, length_slice] at hgives
    refine ⟨_, hgives, ?_⟩
    simp only [exactRange_of_lt hlt, hlast, hfirst, Int.toNat_natCast]
    rw [show ((last : ℤ) + 1).toNat = last + 1 by omega]
    split
    · rename_i hlarge
      exact ⟨fun h => (by cases h), fun h => by omega⟩
    · rename_i hsmall
      exact ⟨fun _ => by omega, fun _ => rfl⟩
  · have hvacuous : ¬range.first < o.plaintext.length := not_lt.mpr hge
    simp only [exactRange_of_le hge, hvacuous, false_implies, iff_true]
    rcases hbehind hge with ⟨err, hplan, herr⟩ | ⟨stop, hplan⟩
    · refine ⟨.error err, ?_, err, rfl, herr⟩
      have hrun : copyChunked plan source (some range) maxCopyPartRangeBytes =
          fun _ _ => some (.error err) := by
        funext sizes fuel
        simp only [copyChunked, hsource.plaintextSize_eq, hplan]
      rw [hrun]
      exact gives_some _
    · have hrun : copyChunked plan source (some range) maxCopyPartRangeBytes =
          fun _ _ => some (.error (.decryptRange
            (.range (.notSatisfiable range.first stop o.plaintext.length)))) := by
        funext sizes fuel
        simp only [copyChunked, hsource.plaintextSize_eq, hplan,
          hsource.target.decryptRange_eq, if_pos (show range.first < 0 ∨
            (o.plaintext.length : ℤ) ≤ range.first ∨ _ from .inr (.inl hge))]
      rw [hrun]
      exact ⟨_, gives_some _, _, rfl, rfl⟩

omit horder in
theorem decodePlanned_eq_ok_iff (start stop : ℤ) (expected : Bytes) :
    source.decodePlanned start stop = .ok expected ↔
      DecodesRange source.hkdf source.createMpuAeadCipher source.format source.manifest
        source.stored start stop expected := by
  rw [MpuSource.decodePlanned, DecodesRange]
  cases source.manifest.encRangeForPlaintextRange start stop with
  | error err => exact ⟨fun h => (by cases h), fun ⟨_, h, _⟩ => by cases h⟩
  | ok encRange =>
    simp only [Except.ok.injEq, exists_eq_left']
    cases decodeFor source.hkdf source.createMpuAeadCipher source.format _ source.manifest encRange
      start stop with
    | error err => exact ⟨fun h => (by cases h), nofun⟩
    | ok data => exact ⟨fun h => (by cases h; rfl), fun h => by cases h; rfl⟩

omit horder in
theorem not_isRangeNotSatisfiable_of_decodePlanned {source : MpuSource} {start stop : ℤ}
    {err : CopyError} (herr : source.decodePlanned start stop = .error err) :
    err.isRangeNotSatisfiable = false := by
  rw [MpuSource.decodePlanned] at herr
  split at herr
  · cases herr
    rfl
  · rename_i encRange hplan
    cases hdecode : decodeFor source.hkdf source.createMpuAeadCipher source.format
        (slice source.stored encRange.encStart.toNat (encRange.encEnd + 1).toNat) source.manifest
        encRange start stop with
    | error err' =>
      rw [hdecode] at herr
      cases herr
      rfl
    | ok data =>
      rw [hdecode] at herr
      cases herr

section

variable {source : MpuSource} {o : StoredObject} (hsource : source.IsOf o)

include hsource

theorem readMpuPlaintextRange_eq :
    readMpuPlaintextRange source (some range) =
      if 0 < o.plaintext.length ∧ (o.plaintext.length : ℤ) ≤ range.last then
        .error (.rangeHeader (.notSatisfiable range.first range.last o.plaintext.length))
      else source.decodePlanned range.first range.last := by
  have hnonneg := horder.nonneg
  have hle := horder.le
  have hmax := horder.max
  have htotal : source.manifest.totalPlainSize = (o.plaintext.length : ℕ) := by
    rw [hsource.manifest_eq, o.laidOut.total_eq, StoredObject.plaintext, length_partsPlaintext]
  obtain ⟨first, hfirst⟩ := Int.eq_ofNat_of_zero_le hnonneg
  obtain ⟨last, hlast⟩ := Int.eq_ofNat_of_zero_le (hnonneg.trans hle)
  have hparse := parse_formatRange (show first ≤ maxInt64 by omega) (show last ≤ maxInt64 by omega)
    (o.plaintext.length : ℤ)
  rw [checkRange, if_neg (by omega), if_neg (by omega), ← hfirst, ← hlast] at hparse
  simp only [readMpuPlaintextRange, Option.getD_some, htotal, hparse]
  by_cases hbehind : 0 < o.plaintext.length ∧ (o.plaintext.length : ℤ) ≤ range.last
  · rw [if_pos hbehind, if_pos (by omega)]
  · rw [if_neg hbehind, if_neg (by omega)]

/-- A multipart source that is encrypted again goes through the decoder of ranges. -/
theorem exactRange_readMpuPlaintextRange :
    (Copyable cap size (.mpu o) .encryptedMpu range →
      ExactRange o.plaintext range (readMpuPlaintextRange source (some range))) ∧
    (o.Ideal → ExactRange o.plaintext range (readMpuPlaintextRange source (some range)) →
      Copyable cap size (.mpu o) .encryptedMpu range) := by
  have hnonneg := horder.nonneg
  have hle := horder.le
  rw [readMpuPlaintextRange_eq horder hsource, Copyable]
  by_cases hempty : o.plaintext.length = 0
  · -- the error for an empty source is the manifest's
    refine ⟨fun hcopyable => absurd hcopyable.1 (by omega), fun _ hexact => ?_⟩
    obtain ⟨err, herr, htrue⟩ := (exactRange_of_le (by omega) _).mp hexact
    rw [if_neg (by omega)] at herr
    rw [not_isRangeNotSatisfiable_of_decodePlanned herr] at htrue
    cases htrue
  · by_cases hinside : range.last < o.plaintext.length
    · obtain ⟨first, hfirst⟩ := Int.eq_ofNat_of_zero_le hnonneg
      obtain ⟨last, hlast⟩ := Int.eq_ofNat_of_zero_le (hnonneg.trans hle)
      have hlt : range.first < o.plaintext.length := by omega
      have hsize : o.plaintext.length = plainSize o.parts := length_partsPlaintext o.parts
      obtain ⟨start⟩ := StoredObject.exists_byteAt (o := o) (show first < _ by omega)
      obtain ⟨stop⟩ := StoredObject.exists_byteAt (o := o) (show last < _ by omega)
      have horder' : first ≤ last := by omega
      rw [if_neg (by omega), exactRange_of_lt hlt, min_eq_left (by omega),
        decodePlanned_eq_ok_iff, hsource.hkdf_eq, hsource.cipher_eq, hsource.format_eq,
        hsource.manifest_eq, hsource.stored_eq, hfirst, hlast, Int.toNat_natCast,
        show ((last : ℤ) + 1).toNat = last + 1 by omega]
      refine ⟨fun hcopyable => ?_, fun hideal hdecodes => ⟨by omega, fun _ => ⟨by omega, ?_⟩⟩⟩
      · exact decodesRange_of_not_shortEndInside horder' start stop (hcopyable.2 (by omega)).2
      · exact not_shortEndInside_of_decodesRange horder' start stop hideal hdecodes
    · rw [if_pos (by omega)]
      rcases lt_or_ge range.first o.plaintext.length with hlt | hge
      · refine ⟨fun hcopyable => absurd (hcopyable.2 hlt).1 hinside, fun _ hexact => ?_⟩
        rw [exactRange_of_lt hlt] at hexact
        cases hexact
      · refine ⟨fun _ => (exactRange_of_le hge _).mpr ⟨_, rfl, rfl⟩, fun _ _ => ⟨by omega, ?_⟩⟩
        exact fun hlt => absurd hlt (not_lt.mpr hge)

/-- A multipart source that is copied as it is, is read as a whole. -/
theorem exists_gives_fromMpuSource (hpos : 0 < cap) (hcap : cap ≤ maxInt64) :
    ∃ result, Gives (uploadPartCopyFromMpuSource source (some range) cap) result ∧
      (ExactRange o.plaintext range result ↔ Copyable cap size (.mpu o) .plain range) := by
  obtain ⟨r, hnew, hreading, hrest, hend⟩ := exists_newMpuDecryptReader o.hkdf o.format_valid
    o.cipher_eq o.laidOut o.seals hsource.clean hsource.bytes_eq
  have hdecrypt : source.decryptMpuObject = .ok r := by
    rw [MpuSource.decryptMpuObject, hsource.cipher_eq, hsource.format_eq, hsource.manifest_eq]
    split_ifs with hbound
    · rw [newMpuDecryptReaderFor_eq o.format_valid hbound (hsource.version_eq hbound), hnew]
    · exact hnew
  have hrun : uploadPartCopyFromMpuSource source (some range) cap =
      readPart (MpuPlaintext.read o.hkdf) cap .legacySourceTooLarge (cutClamped (some range)) r := by
    funext sizes fuel
    simp only [uploadPartCopyFromMpuSource, hdecrypt, hsource.hkdf_eq]
  have hgives := gives_readPart (MpuPlaintext.delivers_read o.hkdf) (MpuPlaintext.inRoom_read o.hkdf)
    hreading hend cap .legacySourceTooLarge (cutClamped (some range))
  rw [← hrun, hrest] at hgives
  exact ⟨_, hgives, exactRange_readClamped rfl hpos hcap horder⟩

end

theorem exists_gives_legacy (plaintext : Bytes) (hpos : 0 < cap) (hcap : cap ≤ maxInt64) :
    ∃ result, Gives (uploadPartCopyLegacy plaintext (some range) size cap) result ∧
      (ExactRange plaintext range result ↔ Copyable cap size (.legacy plaintext) .plain range) := by
  by_cases hhint : 0 < size ∧ cap < size
  · have hrun : uploadPartCopyLegacy plaintext (some range) size cap =
        fun _ _ => some (.error .legacySourceTooLarge) := by
      funext sizes fuel
      exact if_pos hhint
    rw [hrun]
    refine ⟨_, gives_some _, iff_of_false (not_exactRange_error rfl) fun hcopyable => ?_⟩
    exact absurd (hcopyable.1 hhint.1) (not_le.mpr hhint.2)
  · have hrun : uploadPartCopyLegacy plaintext (some range) size cap =
        readPart (listRead (ε := CryptoError)) cap .legacySourceTooLarge (cutLegacy (some range))
          plaintext := by
      funext sizes fuel
      exact if_neg hhint
    have hgives := gives_readPart (delivers_listRead (ε := CryptoError)) inRoom_listRead
      (s := plaintext) trivial rfl cap .legacySourceTooLarge (cutLegacy (some range))
    rw [← hrun] at hgives
    refine ⟨_, hgives, (exactRange_readLegacy rfl hpos hcap horder).trans ?_⟩
    exact ⟨fun h => ⟨fun hsome => not_lt.mp fun hlarge => hhint ⟨hsome, hlarge⟩, h⟩, And.right⟩

end Ways

/-! ## Every way -/

theorem effectiveMaxLegacyCopySourceBytes_pos (configured : ℤ) :
    0 < effectiveMaxLegacyCopySourceBytes configured := by
  rw [effectiveMaxLegacyCopySourceBytes]
  split
  · assumption
  · decide

theorem effectiveMaxLegacyCopySourceBytes_le {configured : ℤ} (hmax : configured ≤ maxInt64) :
    effectiveMaxLegacyCopySourceBytes configured ≤ maxInt64 := by
  rw [effectiveMaxLegacyCopySourceBytes]
  split
  · exact hmax
  · decide

section Handler

variable {configured size cap : ℤ} {source : CopySource} {stored : StoredCopy}
  {rangeHeader : Str} {range : CopyPartRange}

theorem handleUploadPartCopy_eq (destination : Destination)
    (hrange : copySourceRange rangeHeader = .ok (some range)) :
    handleUploadPartCopy configured source size destination rangeHeader =
      copyPart (effectiveMaxLegacyCopySourceBytes configured) source size destination
        (some range) := by
  have hsome : ¬((some range : Option CopyPartRange) = none ∧ 0 < size ∧
      maxCopySourceSizeBytes < size) := by simp
  funext sizes fuel
  rw [handleUploadPartCopy, hrange]
  exact if_neg hsome

/-- The outcome of a way to copy, and when it is right. -/
theorem exists_gives (hpos : 0 < cap) (hcap : cap ≤ maxInt64) (hsource : source.IsOf stored)
    (horder : range.InOrder) (size : ℤ) (destination : Destination) :
    ∃ result, Gives (copyPart cap source size destination (some range)) result ∧
      (Copyable cap size stored destination range → ExactRange stored.plaintext range result) ∧
      (stored.Ideal → ExactRange stored.plaintext range result →
        Copyable cap size stored destination range) := by
  have hnonneg := horder.nonneg
  match source, stored, hsource with
  | .chunked source, .chunked o, hsource =>
    -- the two plans differ only where the range begins behind the end
    suffices hplans : ∃ result, Gives (copyPart cap (.chunked source) size destination
        (some range)) result ∧ (ExactRange o.plaintext range result ↔
          Copyable cap size (.chunked o) destination range) by
      obtain ⟨result, hgives, hiff⟩ := hplans
      exact ⟨result, hgives, hiff.mpr, fun _ => hiff.mp⟩
    cases destination with
    | plain =>
      refine exists_gives_copyChunked horder planChunked hsource
        (fun hlt => planChunked_of_lt (by omega) hlt) fun hbehind => ?_
      by_cases hsize : 0 < (o.plaintext.length : ℤ)
      · exact .inl ⟨_, if_pos ⟨hsize, hbehind⟩, rfl⟩
      · exact .inr ⟨_, if_neg fun h => hsize h.1⟩
    | encryptedMpu =>
      exact exists_gives_copyChunked horder planReencrypt hsource
        (fun hlt => planReencrypt_of_pos (by omega)) fun _ => .inr ⟨_, rfl⟩
  | .legacy plaintext, .legacy _, rfl =>
    cases destination with
    | plain =>
      obtain ⟨result, hgives, hiff⟩ := exists_gives_legacy horder plaintext hpos hcap
      exact ⟨result, hgives, hiff.mpr, fun _ => hiff.mp⟩
    | encryptedMpu =>
      obtain ⟨result, hgives, hiff⟩ : ∃ result, Gives (copyPart cap (.legacy plaintext) size
          .encryptedMpu (some range)) result ∧ (ExactRange plaintext range result ↔
            Copyable cap size (.legacy plaintext) .encryptedMpu range) :=
        ⟨_, gives_readPart (delivers_listRead (ε := CryptoError)) inRoom_listRead
          (s := plaintext) trivial rfl cap .legacySourceTooLarge (cutClamped (some range)),
          exactRange_readClamped rfl hpos hcap horder⟩
      exact ⟨result, hgives, hiff.mpr, fun _ => hiff.mp⟩
  | .mpu source, .mpu o, hsource =>
    cases destination with
    | plain =>
      obtain ⟨result, hgives, hiff⟩ := exists_gives_fromMpuSource horder hsource hpos hcap
      exact ⟨result, hgives, hiff.mpr, fun _ => hiff.mp⟩
    | encryptedMpu =>
      exact ⟨_, gives_some _, exactRange_readMpuPlaintextRange horder hsource⟩

/-- A request does what the way to copy does that it comes to. -/
theorem copiesRange_of_copyable (hmax : configured ≤ maxInt64) (hsource : source.IsOf stored)
    (hrange : copySourceRange rangeHeader = .ok (some range)) {destination : Destination}
    (hcopyable : Copyable (effectiveMaxLegacyCopySourceBytes configured) size stored destination
      range) :
    CopiesRange configured source size destination rangeHeader range stored.plaintext := by
  obtain ⟨result, hgives, hexact, -⟩ := exists_gives
    (effectiveMaxLegacyCopySourceBytes_pos configured) (effectiveMaxLegacyCopySourceBytes_le hmax)
    hsource (inOrder_of_copySourceRange hrange) size destination
  rw [← handleUploadPartCopy_eq destination hrange] at hgives
  exact (hgives.forall_iff _).mpr (hexact hcopyable)

theorem copyable_of_copiesRange (hmax : configured ≤ maxInt64) (hsource : source.IsOf stored)
    (hrange : copySourceRange rangeHeader = .ok (some range)) (hideal : stored.Ideal)
    {destination : Destination}
    (hcopies : CopiesRange configured source size destination rangeHeader range stored.plaintext) :
    Copyable (effectiveMaxLegacyCopySourceBytes configured) size stored destination range := by
  obtain ⟨result, hgives, -, hcopyable⟩ := exists_gives
    (effectiveMaxLegacyCopySourceBytes_pos configured) (effectiveMaxLegacyCopySourceBytes_le hmax)
    hsource (inOrder_of_copySourceRange hrange) size destination
  rw [← handleUploadPartCopy_eq destination hrange] at hgives
  exact hcopyable hideal ((hgives.forall_iff _).mp hcopies)

/-- **Copying a range.**  The part is the range of the plaintext, or the request fails with
"range not satisfiable", under the condition of the way that is taken; otherwise, with an AEAD
that opens nothing but the chunks of the source, it is not. -/
theorem copiesRange_iff (hmax : configured ≤ maxInt64) (hsource : source.IsOf stored)
    (hrange : copySourceRange rangeHeader = .ok (some range)) (destination : Destination) :
    (Copyable (effectiveMaxLegacyCopySourceBytes configured) size stored destination range →
      CopiesRange configured source size destination rangeHeader range stored.plaintext) ∧
    (stored.Ideal →
      (CopiesRange configured source size destination rangeHeader range stored.plaintext ↔
        Copyable (effectiveMaxLegacyCopySourceBytes configured) size stored destination range)) :=
  ⟨copiesRange_of_copyable hmax hsource hrange, fun hideal =>
    ⟨copyable_of_copiesRange hmax hsource hrange hideal,
      copiesRange_of_copyable hmax hsource hrange⟩⟩

end Handler

/-! ## Ranges that end or begin behind the end -/

/-- Four bytes in four parts, one of them empty. -/
def sampleSource : MpuSource :=
  ⟨sample.hkdf, sample.createMpuAeadCipher, sample.format, sample.manifest, sample.ciphertext,
    [⟨sample.ciphertext, none⟩]⟩

theorem sampleSource_isOf : (CopySource.mpu sampleSource).IsOf (.mpu sample) :=
  ⟨rfl, rfl, rfl, rfl, fun _ => rfl, rfl, Script.clean_singleton _, List.append_nil _⟩

/-- A range that ends behind the end. -/
theorem copiesRange_beyond_end :
    CopiesRange 0 (.mpu sampleSource) 0 .plain "bytes=1-9".toList ⟨1, 9⟩ [7, 8, 9, 10] :=
  ((copiesRange_iff (by decide) sampleSource_isOf (by decide) .plain).2
    (StoredObject.ideal_sample _ _ _)).mpr ⟨by decide, by decide, by decide⟩

/-- A range that begins behind the end: the slice of the plaintext is out of range. -/
theorem not_copiesRange_behind_end :
    copySourceRange "bytes=5-9".toList = .ok (some ⟨5, 9⟩) ∧
      handleUploadPartCopy 0 (.legacy [7, 8, 9]) 3 .encryptedMpu "bytes=5-9".toList (fun _ => 512)
        2 = some (.error .panic) ∧
      ¬CopiesRange 0 (.legacy [7, 8, 9]) 3 .encryptedMpu "bytes=5-9".toList ⟨5, 9⟩ [7, 8, 9] := by
  refine ⟨by decide, by rfl, fun hcopies => ?_⟩
  have hsource : (CopySource.legacy [7, 8, 9]).IsOf (.legacy [7, 8, 9]) := rfl
  have hcopyable := copyable_of_copiesRange (by decide) hsource (by decide) trivial hcopies
  exact absurd hcopyable.2.2 (by decide)

end S3EncryptionGateway.Api.UploadPartCopy
