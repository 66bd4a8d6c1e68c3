import S3EncryptionGateway.Crypto.Mpu.Encrypt

/-!
# Decrypting a multipart object

Two readers of the same ciphertext.  `MpuDecryptReader` walks the whole object part
by part and chunk by chunk along its manifest.  `decryptMpuPartRange` is given the
ciphertext of consecutive chunks of one part and cuts it into chunks by their full
length, so that only the last of them may be short.

## The walk

`flow_at` says what comes out of the walk at any position: the plaintext of the
current part from the current chunk on, and the parts after it.  The position is a
`before ++ rest` of the object's parts, with empty parts anywhere.
-/

namespace S3EncryptionGateway.Crypto

open Encoding Streams List

structure MpuDecryptReader where
  src : Script UInt8 ℕ
  manifest : MultipartManifest
  format : MpuFormat
  aead : Aead
  partIdx : ℕ
  chunkIdx : ℕ
  /-- the part of `buf` that has not been read -/
  pending : Bytes
  done : Bool
  err : Option MpuError

variable (hkdf : SaltedHkdf)

namespace MpuDecryptReader

/-- The position after a chunk of `part`. -/
def advance (r : MpuDecryptReader) (part : MpuPartRecord) : MpuDecryptReader :=
  let r :=
    if part.chunkCount ≤ r.chunkIdx + 1 then { r with partIdx := r.partIdx + 1, chunkIdx := 0 }
    else { r with chunkIdx := r.chunkIdx + 1 }
  if r.manifest.parts.length ≤ r.partIdx then { r with done := true } else r

/-- Read, authenticate and open the next chunk of `part`. -/
def decryptNextChunk (r : MpuDecryptReader) (part : MpuPartRecord) :
    Option MpuError × MpuDecryptReader :=
  if part.partNumber < 1 ∨ maxPartNumber < part.partNumber ∨ part.chunkCount ≤ r.chunkIdx then
    (some .invalidIndex, r)
  else
    let encSize :=
      if r.chunkIdx = part.chunkCount - 1 then
        part.plainLen - (part.chunkCount - 1) * r.manifest.chunkSize + tagSize
      else r.manifest.chunkSize + tagSize
    match r.src.readFull encSize.toNat with
    | (_, some err, src) =>
      (some (.readChunk part.partNumber r.chunkIdx err), { r with src := src })
    | (encChunk, none, src) =>
      let r := { r with src := src }
      match r.format.aad part.partNumber.toNat r.chunkIdx with
      | .error err => (some (.crypto err), r)
      | .ok aad =>
        match r.aead.opened (r.format.iv hkdf part.partNumber.toNat r.chunkIdx) encChunk aad with
        | none => (some (.authFailure part.partNumber r.chunkIdx), r)
        | some plain => (none, { r with pending := plain }.advance part)

/-- One turn of the loop of `Read` once nothing is pending. -/
def fill (r : MpuDecryptReader) : Option MpuError × MpuDecryptReader :=
  match r.manifest.parts[r.partIdx]? with
  | none => (none, { r with done := true })
  | some part =>
    if part.chunkCount = 0 then (none, { r with partIdx := r.partIdx + 1 })
    else
      match r.decryptNextChunk hkdf part with
      | (some err, r') => (some err, { r' with err := some err })
      | (none, r') => (none, r')

/-- Turns of the loop for some parts: one for each chunk and one for each part. -/
def turns (parts : List MpuPartRecord) : ℕ :=
  (parts.map fun part => part.chunkCount.toNat + 1).sum

/-- The turns that are left at a chunk of the first part. -/
def turnsFrom (chunkIdx : ℕ) : List MpuPartRecord → ℕ
  | [] => 0
  | part :: parts => part.chunkCount.toNat + 1 - min chunkIdx part.chunkCount.toNat + turns parts

theorem turnsFrom_cons (chunkIdx : ℕ) (part : MpuPartRecord) (parts : List MpuPartRecord) :
    turnsFrom chunkIdx (part :: parts) =
      part.chunkCount.toNat + 1 - min chunkIdx part.chunkCount.toNat + turns parts := rfl

theorem turnsFrom_le (chunkIdx : ℕ) (parts : List MpuPartRecord) :
    turnsFrom chunkIdx parts ≤ turns parts := by
  cases parts with
  | nil => exact le_rfl
  | cons part parts =>
    rw [turns, map_cons, sum_cons]
    exact Nat.add_le_add_right (Nat.sub_le _ _) _

def rank (r : MpuDecryptReader) : ℕ :=
  if r.done then 0 else turnsFrom r.chunkIdx (r.manifest.parts.drop r.partIdx) + 1

variable {part : MpuPartRecord} {r : MpuDecryptReader}

theorem drop_partIdx (hpart : r.manifest.parts[r.partIdx]? = some part) :
    r.manifest.parts.drop r.partIdx = part :: r.manifest.parts.drop (r.partIdx + 1) := by
  obtain ⟨hlt, hget⟩ := List.getElem?_eq_some_iff.mp hpart
  rw [drop_eq_getElem_cons hlt, hget]

theorem rank_advance (hopen : r.done = false) (hpart : r.manifest.parts[r.partIdx]? = some part)
    (hmore : r.chunkIdx < part.chunkCount) : (r.advance part).rank < r.rank := by
  have hcons := drop_partIdx hpart
  have hnext := turnsFrom_le 0 (r.manifest.parts.drop (r.partIdx + 1))
  simp only [advance]
  split
  · split
    · simp [rank, hopen]
    · simp only [rank, hopen, hcons, Bool.false_eq_true, if_false, turnsFrom_cons]
      omega
  · split
    · simp [rank, hopen]
    · simp only [rank, hopen, hcons, Bool.false_eq_true, if_false, turnsFrom_cons]
      omega

theorem decryptNextChunk_eq_none {hkdf : SaltedHkdf} {r' : MpuDecryptReader}
    (hok : r.decryptNextChunk hkdf part = (none, r')) :
    r.chunkIdx < part.chunkCount ∧
      ∃ src plain, r' = { r with src := src, pending := plain }.advance part := by
  rw [decryptNextChunk] at hok
  split at hok
  · cases hok
  simp only at hok
  split at hok
  · cases hok
  split at hok
  · cases hok
  split at hok <;> cases hok
  exact ⟨by omega, _, _, rfl⟩

theorem rank_fill (r r' : MpuDecryptReader) (hopen : r.done = false)
    (hfill : r.fill hkdf = (none, r')) : r'.rank < r.rank := by
  rw [fill] at hfill
  split at hfill
  · cases hfill
    simp [rank, hopen]
  · rename_i part hpart
    split_ifs at hfill with hempty
    · have hnext := turnsFrom_le r.chunkIdx (r.manifest.parts.drop (r.partIdx + 1))
      cases hfill
      simp only [rank, hopen, drop_partIdx hpart, Bool.false_eq_true, if_false, turnsFrom_cons]
      omega
    · split at hfill <;> cases hfill
      rename_i hchunk
      obtain ⟨hmore, src, plain, rfl⟩ := decryptNextChunk_eq_none hchunk
      exact rank_advance (r := { r with src := src, pending := plain }) hopen hpart hmore

/-- The reader as a transformer with a pending buffer. -/
def puller : Puller MpuDecryptReader UInt8 MpuError where
  pending := pending
  setPending items r := { r with pending := items }
  done := done
  fill := fill hkdf
  rank := rank
  rank_fill := rank_fill hkdf

/-- `Read` into a buffer of length `room`: at most the rest of one chunk. -/
def read (room : ℕ) (r : MpuDecryptReader) : ReadResult UInt8 MpuError × MpuDecryptReader :=
  match r.err with
  | some err => (⟨[], some (.other err)⟩, r)
  | none => readServing (puller hkdf) .other room r

end MpuDecryptReader

/-! ## Constructors -/

/-- What a multipart object is read through: an object without parts is empty. -/
inductive MpuPlaintext where
  | empty
  | chunks (r : MpuDecryptReader)

def MpuPlaintext.read (room : ℕ) :
    MpuPlaintext → ReadResult UInt8 MpuError × MpuPlaintext
  | .empty => (⟨[], some .eof⟩, .empty)
  | .chunks r => ((r.read hkdf room).1, .chunks (r.read hkdf room).2)

variable (createMpuAeadCipher : Bytes → Except MpuError Aead) (format : MpuFormat)

def newMpuDecryptReader (src : Script UInt8 ℕ) (manifest : MultipartManifest) :
    Except MpuError MpuPlaintext :=
  match format.object.validate with
  | .error err => .error (.crypto err)
  | .ok () => do
      manifest.validateLayout
      if manifest.parts = [] then return .empty
      else
        let aead ← createMpuAeadCipher format.dek
        return .chunks ⟨src, manifest, format, aead, 0, 0, [], false, none⟩

/-- The reader for a manifest of either version. -/
def newMpuDecryptReaderFor (src : Script UInt8 ℕ) (manifest : MultipartManifest) :
    Except MpuError MpuPlaintext :=
  match format.object.validate with
  | .error err => .error (.crypto err)
  | .ok () =>
    if manifest.version = 1 then
      newMpuDecryptReader createMpuAeadCipher { format with bound := false } src manifest
    else if manifest.version ≠ 2 ∨ format.bindingId = List.replicate bindingIdSize 0 then
      .error .bindingRequired
    else newMpuDecryptReader createMpuAeadCipher { format with bound := true } src manifest

/-! ## Consecutive chunks of one part -/

def openChunks (hkdf : SaltedHkdf) (aead : Aead) (format : MpuFormat) (partNumber : ℤ) :
    ℕ → List Bytes → Except MpuError Bytes
  | _, [] => .ok []
  | chunkIndex, encChunk :: encChunks =>
    if maxInt32 ≤ chunkIndex then .error .chunkIndexOverflow
    else
      match format.aad partNumber.toNat chunkIndex with
      | .error err => .error (.crypto err)
      | .ok aad =>
        match aead.opened (format.iv hkdf partNumber.toNat chunkIndex) encChunk aad with
        | none => .error (.rangeAuthFailure chunkIndex partNumber)
        | some plain => do
            let later ← openChunks hkdf aead format partNumber (chunkIndex + 1) encChunks
            return plain ++ later

/-- Decrypt the ciphertext of consecutive chunks of a part, from chunk `startChunkIdx` on. -/
def decryptMpuPartRange (ciphertext : Bytes) (partNumber chunkSize startChunkIdx : ℤ) :
    Except MpuError Bytes :=
  match format.object.validate with
  | .error err => .error (.crypto err)
  | .ok () =>
    if partNumber < 1 ∨ maxPartNumber < partNumber ∨ startChunkIdx < 0 ∨
        maxChunkSize < mpuChunkSize chunkSize then .error .invalidPartRange
    else do
      let aead ← createMpuAeadCipher format.dek
      openChunks hkdf aead format partNumber startChunkIdx.toNat
        (Script.chunksOf (mpuChunkSize chunkSize + tagSize) ciphertext)

def decryptMpuPartRangeV2 (ciphertext : Bytes) (partNumber chunkSize startChunkIdx : ℤ) :
    Except MpuError Bytes :=
  match format.object.validate with
  | .error err => .error (.crypto err)
  | .ok () =>
    if format.bindingId = List.replicate bindingIdSize 0 then .error .bindingRequired
    else decryptMpuPartRange hkdf createMpuAeadCipher { format with bound := true } ciphertext
      partNumber chunkSize startChunkIdx

def decryptMpuPartRangeV1 (ciphertext : Bytes) (partNumber chunkSize startChunkIdx : ℤ) :
    Except MpuError Bytes :=
  decryptMpuPartRange hkdf createMpuAeadCipher { format with bound := false } ciphertext
    partNumber chunkSize startChunkIdx

/-- The decrypter for the version the format is of. -/
def decryptPartRange (ciphertext : Bytes) (partNumber chunkSize startChunkIdx : ℤ) :
    Except MpuError Bytes :=
  if format.bound then
    decryptMpuPartRangeV2 hkdf createMpuAeadCipher format ciphertext partNumber chunkSize
      startChunkIdx
  else
    decryptMpuPartRangeV1 hkdf createMpuAeadCipher format ciphertext partNumber chunkSize
      startChunkIdx

section PartRange

variable {hkdf : SaltedHkdf} {createMpuAeadCipher : Bytes → Except MpuError Aead} {aead : Aead}
  {format : MpuFormat} {chunkSize number i : ℕ}

theorem decryptPartRange_eq (hformat : format.Valid)
    (hcipher : createMpuAeadCipher format.dek = .ok aead) (hpos : 0 < chunkSize)
    (hmax : chunkSize ≤ maxChunkSize) (hone : 1 ≤ number) (hlast : number ≤ maxPartNumber)
    (ciphertext : Bytes) (i : ℕ) :
    decryptPartRange hkdf createMpuAeadCipher format ciphertext number chunkSize i =
      openChunks hkdf aead format number i
        (Script.chunksOf (chunkSize + tagSize) ciphertext) := by
  have hcheck : ¬((number : ℤ) < 1 ∨ (maxPartNumber : ℤ) < number ∨ (i : ℤ) < 0 ∨
      maxChunkSize < chunkSize) := by omega
  have hrange : decryptMpuPartRange hkdf createMpuAeadCipher format ciphertext number chunkSize i =
      openChunks hkdf aead format number i
        (Script.chunksOf (chunkSize + tagSize) ciphertext) := by
    rw [decryptMpuPartRange, hformat.validate_eq]
    simp only [mpuChunkSize_natCast hpos, if_neg hcheck, hcipher, Int.toNat_natCast]
    rfl
  rw [decryptPartRange, ← hrange]
  rcases hbound : format.bound with - | -
  · have hsame : { format with bound := false } = format := by rw [← hbound]
    rw [if_neg (by simp), decryptMpuPartRangeV1, hsame]
  · have hsame : { format with bound := true } = format := by rw [← hbound]
    rw [if_pos rfl, decryptMpuPartRangeV2, hformat.validate_eq, hsame]
    exact if_neg (hformat.bindingId_ne hbound)

variable (hformat : format.Valid) (hindex : i < maxInt32)

include hformat hindex

theorem openChunks_of_some {encChunk plain : Bytes} (encChunks : List Bytes)
    (hopened : aead.opened (format.iv hkdf number i) encChunk (format.chunkAad number i) =
      some plain) :
    openChunks hkdf aead format number i (encChunk :: encChunks) =
      (openChunks hkdf aead format number (i + 1) encChunks).map (plain ++ ·) := by
  rw [openChunks, if_neg (by omega)]
  simp only [Int.toNat_natCast, hformat.aad_eq, hopened]
  cases openChunks hkdf aead format number (i + 1) encChunks <;> rfl

end PartRange

/-! ## The ciphertext of an object -/

def partsCiphertext (aead : Aead) (format : MpuFormat) (chunkSize : ℕ) (parts : List PlainPart) :
    Bytes :=
  parts.flatMap fun part => partCiphertext hkdf aead format chunkSize part 0

def partsPlaintext (parts : List PlainPart) : Bytes := parts.flatMap PlainPart.data

/-- The ciphertext from chunk `i` of the first part on. -/
def restCiphertext (aead : Aead) (format : MpuFormat) (chunkSize : ℕ) :
    List PlainPart → ℕ → Bytes
  | [], _ => []
  | part :: parts, i =>
    partCiphertext hkdf aead format chunkSize part i ++
      partsCiphertext hkdf aead format chunkSize parts

/-- The plaintext from chunk `i` of the first part on. -/
def restPlaintext (chunkSize : ℕ) : List PlainPart → ℕ → Bytes
  | [], _ => []
  | part :: parts, i => part.data.drop (i * chunkSize) ++ partsPlaintext parts

/-- The AEAD adds 16 bytes and opens the chunks that were sealed for the parts. -/
structure SealsParts (hkdf : SaltedHkdf) (aead : Aead) (format : MpuFormat) (chunkSize : ℕ)
    (parts : List PlainPart) : Prop where
  length_sealed : ∀ nonce plaintext aad,
    (aead.sealed nonce plaintext aad).length = plaintext.length + tagSize
  opened_chunk : ∀ part ∈ parts, ∀ i, i < part.chunkCount chunkSize →
    aead.opened (format.iv hkdf part.number i)
      (sealChunk hkdf aead format part.number i (part.chunk chunkSize i))
      (format.chunkAad part.number i) = some (part.chunk chunkSize i)

open PlainPart

section Rest

variable {hkdf : SaltedHkdf} {aead : Aead} {format : MpuFormat} {chunkSize : ℕ}

@[simp] theorem restCiphertext_zero (parts : List PlainPart) :
    restCiphertext hkdf aead format chunkSize parts 0 =
      partsCiphertext hkdf aead format chunkSize parts := by
  cases parts <;> rfl

@[simp] theorem restPlaintext_zero (parts : List PlainPart) :
    restPlaintext chunkSize parts 0 = partsPlaintext parts := by
  cases parts with
  | nil => rfl
  | cons part parts =>
    rw [restPlaintext, Nat.zero_mul, drop_zero]
    rfl

variable {part : PlainPart}

/-- A part whose chunks have all been passed. -/
theorem restPlaintext_of_le (hpos : 0 < chunkSize) {i : ℕ} (hle : part.chunkCount chunkSize ≤ i)
    (parts : List PlainPart) :
    restPlaintext chunkSize (part :: parts) i = partsPlaintext parts := by
  have hend : part.data.length ≤ i * chunkSize :=
    not_lt.mp ((lt_chunkCount_iff hpos i).not.mp (not_lt.mpr hle))
  rw [restPlaintext, drop_eq_nil_of_le hend, nil_append]

theorem restCiphertext_of_le (hpos : 0 < chunkSize) {i : ℕ} (hle : part.chunkCount chunkSize ≤ i)
    (parts : List PlainPart) :
    restCiphertext hkdf aead format chunkSize (part :: parts) i =
      partsCiphertext hkdf aead format chunkSize parts := by
  rw [restCiphertext, partCiphertext_of_le hpos hle, nil_append]

end Rest

/-! ## The walk over the whole object -/

namespace MpuDecryptReader

variable {hkdf : SaltedHkdf} {r : MpuDecryptReader} {chunkSize : ℕ}

/-- The reader is at chunk `i` of the first part of `rest`, with the ciphertext from there on
in its source. -/
structure At (hkdf : SaltedHkdf) (r : MpuDecryptReader) (chunkSize : ℕ)
    (before rest : List PlainPart) (i : ℕ) : Prop where
  format_valid : r.format.Valid
  laidOut : r.manifest.LaidOut chunkSize (before ++ rest)
  seals : SealsParts hkdf r.aead r.format chunkSize (before ++ rest)
  clean : Script.Clean r.src
  bytes_eq : ∃ junk, Script.bytes r.src =
    restCiphertext hkdf r.aead r.format chunkSize rest i ++ junk
  partIdx_eq : r.partIdx = before.length
  chunkIdx_eq : r.chunkIdx = i
  inside : i ≠ 0 → ∃ part parts, rest = part :: parts ∧ i < part.chunkCount chunkSize
  done_eq : r.done = true → rest = []

variable {before rest : List PlainPart} {part : PlainPart} {i : ℕ}

section

variable (hat : At hkdf r chunkSize before (part :: rest) i)

include hat

theorem At.getElem?_partIdx : r.manifest.parts[r.partIdx]? = some (part.record chunkSize) := by
  rw [hat.laidOut.parts_eq, map_append, hat.partIdx_eq,
    List.getElem?_append_right (length_map ..).le, length_map, Nat.sub_self]
  rfl

theorem At.decryptNextChunk_eq (hlt : i < part.chunkCount chunkSize) :
    ∃ src, Script.Clean src ∧
      (∃ junk, Script.bytes src =
        restCiphertext hkdf r.aead r.format chunkSize (part :: rest) (i + 1) ++ junk) ∧
      r.decryptNextChunk hkdf (part.record chunkSize) =
        (none, { r with src := src, pending := part.chunk chunkSize i }.advance
          (part.record chunkSize)) := by
  have hpos := hat.laidOut.chunkSize_pos
  have hmem : part ∈ before ++ part :: rest := mem_append_right _ (mem_cons_self ..)
  obtain ⟨hone, hmax, -⟩ := hat.laidOut.fits.of_mem hmem
  have hopened := hat.seals.opened_chunk part hmem i hlt
  obtain ⟨junk, hbytes⟩ := hat.bytes_eq
  rw [restCiphertext, partCiphertext_of_lt hpos hlt, append_assoc, append_assoc,
    ← append_assoc (partCiphertext ..)] at hbytes
  have hsealed : (sealChunk hkdf r.aead r.format part.number i (part.chunk chunkSize i)).length =
      (part.chunk chunkSize i).length + tagSize := length_sealChunk hat.seals.length_sealed _ _ _
  -- the size that is read is that of the sealed chunk
  have hsize : (if (r.chunkIdx : ℤ) = (part.record chunkSize).chunkCount - 1 then
        (part.record chunkSize).plainLen -
          ((part.record chunkSize).chunkCount - 1) * r.manifest.chunkSize + tagSize
      else r.manifest.chunkSize + tagSize).toNat =
      (sealChunk hkdf r.aead r.format part.number i (part.chunk chunkSize i)).length := by
    rw [hsealed, hat.laidOut.chunkSize_eq, hat.chunkIdx_eq, record_chunkCount, record_plainLen]
    by_cases hlast : i + 1 = part.chunkCount chunkSize
    · have hbegin := (lt_chunkCount_iff hpos i).mp hlt
      rw [if_pos (by omega), chunk_of_last hpos hlast, length_drop,
        show (part.chunkCount chunkSize : ℤ) - 1 = i by omega]
      omega
    · rw [if_neg (by omega), length_chunk_of_lt hpos (by omega)]
      omega
  obtain ⟨src, hread, hclean, hrest⟩ := Script.readFull_of_clean_of_le hat.clean
    (show (sealChunk hkdf r.aead r.format part.number i (part.chunk chunkSize i)).length ≤
      (Script.bytes r.src).length by rw [hbytes, length_append]; omega)
  rw [hbytes, take_left] at hread
  rw [hbytes, drop_left] at hrest
  refine ⟨src, hclean, ⟨junk, hrest⟩, ?_⟩
  rw [decryptNextChunk, if_neg (by
    rw [record_partNumber, record_chunkCount, hat.chunkIdx_eq]
    omega)]
  simp only [hsize, hread]
  simp only [record_partNumber, Int.toNat_natCast, hat.format_valid.aad_eq,
    hat.chunkIdx_eq, hopened]

theorem At.nextPart {src : Script UInt8 ℕ} (hclean : Script.Clean src)
    (hbytes : ∃ junk, Script.bytes src =
      partsCiphertext hkdf r.aead r.format chunkSize rest ++ junk) (pending : Bytes) (done : Bool)
    (hdone : done = true → rest = []) :
    At hkdf { r with
      src := src
      partIdx := r.partIdx + 1
      chunkIdx := 0
      pending := pending
      done := done } chunkSize (before ++ [part]) rest 0 where
  format_valid := hat.format_valid
  laidOut := by simpa using hat.laidOut
  seals := by simpa using hat.seals
  clean := hclean
  bytes_eq := by simpa using hbytes
  partIdx_eq := by simp [hat.partIdx_eq]
  chunkIdx_eq := rfl
  inside h := absurd rfl h
  done_eq := hdone

theorem At.advance (hlt : i < part.chunkCount chunkSize) {src : Script UInt8 ℕ}
    (hclean : Script.Clean src) (hbytes : ∃ junk, Script.bytes src =
      restCiphertext hkdf r.aead r.format chunkSize (part :: rest) (i + 1) ++ junk)
    (pending : Bytes) (hopen : r.done = false) :
    ∃ before' rest' i',
      At hkdf ({ r with src := src, pending := pending }.advance (part.record chunkSize)) chunkSize
        before' rest' i' ∧
      restPlaintext chunkSize rest' i' = restPlaintext chunkSize (part :: rest) (i + 1) ∧
      ({ r with src := src, pending := pending }.advance (part.record chunkSize)).pending =
        pending := by
  have hpos := hat.laidOut.chunkSize_pos
  have hlength : r.manifest.parts.length = before.length + (rest.length + 1) := by
    rw [hat.laidOut.parts_eq, length_map, length_append, length_cons]
  by_cases hlast : i + 1 = part.chunkCount chunkSize
  · -- the part is finished; the object is, if no part follows
    rw [restCiphertext_of_le hpos hlast.ge] at hbytes
    have hend : (part.record chunkSize).chunkCount ≤ (r.chunkIdx : ℤ) + 1 := by
      rw [record_chunkCount, hat.chunkIdx_eq]
      omega
    refine ⟨before ++ [part], rest, 0, ?_, ?_, ?_⟩
    · simp only [MpuDecryptReader.advance, if_pos hend]
      split_ifs with hnone
      · exact hat.nextPart hclean hbytes pending true fun _ =>
          length_eq_zero_iff.mp (by rw [hlength, hat.partIdx_eq] at hnone; omega)
      · exact hat.nextPart hclean hbytes pending r.done fun h => by rw [hopen] at h; cases h
    · rw [restPlaintext_zero, restPlaintext_of_le hpos hlast.ge]
    · simp only [MpuDecryptReader.advance, if_pos hend]
      split <;> rfl
  · have hmore : ¬(part.record chunkSize).chunkCount ≤ (r.chunkIdx : ℤ) + 1 := by
      rw [record_chunkCount, hat.chunkIdx_eq]
      omega
    have hhere : ¬r.manifest.parts.length ≤ r.partIdx := by
      rw [hlength, hat.partIdx_eq]
      omega
    refine ⟨before, part :: rest, i + 1, ?_, rfl, ?_⟩
    · simp only [MpuDecryptReader.advance, if_neg hmore, if_neg hhere]
      exact ⟨hat.format_valid, hat.laidOut, hat.seals, hclean, hbytes, hat.partIdx_eq,
        congrArg (· + 1) hat.chunkIdx_eq, fun _ => ⟨part, rest, rfl, by omega⟩, hat.done_eq⟩
    · simp only [MpuDecryptReader.advance, if_neg hmore, if_neg hhere]

end

theorem At.exists_fill (hat : At hkdf r chunkSize before rest i) (hopen : r.done = false)
    (hpending : r.pending = []) :
    ∃ r' before' rest' i', r.fill hkdf = (none, r') ∧ At hkdf r' chunkSize before' rest' i' ∧
      r'.pending ++ restPlaintext chunkSize rest' i' = restPlaintext chunkSize rest i := by
  have hpos := hat.laidOut.chunkSize_pos
  cases rest with
  | nil =>
    have hnone : r.manifest.parts[r.partIdx]? = none := by
      rw [List.getElem?_eq_none_iff, hat.laidOut.parts_eq, hat.partIdx_eq, length_map, append_nil]
    refine ⟨{ r with done := true }, before, [], i, by rw [fill, hnone], ?_, ?_⟩
    · exact { hat with done_eq := fun _ => rfl }
    · rw [show MpuDecryptReader.pending _ = [] from hpending, nil_append]
  | cons part rest =>
    by_cases hempty : part.chunkCount chunkSize = 0
    · have hzero : i = 0 := by
        by_contra hne
        obtain ⟨_, _, heq, hlt⟩ := hat.inside hne
        cases heq
        omega
      subst hzero
      have hbytes := hat.bytes_eq
      rw [restCiphertext_of_le hpos hempty.le] at hbytes
      have hnext := hat.nextPart hat.clean hbytes r.pending r.done fun h => by
        rw [hopen] at h
        cases h
      rw [← hat.chunkIdx_eq] at hnext
      refine ⟨_, _, _, _, ?_, hnext, ?_⟩
      · rw [fill, hat.getElem?_partIdx]
        simp only [record_chunkCount, hempty, Nat.cast_zero, if_true]
      · rw [hat.chunkIdx_eq, restPlaintext_zero, restPlaintext_of_le hpos hempty.le]
        exact (congrArg (· ++ _) hpending).trans (nil_append _)
    · have hlt : i < part.chunkCount chunkSize := by
        by_cases hzero : i = 0
        · omega
        · obtain ⟨_, _, heq, hlt⟩ := hat.inside hzero
          cases heq
          exact hlt
      obtain ⟨src, hclean, hbytes, hchunk⟩ := hat.decryptNextChunk_eq hlt
      obtain ⟨before', rest', i', hat', hplain, hkeep⟩ :=
        hat.advance hlt hclean hbytes (part.chunk chunkSize i) hopen
      refine ⟨_, _, _, _, ?_, hat', ?_⟩
      · rw [fill, hat.getElem?_partIdx]
        simp only [record_chunkCount, Nat.cast_eq_zero, hempty, if_false, hchunk]
      · rw [hkeep, hplain, restPlaintext, restPlaintext, ← append_assoc, chunk_append_drop]

/-- What is still to come when the reader is at a position. -/
theorem flow_at (hat : At hkdf r chunkSize before rest i) :
    ((puller hkdf).flow r).1 = r.pending ++ restPlaintext chunkSize rest i ∧
      ((puller hkdf).flow r).2.1 = none := by
  generalize hrank : r.rank = rank
  induction rank using Nat.strong_induction_on generalizing r before rest i with
  | _ rank ih =>
    rcases Bool.eq_false_or_eq_true r.done with hdone | hopen
    · rw [Puller.flow_of_done (m := puller hkdf) hdone, hat.done_eq hdone, restPlaintext,
        append_nil]
      exact ⟨rfl, rfl⟩
    · -- what is pending comes first; the turn behind it goes on to the next position
      have hclear : At hkdf { r with pending := [] } chunkSize before rest i := { hat with }
      obtain ⟨r', before', rest', i', hfill, hat', hplain⟩ := hclear.exists_fill hopen rfl
      have hless : r'.rank < rank :=
        (rank_fill hkdf { r with pending := [] } r' hopen hfill).trans_eq hrank
      obtain ⟨hout, hend⟩ := ih _ hless hat' rfl
      rw [Puller.flow_of_fill (m := puller hkdf) hopen hfill, hout, hplain]
      exact ⟨rfl, hend⟩

/-- No error has been reported. -/
theorem delivers_read (hkdf : SaltedHkdf) :
    Delivers (read hkdf) (fun r => r.err = none) (fun r => ((puller hkdf).flow r).1)
      (fun r => .ofEndWith .other ((puller hkdf).flow r).2.1) := by
  have hfill : ∀ r r' : MpuDecryptReader, r.done = false → r.err = none →
      r.fill hkdf = (none, r') → r'.err = none := by
    intro r r' _ herr hfill
    rw [fill] at hfill
    split at hfill
    · cases hfill
      exact herr
    · split at hfill
      · cases hfill
        exact herr
      · split at hfill <;> cases hfill
        rename_i hchunk
        obtain ⟨-, src, plain, rfl⟩ := decryptNextChunk_eq_none hchunk
        simp only [MpuDecryptReader.advance]
        split <;> split <;> exact herr
  refine (delivers_readServing (puller hkdf) .other _ (fun _ _ h => h) hfill).congr ?_
  intro room r herr
  rw [read, herr]

end MpuDecryptReader

end S3EncryptionGateway.Crypto
