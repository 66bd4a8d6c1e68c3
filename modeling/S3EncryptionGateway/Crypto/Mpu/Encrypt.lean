import S3EncryptionGateway.Library.Delivery
import S3EncryptionGateway.Library.ExactLength
import S3EncryptionGateway.Crypto.Mpu.Manifest

/-!
# Encrypting one part

`MpuEncryptReader` seals a part chunk by chunk.  The nonce of a chunk is derived
from the upload, the part number and the chunk index, and in the current format
its associated data names the object, the binding id, the part and the chunk.  The
length of the plaintext is declared beforehand: a source that ends early or goes on
after it is an error.

## What it writes

The chunks of a part are the pieces of `Script.chunksOf`.  `sealChunks` seals
consecutive ones, so that `partCiphertext` at chunk `i` is what the part still has
from that chunk on (`partCiphertext_of_lt`).  `exists_drain_of_new` says that a
drained encrypter over any source of the plaintext gives the part's ciphertext, of the
length it announced.
-/

namespace S3EncryptionGateway.Crypto

open Encoding Streams List

/-- HKDF-SHA256 with a salt; the last argument is the number of bytes read. -/
abbrev SaltedHkdf := (secret salt info : Bytes) → ℕ → Bytes

variable (hkdf : SaltedHkdf)

def deriveMultipartIv (dek uploadIdHash ivPrefix : Bytes) (partNumber chunkIndex : ℕ) : Bytes :=
  hkdf dek uploadIdHash (ivPrefix ++ bigEndian 4 partNumber ++ bigEndian 4 chunkIndex) nonceSize

/-- What encrypter and readers of one upload agree on: the key material of the nonces and
the identity in the associated data.  Parts of version 1 are not bound to an object. -/
structure MpuFormat where
  dek : Bytes
  uploadIdHash : Bytes
  ivPrefix : Bytes
  object : ObjectContext
  bindingId : Bytes
  bound : Bool

variable {format : MpuFormat}

namespace MpuFormat

def iv (format : MpuFormat) (part chunkIdx : ℕ) : Bytes :=
  deriveMultipartIv hkdf format.dek format.uploadIdHash format.ivPrefix part chunkIdx

def aad (format : MpuFormat) (part chunkIdx : ℕ) : Except CryptoError Bytes :=
  if format.bound then
    buildObjectAad .mpuV2Chunk format.object format.bindingId [part, chunkIdx]
  else .ok []

/-- The object is valid and so is, in the current version, the binding id. -/
structure Valid (format : MpuFormat) : Prop where
  object_valid : format.object.Valid
  bindingId_length : format.bindingId.length = bindingIdSize
  bindingId_ne : format.bound = true → format.bindingId ≠ List.replicate bindingIdSize 0

def chunkAad (format : MpuFormat) (part chunkIdx : ℕ) : Bytes :=
  if format.bound then
    objectAad .mpuV2Chunk format.object format.bindingId [part, chunkIdx]
  else []

theorem Valid.aad_eq (hvalid : format.Valid) (part chunkIdx : ℕ) :
    format.aad part chunkIdx = .ok (format.chunkAad part chunkIdx) := by
  rw [aad, chunkAad]
  split
  · exact buildObjectAad_of_valid hvalid.object_valid hvalid.bindingId_length (by simp)
  · rfl

theorem Valid.validate_eq (hvalid : format.Valid) : format.object.validate = .ok () :=
  (ObjectContext.validate_eq_ok_iff _).mpr hvalid.object_valid

end MpuFormat

structure MpuEncryptReader where
  src : Script UInt8 ℕ
  aead : Aead
  format : MpuFormat
  part : ℕ
  csz : ℕ
  csz_pos : 0 < csz
  /-- the part of `cipherBuf` that has not been read -/
  pending : Bytes
  chunkIdx : ℕ
  srcDone : Bool
  remaining : ℕ
  eof : Bool
  err : Option MpuError

namespace MpuEncryptReader

variable (r : MpuEncryptReader)

def fail (err : MpuError) : Option MpuError × MpuEncryptReader :=
  (some err, { r with err := some err })

/-- The declared length has been read: the source must end here. -/
def finish : Option MpuError × MpuEncryptReader :=
  match r.src.readFull 1 with
  | (extra, err, src) =>
    let r := { r with src := src }
    if extra ≠ [] ∨ err ≠ some .eof then r.fail .sourceTooLong
    else (none, { r with srcDone := true })

/-- One turn of the loop of `Read` once nothing is pending. -/
def fill : Option MpuError × MpuEncryptReader :=
  if r.remaining = 0 then r.finish
  else if maxInt32 ≤ r.chunkIdx then r.fail .chunkIndexOverflow
  else
    match r.src.readFull (min r.csz r.remaining) with
    | (_, some err, src) => { r with src := src }.fail (.readSource err)
    | (data, none, src) =>
      let r := { r with src := src, remaining := r.remaining - data.length }
      match r.format.aad r.part r.chunkIdx with
      | .error err => r.fail (.crypto err)
      | .ok aad =>
        (none, { r with
          pending := r.aead.sealed (r.format.iv hkdf r.part r.chunkIdx) data aad
          chunkIdx := r.chunkIdx + 1 })

def rank : ℕ := if r.srcDone then 0 else r.remaining + 1

/-- A turn fails, finds the end of the source or seals a chunk. -/
theorem fill_cases :
    (∃ err r', r'.err = some err ∧ r.fill hkdf = (some err, r')) ∨
      (∃ src, r.fill hkdf = (none, { r with src := src, srcDone := true })) ∨
      ∃ src pending, r.remaining ≠ 0 ∧ r.fill hkdf = (none, { r with
        src := src
        remaining := r.remaining - min r.csz r.remaining
        pending := pending
        chunkIdx := r.chunkIdx + 1 }) := by
  rw [fill]
  split
  · rw [finish]
    simp only
    split
    · exact .inl ⟨_, _, rfl, rfl⟩
    · exact .inr (.inl ⟨_, rfl⟩)
  split
  · exact .inl ⟨_, _, rfl, rfl⟩
  rename_i hleft _
  split
  · exact .inl ⟨_, _, rfl, rfl⟩
  rename_i data src hread
  simp only
  split
  · exact .inl ⟨_, _, rfl, rfl⟩
  · exact .inr (.inr ⟨src, _, hleft, by rw [(Script.readFull_of_none hread).1]⟩)

theorem rank_fill (r r' : MpuEncryptReader) (hopen : r.srcDone = false)
    (hfill : r.fill hkdf = (none, r')) : r'.rank < r.rank := by
  have hpos := r.csz_pos
  obtain ⟨err, r₁, -, heq⟩ | ⟨src, heq⟩ | ⟨src, pending, hleft, heq⟩ := fill_cases hkdf r
  all_goals cases heq.symm.trans hfill
  · simp [rank, hopen]
  · simp only [rank, hopen, Bool.false_eq_true, if_false]
    omega

/-- The encrypter as a transformer with a pending buffer. -/
def puller : Puller MpuEncryptReader UInt8 MpuError where
  pending := pending
  setPending items r := { r with pending := items }
  done := srcDone
  fill := fill hkdf
  rank := rank
  rank_fill := rank_fill hkdf

/-- `Read` into a buffer of length `room`. -/
def read (room : ℕ) (r : MpuEncryptReader) : ReadResult UInt8 MpuError × MpuEncryptReader :=
  match r.err with
  | some err => (⟨[], some (.other err)⟩, r)
  | none =>
    if r.eof then (⟨[], some .eof⟩, r)
    else
      match (puller hkdf).loop room r with
      | (written, some err, r') => (⟨written, some (.other err)⟩, r')
      | (written, none, r') =>
        if room ≤ written.length then (⟨written, none⟩, r')
        -- the loop was left because the source is done
        else if written ≠ [] then (⟨written, none⟩, { r' with eof := true })
        else (⟨[], some .eof⟩, { r' with eof := true })

end MpuEncryptReader

/-! ## Constructors -/

/-- The chunk size that is used for a configured one. -/
def mpuChunkSize (chunkSize : ℤ) : ℕ :=
  if chunkSize ≤ 0 then defaultChunkSize else chunkSize.toNat

theorem mpuChunkSize_pos (chunkSize : ℤ) : 0 < mpuChunkSize chunkSize := by
  rw [mpuChunkSize]
  split
  · decide
  · omega

theorem mpuChunkSize_natCast {chunkSize : ℕ} (hpos : 0 < chunkSize) :
    mpuChunkSize chunkSize = chunkSize := by
  rw [mpuChunkSize, if_neg (by omega), Int.toNat_natCast]

/-- An encrypter that has not read anything yet. -/
def MpuEncryptReader.start (aead : Aead) (format : MpuFormat) (body : Script UInt8 ℕ) (part : ℕ)
    (chunkSize : ℤ) (plainLen : ℕ) : MpuEncryptReader where
  src := body
  aead := aead
  format := format
  part := part
  csz := mpuChunkSize chunkSize
  csz_pos := mpuChunkSize_pos chunkSize
  pending := []
  chunkIdx := 0
  srcDone := false
  remaining := plainLen
  eof := false
  err := none

variable (createMpuAeadCipher : Bytes → Except MpuError Aead)

/-- The encrypter of one part and the length of the ciphertext it will give.
`createMpuAeadCipher` is the AEAD of the upload's algorithm for a key. -/
def newMpuPartEncryptReader (format : MpuFormat) (body : Script UInt8 ℕ)
    (partNumber chunkSize plainLen : ℤ) : Except MpuError (MpuEncryptReader × ℤ) :=
  match format.object.validate with
  | .error err => .error (.crypto err)
  | .ok () =>
    if partNumber < 1 ∨ maxPartNumber < partNumber ∨ plainLen < 0 ∨
        maxChunkSize < mpuChunkSize chunkSize then .error .invalidPart
    else
      match createMpuAeadCipher format.dek with
      | .error err => .error err
      | .ok aead =>
        let count := mpuChunkCount plainLen (mpuChunkSize chunkSize)
        if maxInt32 < count ∨ ((maxInt64 : ℤ) - plainLen).tdiv tagSize < count then
          .error .lengthOverflow
        else
          .ok (.start aead format body partNumber.toNat chunkSize plainLen.toNat,
            plainLen + count * tagSize)

def newMpuPartEncryptReaderV2 (format : MpuFormat) (body : Script UInt8 ℕ)
    (partNumber chunkSize plainLen : ℤ) : Except MpuError (MpuEncryptReader × ℤ) :=
  match format.object.validate with
  | .error err => .error (.crypto err)
  | .ok () =>
    if format.bindingId = List.replicate bindingIdSize 0 then .error .bindingRequired
    else newMpuPartEncryptReader createMpuAeadCipher { format with bound := true } body partNumber
      chunkSize plainLen

/-- The encrypter of version 1, whose parts are not bound. -/
def newMpuPartEncryptReaderV1 (format : MpuFormat) (body : Script UInt8 ℕ)
    (partNumber chunkSize plainLen : ℤ) : Except MpuError (MpuEncryptReader × ℤ) :=
  newMpuPartEncryptReader createMpuAeadCipher { format with bound := false } body partNumber
    chunkSize plainLen

/-! ## What the encrypter writes -/

def sealChunk (aead : Aead) (format : MpuFormat) (part chunkIdx : ℕ) (chunk : Bytes) : Bytes :=
  aead.sealed (format.iv hkdf part chunkIdx) chunk (format.chunkAad part chunkIdx)

def sealChunks (hkdf : SaltedHkdf) (aead : Aead) (format : MpuFormat) (part : ℕ) :
    ℕ → List Bytes → Bytes
  | _, [] => []
  | chunkIdx, chunk :: chunks =>
    sealChunk hkdf aead format part chunkIdx chunk ++
      sealChunks hkdf aead format part (chunkIdx + 1) chunks

def PlainPart.chunk (chunkSize : ℕ) (part : PlainPart) (i : ℕ) : Bytes :=
  (part.data.drop (i * chunkSize)).take chunkSize

/-- The ciphertext of a part from chunk `i` on. -/
def partCiphertext (aead : Aead) (format : MpuFormat) (chunkSize : ℕ) (part : PlainPart) (i : ℕ) :
    Bytes :=
  sealChunks hkdf aead format part.number i
    (Script.chunksOf chunkSize (part.data.drop (i * chunkSize)))

open Script

open Puller

/-- A chunk is one record, and the others are those of the rest. -/
theorem recordCount_of_pos {n chunkSize : ℕ} (hpos : 0 < chunkSize) (hn : n ≠ 0) :
    recordCount n chunkSize = recordCount (n - chunkSize) chunkSize + 1 := by
  rw [recordCount, if_neg hn, recordCount]
  split
  · rw [Nat.div_eq_of_lt (by omega)]
  · rw [← Nat.add_div_right (n - chunkSize - 1) hpos]
    congr 2
    omega

namespace MpuEncryptReader

variable {hkdf : SaltedHkdf} {r : MpuEncryptReader}

/-- An encrypter between two chunks, over any source. -/
structure Declared (r : MpuEncryptReader) : Prop where
  format_valid : r.format.Valid
  index_le : r.chunkIdx + recordCount r.remaining r.csz ≤ maxInt32
  open_eq : r.srcDone = false
  pending_eq : r.pending = []

/-- Refills that succeed seal the chunks of what was declared.  They do for a source of that
length, and for no other one that repeats its errors. -/
theorem refills_of_declared (hkdf : SaltedHkdf) (hdeclared : Declared r) :
    (((puller hkdf).refills r).2.1 = none → r.remaining ≤ (bytes r.src).length ∧
        ((puller hkdf).refills r).1 = sealChunks hkdf r.aead r.format r.part r.chunkIdx
          (chunksOf r.csz ((bytes r.src).take r.remaining))) ∧
      (Repeats r.src →
        (((puller hkdf).refills r).2.1 = none ↔ EndsAfter r.remaining r.src)) := by
  generalize hn : r.remaining = n
  induction n using Nat.strong_induction_on generalizing r with
  | _ n ih =>
    have hopen := hdeclared.open_eq
    by_cases hleft : r.remaining = 0
    · -- the source has to end here
      rcases hread : r.src.readFull 1 with ⟨extra, err, src⟩
      have hone := @readFull_one_iff _ _ r.src
      rw [hread] at hone
      rw [← hn, hleft, ← hone, take_zero, chunksOf_nil]
      by_cases hmore : extra ≠ [] ∨ err ≠ some .eof
      · have hfill : r.fill hkdf = { r with src := src }.fail .sourceTooLong := by
          rw [fill, if_pos hleft, finish, hread]
          exact if_pos hmore
        rw [refills_of_error hopen hfill]
        refine ⟨by rintro ⟨⟩, fun _ => ⟨by rintro ⟨⟩, ?_⟩⟩
        rintro ⟨rfl, rfl⟩
        simp at hmore
      · have hfill : r.fill hkdf = (none, { r with src := src, srcDone := true }) := by
          rw [fill, if_pos hleft, finish, hread]
          exact if_neg hmore
        rw [refills_of_fill hopen hfill, flow_of_done rfl]
        rw [not_or, not_not, not_not] at hmore
        exact ⟨fun _ => ⟨Nat.zero_le _, hdeclared.pending_eq⟩, fun _ => iff_of_true rfl hmore⟩
    have hpos := r.csz_pos
    have hindex := hdeclared.index_le
    rw [recordCount_of_pos hpos hleft] at hindex
    rcases hread : r.src.readFull (min r.csz r.remaining) with ⟨data, err, src⟩
    have hends := @endsAfter_readFullLoop _ _ (min r.csz r.remaining) r.remaining r.src []
      (Nat.zero_le _) (by simp)
    rw [← readFull, hread] at hends
    cases err with
    | some err =>
      have hfill : r.fill hkdf = { r with src := src }.fail (.readSource err) := by
        rw [fill, if_neg hleft, if_neg (by omega), hread]
      rw [refills_of_error hopen hfill, ← hn]
      exact ⟨by rintro ⟨⟩, fun hrepeats => iff_of_false (by rintro ⟨⟩) (hends hrepeats)⟩
    | none =>
      obtain ⟨hlen, hdata, hbytes⟩ := readFull_of_none hread
      have hrest : r.remaining - data.length = r.remaining - r.csz := by omega
      have hfill : r.fill hkdf = (none, { r with
          src := src
          remaining := r.remaining - data.length
          pending := sealChunk hkdf r.aead r.format r.part r.chunkIdx data
          chunkIdx := r.chunkIdx + 1 }) := by
        rw [fill, if_neg hleft, if_neg (by omega), hread]
        simp only [hdeclared.format_valid.aad_eq]
        rfl
      obtain ⟨hwritten, hiff⟩ := @ih (r.remaining - data.length) (by omega) { r with
          src := src
          remaining := r.remaining - data.length
          pending := []
          chunkIdx := r.chunkIdx + 1 }
        ⟨hdeclared.format_valid, by simp only [hrest]; omega, hopen, rfl⟩ rfl
      rw [refills_of_fill hopen hfill, ← hn]
      refine ⟨fun hok => ?_, fun hrepeats => ?_⟩
      · obtain ⟨hle, hout⟩ := hwritten hok
        have hgot := congrArg length hdata
        simp only [hbytes, length_drop, length_take] at hle hgot
        refine ⟨by omega, ?_⟩
        have hsplit : (bytes r.src).take r.remaining =
            data ++ (bytes src).take (r.remaining - data.length) := by
          conv_lhs => rw [show r.remaining = min r.csz r.remaining + (r.remaining - data.length) by
            omega, take_add, ← hdata, ← hbytes]
        rw [hsplit, chunksOf_append hpos (ne_nil_of_length_pos (by omega)) (by omega)]
        · exact congrArg (_ ++ ·) hout
        · by_cases hlast : r.remaining ≤ r.csz
          · exact .inr (by rw [show r.remaining - data.length = 0 by omega, take_zero])
          · exact .inl (by omega)
      · obtain ⟨hnext, hsame⟩ := hends hrepeats
        rw [hsame, length_nil, Nat.zero_add, ← hlen]
        exact hiff hnext

/-! ### Draining the encrypter -/

/-- No error has been reported, and end-of-file only at the end. -/
structure Readable (r : MpuEncryptReader) : Prop where
  err_eq : r.err = none
  ended : r.eof = true → r.srcDone = true ∧ r.pending = []

theorem err_eof_of_loop {room : ℕ} (hok : ((puller hkdf).loop room r).2.1 = none) :
    ((puller hkdf).loop room r).2.2.err = r.err ∧
      ((puller hkdf).loop room r).2.2.eof = r.eof := by
  refine loop_invariant (fun s => s.err = r.err ∧ s.eof = r.eof) (fun _ _ h => h) ?_ room r
    ⟨rfl, rfl⟩ hok
  intro s s' _ hinv hfill
  obtain ⟨err, r₁, -, heq⟩ | ⟨src, heq⟩ | ⟨src, pending, -, heq⟩ := fill_cases hkdf s
  all_goals cases heq.symm.trans hfill
  all_goals exact hinv

theorem delivers_read (hkdf : SaltedHkdf) :
    Delivers (read hkdf) Readable (fun r => ((puller hkdf).flow r).1)
      (fun r => .ofEnd ((puller hkdf).flow r).2.1) := by
  refine .of_cases fun room r hinv => ?_
  have hflow := (puller hkdf).loop_flow room r
  rw [read, hinv.err_eq]
  simp only
  split
  · rename_i heof
    obtain ⟨hdone, hnil⟩ := hinv.ended heof
    rw [flow_of_done (m := puller hkdf) hdone, show (puller hkdf).pending r = [] from hnil]
    exact .inl ⟨r, rfl⟩
  rename_i hopen
  split
  · rename_i written err r₁ hloop
    rw [hloop] at hflow
    rw [hflow]
    exact .inl ⟨r₁, rfl⟩
  rename_i written r₁ hloop
  obtain ⟨herr, heof⟩ := @err_eof_of_loop hkdf r room (by rw [hloop])
  have hfills := loop_fills room r (congrArg (fun res => res.2.1) hloop)
  rw [hloop] at hflow herr heof hfills
  simp only at hflow herr heof hfills
  rw [hflow]
  split
  · -- the buffer is full
    rename_i hroom
    have hrunning : r₁.eof = false := heof.trans (by simpa using hopen)
    refine .inr ⟨written, r₁, rfl, ⟨herr.trans hinv.err_eq, fun h => by simp [hrunning] at h⟩,
      rfl, rfl, ?_⟩
    rintro hpos rfl
    exact absurd hroom (not_le.mpr hpos)
  -- the source is done
  rename_i hroom
  obtain ⟨hdone, hnil⟩ := hfills.resolve_left fun hlen => hroom hlen.ge
  rw [flow_of_done (m := puller hkdf) hdone, hnil]
  split_ifs with hwritten
  · have hend := flow_of_done (m := puller hkdf) (s := { r₁ with eof := true }) hdone
    rw [show (puller hkdf).pending { r₁ with eof := true } = [] from hnil] at hend
    refine .inr ⟨written, _, rfl, ⟨herr.trans hinv.err_eq, fun _ => ⟨hdone, hnil⟩⟩, ?_, ?_,
      fun _ => hwritten⟩
    · rw [hend]
    · rw [hend]
  · rw [not_not.mp hwritten]
    exact .inl ⟨_, rfl⟩

end MpuEncryptReader

/-! ## The ciphertext of a part -/

namespace PlainPart

variable {part : PlainPart} {chunkSize i : ℕ}

theorem length_chunk (chunkSize : ℕ) (part : PlainPart) (i : ℕ) :
    (part.chunk chunkSize i).length = min chunkSize (part.data.length - i * chunkSize) := by
  rw [chunk, length_take, length_drop]

theorem length_chunk_of_lt (hpos : 0 < chunkSize) (hlt : i + 1 < part.chunkCount chunkSize) :
    (part.chunk chunkSize i).length = chunkSize := by
  rw [lt_chunkCount_iff hpos, Nat.succ_mul] at hlt
  rw [length_chunk]
  omega

theorem chunk_of_last (hpos : 0 < chunkSize) (hlast : i + 1 = part.chunkCount chunkSize) :
    part.chunk chunkSize i = part.data.drop (i * chunkSize) := by
  have hend := (lt_chunkCount_iff hpos (i + 1)).not.mp hlast.not_lt
  rw [Nat.succ_mul] at hend
  rw [chunk, take_of_length_le]
  rw [length_drop]
  omega

theorem chunk_append_drop (chunkSize : ℕ) (part : PlainPart) (i : ℕ) :
    part.chunk chunkSize i ++ part.data.drop ((i + 1) * chunkSize) =
      part.data.drop (i * chunkSize) := by
  rw [chunk, Nat.succ_mul, ← drop_drop, take_append_drop]

end PlainPart

section PartCiphertext

variable {hkdf : SaltedHkdf} {aead : Aead} {format : MpuFormat} {chunkSize : ℕ} {part : PlainPart}

theorem partCiphertext_of_le (hpos : 0 < chunkSize) {i : ℕ}
    (hle : part.chunkCount chunkSize ≤ i) :
    partCiphertext hkdf aead format chunkSize part i = [] := by
  have hend : part.data.length ≤ i * chunkSize :=
    not_lt.mp ((PlainPart.lt_chunkCount_iff hpos i).not.mp (not_lt.mpr hle))
  rw [partCiphertext, drop_eq_nil_of_le hend, chunksOf_nil]
  rfl

/-- The ciphertext from chunk `i` on begins with that chunk. -/
theorem partCiphertext_of_lt (hpos : 0 < chunkSize) {i : ℕ}
    (hlt : i < part.chunkCount chunkSize) :
    partCiphertext hkdf aead format chunkSize part i =
      sealChunk hkdf aead format part.number i (part.chunk chunkSize i) ++
        partCiphertext hkdf aead format chunkSize part (i + 1) := by
  rw [PlainPart.lt_chunkCount_iff hpos] at hlt
  have hne : part.data.drop (i * chunkSize) ≠ [] := by
    rw [ne_eq, drop_eq_nil_iff]
    omega
  rw [partCiphertext, chunksOf_of_ne_nil hpos hne, sealChunks, partCiphertext,
    drop_drop, Nat.succ_mul, PlainPart.chunk]

variable (hlength : ∀ nonce plaintext aad,
  (aead.sealed nonce plaintext aad).length = plaintext.length + tagSize)

include hlength

theorem length_sealChunk (number chunkIdx : ℕ) (chunk : Bytes) :
    (sealChunk hkdf aead format number chunkIdx chunk).length = chunk.length + tagSize :=
  hlength _ _ _

theorem length_sealChunks (number chunkIdx : ℕ) (chunks : List Bytes) :
    (sealChunks hkdf aead format number chunkIdx chunks).length =
      chunks.flatten.length + chunks.length * tagSize := by
  induction chunks generalizing chunkIdx with
  | nil => simp [sealChunks]
  | cons chunk chunks ih =>
    rw [sealChunks, length_append, length_sealChunk hlength, ih, flatten_cons,
      length_append, length_cons, Nat.succ_mul]
    omega

/-- A part's ciphertext has the length the manifest records. -/
theorem length_partCiphertext (hpos : 0 < chunkSize) :
    (partCiphertext hkdf aead format chunkSize part 0).length = part.encLen chunkSize := by
  rw [partCiphertext, length_sealChunks hlength, flatten_chunksOf hpos,
    length_chunksOf hpos, Nat.zero_mul, drop_zero]
  rfl

/-- Full chunks have a fixed length, so the ciphertext from chunk `i` on begins where `i`
of them end. -/
theorem drop_partCiphertext (hpos : 0 < chunkSize) {i : ℕ}
    (hlt : i < part.chunkCount chunkSize) :
    (partCiphertext hkdf aead format chunkSize part 0).drop (i * (chunkSize + tagSize)) =
      partCiphertext hkdf aead format chunkSize part i := by
  induction i with
  | zero => rw [Nat.zero_mul, drop_zero]
  | succ i ih =>
    rw [Nat.succ_mul, ← drop_drop, ih (by omega), partCiphertext_of_lt hpos (by omega),
      drop_left']
    rw [length_sealChunk hlength, PlainPart.length_chunk_of_lt hpos hlt]

end PartCiphertext

/-! ## Encrypting a part -/

/-- When a part is accepted, and with which encrypter. -/
theorem newMpuPartEncryptReader_eq_ok_iff {createMpuAeadCipher : Bytes → Except MpuError Aead}
    (hformat : format.Valid) {aead : Aead} (hcipher : createMpuAeadCipher format.dek = .ok aead)
    {chunkSize : ℕ} (hpos : 0 < chunkSize) (hmax : chunkSize ≤ maxChunkSize) {part : PlainPart}
    (hone : 1 ≤ part.number) (hlast : part.number ≤ maxPartNumber) (body : Script UInt8 ℕ)
    {result : MpuEncryptReader × ℤ} :
    newMpuPartEncryptReader createMpuAeadCipher format body part.number chunkSize
        part.data.length = .ok result ↔
      part.chunkCount chunkSize ≤ maxInt32 ∧ part.encLen chunkSize ≤ maxInt64 ∧
        result = (.start aead format body part.number chunkSize part.data.length,
          (part.encLen chunkSize : ℤ)) := by
  have henc : part.encLen chunkSize = part.data.length + part.chunkCount chunkSize * 16 := rfl
  have hcount : recordCount part.data.length chunkSize = part.chunkCount chunkSize := rfl
  have hsome : part.data.length ≠ 0 → 0 < part.chunkCount chunkSize := by
    intro hne
    rw [PlainPart.lt_chunkCount_iff hpos]
    omega
  -- the quotient is at least the count exactly if there is room for all tags
  have hroom : ((maxInt64 : ℤ) - part.data.length).tdiv tagSize < part.chunkCount chunkSize ↔
      maxInt64 < part.encLen chunkSize := by
    rcases le_or_gt (part.data.length : ℤ) maxInt64 with hshort | hlong
    · rw [Int.tdiv_eq_ediv_of_nonneg (by omega), show (tagSize : ℤ) = 16 from rfl]
      omega
    · have hneg := Int.tdiv_nonneg (sub_nonneg.mpr hlong.le) (Int.natCast_nonneg tagSize)
      have := hsome (by omega)
      rw [← neg_sub, Int.neg_tdiv]
      omega
  rw [newMpuPartEncryptReader, hformat.validate_eq]
  simp only [mpuChunkSize_natCast hpos, hcipher, mpuChunkCount_natCast hpos, hcount, hroom]
  rw [if_neg (by omega)]
  split_ifs with hfits
  · refine iff_of_false nofun ?_
    rintro ⟨hfew, hshort, -⟩
    omega
  · rw [Except.ok.injEq, henc, Int.toNat_natCast, Int.toNat_natCast, eq_comm]
    exact ⟨fun hresult => ⟨by omega, by omega, hresult⟩, fun hresult => hresult.2.2⟩

/-- An encrypter at its start, drained, gives the ciphertext of the part. -/
theorem MpuEncryptReader.drain_start (hkdf : SaltedHkdf) (aead : Aead) (hformat : format.Valid)
    {chunkSize : ℕ} (hpos : 0 < chunkSize) {part : PlainPart}
    (hcount : part.chunkCount chunkSize ≤ maxInt32) {body : Script UInt8 ℕ}
    (hclean : Script.Clean body) (hbody : bytes body = part.data) {sizes : ℕ → ℕ}
    (hkeeps : KeepsReading sizes) :
    ∃ fuel r', drain (read hkdf) sizes fuel
        (.start aead format body part.number chunkSize part.data.length) =
      (partCiphertext hkdf aead format chunkSize part 0, some .eof, r') := by
  have hsize := mpuChunkSize_natCast hpos
  have hdeclared : Declared (.start aead format body part.number chunkSize part.data.length) := by
    refine ⟨hformat, ?_, rfl, rfl⟩
    show 0 + recordCount part.data.length (mpuChunkSize chunkSize) ≤ maxInt32
    rw [hsize, Nat.zero_add]
    exact hcount
  obtain ⟨hwritten, hiff⟩ := refills_of_declared hkdf hdeclared
  obtain ⟨hrepeats, hends⟩ := hclean.endsAfter
  have hend := (hiff hrepeats).mpr (by rwa [hbody] at hends)
  obtain ⟨-, hout⟩ := hwritten hend
  obtain ⟨fuel, r', hdrain⟩ := (delivers_read hkdf).drain
    (s := .start aead format body part.number chunkSize part.data.length)
    ⟨rfl, nofun⟩ hkeeps
  refine ⟨fuel, r', hdrain.trans ?_⟩
  rw [flow_of_pending_eq_nil rfl, hout, hend, partCiphertext, Nat.zero_mul, drop_zero]
  simp only [start, hsize, hbody, take_length]
  rfl

end S3EncryptionGateway.Crypto
