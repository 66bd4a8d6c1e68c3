import S3EncryptionGateway.Crypto.Chunked.Written

/-!
# Ranged reads of chunked objects

`RangeDecryptReader` opens the records that a plaintext range touches, cuts the first and the
last of them, and hands out at most as many bytes as the range has.  Its source is either the
whole ciphertext, over whose beginning it skips, or the slice that was planned.

## Strategy

* **Turns.**  The reader is a `Streams.Puller`.  `Walking` says that the source holds the
  ciphertext from the current record on, at least to the end of the last record of the range.
  One turn opens the current record (`Walking.fill_eq`).  The expected length of a record is its
  length; only in version 1 a full record is asked for where the last one is short, and the end
  of the source cuts it.
* **Too much.**  Where the range begins and ends in one record, the cut at the end counts from
  the cut at the beginning and may leave too much.  So `flow_walking` only says that what comes
  out begins with the range.
* **The budget.**  `Read` bounds what it copies by what is left of the range, so the surplus is
  never handed out (`delivers_read`).
-/

namespace S3EncryptionGateway.Crypto

set_option linter.unusedVariables false

open Encoding Streams Slices List

/-- The part of the reader that its refills work on. -/
structure RangeCursor where
  source : Script UInt8 CryptoError
  aead : Aead
  manifest : ChunkManifest
  baseIv : Bytes
  chunkSize : ℕ
  plaintextStart : ℤ
  plaintextEnd : ℤ
  range : ChunkRange
  currentChunk : Bytes
  currentChunkIndex : ℕ
  closed : Bool
  err : Option RangeError
  /-- Negative if it is not known. -/
  plaintextSize : ℤ
  object : ObjectContext
  bindingId : Bytes
  boundV2 : Bool

structure RangeDecryptReader extends RangeCursor where
  bytesReturned : ℕ

variable (hkdf : Hkdf)

namespace RangeCursor

variable (r : RangeCursor)

def fail (err : RangeError) : Option RangeError × RangeCursor :=
  (some err, { r with err := some err })

def deriveChunkIv (chunkIndex : ℕ) : Except CryptoError Bytes :=
  if r.manifest.version = chunkedFormatV2 then
    deriveChunkNonceHkdf hkdf r.baseIv chunkedFormatV2 chunkIndex
  else
    match r.manifest.ivDerivation with
    | .legacyXor => deriveLegacyChunkIvIndex r.baseIv chunkIndex
    | .hkdfSha256 => deriveChunkIvHkdfIndex hkdf r.baseIv chunkIndex

/-- Nonce and associated data of the current record. -/
def nonceAndAad : Except CryptoError (Bytes × Bytes) := do
  let chunkIv ← r.deriveChunkIv hkdf r.currentChunkIndex
  if r.manifest.version = chunkedFormatV2 then
    if r.boundV2 then
      let aad ← buildObjectAad .chunkedV2Data r.object r.bindingId [r.currentChunkIndex]
      return (chunkIv, aad)
    else return (chunkIv, buildChunkAad chunkedFormatV2 r.currentChunkIndex)
  else return (chunkIv, [])

/-- The length of the current record; the last one of version 2 may be shorter. -/
def expectedSize : Except RangeError ℕ :=
  if r.manifest.version = chunkedFormatV2 ∧ r.currentChunkIndex = r.manifest.chunkCount - 1 ∧
      (r.boundV2 = true ∨ 0 ≤ r.plaintextSize) then
    if r.plaintextSize < 0 ∧ r.boundV2 = true then .error .finalSizeUnknown
    else if r.chunkSize = 0 ∨ maxInt64 / r.chunkSize < r.currentChunkIndex then
      .error .finalOffsetOverflow
    else
      let finalPlainSize := r.plaintextSize - (r.currentChunkIndex * r.chunkSize : ℕ)
      if 0 < finalPlainSize ∧ finalPlainSize < r.chunkSize then
        .ok (finalPlainSize.toNat + tagSize)
      else .ok (r.chunkSize + tagSize)
  else .ok (r.chunkSize + tagSize)

/-- The part of an opened record that is in the range, as far as the offsets tell. -/
def trim (plaintext : Bytes) : Bytes :=
  let chunkData :=
    if r.currentChunkIndex = r.range.startChunk then plaintext.drop r.range.startOffset
    else plaintext
  if r.currentChunkIndex = r.range.endChunk ∧ r.range.endOffset < chunkData.length then
    chunkData.take (r.range.endOffset + 1)
  else chunkData

def openRecord (record : Bytes) : Option RangeError × RangeCursor :=
  match r.nonceAndAad hkdf with
  | .error err => r.fail (.crypto err)
  | .ok (nonce, aad) =>
    match r.aead.opened nonce record aad with
    | none => r.fail (.crypto (.decryptChunk r.currentChunkIndex))
    | some plaintext =>
      if r.currentChunkIndex = r.range.startChunk ∧
          plaintext.length ≤ r.range.startOffset then
        r.fail (.startOffset r.range.startOffset plaintext.length)
      else
        (none, { r with
          currentChunk := r.currentChunk ++ r.trim plaintext
          currentChunkIndex := r.currentChunkIndex + 1 })

/-- One turn of the loop of `Read` once nothing is pending. -/
def fill : Option RangeError × RangeCursor :=
  if r.range.endChunk < r.currentChunkIndex then (none, { r with closed := true })
  else
    match r.expectedSize with
    | .error err => r.fail err
    | .ok expectedSize =>
      match r.source.readFull expectedSize with
      | (_, some (.other err), source) => { r with source := source }.fail (.crypto err)
      | (data, some .eof, source) =>
        if data = [] then (none, { r with source := source, closed := true })
        else { r with source := source }.openRecord hkdf data
      | (data, some .unexpectedEof, source) =>
        -- without a binding nothing overwrites the error of the read before it is checked
        if r.manifest.version = chunkedFormatV2 ∧ r.boundV2 = false then
          { r with source := source }.fail .unexpectedEof
        else { r with source := source }.openRecord hkdf data
      | (data, none, source) => { r with source := source }.openRecord hkdf data

/-- Refills left: one for each record and one to find the end. -/
def rank : ℕ :=
  if r.closed then 0 else r.range.endChunk + 1 - r.currentChunkIndex + 1

/-- What a turn that goes on can do: close the reader, or open a record. -/
theorem fill_cases {hkdf : Hkdf} {r r' : RangeCursor} (hfill : r.fill hkdf = (none, r')) :
    (∃ source, r' = { r with source := source, closed := true }) ∨
      (r.currentChunkIndex ≤ r.range.endChunk ∧ ∃ source data, r' = { r with
        source := source
        currentChunk := r.currentChunk ++ data
        currentChunkIndex := r.currentChunkIndex + 1 }) := by
  have hopen : ∀ {source : Script UInt8 CryptoError} {record : Bytes},
      { r with source := source }.openRecord hkdf record = (none, r') →
      ∃ source data, r' = { r with
        source := source
        currentChunk := r.currentChunk ++ data
        currentChunkIndex := r.currentChunkIndex + 1 } := by
    intro source record hrecord
    simp only [openRecord, fail] at hrecord
    split at hrecord
    · cases hrecord
    split at hrecord
    · cases hrecord
    split at hrecord <;> cases hrecord
    exact ⟨source, _, rfl⟩
  rw [fill] at hfill
  split at hfill
  · cases hfill
    exact .inl ⟨r.source, rfl⟩
  · rename_i hinside
    have hle := not_lt.mp hinside
    split at hfill
    · cases hfill
    split at hfill
    · cases hfill
    · rename_i source hread
      split at hfill
      · cases hfill
        exact .inl ⟨source, rfl⟩
      · exact .inr ⟨hle, hopen hfill⟩
    · split at hfill
      · cases hfill
      · exact .inr ⟨hle, hopen hfill⟩
    · exact .inr ⟨hle, hopen hfill⟩

theorem rank_fill (r r' : RangeCursor) (hopen : r.closed = false) (hfill : r.fill hkdf =
    (none, r')) : r'.rank < r.rank := by
  rcases fill_cases hfill with ⟨source, rfl⟩ | ⟨hle, source, data, rfl⟩
  · simp [rank, hopen]
  · simp only [rank, hopen, Bool.false_eq_true, if_false]
    omega

/-- The reader as a transformer with a pending buffer. -/
def puller : Puller RangeCursor UInt8 RangeError where
  pending := currentChunk
  setPending items r := { r with currentChunk := items }
  done := closed
  fill := fill hkdf
  rank := rank
  rank_fill := rank_fill hkdf

end RangeCursor

open Puller

open RangeCursor

namespace RangeDecryptReader

def left (r : RangeDecryptReader) : ℕ :=
  (r.plaintextEnd - r.plaintextStart + 1 - r.bytesReturned).toNat

/-- `Read` into a buffer of length `room`.  Both the condition of its loop and each copy bound
what is handed out by the room and by what is left of the range.  The byte that completes the
range is reported together with the end. -/
def read (room : ℕ) (r : RangeDecryptReader) : ReadResult UInt8 RangeError × RangeDecryptReader :=
  if r.closed then (⟨[], some .eof⟩, r)
  else
    match r.err with
    | some err => (⟨[], some (.other err)⟩, r)
    | none =>
      match (RangeCursor.puller hkdf).loop (min room r.left) r.toRangeCursor with
      | (written, some err, cursor) =>
        (⟨written, some (.other err)⟩, ⟨cursor, r.bytesReturned + written.length⟩)
      | (written, none, cursor) =>
        let r' : RangeDecryptReader := ⟨cursor, r.bytesReturned + written.length⟩
        if written ≠ [] ∧ r'.left = 0 then
          (⟨written, some .eof⟩, ⟨{ cursor with closed := true }, r'.bytesReturned⟩)
        else if r'.closed ∧ written = [] then (⟨[], some .eof⟩, r')
        else (⟨written, none⟩, r')

/-! ## `Read` hands out the beginning of the flow -/

section Read

variable {hkdf : Hkdf} {r r' : RangeDecryptReader} {room : ℕ}

/-- Everything the refills of a reader would produce, and how they end. -/
def flow (hkdf : Hkdf) (r : RangeDecryptReader) : Bytes × Option RangeError × RangeCursor :=
  (RangeCursor.puller hkdf).flow r.toRangeCursor

/-- What the reader still has to give. -/
def rest (hkdf : Hkdf) (r : RangeDecryptReader) : Bytes :=
  if r.closed then [] else (r.flow hkdf).1.take r.left

/-- A reader that has not failed, and has more to give unless it is closed. -/
structure Running (r : RangeDecryptReader) : Prop where
  err_eq : r.err = none
  left_pos : r.closed = false → 0 < r.left

/-- What the reader reports behind the bytes it still has. -/
def ending (hkdf : Hkdf) (r : RangeDecryptReader) : ReadError RangeError :=
  if r.closed = true ∨ r.left ≤ (r.flow hkdf).1.length then .eof
  else .ofEnd (r.flow hkdf).2.1

variable {cursor : RangeCursor}

theorem left_advance (hstart : cursor.plaintextStart = r.plaintextStart)
    (hend : cursor.plaintextEnd = r.plaintextEnd) (count : ℕ) :
    (⟨cursor, r.bytesReturned + count⟩ : RangeDecryptReader).left = r.left - count := by
  simp only [left, hstart, hend]
  omega

theorem read_of_closed (hclosed : r.closed = true) :
    r.read hkdf room = (⟨[], some .eof⟩, r) := by
  rw [read, if_pos hclosed]

variable {written : Bytes}

/-- A run of the loop that fails has handed out the whole flow, which is short. -/
theorem flow_of_loop_error (hopen : r.closed = false) {err : RangeError}
    (hloop : (puller hkdf).loop (min room r.left) r.toRangeCursor =
      (written, some err, cursor)) : r.rest hkdf = written ∧ r.ending hkdf = .other err := by
  have hflow := loop_flow (m := puller hkdf) (min room r.left) r.toRangeCursor
  have hlt := loop_length_lt_of_error (m := puller hkdf)
    (s := r.toRangeCursor) (congrArg (fun result => result.2.1) hloop)
  rw [hloop] at hflow hlt
  replace hflow : r.flow hkdf = (written, some err, cursor) := hflow
  replace hlt : written.length < min room r.left := hlt
  have hshort : ¬r.left ≤ written.length := by omega
  have htake : written.take r.left = written := take_of_length_le (by omega)
  simp only [rest, ending, hflow, htake, hopen, Bool.false_eq_true, false_or, if_false,
    if_neg hshort]
  exact ⟨trivial, rfl⟩

section

variable (hrunning : r.Running) (hopen : r.closed = false)
    (hloop : (RangeCursor.puller hkdf).loop (min room r.left) r.toRangeCursor =
      (written, none, cursor))

include hrunning hopen hloop

/-- A run of the loop that goes on: what it took, and the cursor it leaves. -/
theorem flow_of_loop :
    written = (r.flow hkdf).1.take (min room r.left) ∧
      (puller hkdf).flow cursor = ((r.flow hkdf).1.drop (min room r.left), (r.flow hkdf).2) ∧
      cursor.plaintextStart = r.plaintextStart ∧ cursor.plaintextEnd = r.plaintextEnd ∧
      cursor.err = none ∧
      (cursor.closed = true → (puller hkdf).flow cursor =
        ([], none, { cursor with currentChunk := [] })) ∧
      (cursor.closed = false → written.length = min room r.left) := by
  have hok : ((puller hkdf).loop (min room r.left) r.toRangeCursor).2.1 = none := by
    rw [hloop]
  have hflow := loop_flow (m := puller hkdf) (min room r.left) r.toRangeCursor
  obtain ⟨htake, hdrop⟩ := loop_take (min room r.left) r.toRangeCursor hok
  obtain ⟨hstart, hend, herr⟩ := loop_invariant (m := puller hkdf)
    (fun s => s.plaintextStart = r.plaintextStart ∧ s.plaintextEnd = r.plaintextEnd ∧
      s.err = r.err) (fun _ _ hs => hs)
    (fun s s' _ hs hfill => by
      rcases fill_cases hfill with ⟨source, rfl⟩ | ⟨-, source, data, rfl⟩ <;> exact hs)
    (min room r.left) r.toRangeCursor ⟨rfl, rfl, rfl⟩ hok
  have hpending := pending_of_loop_done (m := puller hkdf)
    (s := r.toRangeCursor) (fun s s' hopen hpending hfill hclosed => by
      rcases fill_cases hfill with ⟨source, rfl⟩ | ⟨-, source, data, rfl⟩
      · exact hpending
      · exact absurd (hopen.symm.trans hclosed) (by decide))
    (.inl hopen) hok
  have hfills := loop_fills (m := puller hkdf) (min room r.left)
    r.toRangeCursor hok
  rw [hloop] at hflow htake hdrop hstart hend herr hpending hfills
  refine ⟨htake, Prod.ext hdrop ?_, hstart, hend, herr.trans hrunning.err_eq, ?_, ?_⟩
  · exact (congrArg (fun result => result.2) hflow).symm
  · intro hclosed
    have hnil : cursor.currentChunk = [] := hpending hclosed
    have hdone := flow_of_done (m := puller hkdf) (s := cursor) hclosed
    rw [show (puller hkdf).pending cursor = [] from hnil] at hdone
    exact hdone
  · intro hclosed
    refine hfills.resolve_right ?_
    rintro ⟨hdone, -⟩
    exact absurd (hclosed.symm.trans hdone) (by decide)

/-- The reader that a `Read` which goes on leaves has the rest of what the reader had. -/
theorem rest_of_loop :
    r.rest hkdf =
        written ++ rest hkdf ⟨cursor, r.bytesReturned + written.length⟩ ∧
      ending hkdf ⟨cursor, r.bytesReturned + written.length⟩ = r.ending hkdf := by
  obtain ⟨htake, hflow, hstart, hend, -, hclosed, hfull⟩ := flow_of_loop hrunning hopen hloop
  have hleft := left_advance hstart hend written.length
  have hlen := congrArg List.length htake
  rw [length_take] at hlen
  have hnext : flow hkdf ⟨cursor, r.bytesReturned + written.length⟩ =
      ((r.flow hkdf).1.drop (min room r.left), (r.flow hkdf).2) := hflow
  simp only [rest, ending, hopen, hleft, Bool.false_eq_true, false_or, if_false]
  cases hended : cursor.closed with
  | true =>
    -- the flow is used up
    rw [hclosed hended] at hflow
    have hdrop := (congrArg Prod.fst hflow).symm
    have hends := (congrArg (fun result => result.2.1) hflow).symm
    simp only at hdrop hends
    rw [drop_eq_nil_iff] at hdrop
    simp only [true_or, if_true, append_nil, hends]
    refine ⟨?_, by split <;> rfl⟩
    rw [htake, take_of_length_le hdrop, take_of_length_le (by omega)]
  | false =>
    have hcount := hfull hended
    simp only [Bool.false_eq_true, false_or, if_false, hnext, length_drop]
    constructor
    · rw [hcount, htake, ← take_add]
      congr 1
      omega
    · congr 1
      simp only [eq_iff_iff]
      omega

end

/-- What one `Read` does: it hands out the rest and the ending, or some of it. -/
theorem Running.read_cases (hrunning : r.Running) (hkdf : Hkdf) (room : ℕ) :
    (∃ r', r.read hkdf room = (⟨r.rest hkdf, some (r.ending hkdf)⟩, r')) ∨
      ∃ data r', r.read hkdf room = (⟨data, none⟩, r') ∧ r'.Running ∧
        r.rest hkdf = data ++ r'.rest hkdf ∧ r'.ending hkdf = r.ending hkdf ∧
        (0 < room → data ≠ []) := by
  cases hopen : r.closed with
  | true =>
    rw [read_of_closed hopen, rest, if_pos hopen, ending, if_pos (.inl hopen)]
    exact .inl ⟨r, rfl⟩
  | false =>
    have hpos := hrunning.left_pos hopen
    rcases hloop : (puller hkdf).loop (min room r.left) r.toRangeCursor with
      ⟨written, failed, cursor⟩
    cases failed with
    | some failed =>
      obtain ⟨hrest, hending⟩ := flow_of_loop_error hopen hloop
      rw [read, if_neg (by simp [hopen]), hrunning.err_eq, hrest, hending]
      simp only [hloop]
      exact .inl ⟨_, rfl⟩
    | none =>
      obtain ⟨htake, hflow, hstart, hend, herr, hclosed, hfull⟩ :=
        flow_of_loop hrunning hopen hloop
      obtain ⟨hrest, hending⟩ := rest_of_loop hrunning hopen hloop
      have hlen := congrArg List.length htake
      rw [length_take] at hlen
      rw [read, if_neg (by simp [hopen]), hrunning.err_eq]
      simp only [hloop]
      rw [left_advance hstart hend]
      split_ifs with hcomplete hnothing
      · -- the range is complete
        have hall : min room r.left = r.left := by omega
        rw [rest, if_neg (by simp [hopen]), ending, if_pos (.inr (by omega)), ← hall, ← htake]
        exact .inl ⟨_, rfl⟩
      · -- the flow has ended with nothing handed out
        obtain ⟨hdone, hnil⟩ := hnothing
        rw [← hending, ending, if_pos (.inl hdone), hrest, hnil, rest, if_pos hdone]
        exact .inl ⟨_, rfl⟩
      · refine .inr ⟨_, _, rfl, ⟨herr, fun hmore => ?_⟩, hrest, hending, fun hroom hnil => ?_⟩
        · rw [left_advance hstart hend]
          have hcount := hfull hmore
          by_contra hzero
          refine hcomplete ⟨?_, by omega⟩
          rw [← length_pos_iff]
          omega
        · refine hnothing ⟨?_, hnil⟩
          by_contra hmore
          have hcount := hfull (by simpa using hmore)
          rw [hnil, length_nil] at hcount
          omega

/-- **What any reader hands out**: the beginning of its flow, as far as the range goes. -/
theorem delivers_read (hkdf : Hkdf) : Delivers (read hkdf) Running (rest hkdf) (ending hkdf) :=
  .of_cases fun room _ hrunning => hrunning.read_cases hkdf room

end Read

end RangeDecryptReader

/-! ## The constructors -/

variable (source : Script UInt8 CryptoError)

/-- Discard what is in front of record `startChunk`. -/
def skipTo (startChunk chunkSize : ℕ) : Except RangeError (Script UInt8 CryptoError) :=
  let encryptedChunkSize := chunkSize + tagSize
  if maxInt64 / encryptedChunkSize < startChunk then .error .chunkRangeOverflow
  else
    match source.readFull (startChunk * encryptedChunkSize) with
    | (_, none, source) => .ok source
    | (_, some (.other err), _) => .error (.skipFailed err)
    | (_, some _, _) => .error (.skipEnded startChunk)

/-- A source that was cut to the range is already at its first record. -/
def position (isOptimizedSource : Bool) (startChunk chunkSize : ℕ) :
    Except RangeError (Script UInt8 CryptoError) :=
  if isOptimizedSource = false ∧ 0 < startChunk then skipTo source startChunk chunkSize
  else .ok source

def newRangeDecryptReader (aead : Aead) (manifest : Option ChunkManifest) (baseIv : Bytes)
    (plaintextStart plaintextEnd : ℤ) (isOptimizedSource : Bool) (plaintextSize : ℤ) :
    Except RangeError RangeDecryptReader :=
  match manifest with
  | none => .error (.crypto .missingManifest)
  | some manifest => do
      liftCrypto (validateChunkedVersion manifest.version)
      liftCrypto (validateChunkSize manifest.chunkSize)
      let range := calculateChunkRangeFromPlaintext plaintextStart plaintextEnd manifest.chunkSize
        manifest.chunkCount
      if manifest.chunkCount ≤ range.endChunk ∨ range.endChunk < range.startChunk then
        .error .invalidChunkRange
      else
        let source ← position source isOptimizedSource range.startChunk manifest.chunkSize
        return ⟨⟨source, aead, manifest, baseIv, manifest.chunkSize, plaintextStart, plaintextEnd,
          range, [], range.startChunk, false, none, plaintextSize, ⟨[], []⟩, [], false⟩, 0⟩

def newRangeDecryptReaderBound (aead : Aead) (manifest : Option ChunkManifest) (baseIv : Bytes)
    (first last : ℤ) (optimized : Bool) (plaintextSize : ℤ) (object : ObjectContext)
    (bindingId : Bytes) :
    Except RangeError RangeDecryptReader := do
  liftCrypto object.validate
  if bindingId.length ≠ bindingIdSize then .error (.crypto .bindingIdLength)
  else
    let r ← newRangeDecryptReader source aead manifest baseIv first last optimized plaintextSize
    return { r with object, bindingId, boundV2 := true }

/-! ## The walk over the records -/

/-- The cursor reads the records of bytes `first` to `last` of the object.  No turn changes
this. -/
structure Reads (o : ChunkedObject) (first last : ℕ) (c : RangeCursor) : Prop where
  aead_eq : c.aead = o.aead
  manifest_eq : c.manifest = o.manifest o.recordCount
  baseIv_eq : c.baseIv = o.format.baseIv
  chunkSize_eq : c.chunkSize = o.chunkSize
  range_eq : c.range =
    ⟨first / o.chunkSize, last / o.chunkSize, first % o.chunkSize, last % o.chunkSize⟩
  plaintextSize_eq : c.plaintextSize = o.plaintext.length
  bound_eq : o.format.version = chunkedFormatV2 →
    c.object = o.format.object ∧ c.bindingId = o.format.bindingId ∧ c.boundV2 = true
  open_eq : c.closed = false

/-- The cursor is at record `i`, with the ciphertext from there to `stop` in its source. -/
structure Walking (o : ChunkedObject) (first last stop : ℕ) (c : RangeCursor) (i : ℕ) : Prop
    extends Reads o first last c where
  first_le_last : first ≤ last
  last_lt : last < o.plaintext.length
  stop_ge : recordEnd o.plaintext.length o.chunkSize last ≤ stop
  index_eq : c.currentChunkIndex = i
  first_le : first / o.chunkSize ≤ i
  le_last : i ≤ last / o.chunkSize
  clean : Script.Clean c.source
  bytes_eq : Script.bytes c.source = slice o.ciphertext (i * (o.chunkSize + tagSize)) stop

open Script

open ChunkedObject

section Walk

variable {o : ChunkedObject} {first last stop i : ℕ} {c : RangeCursor}

section

variable (hwalk : Walking o first last stop c i)

include hwalk

/-- The current chunk has something in it. -/
theorem Walking.mul_lt : i * o.chunkSize < o.plaintext.length :=
  ((Nat.le_div_iff_mul_le o.chunkSize_valid.pos).mp hwalk.le_last).trans_lt hwalk.last_lt

/-- Before the last record of the range chunks are full. -/
theorem Walking.full_of_lt (hlt : i < last / o.chunkSize) : (i + 1) * o.chunkSize ≤ last :=
  (Nat.le_div_iff_mul_le o.chunkSize_valid.pos).mp hlt

/-- The record is asked for in its length, or as a full one at the end of the ciphertext. -/
theorem Walking.expectedSize_eq :
    ∃ want, c.expectedSize = .ok want ∧ (o.chunk i).length + tagSize ≤ want ∧
      (want = (o.chunk i).length + tagSize ∨
        o.ciphertext.length ≤ i * (o.chunkSize + tagSize) + ((o.chunk i).length + tagSize)) := by
  have hpos := o.chunkSize_valid.pos
  have hi := hwalk.mul_lt
  have hcount : o.recordCount ≤ i + 1 ↔ o.plaintext.length ≤ (i + 1) * o.chunkSize :=
    recordCount_le_iff hpos
  have hlt : i < o.recordCount := (lt_recordCount_iff hpos).mpr hi
  have hlen := o.length_chunk i
  have hmul := Nat.add_one_mul i o.chunkSize
  rw [expectedSize, hwalk.manifest_eq, hwalk.index_eq, hwalk.chunkSize_eq, hwalk.plaintextSize_eq]
  simp only [ChunkedObject.manifest]
  rcases o.form with ⟨hversion, hterminal⟩ | ⟨hbound, -⟩
  · -- version 1
    rw [if_neg (by rw [hversion]; exact fun h => absurd h.1 (by decide))]
    refine ⟨_, rfl, by omega, ?_⟩
    by_cases hfull : (i + 1) * o.chunkSize ≤ o.plaintext.length
    · left
      omega
    · right
      have heq : o.recordCount = i + 1 := by omega
      rw [o.length_ciphertext, hversion, dataLength, show Crypto.recordCount _ _ = _ from heq, hlen,
        Nat.mul_add, show terminalLength chunkedFormatV1 = 0 from rfl]
      have htags := Nat.add_one_mul i tagSize
      omega
  · obtain ⟨-, -, hboundV2⟩ := hwalk.bound_eq hbound.version_eq
    by_cases hlast : i = o.recordCount - 1
    · have hoffset : ¬(o.chunkSize = 0 ∨ maxInt64 / o.chunkSize < i) := by
        have hfits := o.fits
        rw [← ChunkedObject.ciphertext, o.length_ciphertext, dataLength] at hfits
        have := (Nat.le_div_iff_mul_le hpos).mpr (show i * o.chunkSize ≤ maxInt64 by omega)
        omega
      rw [if_pos ⟨hbound.version_eq, hlast, .inl hboundV2⟩, if_neg (by omega), if_neg hoffset]
      split
      · exact ⟨_, rfl, by omega, .inl (by omega)⟩
      · exact ⟨_, rfl, by omega, .inl (by omega)⟩
    · rw [if_neg fun h => hlast h.2.1]
      exact ⟨_, rfl, by omega, .inl (by omega)⟩

/-- The record lies in front of `stop`. -/
theorem Walking.recordEnd_le :
    i * (o.chunkSize + tagSize) + ((o.chunk i).length + tagSize) ≤ stop := by
  refine le_trans ?_ hwalk.stop_ge
  have hdata := ChunkedObject.recordEnd_le hwalk.mul_lt
  rw [o.length_data] at hdata
  have hmono := Nat.mul_le_mul_right (o.chunkSize + tagSize) (Nat.add_le_add_right hwalk.le_last 1)
  have hlen := o.length_chunk i
  have hmul := Nat.add_one_mul i o.chunkSize
  rw [Nat.add_one_mul] at hmono
  rw [recordEnd]
  omega

/-- The cursor finds the nonce and the associated data that the record was sealed under. -/
theorem Walking.nonceAndAad_eq :
    c.nonceAndAad o.hkdf = o.format.dataNonceAndAad o.hkdf o.derivation i := by
  have hversion : c.manifest.version = o.format.version := by
    rw [hwalk.manifest_eq]
    rfl
  have hderivation : c.manifest.ivDerivation = o.derivation := by
    rw [hwalk.manifest_eq]
    rfl
  rw [nonceAndAad, deriveChunkIv, hwalk.index_eq, hwalk.baseIv_eq]
  rcases o.form with ⟨hv1, -⟩ | ⟨hbound, -⟩
  · have hother : ¬o.format.version = chunkedFormatV2 := by
      rw [hv1]
      decide
    rw [← hversion] at hother
    simp only [if_neg hother, hderivation]
    rw [hversion] at hother
    rw [RecordFormat.dataNonceAndAad, if_neg hother]
    cases o.derivation <;> rfl
  · obtain ⟨hobject, hbinding, hboundV2⟩ := hwalk.bound_eq hbound.version_eq
    rw [RecordFormat.dataNonceAndAad_of_bound hbound, hobject, hbinding,
      buildObjectAad_of_valid hbound.object_valid hbound.bindingId_length (by simp)]
    simp only [if_pos (hversion.trans hbound.version_eq), if_pos hboundV2]
    rfl

/-- The record opens to its chunk, which is then cut to the range. -/
theorem Walking.openRecord_eq {nonce aad : Bytes}
    (hnonce : o.format.dataNonceAndAad o.hkdf o.derivation i = .ok (nonce, aad))
    (source : Script UInt8 CryptoError) :
    { c with source := source }.openRecord o.hkdf (o.aead.sealed nonce (o.chunk i) aad) =
      (none, { c with
        source := source
        currentChunk := c.currentChunk ++ c.trim (o.chunk i)
        currentChunkIndex := c.currentChunkIndex + 1 }) := by
  have hsame : ({ c with source := source } : RangeCursor).nonceAndAad o.hkdf =
      .ok (nonce, aad) := hwalk.nonceAndAad_eq.trans hnonce
  have hopened : c.aead.opened nonce (o.aead.sealed nonce (o.chunk i) aad) aad =
      some (o.chunk i) := by
    rw [hwalk.aead_eq, o.aead_lawful.opened_sealed]
  have hoffset : ¬(c.currentChunkIndex = c.range.startChunk ∧
      (o.chunk i).length ≤ c.range.startOffset) := by
    rintro ⟨hstart, hshort⟩
    simp only [hwalk.index_eq, hwalk.range_eq] at hstart hshort
    rw [o.length_chunk, hstart] at hshort
    have hdiv := Nat.div_add_mod' first o.chunkSize
    have hmod := Nat.mod_lt first o.chunkSize_valid.pos
    have hle := hwalk.first_le_last
    have hlt := hwalk.last_lt
    have hmul := Nat.add_one_mul (first / o.chunkSize) o.chunkSize
    omega
  rw [openRecord, hsame]
  simp only [hopened]
  rw [if_neg hoffset]
  rfl

theorem Walking.fill_eq :
    ∃ source, c.fill o.hkdf = (none, { c with
        source := source
        currentChunk := c.currentChunk ++ c.trim (o.chunk i)
        currentChunkIndex := c.currentChunkIndex + 1 }) ∧
      (i < last / o.chunkSize → Script.Clean source ∧
        bytes source = slice o.ciphertext ((i + 1) * (o.chunkSize + tagSize)) stop) := by
  have hstop := hwalk.recordEnd_le
  obtain ⟨nonce, aad, hnonce, hrecord⟩ := exists_record hwalk.mul_lt
  obtain ⟨want, hexpected, hwant, hexact⟩ := hwalk.expectedSize_eq
  obtain ⟨source, hread, hclean, hrest⟩ := readFull_of_clean want hwalk.clean
  rw [hwalk.bytes_eq] at hread hrest
  rw [Nat.add_assoc, ← take_slice hstop] at hrecord
  generalize hbytes : slice o.ciphertext (i * (o.chunkSize + tagSize)) stop = bytes at *
  have hlen : bytes.length = min stop o.ciphertext.length - i * (o.chunkSize + tagSize) := by
    rw [← hbytes, length_slice]
  have hdata : bytes.take want = o.aead.sealed nonce (o.chunk i) aad := by
    rw [← hrecord]
    rcases hexact with rfl | hend
    · rfl
    · rw [take_of_length_le (by omega), take_of_length_le (by omega)]
  have hne : bytes ≠ [] := by
    rintro rfl
    have hsealed := o.aead_lawful.length_sealed nonce (o.chunk i) aad
    rw [← hdata, take_nil, length_nil] at hsealed
    omega
  refine ⟨source, ?_, fun hlt => ⟨hclean, ?_⟩⟩
  · have hinside : ¬c.range.endChunk < c.currentChunkIndex := by
      rw [hwalk.range_eq, hwalk.index_eq]
      exact not_lt.mpr hwalk.le_last
    have hopen := hwalk.openRecord_eq hnonce source
    rw [RangeCursor.fill, if_neg hinside, hexpected]
    simp only [hread, hdata, outcome]
    by_cases hfull : want ≤ bytes.length
    · simp only [if_pos hfull]
      exact hopen
    · have hbound : ¬(c.manifest.version = chunkedFormatV2 ∧ c.boundV2 = false) := by
        rintro ⟨hversion, hunbound⟩
        rw [hwalk.manifest_eq] at hversion
        obtain ⟨-, -, hboundV2⟩ := hwalk.bound_eq hversion
        exact absurd (hunbound.symm.trans hboundV2) (by decide)
      simp only [if_neg hfull, stopError, if_neg (show ¬bytes.isEmpty by simpa using hne),
        if_neg hbound]
      exact hopen
  · have hfull := hwalk.full_of_lt hlt
    have hchunk := length_chunk_of_le (hfull.trans hwalk.last_lt.le)
    have hmore := ChunkedObject.recordEnd_le
      (show (i + 1) * o.chunkSize < o.plaintext.length from hfull.trans_lt hwalk.last_lt)
    have hwanted : want = o.chunkSize + tagSize := by
      have hlong : o.data.length ≤ o.ciphertext.length := by
        rw [ciphertext, length_append]
        exact Nat.le_add_right _ _
      have hmul := Nat.add_one_mul i (o.chunkSize + tagSize)
      have htag : 0 < tagSize := by decide
      omega
    rw [hrest, ← hbytes, drop_slice, hwanted, Nat.add_one_mul]

/-! ## What comes out -/

theorem Walking.dropStart_eq :
    (if c.currentChunkIndex = c.range.startChunk then (o.chunk i).drop c.range.startOffset
      else o.chunk i) =
      slice o.plaintext (max first (i * o.chunkSize)) ((i + 1) * o.chunkSize) := by
  have hdiv := Nat.div_add_mod' first o.chunkSize
  have hmod := Nat.mod_lt first o.chunkSize_valid.pos
  simp only [hwalk.index_eq, hwalk.range_eq]
  by_cases hstart : i = first / o.chunkSize
  · rw [if_pos hstart, chunk, drop_slice]
    congr 1
    rw [hstart, hdiv, max_eq_left (by omega)]
  · have hle := hwalk.first_le
    have hlater : (first / o.chunkSize + 1) * o.chunkSize ≤ i * o.chunkSize :=
      Nat.mul_le_mul_right _ (by omega)
    rw [Nat.add_one_mul] at hlater
    rw [if_neg hstart, max_eq_right (by omega)]
    rfl

theorem Walking.trim_of_lt (hlt : i < last / o.chunkSize) :
    c.trim (o.chunk i) =
      slice o.plaintext (max first (i * o.chunkSize)) ((i + 1) * o.chunkSize) := by
  have hnot : c.currentChunkIndex ≠ c.range.endChunk := by
    rw [hwalk.index_eq, hwalk.range_eq]
    exact hlt.ne
  rw [trim, hwalk.dropStart_eq]
  exact if_neg fun h => hnot h.1

/-- In the last record the cut is not before the end of the range. -/
theorem Walking.trim_of_eq (heq : i = last / o.chunkSize) :
    ∃ cut, last < cut ∧
      c.trim (o.chunk i) = slice o.plaintext (max first (i * o.chunkSize)) cut := by
  have hdiv := Nat.div_add_mod' last o.chunkSize
  have hmod := Nat.mod_lt last o.chunkSize_valid.pos
  have hmul := Nat.add_one_mul i o.chunkSize
  rw [← heq] at hdiv
  rw [trim, hwalk.dropStart_eq]
  simp only [length_slice, hwalk.range_eq]
  split_ifs with hcut
  · refine ⟨max first (i * o.chunkSize) + (last % o.chunkSize + 1), by omega, ?_⟩
    exact take_slice (by omega)
  · exact ⟨(i + 1) * o.chunkSize, by omega, rfl⟩

end

/-- The cursor behind the last record closes. -/
theorem flow_of_end (hopen : c.closed = false) (hend : c.range.endChunk < c.currentChunkIndex) :
    ((puller o.hkdf).flow c).1 = c.currentChunk ∧
      ((puller o.hkdf).flow c).2.1 = none := by
  have hfill : fill o.hkdf { c with currentChunk := [] } =
      (none, { c with currentChunk := [], closed := true }) := by
    rw [RangeCursor.fill, if_pos hend]
  rw [flow_of_fill (m := puller o.hkdf) hopen hfill, flow_of_done (m := puller o.hkdf) rfl]
  exact ⟨append_nil _, rfl⟩

/-- **What comes out of the walk** begins with the rest of the range. -/
theorem flow_walking (hwalk : Walking o first last stop c i) :
    ∃ cut, last < cut ∧
      ((puller o.hkdf).flow c).1 =
        c.currentChunk ++ slice o.plaintext (max first (i * o.chunkSize)) cut ∧
      ((puller o.hkdf).flow c).2.1 = none := by
  generalize hleft : last / o.chunkSize - i = left
  -- one record per step, until the record of the last byte
  induction left generalizing c i with
  | zero =>
    have heq : i = last / o.chunkSize := by
      have := hwalk.le_last
      omega
    have hclear : Walking o first last stop { c with currentChunk := [] } i := { hwalk with }
    obtain ⟨source, hfill, -⟩ := hclear.fill_eq
    obtain ⟨cut, hcut, htrim⟩ := hclear.trim_of_eq heq
    rw [flow_of_fill (m := puller o.hkdf) hwalk.open_eq hfill]
    obtain ⟨hout, hend⟩ := flow_of_end (o := o)
      (c := { c with
        source := source
        currentChunk := [] ++ trim { c with currentChunk := [] } (o.chunk i)
        currentChunkIndex := c.currentChunkIndex + 1 }) hwalk.open_eq (by
          rw [hwalk.range_eq, hwalk.index_eq]
          exact Nat.lt_succ_of_le heq.ge)
    refine ⟨cut, hcut, ?_, hend⟩
    rw [hout, nil_append, htrim]
    rfl
  | succ left ih =>
    have hlt : i < last / o.chunkSize := by omega
    have hclear : Walking o first last stop { c with currentChunk := [] } i := { hwalk with }
    obtain ⟨source, hfill, hnext⟩ := hclear.fill_eq
    obtain ⟨hclean, hbytes⟩ := hnext hlt
    rw [flow_of_fill (m := puller o.hkdf) hwalk.open_eq hfill]
    have hwalk' : Walking o first last stop { c with
        source := source
        currentChunk := [] ++ trim { c with currentChunk := [] } (o.chunk i)
        currentChunkIndex := c.currentChunkIndex + 1 } (i + 1) :=
      { hwalk with
        index_eq := congrArg (· + 1) hwalk.index_eq
        first_le := hwalk.first_le.trans (Nat.le_succ i)
        le_last := hlt
        clean := hclean
        bytes_eq := hbytes }
    obtain ⟨cut, hcut, hout, hend⟩ := ih hwalk' (by omega)
    refine ⟨cut, hcut, ?_, hend⟩
    have hfull := hwalk.full_of_lt hlt
    have hfirst : first < (i + 1) * o.chunkSize := by
      have hdiv := Nat.div_add_mod' first o.chunkSize
      have hmod := Nat.mod_lt first o.chunkSize_valid.pos
      have hmono := Nat.mul_le_mul_right o.chunkSize (Nat.add_le_add_right hwalk.first_le 1)
      rw [Nat.add_one_mul] at hmono
      omega
    have hmul := Nat.add_one_mul i o.chunkSize
    rw [hout, nil_append, hclear.trim_of_lt hlt, max_eq_right hfirst.le,
      slice_append_slice (by omega) (by omega)]
    rfl

end Walk

/-! ## Whole and planned sources -/

namespace ChunkedObject

variable {o : ChunkedObject} {first last : ℕ}

/-- The reader of a range, made from the given record count and plaintext size. -/
def newRangeReader (o : ChunkedObject) (source : Script UInt8 CryptoError) (first last : ℤ)
    (optimized : Bool) (size : ℤ) (count : ℕ) : Except RangeError RangeDecryptReader :=
  if o.format.version = chunkedFormatV2 then
    newRangeDecryptReaderBound source o.aead (some (o.manifest count)) o.format.baseIv first last
      optimized size o.format.object o.format.bindingId
  else
    newRangeDecryptReader source o.aead (some (o.manifest count)) o.format.baseIv first last
      optimized size

/-- However `stored` arrives and however the reader of the range is read, it gives `expected`
and then the end. -/
def DeliversFrom (o : ChunkedObject) (stored : Bytes) (optimized : Bool) (first last : ℤ)
    (size : ℤ) (count : ℕ) (expected : Bytes) : Prop :=
  ∀ source, Script.Clean source → Script.bytes source = stored →
    ∃ r, o.newRangeReader source first last optimized size count = .ok r ∧
      ∀ sizes, KeepsReading sizes → ∃ fuel r',
        drain (RangeDecryptReader.read o.hkdf) sizes fuel r = (expected, some .eof, r')

def rangeReader (o : ChunkedObject) (source : Script UInt8 CryptoError) (first last : ℕ)
    (object : ObjectContext) (bindingId : Bytes) (boundV2 : Bool) : RangeDecryptReader :=
  ⟨⟨source, o.aead, o.manifest o.recordCount, o.format.baseIv, o.chunkSize, first, last,
    ⟨first / o.chunkSize, last / o.chunkSize, first % o.chunkSize, last % o.chunkSize⟩, [],
    first / o.chunkSize, false, none, o.plaintext.length, object, bindingId, boundV2⟩, 0⟩

variable {source : Script UInt8 CryptoError}

section

variable (hle : first ≤ last) (hlast : last < o.plaintext.length)

include hle hlast

theorem newRangeDecryptReader_eq {positioned : Script UInt8 CryptoError} {optimized : Bool}
    (hposition : position source optimized (first / o.chunkSize) o.chunkSize = .ok positioned) :
    newRangeDecryptReader source o.aead (some (o.manifest o.recordCount)) o.format.baseIv first last
      optimized o.plaintext.length = .ok (o.rangeReader positioned first last ⟨[], []⟩ [] false) := by
  have hrange : calculateChunkRangeFromPlaintext first last (o.manifest o.recordCount).chunkSize
      (o.manifest o.recordCount).chunkCount = _ :=
    calculateChunkRangeFromPlaintext_eq o.chunkSize_valid.pos hle hlast
  have hversion : liftCrypto (validateChunkedVersion (o.manifest o.recordCount).version) = .ok () :=
    congrArg liftCrypto (validateChunkedVersion_of_supported o.supported)
  have hsize : liftCrypto (validateChunkSize (o.manifest o.recordCount).chunkSize) = .ok () :=
    congrArg liftCrypto (validateChunkSize_of_valid o.chunkSize_valid)
  have hinside : ¬((o.manifest o.recordCount).chunkCount ≤ last / o.chunkSize ∨
      last / o.chunkSize < first / o.chunkSize) := by
    have hend : last / o.chunkSize < (o.manifest o.recordCount).chunkCount :=
      div_lt_recordCount o.chunkSize_valid.pos hlast
    have hmono : first / o.chunkSize ≤ last / o.chunkSize := Nat.div_le_div_right hle
    omega
  simp only [newRangeDecryptReader, hversion, hsize, hrange]
  refine (if_neg hinside).trans ?_
  show Except.bind (position source optimized (first / o.chunkSize) o.chunkSize) _ = _
  rw [hposition]
  rfl

/-- The reader of a source that is at the first record of the range, up to `stop`. -/
theorem exists_running_of_positioned {stop : ℕ}
    (hstop : recordEnd o.plaintext.length o.chunkSize last ≤ stop)
    {positioned : Script UInt8 CryptoError} {optimized : Bool} (hclean : Script.Clean positioned)
    (hbytes : bytes positioned =
      slice o.ciphertext (first / o.chunkSize * (o.chunkSize + tagSize)) stop)
    (hposition : position source optimized (first / o.chunkSize) o.chunkSize = .ok positioned) :
    ∃ r, o.newRangeReader source first last optimized o.plaintext.length o.recordCount = .ok r ∧
      r.Running ∧ r.rest o.hkdf = slice o.plaintext first (last + 1) ∧
      r.ending o.hkdf = .eof := by
  have hnew := newRangeDecryptReader_eq hle hlast hposition
  obtain ⟨object, bindingId, boundV2, hreader, hbound⟩ : ∃ object bindingId boundV2,
      o.newRangeReader source first last optimized o.plaintext.length o.recordCount =
        .ok (o.rangeReader positioned first last object bindingId boundV2) ∧
      (o.format.version = chunkedFormatV2 →
        object = o.format.object ∧ bindingId = o.format.bindingId ∧ boundV2 = true) := by
    rw [newRangeReader]
    rcases o.form with ⟨hversion, -⟩ | ⟨hbound, -⟩
    · have hother : ¬o.format.version = chunkedFormatV2 := by
        rw [hversion]
        decide
      rw [if_neg hother, hnew]
      exact ⟨_, _, _, rfl, fun heq => absurd heq hother⟩
    · rw [if_pos hbound.version_eq, newRangeDecryptReaderBound,
        (ObjectContext.validate_eq_ok_iff _).mpr hbound.object_valid, hnew]
      refine ⟨o.format.object, o.format.bindingId, true, ?_, fun _ => ⟨rfl, rfl, rfl⟩⟩
      show (if _ then _ else _) = _
      rw [if_neg (not_not.mpr hbound.bindingId_length)]
      rfl
  have hwalk : Walking o first last stop
      (o.rangeReader positioned first last object bindingId boundV2).toRangeCursor
      (first / o.chunkSize) :=
    ⟨⟨rfl, rfl, rfl, rfl, rfl, rfl, hbound, rfl⟩, hle, hlast, hstop, rfl, le_rfl,
      Nat.div_le_div_right hle, hclean, hbytes⟩
  obtain ⟨cut, hcut, hout, -⟩ := flow_walking hwalk
  have hflow : ((o.rangeReader positioned first last object bindingId boundV2).flow o.hkdf).1 =
      slice o.plaintext first cut := by
    rw [max_eq_left (Nat.div_mul_le_self first o.chunkSize)] at hout
    exact hout
  have hleft : (o.rangeReader positioned first last object bindingId boundV2).left =
      last + 1 - first := by
    simp only [RangeDecryptReader.left, rangeReader]
    omega
  refine ⟨_, hreader, ⟨rfl, fun _ => by omega⟩, ?_, ?_⟩
  · rw [RangeDecryptReader.rest, if_neg (by simp [rangeReader]), hflow, hleft,
      take_slice (by omega)]
    congr 1
    omega
  · rw [RangeDecryptReader.ending, if_pos]
    rw [hflow, hleft, length_slice]
    omega

/-- A source that is at the first record of the range, up to `stop`. -/
theorem deliversFrom_of_positioned {stop : ℕ}
    (hstop : recordEnd o.plaintext.length o.chunkSize last ≤ stop) {stored : Bytes}
    {optimized : Bool} (hskip : ∀ source, Script.Clean source → bytes source = stored →
      ∃ positioned, Script.Clean positioned ∧
        bytes positioned =
          slice o.ciphertext (first / o.chunkSize * (o.chunkSize + tagSize)) stop ∧
        position source optimized (first / o.chunkSize) o.chunkSize = .ok positioned) :
    o.DeliversFrom stored optimized first last o.plaintext.length o.recordCount
      (slice o.plaintext first (last + 1)) := by
  intro source hclean hbytes
  obtain ⟨positioned, hpositioned, hslice, hskipped⟩ := hskip source hclean hbytes
  obtain ⟨r, hnew, hrunning, hrest, hending⟩ :=
    exists_running_of_positioned hle hlast hstop hpositioned hslice hskipped
  refine ⟨r, hnew, fun sizes hkeeps => ?_⟩
  obtain ⟨fuel, r', hdrain⟩ := (RangeDecryptReader.delivers_read o.hkdf).drain hrunning hkeeps
  rw [hrest, hending] at hdrain
  exact ⟨fuel, r', hdrain⟩

end

/-- The record of the last byte of a range is stored. -/
theorem recordEnd_le_ciphertext : recordEnd o.plaintext.length o.chunkSize last ≤
    o.ciphertext.length := by
  rw [recordEnd, ← o.length_data, ciphertext, length_append]
  omega

/-- Over the whole ciphertext the reader skips to the first record of the range. -/
theorem exists_positioned_of_ciphertext (hlt : first < o.plaintext.length)
    (hclean : Script.Clean source) (hbytes : bytes source = o.ciphertext) :
    ∃ positioned, Script.Clean positioned ∧
      bytes positioned = slice o.ciphertext
        (first / o.chunkSize * (o.chunkSize + tagSize)) o.ciphertext.length ∧
      position source false (first / o.chunkSize) o.chunkSize = .ok positioned := by
  have hpos := o.chunkSize_valid.pos
  have hunit : 0 < o.chunkSize + tagSize := by omega
  have hrecord := recordEnd_le (o := o) (i := first / o.chunkSize)
    ((Nat.div_mul_le_self first o.chunkSize).trans_lt hlt)
  have hdata : o.data.length ≤ o.ciphertext.length := by
    rw [ciphertext, length_append]
    exact Nat.le_add_right _ _
  rw [position]
  split_ifs with hnone
  · obtain ⟨rest, hread, hrest, hdrop⟩ := readFull_of_clean_of_le hclean
      (show first / o.chunkSize * (o.chunkSize + tagSize) ≤ (bytes source).length by
        rw [hbytes]
        omega)
    refine ⟨rest, hrest, ?_, ?_⟩
    · rw [hdrop, hbytes, slice, take_of_length_le (by rw [length_drop])]
    · have hlimit : first / o.chunkSize ≤ maxInt64 / (o.chunkSize + tagSize) := by
        rw [Nat.le_div_iff_mul_le hunit]
        have hfits : o.ciphertext.length ≤ maxInt64 := o.fits
        omega
      simp only [skipTo, if_neg (not_lt.mpr hlimit), hread]
  · have hzero : first / o.chunkSize = 0 :=
      Nat.eq_zero_of_not_pos fun hsome => hnone ⟨rfl, hsome⟩
    exact ⟨source, hclean, by rw [hbytes, hzero, Nat.zero_mul, slice_zero le_rfl], rfl⟩

/-- The slice that was planned. -/
theorem deliversFrom_recordEnd (hle : first ≤ last) (hlast : last < o.plaintext.length) :
    o.DeliversFrom (slice o.ciphertext (first / o.chunkSize * (o.chunkSize + tagSize))
        (recordEnd o.plaintext.length o.chunkSize last)) true first last o.plaintext.length
      o.recordCount (slice o.plaintext first (last + 1)) :=
  deliversFrom_of_positioned hle hlast le_rfl fun source hclean hbytes =>
    ⟨source, hclean, hbytes, by rw [position, if_neg (by simp)]⟩

end ChunkedObject

/-- **A ranged read is a slice.**  Record count and plaintext size come from the length of the
ciphertext.  With them, the reader gives exactly the bytes of the range and then the end, over
the whole ciphertext and over every slice that is planned from the object's metadata.  A slice is
planned unless the ciphertext ends within a record's length of the largest `int64`. -/
theorem deliversFrom_range (o : ChunkedObject) {first last : ℕ} (hle : first ≤ last)
    (hlast : last < o.plaintext.length) :
    ∃ size count, chunkedPlaintextSize o.ciphertext.length o.chunkSize o.format.version =
        .ok (size, count) ∧
      o.DeliversFrom o.ciphertext false first last size count
        (slice o.plaintext first (last + 1)) ∧
      ∀ metadata written, RangeMetadata.Describes metadata (o.manifest written)
          o.plaintext.length →
        (∀ encStart encEnd,
          calculateEncryptedRangeForPlaintextRange metadata first last = .ok (encStart, encEnd) →
          o.DeliversFrom (slice o.ciphertext encStart.toNat (encEnd + 1).toNat) true first last size
            count (slice o.plaintext first (last + 1))) ∧
        (o.ciphertext.length + (o.chunkSize + tagSize) ≤ maxInt64 →
          ∃ encStart encEnd, calculateEncryptedRangeForPlaintextRange metadata first last =
            .ok (encStart, encEnd)) := by
  refine ⟨_, _, o.chunkedPlaintextSize_length, deliversFrom_of_positioned hle hlast
    recordEnd_le_ciphertext fun _ hclean hbytes =>
      exists_positioned_of_ciphertext (hle.trans_lt hlast) hclean hbytes, ?_⟩
  intro metadata written hmeta
  have hplan : calculateEncryptedRangeForPlaintextRange metadata first last =
      if maxInt64 / (o.chunkSize + tagSize) ≤ last / o.chunkSize then
        .error .encryptedRangeOverflow
      else .ok (((first / o.chunkSize * (o.chunkSize + tagSize) : ℕ) : ℤ),
        (recordEnd o.plaintext.length o.chunkSize last : ℤ) - 1) :=
    calculateEncryptedRangeForPlaintextRange_eq hmeta hle hlast
  rw [hplan]
  constructor
  · intro encStart encEnd hreturned
    split at hreturned <;> cases hreturned
    rw [Int.sub_add_cancel, Int.toNat_natCast, Int.toNat_natCast]
    exact deliversFrom_recordEnd hle hlast
  · intro hfits
    have hbegin := recordEnd_le (o := o) (i := last / o.chunkSize)
      ((Nat.div_mul_le_self last o.chunkSize).trans_lt hlast)
    have hroom : last / o.chunkSize + 1 ≤ maxInt64 / (o.chunkSize + tagSize) := by
      rw [Nat.le_div_iff_mul_le (by have := o.chunkSize_valid.pos; omega), Nat.add_one_mul]
      rw [o.length_ciphertext, ← o.length_data] at hfits
      omega
    rw [if_neg (not_le.mpr hroom)]
    exact ⟨_, _, rfl⟩

/-- Three bytes, sealed and bound. -/
def sampleObject : ChunkedObject where
  hkdf := zeroHkdf
  aead := zeroTagAead
  format := sampleBinding.format
  derivation := .hkdfSha256
  chunkSize := minChunkSize
  plaintext := [7, 8, 9]
  data := [7, 8, 9] ++ List.replicate 16 0
  terminal := List.replicate 32 0
  form := Or.inr ⟨sampleBinding_valid.format_bound, by decide⟩
  aead_lawful := zeroTagAead_lawful
  chunkSize_valid := sampleBinding_valid.chunkSize_valid
  sealed_eq := by
    rw [Script.chunksOf_of_ne_nil (by decide) (by decide),
      List.drop_eq_nil_of_le (by decide), Script.chunksOf_nil]
    exact sealRecords_cons
      (RecordFormat.dataNonceAndAad_of_bound sampleBinding_valid.format_bound 0) rfl
  fits := by decide

/-- Its metadata, as the writer left it, with the stored length. -/
def sampleMetadata : RangeMetadata :=
  ⟨some (some (sampleObject.manifest 0)), some (Decimal.formatNat 51), none, none, none⟩

/-- The last two of three bytes. -/
theorem deliversFrom_last_two :
    ∃ size count, sampleObject.DeliversFrom sampleObject.ciphertext false 1 2 size count [8, 9] ∧
      ∃ encStart encEnd,
        calculateEncryptedRangeForPlaintextRange sampleMetadata 1 2 = .ok (encStart, encEnd) ∧
        sampleObject.DeliversFrom
          (slice sampleObject.ciphertext encStart.toNat (encEnd + 1).toNat) true 1 2 size count
          [8, 9] := by
  obtain ⟨size, count, -, hwhole, hplanned⟩ :=
    deliversFrom_range sampleObject (show 1 ≤ 2 by decide)
      (show 2 < sampleObject.plaintext.length by decide)
  obtain ⟨hslices, hexists⟩ := hplanned sampleMetadata 0
    ⟨rfl, .inr rfl, sampleBinding_valid.chunkSize_valid, .inl rfl, rfl, by decide⟩
  obtain ⟨encStart, encEnd, hplan⟩ := hexists (by decide)
  exact ⟨size, count, hwhole, encStart, encEnd, hplan, hslices encStart encEnd hplan⟩

/-- **What was written is read in ranges.**  Whatever a writer has delivered at its end is an
object of which every range is read back, with the sizes that its length tells. -/
theorem ranges_of_written {hkdf : Hkdf} {w w' : ChunkedEncryptReader} (hfresh : w.Fresh)
    {sizes : ℕ → ℕ} {fuel : ℕ} {out : Bytes} (hroom : ∀ n, 0 < sizes n)
    (hdrain : drain (ChunkedEncryptReader.read hkdf) sizes fuel w = (out, some .eof, w'))
    (hfits : out.length ≤ maxInt64) :
    ∃ o : ChunkedObject, (o.hkdf = hkdf ∧ o.aead = w.aead ∧ o.format = w.format ∧
        o.chunkSize = w.chunkSize) ∧
      ∃ size count, chunkedPlaintextSize out.length w.chunkSize w.format.version =
          .ok (size, count) ∧
        ∀ first last : ℕ, first ≤ last → last < (Script.bytes w.source).length →
          o.DeliversFrom out false first last size count
            (slice (Script.bytes w.source) first (last + 1)) := by
  obtain ⟨o, hhkdf, haead, hformat, -, hsize, hplain, rfl⟩ :=
    hfresh.exists_of_drain hroom hdrain hfits
  rw [← hplain, ← hsize, ← hformat]
  exact ⟨o, ⟨hhkdf, haead, rfl, rfl⟩, _, _, o.chunkedPlaintextSize_length,
    fun first last hle hlast => ChunkedObject.deliversFrom_of_positioned hle hlast
      ChunkedObject.recordEnd_le_ciphertext fun _ hclean hbytes =>
        ChunkedObject.exists_positioned_of_ciphertext (hle.trans_lt hlast) hclean hbytes⟩

/-- One byte, written and read. -/
theorem ranges_of_written_byte :
    ∃ (o : ChunkedObject) (out : Bytes) (size : ℤ) (count : ℕ),
      o.DeliversFrom out false 0 0 size count [7] := by
  have hclean := Script.clean_singleton (ε := CryptoError) [(7 : UInt8)]
  obtain ⟨-, -, hlength, hdrains⟩ := @writer_drains zeroHkdf _ _ _
    sampleBinding_valid zeroTagAead_lawful zeroTagAead_lawful hclean keepsReading_one (by decide)
  obtain ⟨fuel, w', hdrain⟩ := hdrains.mpr fun _ hzero => absurd hzero one_ne_zero
  obtain ⟨o, -, size, count, -, hranges⟩ := ranges_of_written
    (ChunkedEncryptReader.fresh_bound sampleBinding_valid zeroTagAead_lawful zeroTagAead_lawful
      hclean .background) (fun _ => Nat.one_pos) hdrain (by rw [hlength]; decide)
  exact ⟨o, _, size, count, hranges 0 0 le_rfl Nat.one_pos⟩

end S3EncryptionGateway.Crypto
