import S3EncryptionGateway.Crypto.Mpu.Written

/-!
# Ranged reads of multipart objects

A ranged GET of an encrypted multipart object fetches the ciphertext of the chunks its
range touches and reads it through `MpuPlaintextRangeReader`, which opens one chunk at a
time and clips it to the range.  The reader walks along the manifest from the first
to the last chunk of the plan.

## Two walkers

The full reader skips parts without chunks; this one does not.  At an empty part it takes
the last chunk for one of full size, reads over the chunk that follows and opens it as a
chunk of the empty part, which fails.

* **Without an empty part inside the range** the walk stays in step with the plan:
  `Walking` says that the source holds the rest of the planned ciphertext, and
  `flow_walking` that what comes out is the rest of the range.
* **With one**, the walk gets to it and ends with an error (`flow_failing`).

`deliversRange_iff` has exactly that condition, as a property of the manifest and the
range.
-/

namespace S3EncryptionGateway.Api.RangedGet

set_option linter.unusedVariables false

open Crypto Encoding Streams Slices List

/-- What a ranged read can fail with besides the end of its source. -/
inductive RangeReadError where
  | source (code : ℕ)
  | decrypt (err : MpuError)
  /-- The panic of an index that is out of range. -/
  | indexPanic
  deriving DecidableEq

/-- An error of an exact-length read is passed on as it is. -/
def passOn : ReadError ℕ → ReadError RangeReadError
  | .eof => .eof
  | .unexpectedEof => .unexpectedEof
  | .other code => .other (.source code)

/-- The manifest was checked when it was loaded. -/
structure MpuPlaintextRangeReader where
  ciphertext : Script UInt8 ℕ
  manifest : MultipartManifest
  validLayout : manifest.validateLayout = .ok ()
  rangeResult : MpuRangeResult
  rangeStart : ℤ
  rangeEnd : ℤ
  plainOffset : ℤ
  partIndex : ℕ
  chunkIndex : ℤ
  decrypt : Bytes → (partNumber chunkSize chunkIndex : ℤ) → Except MpuError Bytes
  pending : Bytes
  done : Bool

open Script

namespace MpuPlaintextRangeReader

variable (r : MpuPlaintextRangeReader)

/-- The plaintext length the reader expects of the current chunk. -/
def chunkPlainLen (part : MpuPartRecord) : ℤ :=
  if r.chunkIndex = part.chunkCount - 1 then
    part.plainLen - r.chunkIndex * r.manifest.chunkSize
  else r.manifest.chunkSize

/-- The position after a chunk of `part`. -/
def advance (part : MpuPartRecord) : MpuPlaintextRangeReader :=
  if r.chunkIndex = r.rangeResult.chunkEnd ∧ r.partIndex = r.rangeResult.partEndIdx then
    { r with done := true }
  else if r.chunkIndex = part.chunkCount - 1 then
    if r.partIndex + 1 ≤ r.rangeResult.partEndIdx then
      { r with partIndex := r.partIndex + 1, chunkIndex := 0 }
    else { r with partIndex := r.partIndex + 1 }
  else { r with chunkIndex := r.chunkIndex + 1 }

/-- Clip an opened chunk to the range. -/
def clip (plain : Bytes) : Bytes :=
  let chunkStart := r.plainOffset
  let chunkEnd := chunkStart + plain.length - 1
  let writeStart := max r.rangeStart chunkStart
  let writeEnd := min r.rangeEnd chunkEnd
  if writeStart ≤ writeEnd then
    slice plain (writeStart - chunkStart).toNat (writeEnd - chunkStart + 1).toNat
  else []

/-- One turn of the loop of `Read` while nothing is pending. -/
def fill : Option (ReadError RangeReadError) × MpuPlaintextRangeReader :=
  if r.rangeResult.partEndIdx < r.partIndex then (none, { r with done := true })
  else
    match r.manifest.parts[r.partIndex]? with
    | none => (some (.other .indexPanic), r)
    | some part =>
      match r.ciphertext.readFull (r.chunkPlainLen part + tagSize).toNat with
      | (_, some err, src) => (some (passOn err), { r with ciphertext := src })
      | (ciphertext, none, src) =>
        match r.decrypt ciphertext part.partNumber r.manifest.chunkSize r.chunkIndex with
        | .error err => (some (.other (.decrypt err)), { r with ciphertext := src })
        | .ok plain =>
          (none, { r with
            ciphertext := src
            plainOffset := r.plainOffset + r.chunkPlainLen part
            pending := r.clip plain }.advance part)

def rank : ℕ := if r.done then 0 else r.ciphertext.size + 1

theorem chunkPlainLen_pos {r : MpuPlaintextRangeReader} {part : MpuPartRecord}
    (hpart : part ∈ r.manifest.parts) : 0 < r.chunkPlainLen part := by
  obtain ⟨hpos, hlen, hcount⟩ := MultipartManifest.of_mem_parts r.validLayout hpart
  rw [chunkPlainLen]
  split_ifs with hlast
  · rw [hlast, hcount]
    exact lastChunk_pos hpos hlen
  · exact hpos

theorem rank_advance_le (part : MpuPartRecord) : (r.advance part).rank ≤ r.rank := by
  rw [advance]
  split
  · exact Nat.zero_le _
  · split
    · split <;> exact le_rfl
    · exact le_rfl

theorem rank_fill (r r' : MpuPlaintextRangeReader) (hopen : r.done = false)
    (hfill : r.fill = (none, r')) : r'.rank < r.rank := by
  rw [fill] at hfill
  split at hfill
  · cases hfill
    simp [rank, hopen]
  · split at hfill
    · cases hfill
    rename_i part hpart
    have hwant := chunkPlainLen_pos (mem_of_getElem? hpart)
    split at hfill
    · cases hfill
    rename_i ciphertext src hread
    -- every turn that goes on has taken something from the source
    have hlen := (Script.readFull_of_none hread).1
    have hdata : (r.ciphertext.readFull (r.chunkPlainLen part + tagSize).toNat).1 ≠ [] := by
      rw [hread, ← length_pos_iff]
      show 0 < ciphertext.length
      omega
    have hsmaller := readFull_size_lt hdata
    rw [hread] at hsmaller
    split at hfill <;> cases hfill
    refine (rank_advance_le _ _).trans_lt ?_
    simpa [rank, hopen] using hsmaller

/-- The reader as a transformer with a pending buffer. -/
def puller : Puller MpuPlaintextRangeReader UInt8 (ReadError RangeReadError) where
  pending := pending
  setPending items r := { r with pending := items }
  done := done
  fill := fill
  rank := rank
  rank_fill := rank_fill

/-- `Read` into a buffer of length `room`: at most the rest of one chunk. -/
def read (room : ℕ) (r : MpuPlaintextRangeReader) :
    ReadResult UInt8 RangeReadError × MpuPlaintextRangeReader :=
  readServing puller id room r

def start (m : MultipartManifest) (hvalid : m.validateLayout = .ok ()) (plan : MpuRangeResult)
    (pStart pEnd : ℤ)
    (decrypt : Bytes → (partNumber chunkSize chunkIndex : ℤ) → Except MpuError Bytes)
    (objReader : Script UInt8 ℕ) : MpuPlaintextRangeReader where
  ciphertext := objReader
  manifest := m
  validLayout := hvalid
  rangeResult := plan
  rangeStart := pStart
  rangeEnd := pEnd
  plainOffset := m.plainOffset plan.partStartIdx + plan.chunkStart * m.chunkSize
  partIndex := plan.partStartIdx
  chunkIndex := plan.chunkStart
  decrypt := decrypt
  pending := []
  done := false

end MpuPlaintextRangeReader

/-! ## The walk -/

/-- The reader serves bytes `start` to `last` of the object.  No turn changes this. -/
structure Serves {o : StoredObject} {last : ℕ} (stop : o.ByteAt last) (start : ℕ)
    (r : MpuPlaintextRangeReader) : Prop where
  manifest_eq : r.manifest = o.manifest
  decrypt_eq : r.decrypt = o.decrypt
  rangeStart_eq : r.rangeStart = start
  rangeEnd_eq : r.rangeEnd = last
  partEndIdx_eq : r.rangeResult.partEndIdx = stop.k
  chunkEnd_eq : r.rangeResult.chunkEnd = stop.i
  clean : Script.Clean r.ciphertext
  open_eq : r.done = false

/-- The reader is at chunk `i` of part `k`, with the planned ciphertext from there on in its
source. -/
structure Walking {o : StoredObject} {last : ℕ} (stop : o.ByteAt last) (start : ℕ)
    (r : MpuPlaintextRangeReader) (k i : ℕ) (part : PlainPart) : Prop
    extends Serves stop start r where
  chunkAt : o.ChunkAt k i part
  before_stop : k < stop.k ∨ k = stop.k ∧ i ≤ stop.i
  partIndex_eq : r.partIndex = k
  chunkIndex_eq : r.chunkIndex = i
  plainOffset_eq : r.plainOffset = o.plainAt k i
  bytes_eq : Script.bytes r.ciphertext = slice o.ciphertext (o.encAt k i) stop.encStop

/-- The reader is at an empty part, with something left in its source. -/
structure Stuck {o : StoredObject} {last : ℕ} (stop : o.ByteAt last) (start : ℕ)
    (r : MpuPlaintextRangeReader) (k : ℕ) (part : PlainPart) : Prop
    extends Serves stop start r where
  getElem?_eq : o.parts[k]? = some part
  data_eq : part.data = []
  before_stop : k < stop.k
  partIndex_eq : r.partIndex = k
  chunkIndex_eq : r.chunkIndex = 0
  bytes_ne : Script.bytes r.ciphertext ≠ []

open PlainPart

open StoredObject

open MpuPlaintextRangeReader

section Walk

variable {o : StoredObject} {start last k i : ℕ} {stop : o.ByteAt last} {part : PlainPart}
  {r r' : MpuPlaintextRangeReader}

theorem Serves.moved (hserves : Serves stop start r) {src : Script UInt8 ℕ}
    (hclean : Script.Clean src) (plainOffset : ℤ) (partIndex : ℕ) (chunkIndex : ℤ)
    (pending : Bytes) :
    Serves stop start { r with
      ciphertext := src
      plainOffset := plainOffset
      partIndex := partIndex
      chunkIndex := chunkIndex
      pending := pending } :=
  { hserves with clean := hclean }

section

variable (hwalk : Walking stop start r k i part)

include hwalk

theorem Walking.chunkPlainLen_eq :
    r.chunkPlainLen (part.record o.chunkSize) = (part.chunk o.chunkSize i).length := by
  have hpos := o.laidOut.chunkSize_pos
  have hbegins := hwalk.chunkAt.begins
  rw [chunkPlainLen, hwalk.chunkIndex_eq, hwalk.manifest_eq,
    o.laidOut.chunkSize_eq, record_chunkCount, record_plainLen]
  by_cases hlast : i + 1 = part.chunkCount o.chunkSize
  · rw [if_pos (by omega), chunk_of_last hpos hlast, length_drop]
    omega
  · have hinside := hwalk.chunkAt.inside
    rw [if_neg (by omega), length_chunk_of_lt hpos (by omega)]

theorem Walking.clip_eq :
    r.clip (part.chunk o.chunkSize i) =
      slice o.plaintext (max start (o.plainAt k i))
        (min (last + 1) (o.plainAt k i + (part.chunk o.chunkSize i).length)) := by
  have hchunk := hwalk.chunkAt.slice_plaintext
  simp only [clip, hwalk.plainOffset_eq, hwalk.rangeStart_eq, hwalk.rangeEnd_eq]
  generalize hlen : (part.chunk o.chunkSize i).length = len at *
  generalize o.plainAt k i = off at *
  rw [← hchunk]
  split
  · rw [← slice_slice (le_max_right start off) (min_le_right (last + 1) (off + len))]
    congr 1 <;> omega
  · rw [slice_of_le (by omega)]

theorem Walking.fill_eq :
    ∃ src, Script.Clean src ∧
      bytes src = slice o.ciphertext (o.encAt k i + (o.sealedChunk part i).length) stop.encStop ∧
      r.fill = (none, { r with
        ciphertext := src
        plainOffset := (o.plainAt k i + (part.chunk o.chunkSize i).length : ℕ)
        pending := slice o.plaintext (max start (o.plainAt k i))
          (min (last + 1) (o.plainAt k i + (part.chunk o.chunkSize i).length))
        }.advance (part.record o.chunkSize)) := by
  have hat := hwalk.chunkAt
  have hstop : o.encAt k i + (o.sealedChunk part i).length ≤ stop.encStop := by
    by_cases hlt : k < stop.k ∨ k = stop.k ∧ i < stop.i
    · exact (hat.encEnd_le_of_lt stop.chunkAt hlt).trans (Nat.le_add_right _ _)
    obtain ⟨rfl, rfl⟩ : k = stop.k ∧ i = stop.i := by
      have := hwalk.before_stop
      omega
    rw [StoredObject.ByteAt.encStop, stop.chunkAt.eq_part hat.getElem?_eq]
  have hend := stop.chunkAt.encEnd_le
  have hwant : (r.chunkPlainLen (part.record o.chunkSize) + tagSize).toNat =
      (o.sealedChunk part i).length := by
    rw [hwalk.chunkPlainLen_eq, length_sealedChunk]
    omega
  obtain ⟨src, hread, hclean, hrest⟩ := readFull_of_clean_of_le hwalk.clean
    (show (o.sealedChunk part i).length ≤ (bytes r.ciphertext).length by
      rw [hwalk.bytes_eq, length_slice]
      rw [StoredObject.ByteAt.encStop] at hstop ⊢
      omega)
  rw [hwalk.bytes_eq, take_slice hstop, hat.slice_ciphertext] at hread
  rw [hwalk.bytes_eq, drop_slice] at hrest
  refine ⟨src, hclean, hrest, ?_⟩
  have hdecrypt := o.decrypt_take hat.mem 1 i
  rw [take_partFrom hat.inside, Nat.zero_mul, take_zero, append_nil, Nat.one_mul] at hdecrypt
  change _ = Except.ok (part.chunk o.chunkSize i) at hdecrypt
  have hsize : r.manifest.chunkSize = o.chunkSize := by
    rw [hwalk.manifest_eq, o.laidOut.chunkSize_eq]
  have hpart : r.manifest.parts[r.partIndex]? = some (part.record o.chunkSize) := by
    rw [hwalk.manifest_eq, hwalk.partIndex_eq, getElem?_record hat.getElem?_eq]
  rw [fill, if_neg, hpart]
  · simp only [hwant, hread, record_partNumber, hwalk.decrypt_eq, hwalk.chunkIndex_eq]
    rw [hsize, hdecrypt]
    simp only [hwalk.clip_eq, hwalk.chunkPlainLen_eq, hwalk.plainOffset_eq, Nat.cast_add]
  · have := hwalk.before_stop
    rw [hwalk.partEndIdx_eq, hwalk.partIndex_eq]
    omega

end

/-- Where the walk is after a turn. -/
inductive Next {o : StoredObject} {last : ℕ} (stop : o.ByteAt last) (start k : ℕ)
    (off : ℕ) (r : MpuPlaintextRangeReader) : Prop
  | finished (hdone : r.done = true) (hk : k = stop.k) (hoff : last < off)
  | chunk {i : ℕ} {part : PlainPart} (hwalk : Walking stop start r k i part)
      (hoff : o.plainAt k i = off)
  | part {part : PlainPart} (hwalk : Walking stop start r (k + 1) 0 part)
      (hoff : o.plainAt (k + 1) 0 = off)
  | stuck {part : PlainPart} (hstuck : Stuck stop start r (k + 1) part)

theorem Walking.exists_fill (hwalk : Walking stop start r k i part) :
    ∃ r', r.fill = (none, r') ∧
      r'.pending = slice o.plaintext (max start (o.plainAt k i))
        (min (last + 1) (o.plainAt k i + (part.chunk o.chunkSize i).length)) ∧
      Next stop start k (o.plainAt k i + (part.chunk o.chunkSize i).length) r' := by
  obtain ⟨src, hclean, hbytes, hfill⟩ := hwalk.fill_eq
  have hat := hwalk.chunkAt
  have hinside := hat.inside
  have hbefore := hwalk.before_stop
  refine ⟨_, hfill, ?_, ?_⟩
  · rw [advance]
    split
    · rfl
    · split
      · split <;> rfl
      · rfl
  · rw [advance]
    simp only [hwalk.chunkIndex_eq, hwalk.partIndex_eq, hwalk.partEndIdx_eq, hwalk.chunkEnd_eq,
      record_chunkCount, Nat.cast_inj]
    by_cases hfinished : i = stop.i ∧ k = stop.k
    · rw [if_pos hfinished]
      obtain ⟨rfl, rfl⟩ := hfinished
      cases stop.chunkAt.eq_part hat.getElem?_eq
      exact .finished rfl rfl stop.offset_lt
    · rw [if_neg hfinished]
      by_cases hlast : i + 1 = part.chunkCount o.chunkSize
      · -- the part is finished, and it is not the last one
        have hk : k + 1 ≤ stop.k := by
          rcases hbefore with hlt | ⟨rfl, hle⟩
          · exact hlt
          · have hstop := stop.chunkAt.inside
            rw [← stop.chunkAt.eq_part hat.getElem?_eq] at hstop
            omega
        rw [if_pos (by omega), if_pos hk]
        obtain ⟨next, hnext⟩ := stop.exists_part hk
        have hoff := hat.plainAt_nextPart hlast
        rw [← hat.encAt_nextPart hlast] at hbytes
        by_cases hempty : next.data = []
        · have hne : k + 1 ≠ stop.k := by
            intro hsame
            rw [hsame] at hnext
            exact stop.chunkAt.data_ne_nil (stop.chunkAt.eq_part hnext ▸ hempty)
          refine .stuck ⟨hwalk.moved hclean .., hnext, hempty, by omega, rfl, rfl, ?_⟩
          show bytes src ≠ []
          have hend := stop.chunkAt.encEnd_le
          have hle := encAt_le_of_le (o := o) hk stop.i
          have hlen := o.length_sealedChunk stop.part stop.i
          rw [hbytes, ← length_pos_iff, length_slice, StoredObject.ByteAt.encStop, hlen, tagSize]
          rw [hlen, tagSize] at hend
          omega
        · have hfirst : 0 < next.chunkCount o.chunkSize := by
            rw [lt_chunkCount_iff o.laidOut.chunkSize_pos, Nat.zero_mul]
            exact length_pos_iff.mpr hempty
          exact .part ⟨hwalk.moved hclean .., ⟨hnext, hfirst⟩, by omega, rfl, rfl,
            congrArg Nat.cast hoff.symm, hbytes⟩ hoff
      · have hnext : i + 1 < part.chunkCount o.chunkSize := by omega
        have hoff := plainAt_next (o := o) (k := k) hnext
        rw [← encAt_next hnext] at hbytes
        rw [if_neg (by omega)]
        exact .chunk ⟨hwalk.moved hclean .., ⟨hat.getElem?_eq, hnext⟩, by omega, rfl, rfl,
          congrArg Nat.cast hoff.symm, hbytes⟩ hoff

/-- At an empty part the walk reads over the next chunk and fails. -/
theorem Stuck.fill_error (hideal : o.Ideal) (hstuck : Stuck stop start r k part) :
    ∃ err r', r.fill = (some err, r') ∧ err ≠ .eof := by
  have hmem : part ∈ o.parts := mem_of_getElem? hstuck.getElem?_eq
  have hnone : part.chunkCount o.chunkSize = 0 := by
    rw [chunkCount, hstuck.data_eq]
    rfl
  have hsize : r.manifest.chunkSize = o.chunkSize := by
    rw [hstuck.manifest_eq, o.laidOut.chunkSize_eq]
  have hpart : r.manifest.parts[r.partIndex]? = some (part.record o.chunkSize) := by
    rw [hstuck.manifest_eq, hstuck.partIndex_eq, getElem?_record hstuck.getElem?_eq]
  -- chunk 0 is not the last one of a part without chunks, so a full chunk is expected
  have hwant : (r.chunkPlainLen (part.record o.chunkSize) + tagSize).toNat =
      o.chunkSize + tagSize := by
    rw [chunkPlainLen, hstuck.chunkIndex_eq, record_chunkCount, hnone, if_neg (by decide), hsize]
    omega
  have hrange : ¬r.rangeResult.partEndIdx < r.partIndex := by
    have := hstuck.before_stop
    rw [hstuck.partEndIdx_eq, hstuck.partIndex_eq]
    omega
  rw [fill, if_neg hrange, hpart]
  simp only [hwant]
  obtain ⟨src, hread, -, -⟩ := readFull_of_clean (o.chunkSize + tagSize) hstuck.clean
  rw [hread, outcome]
  by_cases hlong : o.chunkSize + tagSize ≤ (bytes r.ciphertext).length
  · rw [if_pos hlong]
    have hne : (bytes r.ciphertext).take (o.chunkSize + tagSize) ≠ [] := by
      rw [← length_pos_iff, length_take, min_eq_left hlong, tagSize]
      omega
    have hdecrypt := decrypt_of_ne (i := 0) hideal hmem (by decide) hne
      fun hopens => absurd hopens.1 (by omega)
    simp only [hstuck.decrypt_eq, hstuck.chunkIndex_eq, record_partNumber]
    rw [hsize, ← Nat.cast_zero, hdecrypt]
    exact ⟨_, _, rfl, by simp⟩
  · rw [if_neg hlong, stopError, if_neg (by simpa using hstuck.bytes_ne)]
    exact ⟨_, _, rfl, by simp [passOn]⟩

/-- What comes out of a walk that meets no empty part. -/
theorem flow_walking (hwalk : Walking stop start r k i part)
    (hfull : ∀ k', k < k' → k' < stop.k → ∀ part', o.parts[k']? = some part' → part'.data ≠ []) :
    (puller.flow r).1 =
        r.pending ++ slice o.plaintext (max start (o.plainAt k i)) (last + 1) ∧
      (puller.flow r).2.1 = none := by
  generalize hrank : r.rank = rank
  induction rank using Nat.strong_induction_on generalizing r k i part with
  | _ rank ih =>
    have hclear : Walking stop start { r with pending := [] } k i part := { hwalk with }
    obtain ⟨r', hfill, hpending, hnext⟩ := hclear.exists_fill
    have hless : r'.rank < rank :=
      (rank_fill { r with pending := [] } r' hwalk.open_eq hfill).trans_eq
        hrank
    rw [Puller.flow_of_fill (m := puller) hwalk.open_eq hfill,
      slice_step (Nat.le_add_right _ (part.chunk o.chunkSize i).length), ← hpending]
    cases hnext with
    | finished hdone hk hoff =>
      rw [Puller.flow_of_done (m := puller) hdone, slice_of_le (by omega), append_nil]
      exact ⟨rfl, rfl⟩
    | chunk hwalk' hoff =>
      obtain ⟨hout, hend⟩ := ih _ hless hwalk' hfull rfl
      rw [hout, hoff]
      exact ⟨rfl, hend⟩
    | part hwalk' hoff =>
      obtain ⟨hout, hend⟩ := ih _ hless hwalk'
        (fun k' hlt => hfull k' (Nat.lt_of_succ_lt hlt)) rfl
      rw [hout, hoff]
      exact ⟨rfl, hend⟩
    | stuck hstuck =>
      exact absurd hstuck.data_eq
        (hfull _ (Nat.lt_succ_self k) hstuck.before_stop _ hstuck.getElem?_eq)

/-- A walk that meets an empty part ends there. -/
theorem flow_failing (hideal : o.Ideal) (hwalk : Walking stop start r k i part) {k' : ℕ}
    {part' : PlainPart} (hafter : k < k') (hbefore : k' < stop.k)
    (hpart : o.parts[k']? = some part') (hempty : part'.data = []) :
    ∃ err, (puller.flow r).2.1 = some err ∧ err ≠ .eof := by
  generalize hrank : r.rank = rank
  induction rank using Nat.strong_induction_on generalizing r k i part with
  | _ rank ih =>
    have hclear : Walking stop start { r with pending := [] } k i part := { hwalk with }
    obtain ⟨r', hfill, -, hnext⟩ := hclear.exists_fill
    have hless : r'.rank < rank :=
      (rank_fill { r with pending := [] } r' hwalk.open_eq hfill).trans_eq
        hrank
    rw [Puller.flow_of_fill (m := puller) hwalk.open_eq hfill]
    cases hnext with
    | finished hdone hk hoff => omega
    | chunk hwalk' hoff => exact ih _ hless hwalk' hafter rfl
    | part hwalk' hoff =>
      refine ih _ hless hwalk' (Nat.lt_of_le_of_ne hafter ?_) rfl
      -- the next part has a chunk, so it is not the empty one
      rintro rfl
      exact hwalk'.chunkAt.data_ne_nil (hwalk'.chunkAt.eq_part hpart ▸ hempty)
    | stuck hstuck =>
      have hclear' : Stuck stop start { r' with pending := [] } _ _ := { hstuck with }
      obtain ⟨err, r'', hfail, hne⟩ := hclear'.fill_error hideal
      rw [Puller.flow_of_fill_error (m := puller) hstuck.open_eq hfail]
      exact ⟨err, rfl, hne⟩

end Walk

/-! ## Ranged and full reads -/

/-- Some part without plaintext lies strictly inside the range. -/
def EmptyPartInside (m : MultipartManifest) (start last : ℤ) : Prop :=
  ∃ k < m.parts.length, m.parts[k]?.map MpuPartRecord.plainLen = some 0 ∧
    start < m.plainOffset k ∧ m.plainOffset k ≤ last

instance (m : MultipartManifest) (start last : ℤ) : Decidable (EmptyPartInside m start last) :=
  inferInstanceAs (Decidable (∃ k < m.parts.length, _ ∧ _))

/-- The full reader gives `whole`, however the object arrives and is read. -/
def DeliversWhole (hkdf : SaltedHkdf) (createMpuAeadCipher : Bytes → Except MpuError Aead)
    (format : MpuFormat) (m : MultipartManifest) (object whole : Bytes) : Prop :=
  ∀ src, Script.Clean src → Script.bytes src = object →
    ∃ r, newMpuDecryptReaderFor createMpuAeadCipher format src m = .ok r ∧
      ∀ sizes, KeepsReading sizes → ∃ fuel r',
        drain (MpuPlaintext.read hkdf) sizes fuel r = (whole, some .eof, r')

/-- The reader of the range gives `expected`, however the planned ciphertext arrives and is
read. -/
def DeliversRange (hkdf : SaltedHkdf) (createMpuAeadCipher : Bytes → Except MpuError Aead)
    (format : MpuFormat) (m : MultipartManifest) (object : Bytes) (pStart pEnd : ℤ)
    (expected : Bytes) : Prop :=
  ∃ plan, m.encRangeForPlaintextRange pStart pEnd = .ok plan ∧
    ∀ (hvalid : m.validateLayout = .ok ()) (objReader : Script UInt8 ℕ),
      Script.Clean objReader →
      Script.bytes objReader = slice object plan.encStart.toNat (plan.encEnd + 1).toNat →
      ∀ sizes, KeepsReading sizes → ∃ fuel r',
        drain MpuPlaintextRangeReader.read sizes fuel
          (.start m hvalid plan pStart pEnd (decryptPartRange hkdf createMpuAeadCipher format)
            objReader) = (expected, some .eof, r')

section Ranges

variable {o : StoredObject} {start last : ℕ}

/-- An empty part inside the range, by the chunks of its ends. -/
theorem emptyPartInside_iff (first : o.ByteAt start) (stop : o.ByteAt last) :
    EmptyPartInside o.manifest start last ↔
      ∃ k part, first.k < k ∧ k < stop.k ∧ o.parts[k]? = some part ∧ part.data = [] := by
  constructor
  · rintro ⟨k, -, hlen, hafter, hbefore⟩
    rw [first.lt_plainOffset_iff] at hafter
    rw [stop.plainOffset_le_iff] at hbefore
    rw [o.laidOut.parts_eq, List.getElem?_map, Option.map_map, Option.map_eq_some_iff] at hlen
    obtain ⟨part, hpart, hlen⟩ := hlen
    have hempty : part.data = [] := length_eq_zero_iff.mp (by
      simpa using hlen)
    refine ⟨k, part, hafter, lt_of_le_of_ne hbefore ?_, hpart, hempty⟩
    rintro rfl
    exact stop.chunkAt.data_ne_nil (stop.chunkAt.eq_part hpart ▸ hempty)
  · rintro ⟨k, part, hafter, hbefore, hpart, hempty⟩
    obtain ⟨hk, -⟩ := List.getElem?_eq_some_iff.mp hpart
    refine ⟨k, ?_, ?_, (first.lt_plainOffset_iff k).mpr hafter,
      (stop.plainOffset_le_iff k).mpr hbefore.le⟩
    · rwa [o.laidOut.parts_eq, length_map]
    · rw [getElem?_record hpart, Option.map_some, record_plainLen, hempty]
      rfl

theorem walking_start (hle : start ≤ last) (first : o.ByteAt start) (stop : o.ByteAt last)
    {src : Script UInt8 ℕ} (hclean : Script.Clean src)
    (hbytes : bytes src = slice o.ciphertext (o.encAt first.k first.i) stop.encStop)
    (hvalid : o.manifest.validateLayout = .ok ()) {plan : MpuRangeResult}
    (hplan : o.manifest.encRangeForPlaintextRange start last = .ok plan) :
    Walking stop start (.start o.manifest hvalid plan start last o.decrypt src) first.k first.i
      first.part := by
  rw [first.encRangeForPlaintextRange_eq stop hle] at hplan
  cases hplan
  refine ⟨⟨rfl, rfl, rfl, rfl, rfl, rfl, hclean, rfl⟩, first.chunkAt, first.le_of_le stop hle,
    rfl, rfl, plainOffset_add_eq first.k first.i, hbytes⟩

theorem delivers_read :
    Delivers read (fun _ => True)
      (fun r => (puller.flow r).1)
      (fun r => .ofEndWith id (puller.flow r).2.1) :=
  delivers_readServing _ id _ (fun _ _ _ => trivial) fun _ _ _ _ _ => trivial

variable (hle : start ≤ last) (first : o.ByteAt start) (stop : o.ByteAt last)

include hle first stop

theorem deliversRange_of_not_emptyPartInside (hnone : ¬EmptyPartInside o.manifest start last) :
    DeliversRange o.hkdf o.createMpuAeadCipher o.format o.manifest o.ciphertext start last
      (slice o.plaintext start (last + 1)) := by
  refine ⟨_, first.encRangeForPlaintextRange_eq stop hle, ?_⟩
  intro hvalid src hclean hbytes sizes hkeeps
  rw [Int.sub_add_cancel, Int.toNat_natCast, Int.toNat_natCast] at hbytes
  have hwalk := walking_start hle first stop hclean hbytes hvalid
    (first.encRangeForPlaintextRange_eq stop hle)
  have hfull : ∀ k, first.k < k → k < stop.k → ∀ part, o.parts[k]? = some part →
      part.data ≠ [] := by
    intro k hafter hbefore part hpart hempty
    exact hnone ((emptyPartInside_iff first stop).mpr ⟨k, part, hafter, hbefore, hpart, hempty⟩)
  obtain ⟨hout, hend⟩ := flow_walking hwalk hfull
  obtain ⟨fuel, r', hdrain⟩ := delivers_read.drain
    (s := .start o.manifest hvalid _ start last o.decrypt src) trivial hkeeps
  rw [hout, hend, max_eq_left first.plainAt_le] at hdrain
  exact ⟨fuel, r', hdrain⟩

theorem not_emptyPartInside_of_deliversRange (hideal : o.Ideal) {expected : Bytes}
    (hdelivers : DeliversRange o.hkdf o.createMpuAeadCipher o.format o.manifest o.ciphertext
      start last expected) : ¬EmptyPartInside o.manifest start last := by
  intro hinside
  obtain ⟨k, part, hafter, hbefore, hpart, hempty⟩ := (emptyPartInside_iff first stop).mp hinside
  obtain ⟨plan, hplan, hdelivers⟩ := hdelivers
  let src : Script UInt8 ℕ := [⟨slice o.ciphertext (o.encAt first.k first.i) stop.encStop, none⟩]
  have hbytes : bytes src =
      slice o.ciphertext (o.encAt first.k first.i) stop.encStop := append_nil _
  have hwalk := walking_start hle first stop (clean_singleton _) hbytes
    o.laidOut.validateLayout_eq hplan
  obtain ⟨err, herr, hne⟩ := flow_failing hideal hwalk hafter hbefore hpart hempty
  have hfetched : bytes src =
      slice o.ciphertext plan.encStart.toNat (plan.encEnd + 1).toNat := by
    rw [first.encRangeForPlaintextRange_eq stop hle] at hplan
    cases hplan
    rw [Int.sub_add_cancel, Int.toNat_natCast, Int.toNat_natCast, hbytes]
  obtain ⟨fuel, r', hdrain⟩ := hdelivers o.laidOut.validateLayout_eq src
    (clean_singleton _) hfetched _ keepsReading_one
  -- the drain would have ended with the error
  obtain ⟨-, hend⟩ := delivers_read.drain_ended trivial hdrain
  have hflow : (puller.flow (.start o.manifest
      o.laidOut.validateLayout_eq plan start last o.decrypt src)).2.1 = some err := herr
  exact hne ((congrArg (ReadError.ofEndWith id) hflow).symm.trans hend.symm)

end Ranges

/-- **Ranged and full GET.**  A ranged read of an object that was written part by part gives
the bytes of the full read, unless an empty part lies strictly inside the range; then, with an
AEAD that opens nothing but the chunks of the object, it gives no range at all. -/
theorem deliversRange_iff {hkdf : SaltedHkdf}
    {createMpuAeadCipher : Bytes → Except MpuError Aead} {aead : Aead} {format : MpuFormat}
    (hformat : format.Valid) (hbound : format.bound = true)
    (hcipher : createMpuAeadCipher format.dek = .ok aead) {m : MultipartManifest}
    (hversion : m.version = 2) (hvalid : m.validateLayout = .ok ()) {parts : List PlainPart}
    (hparts : List.Forall₂ MpuPartRecord.IsOf m.parts parts) {ciphertexts : List Bytes}
    (hwritten : List.Forall₂ (WrittenAs hkdf createMpuAeadCipher format m.chunkSize) parts
      ciphertexts)
    (hseals : SealsParts hkdf aead format m.chunkSize.toNat parts) {start last : ℕ}
    (hle : start ≤ last) (hlast : (last : ℤ) < m.totalPlainSize) :
    ∃ whole, DeliversWhole hkdf createMpuAeadCipher format m ciphertexts.flatten whole ∧
      (¬EmptyPartInside m start last →
        DeliversRange hkdf createMpuAeadCipher format m ciphertexts.flatten start last
          (slice whole start (last + 1))) ∧
      (Unforged hkdf aead format m.chunkSize.toNat parts →
        (DeliversRange hkdf createMpuAeadCipher format m ciphertexts.flatten start last
          (slice whole start (last + 1)) ↔ ¬EmptyPartInside m start last)) := by
  obtain ⟨chunkSize, hlaid⟩ := MultipartManifest.laidOut_of_validateLayout hvalid hparts
    (fun hnone => by omega)
  rw [hlaid.chunkSize_eq, Int.toNat_natCast] at hseals ⊢
  let o : StoredObject := ⟨hkdf, createMpuAeadCipher, aead, format, m, chunkSize, parts, hformat,
    hcipher, hlaid, hseals⟩
  rw [hlaid.total_eq, Nat.cast_lt] at hlast
  obtain ⟨first⟩ := exists_byteAt (o := o) (hle.trans_lt hlast)
  obtain ⟨stop⟩ := exists_byteAt (o := o) hlast
  have hobject := partsCiphertext_of_written hformat hcipher hlaid hwritten
  have hrange : ¬EmptyPartInside m start last →
      DeliversRange hkdf createMpuAeadCipher format m ciphertexts.flatten start last
        (slice (partsPlaintext parts) start (last + 1)) := by
    rw [hobject]
    exact deliversRange_of_not_emptyPartInside hle first stop
  refine ⟨partsPlaintext parts, ?_, hrange, fun hunforged => ⟨?_, hrange⟩⟩
  · intro src hclean hbytes
    obtain ⟨r, hnew, hdrain⟩ := drain_object hkdf hformat hcipher hlaid hseals hclean
      (hbytes.trans hobject)
    exact ⟨r, (newMpuDecryptReaderFor_eq hformat hbound hversion src).trans hnew, hdrain⟩
  · rw [hobject]
    exact not_emptyPartInside_of_deliversRange hle first stop
      ⟨hunforged, MpuFormat.separates_of_bound hkdf hformat hbound⟩

/-! ## An object with an empty part -/

def sample : StoredObject :=
  .sample 4 [⟨1, [7]⟩, ⟨2, []⟩, ⟨3, [8]⟩] (by decide) (by decide) (by decide)

/-- The first byte, before the empty part. -/
theorem deliversRange_first_byte :
    ∃ whole, DeliversWhole sample.hkdf sample.createMpuAeadCipher sample.format sample.manifest
        sample.ciphertexts.flatten whole ∧
      DeliversRange sample.hkdf sample.createMpuAeadCipher sample.format sample.manifest
        sample.ciphertexts.flatten (0 : ℕ) (0 : ℕ) (slice whole 0 1) := by
  obtain ⟨whole, hwhole, -, hiff⟩ := deliversRange_iff sample.format_valid rfl sample.cipher_eq rfl
    sample.laidOut.validateLayout_eq sample.isOf sample.written sample.seals (le_refl 0)
    (by decide)
  exact ⟨whole, hwhole, (hiff (ideal_sample _ _ _).unforged).mpr (by decide)⟩

/-- Both bytes, with the empty part between them: the full read gives them, the ranged read
does not. -/
theorem not_deliversRange_both_bytes :
    sample.manifest.validateLayout = .ok () ∧
      List.Forall₂ MpuPartRecord.IsOf sample.manifest.parts sample.parts ∧
      List.Forall₂ (WrittenAs sample.hkdf sample.createMpuAeadCipher sample.format
        sample.manifest.chunkSize) sample.parts sample.ciphertexts ∧
      DeliversWhole sample.hkdf sample.createMpuAeadCipher sample.format sample.manifest
        sample.ciphertexts.flatten [7, 8] ∧
      ¬DeliversRange sample.hkdf sample.createMpuAeadCipher sample.format sample.manifest
        sample.ciphertexts.flatten (0 : ℕ) (1 : ℕ) (slice [7, 8] 0 2) := by
  refine ⟨sample.laidOut.validateLayout_eq, sample.isOf, sample.written, ?_, ?_⟩
  · intro src hclean hbytes
    obtain ⟨r, hnew, hdrain⟩ := drain_object sample.hkdf sample.format_valid sample.cipher_eq
      sample.laidOut sample.seals hclean hbytes
    exact ⟨r, (newMpuDecryptReaderFor_eq sample.format_valid rfl rfl src).trans hnew, hdrain⟩
  · intro hdelivers
    obtain ⟨first⟩ := @StoredObject.exists_byteAt sample 0 (by decide)
    obtain ⟨stop⟩ := @StoredObject.exists_byteAt sample 1 (by decide)
    exact not_emptyPartInside_of_deliversRange (by decide) first stop
      (ideal_sample _ _ _) hdelivers (by decide)

end S3EncryptionGateway.Api.RangedGet
