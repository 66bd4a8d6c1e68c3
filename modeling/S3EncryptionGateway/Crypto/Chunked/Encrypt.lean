import S3EncryptionGateway.Library.PullReader
import S3EncryptionGateway.Crypto.Chunked.Format

/-!
# The chunked writer

`ChunkedEncryptReader` turns a plaintext source into a stream of sealed records:
it reads the source a chunk at a time, seals each chunk under the nonce and the
associated data of its index, and when the source has nothing more it seals a
terminal record that says how many records and bytes there were.

The reader is a `Streams.Puller`: `fill` is one turn of the loop in `Read`, the
loop itself and the meaning of the whole stream come from the library.

## What it writes

`refills_eq` says what comes out of a bound writer for *every* source: the
sealed chunks of `Script.readChunks`, then the terminal or the source's error.
Everything about the source that matters is in `readChunks`; the later modules
never look at `fill` again.

The field `seals` is a history variable: the `Seal` calls made so far, which the
code itself never reads.
-/

namespace S3EncryptionGateway.Crypto

open Encoding Streams List

/-- Which of its two AEADs a writer called. -/
inductive SealRole where
  | data
  | terminal
  deriving DecidableEq

/-- One `Seal` call. -/
structure SealCall where
  role : SealRole
  nonce : Bytes
  plaintext : Bytes
  aad : Bytes
  ciphertext : Bytes

structure ChunkedEncryptReader where
  source : Script UInt8 CryptoError
  aead : Aead
  terminalAead : Option Aead
  format : RecordFormat
  chunkSize : ℕ
  manifest : ChunkManifest
  ctx : Context
  index : ℕ
  plainSize : ℕ
  pending : Bytes
  done : Bool
  err : Option CryptoError
  seals : List SealCall

variable (hkdf : Hkdf)

namespace ChunkedEncryptReader

variable (r : ChunkedEncryptReader)

/-- Record an error and report it. -/
def fail (err : CryptoError) : Option CryptoError × ChunkedEncryptReader :=
  (some err, { r with err := some err })

def sealRecord (data : Bytes) : Option CryptoError × ChunkedEncryptReader :=
  match r.format.dataNonceAndAad hkdf .hkdfSha256 r.index with
  | .error err => r.fail err
  | .ok (nonce, aad) =>
    let ciphertext := r.aead.sealed nonce data aad
    let r := { r with
      pending := ciphertext
      seals := r.seals ++ [SealCall.mk .data nonce data aad ciphertext] }
    if maxUint64 - r.plainSize < data.length then r.fail .plaintextSizeOverflow
    else
      let r := { r with plainSize := r.plainSize + data.length }
      if r.index = maxUint64 then r.fail .chunkCountOverflow
      else
        (none, { r with
          index := r.index + 1
          manifest := { r.manifest with chunkCount := r.index + 1 } })

/-- The source has nothing more: seal the terminal, in version 2. -/
def sealTerminal : Option CryptoError × ChunkedEncryptReader :=
  let r := { r with done := true }
  if r.format.version = chunkedFormatV2 then
    match r.terminalAead with
    | none => r.fail .terminalAeadMissing
    | some terminalAead =>
      match r.format.terminalNonceAndAad hkdf r.index r.plainSize with
      | .error err => r.fail err
      | .ok (nonce, aad) =>
        let terminal := encodeChunkedTerminal r.index r.plainSize
        let ciphertext := terminalAead.sealed nonce terminal aad
        (none, { r with
          pending := ciphertext
          seals := r.seals ++ [SealCall.mk .terminal nonce terminal aad ciphertext] })
  else (none, r)

/-- One turn of the loop of `Read` once nothing is pending.  An error that the
exact-length read reports together with data is not looked at. -/
def fill (hkdf : Hkdf) (r : ChunkedEncryptReader) : Option CryptoError × ChunkedEncryptReader :=
  match r.ctx.poll with
  | (some err, ctx) => { r with ctx := ctx }.fail err
  | (none, ctx) =>
    match r.source.readFull r.chunkSize with
    | (data, err, source) =>
      let r := { r with ctx := ctx, source := source }
      if data ≠ [] then r.sealRecord hkdf data
      else
        match err with
        | some (.other err) => r.fail err
        | _ => r.sealTerminal hkdf

/-- Refills left: one for the terminal and at most one per result of the source. -/
def rank : ℕ :=
  if r.done then 0 else r.source.size + 1

/-- A turn of the writer that goes on has sealed a chunk, or found the end of its source. -/
theorem fill_cases {hkdf : Hkdf} {r r' : ChunkedEncryptReader}
    (hfill : r.fill hkdf = (none, r')) :
    ∃ data err source, r.source.readFull r.chunkSize = (data, err, source) ∧
      r'.source = source ∧ r'.aead = r.aead ∧ r'.format = r.format ∧
      r'.chunkSize = r.chunkSize ∧ r'.terminalAead = r.terminalAead ∧ r'.err = r.err ∧
      ((data ≠ [] ∧ r'.done = r.done ∧ r'.index = r.index + 1 ∧
          ∃ nonce aad, r.format.dataNonceAndAad hkdf .hkdfSha256 r.index = .ok (nonce, aad) ∧
            r'.pending = r.aead.sealed nonce data aad) ∨
        (data = [] ∧ r'.done = true ∧
          (r.format.version ≠ chunkedFormatV2 → r'.pending = r.pending) ∧
          (r.format.version = chunkedFormatV2 → ∃ terminalAead nonce aad,
            r.terminalAead = some terminalAead ∧
            r'.pending = terminalAead.sealed nonce
              (encodeChunkedTerminal r.index r.plainSize) aad))) := by
  rw [fill] at hfill
  split at hfill
  · cases hfill
  rcases hread : r.source.readFull r.chunkSize with ⟨data, err, source⟩
  rw [hread] at hfill
  refine ⟨data, err, source, rfl, ?_⟩
  simp only at hfill
  split_ifs at hfill with hdata
  · rw [sealRecord] at hfill
    split at hfill
    · cases hfill
    rename_i nonce aad hnonce
    simp only [fail] at hfill
    split at hfill
    · cases hfill
    split at hfill <;> cases hfill
    exact ⟨rfl, rfl, rfl, rfl, rfl, rfl, .inl ⟨hdata, rfl, rfl, nonce, aad, hnonce, rfl⟩⟩
  · split at hfill
    · cases hfill
    simp only [sealTerminal, fail] at hfill
    split_ifs at hfill with hversion
    · split at hfill
      · cases hfill
      rename_i terminalAead hterminal
      split at hfill
      · cases hfill
      cases hfill
      exact ⟨rfl, rfl, rfl, rfl, rfl, rfl, .inr ⟨not_not.mp hdata, rfl,
        fun hother => absurd hversion hother,
        fun _ => ⟨terminalAead, _, _, hterminal, rfl⟩⟩⟩
    · cases hfill
      exact ⟨rfl, rfl, rfl, rfl, rfl, rfl, .inr ⟨not_not.mp hdata, rfl, fun _ => rfl,
        fun hother => absurd hother hversion⟩⟩

theorem rank_fill (r r' : ChunkedEncryptReader) (hopen : r.done = false)
    (hfill : r.fill hkdf = (none, r')) : r'.rank < r.rank := by
  obtain ⟨data, err, source, hread, hsource, -, -, -, -, -, hcases⟩ := fill_cases hfill
  rcases hcases with ⟨hdata, hdone, -⟩ | ⟨-, hdone, -⟩
  · -- a chunk was read, so the source got smaller
    have hsize : Script.size source < Script.size r.source := by
      have := @Script.readFull_size_lt _ _ r.chunkSize r.source (by rw [hread]; exact hdata)
      rwa [hread] at this
    simp only [rank, hsource, hdone, hopen]
    simpa using hsize
  · simp [rank, hdone, hopen]

/-- The writer as a transformer with a pending buffer. -/
def puller (hkdf : Hkdf) : Puller ChunkedEncryptReader UInt8 CryptoError where
  pending := pending
  setPending items r := { r with pending := items }
  done := done
  fill := fill hkdf
  rank := rank
  rank_fill := rank_fill hkdf

/-- `Read` into a buffer of length `room`. -/
def read (room : ℕ) (r : ChunkedEncryptReader) :
    ReadResult UInt8 CryptoError × ChunkedEncryptReader :=
  match r.err with
  | some err => (⟨[], some (.other err)⟩, r)
  | none =>
    if r.done ∧ r.pending = [] then (⟨[], some .eof⟩, r)
    else
      match (puller hkdf).loop room r with
      | (written, some err, r') => (⟨written, some (.other err)⟩, r')
      | (written, none, r') =>
        if written ≠ [] then (⟨written, none⟩, r')
        else if r'.done then (⟨[], some .eof⟩, r')
        else (⟨[], none⟩, r')

end ChunkedEncryptReader

/-! ## Constructors -/

/-- The clamping the writer applies to the configured chunk size. -/
def clampChunkSize (chunkSize : ℕ) : ℕ :=
  let chunkSize := if chunkSize < minChunkSize then minChunkSize else chunkSize
  if maxChunkSize < chunkSize then maxChunkSize else chunkSize

def newChunkedEncryptReaderForVersion (ctx : Context) (source : Script UInt8 CryptoError)
    (aead : Aead) (baseIv : Bytes) (chunkSize version : ℕ) (terminalAead : Option Aead) :
    ChunkedEncryptReader × ChunkManifest :=
  let chunkSize := clampChunkSize chunkSize
  let manifest : ChunkManifest := ⟨version, chunkSize, 0, encodeBase64 baseIv, .hkdfSha256⟩
  (⟨source, aead, terminalAead, ⟨version, baseIv, ⟨[], []⟩, [], false⟩, chunkSize, manifest, ctx,
    0, 0, [], false, none, []⟩, manifest)

def newLegacyChunkedEncryptReaderV2 (ctx : Context) (source : Script UInt8 CryptoError)
    (aead : Aead) (baseIv : Bytes) (chunkSize : ℕ) (terminalAead : Option Aead) :
    Except CryptoError (ChunkedEncryptReader × ChunkManifest) :=
  if terminalAead.isNone then .error .writerTerminalAead
  else .ok (newChunkedEncryptReaderForVersion ctx source aead baseIv chunkSize chunkedFormatV2
    terminalAead)

/-- The writer whose records are bound to an object. -/
def newChunkedEncryptReaderV2Bound (ctx : Context) (source : Script UInt8 CryptoError)
    (aead : Aead) (baseIv : Bytes) (chunkSize : ℕ) (terminalAead : Option Aead)
    (object : ObjectContext) (bindingId : Bytes) :
    Except CryptoError (ChunkedEncryptReader × ChunkManifest) := do
  object.validate
  if bindingId.length ≠ bindingIdSize then .error .bindingIdLength
  else
    let (r, manifest) ← newLegacyChunkedEncryptReaderV2 ctx source aead baseIv chunkSize terminalAead
    return ({ r with format := { r.format with object, bindingId, boundV2 := true } }, manifest)

/-! ## The calls of a bound writer -/

/-- The call that seals `chunk` as data record `index`. -/
def dataCall (aead : Aead) (format : RecordFormat) (index : ℕ) (chunk : Bytes) : SealCall :=
  ⟨.data, format.dataNonce hkdf index, chunk, format.dataAad index,
    aead.sealed (format.dataNonce hkdf index) chunk (format.dataAad index)⟩

/-- The calls that seal consecutive chunks from record `index` on. -/
def dataCalls (hkdf : Hkdf) (aead : Aead) (format : RecordFormat) : ℕ → List Bytes → List SealCall
  | _, [] => []
  | index, chunk :: chunks =>
    dataCall hkdf aead format index chunk :: dataCalls hkdf aead format (index + 1) chunks

def terminalCall (aead : Aead) (format : RecordFormat) (index plainSize : ℕ) : SealCall :=
  ⟨.terminal, format.terminalNonce hkdf, encodeChunkedTerminal index plainSize,
    format.terminalAad index plainSize,
    aead.sealed (format.terminalNonce hkdf) (encodeChunkedTerminal index plainSize)
      (format.terminalAad index plainSize)⟩

def records (aead : Aead) (format : RecordFormat) (index : ℕ) (chunks : List Bytes) : Bytes :=
  (dataCalls hkdf aead format index chunks).flatMap SealCall.ciphertext

@[simp] theorem records_nil (aead : Aead) (format : RecordFormat) (index : ℕ) :
    records hkdf aead format index [] = [] := rfl

@[simp] theorem records_cons (aead : Aead) (format : RecordFormat) (index : ℕ) (chunk : Bytes)
    (chunks : List Bytes) :
    records hkdf aead format index (chunk :: chunks) =
      (dataCall hkdf aead format index chunk).ciphertext ++
        records hkdf aead format (index + 1) chunks := rfl

variable {chunks : List Bytes}

theorem role_of_mem_dataCalls {hkdf : Hkdf} {aead : Aead} {format : RecordFormat} {index : ℕ}
    {call : SealCall} (hcall : call ∈ dataCalls hkdf aead format index chunks) :
    call.role = .data := by
  induction chunks generalizing index with
  | nil => simp [dataCalls] at hcall
  | cons chunk chunks ih =>
    rcases mem_cons.mp hcall with rfl | hlater
    · rfl
    · exact ih hlater

namespace ChunkedEncryptReader

/-- A version 2 writer bound to an object, with its terminal AEAD. -/
structure BoundWriter (terminalAead : Aead) (r : ChunkedEncryptReader) : Prop where
  format_bound : r.format.Bound
  terminalAead_eq : r.terminalAead = some terminalAead
  chunkSize_pos : 0 < r.chunkSize

/-- The writer after it has sealed `data` and left `source`. -/
def afterRecord (hkdf : Hkdf) (r : ChunkedEncryptReader) (data : Bytes)
    (source : Script UInt8 CryptoError) : ChunkedEncryptReader :=
  { r with
    source := source
    pending := (dataCall hkdf r.aead r.format r.index data).ciphertext
    seals := r.seals ++ [dataCall hkdf r.aead r.format r.index data]
    plainSize := r.plainSize + data.length
    index := r.index + 1
    manifest := { r.manifest with chunkCount := r.index + 1 } }

/-- The writer after it has sealed the terminal. -/
def afterTerminal (terminalAead : Aead) (r : ChunkedEncryptReader)
    (source : Script UInt8 CryptoError) : ChunkedEncryptReader :=
  { r with
    source := source
    done := true
    pending := (terminalCall hkdf terminalAead r.format r.index r.plainSize).ciphertext
    seals := r.seals ++ [terminalCall hkdf terminalAead r.format r.index r.plainSize] }

variable {hkdf : Hkdf} {terminalAead : Aead} {r : ChunkedEncryptReader}

section Fill

variable (hwriter : BoundWriter terminalAead r) (hctx : r.ctx = .background)
  {data : Bytes} {err : Option (ReadError CryptoError)} {source : Script UInt8 CryptoError}
  (hread : r.source.readFull r.chunkSize = (data, err, source))

include hwriter hctx hread

theorem fill_record (hdata : data ≠ []) (hsize : r.plainSize + data.length ≤ maxUint64)
    (hindex : r.index < maxUint64) :
    r.fill hkdf = (none, r.afterRecord hkdf data source) := by
  rw [fill, hctx, Context.poll_background, hread]
  simp only [if_pos hdata, sealRecord, RecordFormat.dataNonceAndAad_of_bound hwriter.format_bound]
  rw [if_neg (by omega), if_neg (by omega), ← hctx]
  rfl

theorem fill_overflow (hdata : data ≠ []) (hsize : maxUint64 < r.plainSize + data.length) :
    ∃ r', r.fill hkdf = (some .plaintextSizeOverflow, r') ∧
      r'.seals = r.seals ++ [dataCall hkdf r.aead r.format r.index data] := by
  rw [fill, hctx, Context.poll_background, hread]
  simp only [if_pos hdata, sealRecord, RecordFormat.dataNonceAndAad_of_bound hwriter.format_bound]
  have hpos := length_pos_iff.mpr hdata
  rw [if_pos (by omega)]
  exact ⟨_, rfl, rfl⟩

omit hwriter in
theorem fill_error {e : CryptoError} (hdata : data = []) (herr : err = some (.other e)) :
    r.fill hkdf = (some e, { r with source := source, err := some e }) := by
  rw [fill, hctx, Context.poll_background, hread, hdata, herr, ← hctx]
  rfl

theorem fill_terminal (hdata : data = []) (herr : ∀ e, err ≠ some (.other e)) :
    r.fill hkdf = (none, r.afterTerminal hkdf terminalAead source) := by
  rw [fill, hctx, Context.poll_background, hread]
  simp only [hdata, ne_eq, not_true_eq_false, if_false]
  simp only [sealTerminal, if_pos hwriter.format_bound.version_eq, hwriter.terminalAead_eq,
    RecordFormat.terminalNonceAndAad_of_bound hwriter.format_bound]
  rw [← hctx, ← hwriter.terminalAead_eq]
  rfl

end Fill

/-! ## What a bound writer writes -/

/-- The state of a writer between two records, as the step lemmas need it. -/
structure Running (terminalAead : Aead) (r : ChunkedEncryptReader) : Prop
    extends BoundWriter terminalAead r where
  ctx_eq : r.ctx = .background
  open_eq : r.done = false
  pending_eq : r.pending = []
  index_le : r.index ≤ r.plainSize

/-- How a bound writer ends that has sealed `chunks` since `r` and whose last
exact-length read reported `err`. -/
def Finishes (hkdf : Hkdf) (terminalAead : Aead) (r : ChunkedEncryptReader)
    (chunks : List Bytes) (err : Option (ReadError CryptoError))
    (rest : Script UInt8 CryptoError) (result : Bytes × Option CryptoError × ChunkedEncryptReader) :
    Prop :=
  let calls := dataCalls hkdf r.aead r.format r.index chunks
  let terminal := terminalCall hkdf terminalAead r.format (r.index + chunks.length)
    (r.plainSize + chunks.flatten.length)
  result.2.2.source = rest ∧
    match err with
    | some (.other e) =>
      result.1 = records hkdf r.aead r.format r.index chunks ∧ result.2.1 = some e ∧
        result.2.2.seals = r.seals ++ calls
    | _ =>
      result.1 = records hkdf r.aead r.format r.index chunks ++ terminal.ciphertext ∧
        result.2.1 = none ∧ result.2.2.seals = r.seals ++ calls ++ [terminal] ∧
        result.2.2.done = true

variable {err : Option (ReadError CryptoError)} {rest : Script UInt8 CryptoError}
  {result : Bytes × Option CryptoError × ChunkedEncryptReader}

theorem finishes_iff_of_not_other (hnot : ∀ e, err ≠ some (.other e)) :
    Finishes hkdf terminalAead r chunks err rest result ↔
      Finishes hkdf terminalAead r chunks none rest result := by
  cases err with
  | none => rfl
  | some err =>
    cases err with
    | eof => rfl
    | unexpectedEof => rfl
    | other e => exact absurd rfl (hnot e)

theorem Finishes.cons {chunk : Bytes} {source : Script UInt8 CryptoError}
   
    (hlater : Finishes hkdf terminalAead { r.afterRecord hkdf chunk source with pending := [] } chunks err rest result) :
    Finishes hkdf terminalAead r (chunk :: chunks) err rest
      ((dataCall hkdf r.aead r.format r.index chunk).ciphertext ++ result.1, result.2) := by
  have hcount : r.index + 1 + chunks.length = r.index + (chunk :: chunks).length := by
    simp only [length_cons]
    omega
  have hsize : r.plainSize + chunk.length + chunks.flatten.length =
      r.plainSize + (chunk :: chunks).flatten.length := by
    simp only [flatten_cons, length_append]
    omega
  simp only [Finishes, ChunkedEncryptReader.afterRecord, hcount, hsize] at hlater ⊢
  refine ⟨hlater.1, ?_⟩
  have hend := hlater.2
  split at hend
  · obtain ⟨hout, herr, hseals⟩ := hend
    exact ⟨by rw [hout, records_cons], herr, by simp [hseals, dataCalls]⟩
  · obtain ⟨hout, herr, hseals, hdone⟩ := hend
    exact ⟨by rw [hout, records_cons, append_assoc], herr, by simp [hseals, dataCalls], hdone⟩

section

variable (hrun : Running terminalAead r)

include hrun

theorem Running.next {data : Bytes} (hdata : data ≠ []) (source : Script UInt8 CryptoError) :
    Running terminalAead { r.afterRecord hkdf data source with pending := [] } := by
  have hpos := length_pos_iff.mpr hdata
  have hindex := hrun.index_le
  exact ⟨⟨hrun.format_bound, hrun.terminalAead_eq, hrun.chunkSize_pos⟩, hrun.ctx_eq, hrun.open_eq,
    rfl, show r.index + 1 ≤ r.plainSize + data.length by omega⟩

/-- What a bound writer writes when the plaintext size fits 64 bits. -/
theorem refills_of_fits (hread : r.source.readChunks r.chunkSize = (chunks, err, rest))
    (hfits : r.plainSize + chunks.flatten.length ≤ maxUint64) :
    Finishes hkdf terminalAead r chunks err rest ((puller hkdf).refills r) := by
  -- one chunk per step of `readChunks`, with the writer's state going along
  induction chunks generalizing r with
  | nil =>
    have hlast := Script.readFull_of_readChunks_nil hread
    by_cases hother : ∃ e, err = some (.other e)
    · obtain ⟨e, rfl⟩ := hother
      rw [Puller.refills_of_error hrun.open_eq (fill_error hrun.ctx_eq hlast rfl rfl)]
      exact ⟨rfl, rfl, rfl, (append_nil _).symm⟩
    · have hnot : ∀ e, err ≠ some (.other e) := fun e he => hother ⟨e, he⟩
      have hfill : r.fill hkdf = _ := fill_terminal hrun.toBoundWriter hrun.ctx_eq hlast rfl hnot
      rw [Puller.refills_of_fill hrun.open_eq hfill, Puller.flow_of_done rfl,
        finishes_iff_of_not_other hnot]
      refine ⟨rfl, rfl, rfl, ?_, rfl⟩
      simp only [dataCalls, append_nil]
      rfl
  | cons chunk chunks ih =>
    obtain ⟨first, next, hfirst, hchunk, hlater⟩ := Script.readFull_of_readChunks_cons hread
    have hpos := length_pos_iff.mpr hchunk
    have hindex := hrun.index_le
    rw [flatten_cons, length_append] at hfits
    have hfill : r.fill hkdf = _ := fill_record hrun.toBoundWriter hrun.ctx_eq hfirst hchunk
      (by omega) (by omega)
    rw [Puller.refills_of_fill hrun.open_eq hfill]
    refine Finishes.cons (ih (hrun.next hchunk next) hlater ?_)
    show r.plainSize + chunk.length + chunks.flatten.length ≤ maxUint64
    omega

/-- The writer sets `done` when it has delivered all data records and is asked
for more. -/
theorem leadOfRefills_of_fits (hread : r.source.readChunks r.chunkSize = (chunks, err, rest))
    (hnot : ∀ e, err ≠ some (.other e)) (hfits : r.plainSize + chunks.flatten.length ≤ maxUint64) :
    (puller hkdf).leadOfRefills r = (records hkdf r.aead r.format r.index chunks).length := by
  induction chunks generalizing r with
  | nil =>
    have hfill : r.fill hkdf = _ := fill_terminal hrun.toBoundWriter hrun.ctx_eq
      (Script.readFull_of_readChunks_nil hread) rfl hnot
    rw [Puller.leadOfRefills_of_fill hrun.open_eq hfill]
    rfl
  | cons chunk chunks ih =>
    obtain ⟨first, next, hfirst, hchunk, hlater⟩ := Script.readFull_of_readChunks_cons hread
    have hpos := length_pos_iff.mpr hchunk
    have hindex := hrun.index_le
    rw [flatten_cons, length_append] at hfits
    have hfill : r.fill hkdf = _ := fill_record hrun.toBoundWriter hrun.ctx_eq hfirst hchunk
      (by omega) (by omega)
    have hopen : (puller hkdf).done (r.afterRecord hkdf chunk next) = false := hrun.open_eq
    have hrest : (puller hkdf).leadOfRefills { r.afterRecord hkdf chunk next with pending := [] }
        = (records hkdf r.aead r.format (r.index + 1) chunks).length :=
      ih (hrun.next hchunk next) hlater
        (show r.plainSize + chunk.length + chunks.flatten.length ≤ maxUint64 by omega)
    rw [Puller.leadOfRefills_of_fill hrun.open_eq hfill, hopen, records_cons, length_append,
      ← hrest]
    rfl

/-- A plaintext that does not fit 64 bits is refused, without a terminal. -/
theorem refills_of_overflow {ending : Option (ReadError CryptoError) × Script UInt8 CryptoError}
    (hread : r.source.readChunks r.chunkSize = (chunks, ending))
    (hover : maxUint64 < r.plainSize + chunks.flatten.length)
    (hseals : ∀ call ∈ r.seals, call.role = .data) (hsize : r.plainSize ≤ maxUint64) :
    ((puller hkdf).refills r).2.1 = some .plaintextSizeOverflow ∧
      ∀ call ∈ ((puller hkdf).refills r).2.2.seals, call.role = .data := by
  induction chunks generalizing r with
  | nil => exact absurd hover (not_lt.mpr hsize)
  | cons chunk chunks ih =>
    obtain ⟨first, next, hfirst, hchunk, hlater⟩ := Script.readFull_of_readChunks_cons hread
    have hmem : ∀ call ∈ r.seals ++ [dataCall hkdf r.aead r.format r.index chunk],
        call.role = .data := by
      intro call hcall
      rcases mem_append.mp hcall with hold | hnew
      · exact hseals call hold
      · rw [mem_singleton.mp hnew]
        rfl
    by_cases hfits : r.plainSize + chunk.length ≤ maxUint64
    · have hpos := length_pos_iff.mpr hchunk
      have hindex := hrun.index_le
      have hfill : r.fill hkdf = _ := fill_record hrun.toBoundWriter hrun.ctx_eq hfirst hchunk
        hfits (by omega)
      rw [Puller.refills_of_fill hrun.open_eq hfill]
      refine ih (hrun.next hchunk next) hlater ?_ hmem hfits
      simp only [flatten_cons, length_append] at hover
      show maxUint64 < r.plainSize + chunk.length + chunks.flatten.length
      omega
    · obtain ⟨r', hfill, hlog⟩ := fill_overflow hrun.toBoundWriter hrun.ctx_eq hfirst hchunk
        (not_le.mp hfits)
      rw [Puller.refills_of_error hrun.open_eq hfill, hlog]
      exact ⟨rfl, hmem⟩

end

end ChunkedEncryptReader

end S3EncryptionGateway.Crypto
