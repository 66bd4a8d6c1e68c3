import S3EncryptionGateway.Library.PullReader
import S3EncryptionGateway.Crypto.Chunked.Format

/-!
# The chunked reader

`ChunkedDecryptReader` opens the records of a chunked object.  In version 2 the
stream has no framing: the last 32 bytes are the terminal record, and which
bytes are the last is only known at the end of the source.  So the reader keeps
the bytes it cannot classify yet in `lookbehind` and opens a record only when at
least a terminal and one byte more are known to follow it.

The reader is a `Streams.Puller` like the writer.  The lemmas of this module
say what its pieces do on a reader bound to an object: when a record is accepted
(`decryptData_eq_none_iff`), when the terminal is (`verifyTerminal_eq_ok_iff`),
and what the look-behind loop does.
-/

namespace S3EncryptionGateway.Crypto

set_option linter.unusedVariables false

open Encoding Streams List

structure ChunkedDecryptReader where
  source : Script UInt8 CryptoError
  aead : Aead
  terminalAead : Option Aead
  manifest : ChunkManifest
  format : RecordFormat
  chunkSize : ℕ
  ctx : Context
  index : ℕ
  plainSize : ℕ
  pending : Bytes
  lookbehind : Bytes
  done : Bool
  err : Option CryptoError

variable {r' : ChunkedDecryptReader}

namespace ChunkedDecryptReader

def fail (r : ChunkedDecryptReader) (err : CryptoError) :
    Option CryptoError × ChunkedDecryptReader :=
  (some err, { r with err := some err })

variable (hkdf : Hkdf)

/-- Open one data record and append it to what is pending.  The index is a
`uint64` that is incremented without a check. -/
def decryptData (r : ChunkedDecryptReader) (ciphertext : Bytes) :
    Option CryptoError × ChunkedDecryptReader :=
  match r.format.dataNonceAndAad hkdf r.manifest.ivDerivation r.index with
  | .error err => (some err, r)
  | .ok (nonce, aad) =>
    match r.aead.opened nonce ciphertext aad with
    | none => (some (.decryptChunk r.index), r)
    | some plaintext =>
      let r := { r with
        pending := r.pending ++ plaintext
        index := (r.index + 1) % (maxUint64 + 1) }
      if maxUint64 - r.plainSize < plaintext.length then (some .plaintextSizeOverflow, r)
      else (none, { r with plainSize := r.plainSize + plaintext.length })

/-- Check the terminal record against what was read. -/
def verifyTerminal (r : ChunkedDecryptReader) (terminal : Bytes) : Except CryptoError Unit :=
  match r.terminalAead with
  | none => .error .incompleteTerminalMissing
  | some terminalAead =>
    if terminal.length ≠ chunkedTerminalSize then .error .incompleteTerminalMissing
    else do
      let (nonce, aad) ← r.format.terminalNonceAndAad hkdf r.index r.plainSize
      match terminalAead.opened nonce terminal aad with
      | none => .error .incompleteTerminalForged
      | some plaintext =>
        let (count, size) ← decodeChunkedTerminal plaintext
        if count ≠ r.index ∨ size ≠ r.plainSize then .error .incompleteTerminalMismatch
        else .ok ()

variable {r : ChunkedDecryptReader}

theorem frame_of_decryptData {hkdf : Hkdf} {ciphertext : Bytes} {err : Option CryptoError}
    (hdata : r.decryptData hkdf ciphertext = (err, r')) :
    r'.lookbehind = r.lookbehind ∧ r'.chunkSize = r.chunkSize ∧ r'.source = r.source ∧
      r'.done = r.done ∧ r'.err = r.err := by
  have hr : r' = (r.decryptData hkdf ciphertext).2 := by rw [hdata]
  rw [hr, decryptData]
  split
  · exact ⟨rfl, rfl, rfl, rfl, rfl⟩
  split
  · exact ⟨rfl, rfl, rfl, rfl, rfl⟩
  · simp only
    split <;> exact ⟨rfl, rfl, rfl, rfl, rfl⟩

/-- Open the records of `lookbehind` that a terminal is known to follow. -/
def flushLookbehind (hkdf : Hkdf) (r : ChunkedDecryptReader) :
    Option CryptoError × ChunkedDecryptReader :=
  if hlong : chunkedTerminalSize + r.chunkSize + tagSize < r.lookbehind.length then
    match hdata : r.decryptData hkdf (r.lookbehind.take (r.chunkSize + tagSize)) with
    | (some cause, r') => r'.fail (.incompleteRecord cause)
    | (none, r') =>
      flushLookbehind hkdf
        { r' with lookbehind := r'.lookbehind.drop (r'.chunkSize + tagSize) }
  else (none, r)
termination_by r.lookbehind.length
decreasing_by
  obtain ⟨hlook, hsize, -⟩ := frame_of_decryptData hdata
  simp only [hlook, hsize, List.length_drop, tagSize] at hlong ⊢
  omega

/-- The source has ended: the last 32 bytes are the terminal and what is in
front of them is the last record. -/
def finish (r : ChunkedDecryptReader) : Option CryptoError × ChunkedDecryptReader :=
  if r.lookbehind.length < chunkedTerminalSize then r.fail .incompleteTerminalMissing
  else
    let bodyLen := r.lookbehind.length - chunkedTerminalSize
    let body :=
      if 0 < bodyLen then r.decryptData hkdf (r.lookbehind.take bodyLen) else (none, r)
    match body with
    | (some cause, r) => r.fail (.incompleteRecord cause)
    | (none, r) =>
      match r.verifyTerminal hkdf (r.lookbehind.drop bodyLen) with
      | .error err => r.fail err
      | .ok () => (none, { r with lookbehind := [], done := true })

/-- One turn of the loop of `Read` once nothing is pending. -/
def fill (r : ChunkedDecryptReader) : Option CryptoError × ChunkedDecryptReader :=
  match r.ctx.poll with
  | (some err, ctx) => { r with ctx := ctx }.fail err
  | (none, ctx) =>
    match r.source.readFull (r.chunkSize + tagSize) with
    | (data, err, source) =>
      let r := { r with ctx := ctx, source := source }
      if r.format.version = chunkedFormatV2 then
        match { r with lookbehind := r.lookbehind ++ data }.flushLookbehind hkdf with
        | (some err, r) => (some err, r)
        | (none, r) =>
          match err with
          | none => (none, r)
          | some (.other err) => r.fail err
          | some _ => r.finish hkdf
      else if data ≠ [] then
        match r.decryptData hkdf data with
        | (some err, r) => r.fail err
        | (none, r) => (none, r)
      else
        match err with
        | some (.other err) => r.fail err
        | _ => (none, { r with done := true })

/-- Refills left: one for the end and at most one per result of the source. -/
def rank (r : ChunkedDecryptReader) : ℕ :=
  if r.done then 0 else r.source.size + 1

theorem frame_of_flushLookbehind {hkdf : Hkdf} (hflush : r.flushLookbehind hkdf = (none, r')) :
    r'.source = r.source ∧ r'.done = r.done ∧ r'.err = r.err := by
  have hok : (r.flushLookbehind hkdf).1 = none := by rw [hflush]
  have hr : r' = (r.flushLookbehind hkdf).2 := by rw [hflush]
  clear hflush
  subst hr
  fun_induction flushLookbehind hkdf r with
  | case1 r hlong cause r' hdata => cases hok
  | case2 r hlong r' hdata ih =>
    obtain ⟨hsource, hdone, herr⟩ := ih hok
    obtain ⟨-, -, hsource', hdone', herr'⟩ := frame_of_decryptData hdata
    exact ⟨hsource.trans hsource', hdone.trans hdone', herr.trans herr'⟩
  | case3 r hlong => exact ⟨rfl, rfl, rfl⟩

theorem done_of_finish {hkdf : Hkdf} (hfinish : r.finish hkdf = (none, r')) :
    r'.done = true ∧ r'.err = r.err := by
  rw [finish] at hfinish
  split at hfinish
  · cases hfinish
  simp only at hfinish
  split at hfinish
  · cases hfinish
  rename_i r₁ hbody
  have herr : r₁.err = r.err := by
    split at hbody
    · exact (frame_of_decryptData hbody).2.2.2.2
    · cases hbody
      rfl
  split at hfinish <;> cases hfinish
  exact ⟨rfl, herr⟩

/-- A turn that goes on ends the reader, or makes its source smaller; it reports no error. -/
theorem frame_of_fill {hkdf : Hkdf} (hfill : r.fill hkdf = (none, r')) :
    r'.err = r.err ∧
      (r'.done = true ∨ r'.done = r.done ∧ r'.source.size < r.source.size) := by
  rw [fill] at hfill
  split at hfill
  · cases hfill
  split at hfill
  rename_i data err source hread
  have hsize : data ≠ [] → Script.size source < Script.size r.source := by
    intro hdata
    have := @Script.readFull_size_lt _ _ (r.chunkSize + tagSize) r.source
      (by rw [hread]; exact hdata)
    rwa [hread] at this
  simp only at hfill
  split at hfill
  · split at hfill
    · cases hfill
    rename_i hflush
    obtain ⟨hsource, hdone, herr⟩ := frame_of_flushLookbehind hflush
    split at hfill
    · -- the read was complete, so the source got smaller
      cases hfill
      have hlen := (Script.readFull_of_none hread).1
      have hdata : data ≠ [] := by
        rintro rfl
        simp [tagSize] at hlen
      exact ⟨herr, .inr ⟨hdone, hsource ▸ hsize hdata⟩⟩
    · cases hfill
    · obtain ⟨hended, herr'⟩ := done_of_finish hfill
      exact ⟨herr'.trans herr, .inl hended⟩
  · split_ifs at hfill with hdata
    · split at hfill
      · cases hfill
      rename_i hopenData
      obtain ⟨-, -, hsource, hdone, herr⟩ := frame_of_decryptData hopenData
      cases hfill
      exact ⟨herr, .inr ⟨hdone, hsource ▸ hsize hdata⟩⟩
    · split at hfill <;> cases hfill
      exact ⟨rfl, .inl rfl⟩

theorem rank_fill (r r' : ChunkedDecryptReader) (hopen : r.done = false)
    (hfill : r.fill hkdf = (none, r')) : r'.rank < r.rank := by
  obtain ⟨-, hdone | ⟨hdone, hsize⟩⟩ := frame_of_fill hfill
  · simp [rank, hdone, hopen]
  · simpa [rank, hdone, hopen] using hsize

/-- The reader as a transformer with a pending buffer. -/
def puller : Puller ChunkedDecryptReader UInt8 CryptoError where
  pending := pending
  setPending items r := { r with pending := items }
  done := done
  fill := fill hkdf
  rank := rank
  rank_fill := rank_fill hkdf

/-- `Read` into a buffer of length `room`. -/
def read (room : ℕ) (r : ChunkedDecryptReader) :
    ReadResult UInt8 CryptoError × ChunkedDecryptReader :=
  match r.err with
  | some err => (⟨[], some (.other err)⟩, r)
  | none =>
    if room = 0 then (⟨[], none⟩, r)
    else
      match (puller hkdf).loop room r with
      | (written, some err, r') => (⟨written, some (.other err)⟩, r')
      | (written, none, r') =>
        if written ≠ [] then (⟨written, none⟩, r') else (⟨[], some .eof⟩, r')

end ChunkedDecryptReader

/-! ## Constructors -/

def newChunkedDecryptReaderForVersion (ctx : Context) (source : Script UInt8 CryptoError)
    (aead : Aead) (manifest : Option ChunkManifest) (terminalAead : Option Aead) :
    Except CryptoError ChunkedDecryptReader := do
  match manifest with
  | none => .error .missingManifest
  | some manifest =>
    validateChunkedVersion manifest.version
    validateChunkSize manifest.chunkSize
    match decodeBase64 manifest.baseIv with
    | none => .error .baseIv
    | some baseIv =>
      if manifest.version = chunkedFormatV2 ∧ terminalAead.isNone then
        .error .readerTerminalAead
      else
        .ok ⟨source, aead, terminalAead, manifest,
          ⟨manifest.version, baseIv, ⟨[], []⟩, [], false⟩, manifest.chunkSize, ctx,
          0, 0, [], [], false, none⟩

def newLegacyChunkedDecryptReaderV2 (ctx : Context) (source : Script UInt8 CryptoError)
    (aead : Aead) (manifest : Option ChunkManifest) (terminalAead : Option Aead) :
    Except CryptoError ChunkedDecryptReader :=
  if manifest.map ChunkManifest.version ≠ some chunkedFormatV2 then
    .error .readerManifestVersion
  else if terminalAead.isNone then .error .readerTerminalAead
  else newChunkedDecryptReaderForVersion ctx source aead manifest terminalAead

/-- The reader of an object whose records are bound to it. -/
def newChunkedDecryptReaderV2Bound (ctx : Context) (source : Script UInt8 CryptoError)
    (aead : Aead) (manifest : Option ChunkManifest) (terminalAead : Option Aead)
    (object : ObjectContext) (bindingId : Bytes) : Except CryptoError ChunkedDecryptReader := do
  object.validate
  if bindingId.length ≠ bindingIdSize then .error .bindingIdLength
  else
    let r ← newLegacyChunkedDecryptReaderV2 ctx source aead manifest terminalAead
    return { r with format := { r.format with object, bindingId, boundV2 := true } }

namespace ChunkedDecryptReader

/-! ## The pieces of a bound reader -/

/-- A version 2 reader bound to an object, with its terminal AEAD. -/
structure BoundReader (terminalAead : Aead) (r : ChunkedDecryptReader) : Prop where
  format_bound : r.format.Bound
  terminalAead_eq : r.terminalAead = some terminalAead

/-- The reader after it has opened record `index` as `plaintext`. -/
def afterRecord (r : ChunkedDecryptReader) (plaintext : Bytes) : ChunkedDecryptReader :=
  { r with
    pending := r.pending ++ plaintext
    index := (r.index + 1) % (maxUint64 + 1)
    plainSize := r.plainSize + plaintext.length }

variable {hkdf : Hkdf} {terminalAead : Aead} {r : ChunkedDecryptReader}

/-- A record is accepted exactly when it opens at the reader's index and its
length fits the plaintext size. -/
theorem decryptData_eq_none_iff (hbound : r.format.Bound) (hsize : r.plainSize ≤ maxUint64)
    {ciphertext : Bytes} :
    r.decryptData hkdf ciphertext = (none, r') ↔
      ∃ plaintext, r.aead.opened (r.format.dataNonce hkdf r.index) ciphertext
          (r.format.dataAad r.index) = some plaintext ∧
        r.plainSize + plaintext.length ≤ maxUint64 ∧ r' = r.afterRecord plaintext := by
  simp only [decryptData, RecordFormat.dataNonceAndAad_of_bound hbound]
  cases hopened : r.aead.opened (r.format.dataNonce hkdf r.index) ciphertext
      (r.format.dataAad r.index) with
  | none => simp
  | some plaintext =>
    simp only [Option.some.injEq, exists_eq_left', afterRecord]
    split
    · simp only [Prod.mk.injEq, reduceCtorEq, false_and, false_iff, not_and]
      intro hle
      omega
    · simp only [Prod.mk.injEq, true_and]
      constructor
      · rintro rfl
        exact ⟨by omega, rfl⟩
      · rintro ⟨-, rfl⟩
        rfl

/-- The terminal is accepted exactly when it opens to the reader's own counts. -/
theorem verifyTerminal_eq_ok_iff (hreader : BoundReader terminalAead r) {terminal : Bytes} :
    r.verifyTerminal hkdf terminal = .ok () ↔
      terminal.length = chunkedTerminalSize ∧
      ∃ plaintext, terminalAead.opened (r.format.terminalNonce hkdf) terminal
          (r.format.terminalAad r.index r.plainSize) = some plaintext ∧
        decodeChunkedTerminal plaintext = .ok (r.index, r.plainSize) := by
  simp only [verifyTerminal, hreader.terminalAead_eq,
    RecordFormat.terminalNonceAndAad_of_bound hreader.format_bound]
  by_cases hlen : terminal.length = chunkedTerminalSize
  · rw [if_neg (not_not.mpr hlen)]
    simp only [hlen, true_and]
    show (match terminalAead.opened _ _ _ with | none => _ | some plaintext => _) = _ ↔ _
    cases terminalAead.opened (r.format.terminalNonce hkdf) terminal
        (r.format.terminalAad r.index r.plainSize) with
    | none => simp
    | some plaintext =>
      simp only [Option.some.injEq, exists_eq_left']
      cases hdecode : decodeChunkedTerminal plaintext with
      | error err => simp [bind, Except.bind]
      | ok counts =>
        obtain ⟨count, size⟩ := counts
        show (if count ≠ r.index ∨ size ≠ r.plainSize then _ else _) = _ ↔ _
        simp only [Except.ok.injEq, Prod.mk.injEq]
        split
        · rename_i hne
          simp only [reduceCtorEq, false_iff]
          tauto
        · rename_i heq
          simp only [true_iff]
          tauto
  · rw [if_pos hlen]
    simp [hlen]

theorem flushLookbehind_of_none
    (hlong : chunkedTerminalSize + r.chunkSize + tagSize < r.lookbehind.length)
    (hdata : r.decryptData hkdf (r.lookbehind.take (r.chunkSize + tagSize)) = (none, r')) :
    r.flushLookbehind hkdf =
      { r' with lookbehind := r'.lookbehind.drop (r'.chunkSize + tagSize) }.flushLookbehind
        hkdf := by
  rw [flushLookbehind, dif_pos hlong]
  split
  · rename_i hother
    rw [hdata] at hother
    cases hother
  · rename_i hother
    rw [hdata] at hother
    cases hother
    rfl

/-- The end of a source whose look-behind is a record and a terminal. -/
theorem finish_of_record {record terminal : Bytes} (hlook : r.lookbehind = record ++ terminal)
    (hrecord : record ≠ []) (hterminal : terminal.length = chunkedTerminalSize)
    (hdata : r.decryptData hkdf record = (none, r'))
    (hverify : r'.verifyTerminal hkdf terminal = .ok ()) :
    r.finish hkdf = (none, { r' with lookbehind := [], done := true }) := by
  have hlen : r.lookbehind.length - chunkedTerminalSize = record.length := by
    rw [hlook, length_append, hterminal, Nat.add_sub_cancel]
  have htake : r.lookbehind.take record.length = record := by
    rw [hlook, take_left]
  have hdrop : r'.lookbehind.drop record.length = terminal := by
    rw [(frame_of_decryptData hdata).1, hlook, drop_left]
  have hlong : ¬ r.lookbehind.length < chunkedTerminalSize := by
    rw [hlook, length_append]
    omega
  rw [finish, if_neg hlong]
  simp only [hlen, length_pos_iff.mpr hrecord, if_true, htake, hdata, hdrop, hverify]

end ChunkedDecryptReader

end S3EncryptionGateway.Crypto
