import S3EncryptionGateway.Library.Slice
import S3EncryptionGateway.Crypto.Chunked.RangePlan
import S3EncryptionGateway.Crypto.Chunked.RoundTrip

/-!
# Chunked objects as they are stored

A stored chunked object is a sequence of sealed records, one for each chunk of the
plaintext, with a terminal record behind them in version 2.  Ranged reads need to know where
each record is: record `i` begins at `i` times the size of a full record, whatever the version
and the derivation of the nonces (`ChunkedObject.exists_record`).

## Where such objects come from

`sealed_of_refills` says that every writer, of either version, has written one when it ends
without an error; `Fresh.exists_of_drain` restates that for a caller who reads the writer
with buffers that are not empty, and `fresh_v1` and `fresh_bound` are the two constructors.
-/

namespace S3EncryptionGateway.Crypto

set_option linter.unusedVariables false

open Encoding Streams Slices List

/-- The sealed records of consecutive chunks from record `index` on. -/
def sealRecords (hkdf : Hkdf) (aead : Aead) (format : RecordFormat) (derivation : IvDerivation) :
    ℕ → List Bytes → Except CryptoError Bytes
  | _, [] => .ok []
  | index, chunk :: chunks => do
      let (nonce, aad) ← format.dataNonceAndAad hkdf derivation index
      let later ← sealRecords hkdf aead format derivation (index + 1) chunks
      return aead.sealed nonce chunk aad ++ later

open Script

section SealRecords

variable {hkdf : Hkdf} {aead : Aead} {format : RecordFormat} {derivation : IvDerivation}
  {index chunkSize : ℕ} {chunk data plaintext : Bytes} {chunks : List Bytes}

theorem sealRecords_cons {nonce aad later : Bytes}
    (hnonce : format.dataNonceAndAad hkdf derivation index = .ok (nonce, aad))
    (hlater : sealRecords hkdf aead format derivation (index + 1) chunks = .ok later) :
    sealRecords hkdf aead format derivation index (chunk :: chunks) =
      .ok (aead.sealed nonce chunk aad ++ later) := by
  rw [sealRecords, hnonce, hlater]
  rfl

theorem exists_of_sealRecords_cons
    (hsealed : sealRecords hkdf aead format derivation index (chunk :: chunks) = .ok data) :
    ∃ nonce aad later, format.dataNonceAndAad hkdf derivation index = .ok (nonce, aad) ∧
      sealRecords hkdf aead format derivation (index + 1) chunks = .ok later ∧
      data = aead.sealed nonce chunk aad ++ later := by
  obtain ⟨⟨nonce, aad⟩, hnonce, hsealed⟩ := Fallible.bind_eq_ok_iff.mp hsealed
  obtain ⟨later, hlater, hsealed⟩ := Fallible.bind_eq_ok_iff.mp hsealed
  cases hsealed
  exact ⟨nonce, aad, later, hnonce, hlater, rfl⟩

theorem length_sealRecords (haead : aead.Lawful)
    (hsealed : sealRecords hkdf aead format derivation index chunks = .ok data) :
    data.length = chunks.flatten.length + chunks.length * tagSize := by
  induction chunks generalizing index data with
  | nil =>
    cases hsealed
    rfl
  | cons chunk chunks ih =>
    obtain ⟨nonce, aad, later, -, hlater, rfl⟩ := exists_of_sealRecords_cons hsealed
    rw [length_append, haead.length_sealed, ih hlater, flatten_cons,
      length_append, length_cons, tagSize]
    ring

/-- Record `i` begins behind `i` full ones. -/
theorem exists_record_of_sealRecords (haead : aead.Lawful) (hpos : 0 < chunkSize)
    (hsealed : sealRecords hkdf aead format derivation index
      (chunksOf chunkSize plaintext) = .ok data) {i : ℕ}
    (hi : i * chunkSize < plaintext.length) :
    ∃ nonce aad, format.dataNonceAndAad hkdf derivation (index + i) = .ok (nonce, aad) ∧
      slice data (i * (chunkSize + tagSize)) (i * (chunkSize + tagSize) +
          (slice plaintext (i * chunkSize) ((i + 1) * chunkSize)).length + tagSize) =
        aead.sealed nonce (slice plaintext (i * chunkSize) ((i + 1) * chunkSize)) aad := by
  -- along the records, each time with the rest of the plaintext
  induction i generalizing index plaintext data with
  | zero =>
    rw [chunksOf_of_ne_nil hpos (length_pos_iff.mp (by omega))] at hsealed
    obtain ⟨nonce, aad, later, hnonce, -, rfl⟩ := exists_of_sealRecords_cons hsealed
    have hchunk : slice plaintext (0 * chunkSize) ((0 + 1) * chunkSize) =
        plaintext.take chunkSize := by
      rw [Nat.zero_mul, Nat.zero_add, Nat.one_mul, slice, drop_zero, Nat.sub_zero]
    have hlen := haead.length_sealed nonce (plaintext.take chunkSize) aad
    refine ⟨nonce, aad, hnonce, ?_⟩
    rw [hchunk, Nat.zero_mul, Nat.zero_add, slice, drop_zero, Nat.sub_zero, tagSize,
      ← hlen, take_left]
  | succ i ih =>
    rw [Nat.succ_mul] at hi
    rw [chunksOf_of_ne_nil hpos (length_pos_iff.mp (by omega))] at hsealed
    obtain ⟨nonce, aad, later, -, hlater, rfl⟩ := exists_of_sealRecords_cons hsealed
    obtain ⟨nonce', aad', hnonce', hslice⟩ := ih hlater (by rw [length_drop]; omega)
    have hshift : slice (plaintext.drop chunkSize) (i * chunkSize) ((i + 1) * chunkSize) =
        slice plaintext ((i + 1) * chunkSize) ((i + 1 + 1) * chunkSize) := by
      rw [slice, slice, drop_drop, Nat.succ_mul i, Nat.succ_mul (i + 1), Nat.succ_mul i,
        Nat.add_comm chunkSize]
      congr 1
      omega
    have hfirst : (aead.sealed nonce (plaintext.take chunkSize) aad).length =
        chunkSize + tagSize := by
      rw [haead.length_sealed, length_take, min_eq_left (by omega), tagSize]
    refine ⟨nonce', aad', by rw [← hnonce', Nat.add_assoc, Nat.add_comm 1], ?_⟩
    rw [hshift] at hslice
    rw [slice_append_right (by rw [hfirst, Nat.succ_mul]; omega), hfirst, ← hslice]
    congr 1
    · rw [Nat.succ_mul, Nat.add_sub_cancel]
    · rw [Nat.succ_mul i (chunkSize + tagSize)]
      omega

end SealRecords

/-! ## Stored objects -/

/-- A chunked object of version 1, or of version 2 and bound to its name. -/
structure ChunkedObject where
  hkdf : Hkdf
  aead : Aead
  format : RecordFormat
  derivation : IvDerivation
  chunkSize : ℕ
  plaintext : Bytes
  data : Bytes
  terminal : Bytes
  form : format.version = chunkedFormatV1 ∧ terminal = [] ∨
    format.Bound ∧ terminal.length = chunkedTerminalSize
  aead_lawful : aead.Lawful
  chunkSize_valid : ValidChunkSize chunkSize
  sealed_eq : sealRecords hkdf aead format derivation 0 (Script.chunksOf chunkSize plaintext) =
    .ok data
  fits : (data ++ terminal).length ≤ maxInt64

namespace ChunkedObject

variable {o : ChunkedObject} {i : ℕ}

def ciphertext (o : ChunkedObject) : Bytes := o.data ++ o.terminal

/-- The manifest with the given record count. -/
def manifest (o : ChunkedObject) (count : ℕ) : ChunkManifest :=
  ⟨o.format.version, o.chunkSize, count, encodeBase64 o.format.baseIv, o.derivation⟩

def recordCount (o : ChunkedObject) : ℕ := Crypto.recordCount o.plaintext.length o.chunkSize

def chunk (o : ChunkedObject) (i : ℕ) : Bytes :=
  slice o.plaintext (i * o.chunkSize) ((i + 1) * o.chunkSize)

theorem supported (o : ChunkedObject) : SupportedVersion o.format.version := by
  rcases o.form with ⟨hversion, -⟩ | ⟨hbound, -⟩
  · exact .inl hversion
  · exact .inr hbound.version_eq

theorem length_data (o : ChunkedObject) :
    o.data.length = dataLength o.plaintext.length o.chunkSize := by
  rw [length_sealRecords o.aead_lawful o.sealed_eq, flatten_chunksOf o.chunkSize_valid.pos,
    length_chunksOf_eq o.chunkSize_valid.pos, dataLength]

theorem length_terminal (o : ChunkedObject) :
    o.terminal.length = terminalLength o.format.version := by
  rcases o.form with ⟨hversion, hterminal⟩ | ⟨hbound, hterminal⟩
  · rw [hversion, hterminal]
    rfl
  · rw [hbound.version_eq, hterminal]
    rfl

theorem length_ciphertext (o : ChunkedObject) : o.ciphertext.length =
    dataLength o.plaintext.length o.chunkSize + terminalLength o.format.version := by
  rw [ciphertext, length_append, o.length_data, o.length_terminal]

theorem length_plaintext_le (o : ChunkedObject) : o.plaintext.length ≤ maxInt64 := by
  have hfits : o.ciphertext.length ≤ maxInt64 := o.fits
  rw [o.length_ciphertext, dataLength] at hfits
  omega

/-- The size of the plaintext follows from the length of the ciphertext. -/
theorem chunkedPlaintextSize_length (o : ChunkedObject) :
    chunkedPlaintextSize o.ciphertext.length o.chunkSize o.format.version =
      .ok ((o.plaintext.length : ℤ), o.recordCount) := by
  have hfits : o.ciphertext.length ≤ maxInt64 := o.fits
  rw [o.length_ciphertext] at hfits ⊢
  exact chunkedPlaintextSize_eq o.supported o.chunkSize_valid (by omega)

theorem length_chunk (o : ChunkedObject) (i : ℕ) :
    (o.chunk i).length =
      min ((i + 1) * o.chunkSize) o.plaintext.length - i * o.chunkSize :=
  length_slice _ _ _

/-- Every chunk but the last is full. -/
theorem length_chunk_of_le (hle : (i + 1) * o.chunkSize ≤ o.plaintext.length) :
    (o.chunk i).length = o.chunkSize := by
  rw [length_chunk, min_eq_left hle, Nat.succ_mul, Nat.add_sub_cancel_left]

theorem recordEnd_le (hi : i * o.chunkSize < o.plaintext.length) :
    i * (o.chunkSize + tagSize) + (o.chunk i).length + tagSize ≤ o.data.length := by
  have hcount : i + 1 ≤ Crypto.recordCount o.plaintext.length o.chunkSize :=
    (lt_recordCount_iff o.chunkSize_valid.pos).mpr hi
  have htags := Nat.mul_le_mul_right tagSize hcount
  rw [o.length_data, dataLength, length_chunk, Nat.mul_add]
  rw [Nat.succ_mul] at htags
  omega

/-- The record of chunk `i`, and what it is sealed under. -/
theorem exists_record (hi : i * o.chunkSize < o.plaintext.length) :
    ∃ nonce aad, o.format.dataNonceAndAad o.hkdf o.derivation i = .ok (nonce, aad) ∧
      slice o.ciphertext (i * (o.chunkSize + tagSize))
          (i * (o.chunkSize + tagSize) + (o.chunk i).length + tagSize) =
        o.aead.sealed nonce (o.chunk i) aad := by
  obtain ⟨nonce, aad, hnonce, hslice⟩ :=
    exists_record_of_sealRecords o.aead_lawful o.chunkSize_valid.pos o.sealed_eq hi
  rw [Nat.zero_add] at hnonce
  refine ⟨nonce, aad, hnonce, ?_⟩
  rw [ciphertext, slice_append_left (recordEnd_le hi)]
  exact hslice

end ChunkedObject

/-! ## What the writers write -/

namespace ChunkedEncryptReader

variable {hkdf : Hkdf} {r r' : ChunkedEncryptReader}

/-- **What a writer has written** that ended without an error. -/
theorem sealed_of_refills {out : Bytes} {final : ChunkedEncryptReader}
    (hterminal : ∀ terminalAead, r.terminalAead = some terminalAead → terminalAead.Lawful)
    (hpos : 0 < r.chunkSize) (hclean : Script.Clean r.source) (hopen : r.done = false)
    (hpending : r.pending = []) (hrefills : (puller hkdf).refills r = (out, none, final)) :
    ∃ data terminal, out = data ++ terminal ∧
      terminal.length = terminalLength r.format.version ∧
      sealRecords hkdf r.aead r.format .hkdfSha256 r.index
        (chunksOf r.chunkSize (bytes r.source)) = .ok data := by
  generalize hrank : r.rank = rank
  induction rank using Nat.strong_induction_on generalizing r out with
  | _ rank ih =>
    rcases hfill : r.fill hkdf with ⟨err, r'⟩
    cases err with
    | some err =>
      rw [Puller.refills_of_error (m := puller hkdf) hopen hfill] at hrefills
      cases hrefills
    | none =>
      have hless : r'.rank < rank := (rank_fill hkdf r r' hopen hfill).trans_eq hrank
      rw [Puller.refills_of_fill (m := puller hkdf) hopen hfill] at hrefills
      obtain ⟨data, err, source, hread, hsource, haead, hformat, hsize, hsame, -, hcases⟩ :=
        fill_cases hfill
      obtain ⟨rest, hclean_read, hrest, hbytes⟩ := readFull_of_clean r.chunkSize hclean
      rw [hread, Prod.mk.injEq, Prod.mk.injEq] at hclean_read
      obtain ⟨hdata, -, rfl⟩ := hclean_read
      rcases hcases with ⟨hne, hdone, hindex, nonce, aad, hnonce, hsealed⟩ |
        ⟨hnil, hdone, hother, hversion⟩
      · -- one record, then the rest of the source
        have hbytes_ne : bytes r.source ≠ [] := by
          rintro hnil
          rw [hdata, hnil, take_nil] at hne
          exact hne rfl
        have hnext : (puller hkdf).refills { r' with pending := [] } =
            (((puller hkdf).refills { r' with pending := [] }).1, none, final) := by
          rw [Puller.flow] at hrefills
          exact Prod.ext rfl (congrArg (fun result => result.2) hrefills)
        obtain ⟨data', terminal, hout, hlength, hrecords⟩ :=
          ih r'.rank hless (r := { r' with pending := [] })
            (fun terminalAead heq => hterminal terminalAead (hsame ▸ heq)) (hsize ▸ hpos)
            (hsource ▸ hrest) (hdone.trans hopen) rfl hnext rfl
        simp only [haead, hformat, hindex, hsize, hsource, hbytes] at hlength hrecords
        refine ⟨r.aead.sealed nonce data aad ++ data', terminal, ?_, hlength, ?_⟩
        · have hfirst : ((puller hkdf).flow r').1 = out := congrArg Prod.fst hrefills
          rw [← hfirst, append_assoc, ← hout, ← hsealed]
          rfl
        · rw [chunksOf_of_ne_nil hpos hbytes_ne, ← hdata]
          exact sealRecords_cons hnonce hrecords
      · -- the end of the source: nothing more, or the terminal record
        have hbytes_nil : bytes r.source = [] := by
          rw [hdata, take_eq_nil_iff] at hnil
          exact hnil.resolve_left hpos.ne'
        rw [Puller.flow_of_done (m := puller hkdf) hdone] at hrefills
        cases hrefills
        refine ⟨[], r'.pending, rfl, ?_, by rw [hbytes_nil, chunksOf_nil]; rfl⟩
        rw [terminalLength]
        split_ifs with heq
        · obtain ⟨terminalAead, nonce, aad, hsome, hpending'⟩ := hversion heq
          rw [hpending', (hterminal terminalAead hsome).length_sealed,
            length_encodeChunkedTerminal]
          rfl
        · rw [hother heq, hpending]
          rfl

/-- A writer before its first read. -/
structure Fresh (r : ChunkedEncryptReader) : Prop where
  form : r.format.version = chunkedFormatV1 ∨ r.format.Bound
  aead_lawful : r.aead.Lawful
  terminal_lawful : ∀ terminalAead, r.terminalAead = some terminalAead → terminalAead.Lawful
  chunkSize_valid : ValidChunkSize r.chunkSize
  clean : Script.Clean r.source
  index_eq : r.index = 0
  open_eq : r.done = false
  pending_eq : r.pending = []
  err_eq : r.err = none

/-- What a caller gets who reads a writer to its end with buffers that are not empty. -/
theorem Fresh.exists_of_drain (hfresh : r.Fresh) {sizes : ℕ → ℕ} {fuel : ℕ} {out : Bytes}
    (hroom : ∀ n, 0 < sizes n)
    (hdrain : drain (read hkdf) sizes fuel r = (out, some .eof, r'))
    (hfits : out.length ≤ maxInt64) :
    ∃ o : ChunkedObject, o.hkdf = hkdf ∧ o.aead = r.aead ∧ o.format = r.format ∧
      o.derivation = .hkdfSha256 ∧ o.chunkSize = r.chunkSize ∧
      o.plaintext = bytes r.source ∧ o.ciphertext = out := by
  obtain ⟨-, hflow⟩ := drain_eof hfresh.err_eq hdrain
  have hnil : r'.pending = [] := by
    obtain ⟨n, before, r₀, -, hbefore, hread, -⟩ := exists_last_read hdrain
    obtain ⟨herr₀, -⟩ := drain_running hfresh.err_eq hbefore
    obtain ⟨-, -, -, hend, -⟩ := read_eof herr₀ hread
    exact hend (hroom n)
  rw [hnil, append_nil,
    Puller.flow_of_pending_eq_nil (m := puller hkdf) hfresh.pending_eq] at hflow
  obtain ⟨data, terminal, rfl, hterminal, hsealed⟩ := sealed_of_refills hfresh.terminal_lawful
    hfresh.chunkSize_valid.pos hfresh.clean hfresh.open_eq hfresh.pending_eq hflow
  rw [hfresh.index_eq] at hsealed
  have hform : r.format.version = chunkedFormatV1 ∧ terminal = [] ∨
      r.format.Bound ∧ terminal.length = chunkedTerminalSize := by
    rcases hfresh.form with hversion | hbound
    · rw [hversion] at hterminal
      exact .inl ⟨hversion, length_eq_zero_iff.mp hterminal⟩
    · rw [hbound.version_eq] at hterminal
      exact .inr ⟨hbound, hterminal⟩
  exact ⟨⟨hkdf, r.aead, r.format, .hkdfSha256, r.chunkSize, bytes r.source, data, terminal,
    hform, hfresh.aead_lawful, hfresh.chunkSize_valid, hsealed, hfits⟩, rfl, rfl, rfl, rfl, rfl, rfl,
    rfl⟩

theorem clampChunkSize_valid (chunkSize : ℕ) : ValidChunkSize (clampChunkSize chunkSize) := by
  have horder : minChunkSize ≤ maxChunkSize := by decide
  simp only [clampChunkSize]
  constructor <;> split <;> split <;> omega

theorem fresh_v1 {aead : Aead} (haead : aead.Lawful) {source : Script UInt8 CryptoError}
    (hclean : Script.Clean source) (ctx : Context) (baseIv : Bytes) (chunkSize : ℕ) :
    (newChunkedEncryptReaderForVersion ctx source aead baseIv chunkSize chunkedFormatV1
      none).1.Fresh :=
  ⟨.inl rfl, haead, fun _ hnone => (by cases hnone), clampChunkSize_valid chunkSize, hclean, rfl,
    rfl, rfl, rfl⟩

theorem fresh_bound {binding : Binding} (hvalid : binding.Valid) (haead : binding.aead.Lawful)
    (hterminal : binding.terminalAead.Lawful) {source : Script UInt8 CryptoError}
    (hclean : Script.Clean source) (ctx : Context) : (binding.writer ctx source).Fresh :=
  ⟨.inr hvalid.format_bound, haead, fun _ hsome => Option.some_inj.mp hsome ▸ hterminal,
    hvalid.chunkSize_valid, hclean, rfl, rfl, rfl, rfl⟩

end ChunkedEncryptReader

end S3EncryptionGateway.Crypto
