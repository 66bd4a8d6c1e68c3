import S3EncryptionGateway.Crypto.Chunked.Draining

/-!
# Chunked round trip

A bound writer emits `ciphertextOf … 0 0 plaintext`, and a bound reader over any
source of those bytes gives the plaintext back.

## Strategy

`ciphertextOf` is indexed by the record index and the plaintext size at which it
starts, so that the rest of a ciphertext is again one (`ciphertextOf_cons`).
The reader's invariant `Expects` says that look-behind and source together hold
the ciphertext of the plaintext still to come.

* **The window.**  As long as more than a terminal and a full record are in the
  look-behind, the first record in it is a full one, because two records are
  longer than one (`length_ciphertextOf`).  So the look-behind loop always cuts
  at a record boundary (`flush_expects`).
* **The end.**  When the source ends, at most one record is left in front of the
  terminal, and it is the last one (`finish_expects`).

The writer's side has one gap, which `ChunkedEncryptReader.drain_full_iff`
isolates: an empty buffer offered inside the terminal record ends the drain
early.  `roundTrips_iff` carries exactly that condition.
-/

namespace S3EncryptionGateway.Crypto

open Encoding Streams List

/-- The ciphertext of `plaintext` from record `index` and size `size` on. -/
def ciphertextOf (hkdf : Hkdf) (aead terminalAead : Aead) (format : RecordFormat)
    (chunkSize index size : ℕ) (plaintext : Bytes) : Bytes :=
  records hkdf aead format index (Script.chunksOf chunkSize plaintext) ++
    (terminalCall hkdf terminalAead format (index + recordCount plaintext.length chunkSize)
      (size + plaintext.length)).ciphertext

open Script

section Ciphertext

variable {hkdf : Hkdf} {aead terminalAead : Aead} {format : RecordFormat} {chunkSize : ℕ}

theorem length_dataCall (haead : aead.Lawful) (index : ℕ) (chunk : Bytes) :
    (dataCall hkdf aead format index chunk).ciphertext.length = chunk.length + tagSize :=
  haead.length_sealed _ _ _

theorem length_terminalCall (hterminal : terminalAead.Lawful) (index size : ℕ) :
    (terminalCall hkdf terminalAead format index size).ciphertext.length =
      chunkedTerminalSize := by
  show (terminalAead.sealed _ _ _).length = _
  rw [hterminal.length_sealed, length_encodeChunkedTerminal]
  rfl

theorem length_records (haead : aead.Lawful) (index : ℕ) (chunks : List Bytes) :
    (records hkdf aead format index chunks).length =
      chunks.flatten.length + chunks.length * tagSize := by
  induction chunks generalizing index with
  | nil => rfl
  | cons chunk chunks ih =>
    rw [records_cons, length_append, length_dataCall haead, ih, flatten_cons,
      length_append, length_cons]
    ring

/-- The number of pieces is the source's record count. -/
theorem length_chunksOf_eq (hsize : 0 < chunkSize) (plaintext : Bytes) :
    (chunksOf chunkSize plaintext).length = recordCount plaintext.length chunkSize :=
  length_chunksOf hsize plaintext

theorem length_ciphertextOf (haead : aead.Lawful) (hterminal : terminalAead.Lawful)
    (hsize : 0 < chunkSize) (index size : ℕ) (plaintext : Bytes) :
    (ciphertextOf hkdf aead terminalAead format chunkSize index size plaintext).length =
      ciphertextLength plaintext.length chunkSize := by
  rw [ciphertextOf, length_append, length_records haead, length_terminalCall hterminal,
    flatten_chunksOf hsize, length_chunksOf_eq hsize, ciphertextLength]

theorem recordCount_of_ne_nil (hsize : 0 < chunkSize) {plaintext : Bytes}
    (hne : plaintext ≠ []) :
    recordCount plaintext.length chunkSize =
      1 + recordCount (plaintext.drop chunkSize).length chunkSize := by
  rw [← length_chunksOf_eq hsize, chunksOf_of_ne_nil hsize hne, length_cons,
    length_chunksOf_eq hsize]
  omega

/-- A ciphertext is its first record and the ciphertext of the rest. -/
theorem ciphertextOf_cons (hsize : 0 < chunkSize) {plaintext : Bytes} (hne : plaintext ≠ [])
    (index size : ℕ) :
    ciphertextOf hkdf aead terminalAead format chunkSize index size plaintext =
      (dataCall hkdf aead format index (plaintext.take chunkSize)).ciphertext ++
        ciphertextOf hkdf aead terminalAead format chunkSize (index + 1)
          (size + (plaintext.take chunkSize).length) (plaintext.drop chunkSize) := by
  have hlen : (plaintext.take chunkSize).length + (plaintext.drop chunkSize).length =
      plaintext.length := by
    simp only [length_take, length_drop]
    omega
  rw [ciphertextOf, chunksOf_of_ne_nil hsize hne, records_cons,
    recordCount_of_ne_nil hsize hne, append_assoc, ciphertextOf, ← hlen]
  congr 4
  · omega
  · omega

end Ciphertext

namespace ChunkedDecryptReader

variable {hkdf : Hkdf} {terminalAead : Aead} {r : ChunkedDecryptReader} {plaintext : Bytes}

/-- The reader's look-behind and source hold the ciphertext of `plaintext`. -/
structure Expects (hkdf : Hkdf) (terminalAead : Aead) (r : ChunkedDecryptReader)
    (plaintext : Bytes) : Prop extends BoundReader terminalAead r where
  ctx_eq : r.ctx = .background
  open_eq : r.done = false
  chunkSize_pos : 0 < r.chunkSize
  clean : Script.Clean r.source
  window : r.lookbehind ++ Script.bytes r.source =
    ciphertextOf hkdf r.aead terminalAead r.format r.chunkSize r.index r.plainSize plaintext
  index_le : r.index ≤ r.plainSize
  fits : r.plainSize + plaintext.length ≤ maxUint64

section

variable (hexp : Expects hkdf terminalAead r plaintext)

include hexp

theorem decryptData_expects (haead : r.aead.Lawful) :
    r.decryptData hkdf (dataCall hkdf r.aead r.format r.index
      (plaintext.take r.chunkSize)).ciphertext =
        (none, r.afterRecord (plaintext.take r.chunkSize)) := by
  have hfits := hexp.fits
  have htake := length_take_le' r.chunkSize plaintext
  rw [decryptData_eq_none_iff hexp.format_bound (by omega)]
  exact ⟨_, haead.opened_sealed _ _ _, by omega, rfl⟩

theorem Expects.afterRecord (hne : plaintext ≠ []) {lookbehind : Bytes} (hlook : r.lookbehind =
      (dataCall hkdf r.aead r.format r.index (plaintext.take r.chunkSize)).ciphertext ++
        lookbehind) :
    Expects hkdf terminalAead
      { r.afterRecord (plaintext.take r.chunkSize) with lookbehind := lookbehind }
      (plaintext.drop r.chunkSize) := by
  have hpos := length_pos_iff.mpr hne
  have hsize := hexp.chunkSize_pos
  have hindex := hexp.index_le
  have hfits := hexp.fits
  have hlen : (plaintext.take r.chunkSize).length + (plaintext.drop r.chunkSize).length =
      plaintext.length := by
    simp only [length_take, length_drop]
    omega
  have htake : 0 < (plaintext.take r.chunkSize).length := by
    simp only [length_take]
    omega
  have hwrap : (r.index + 1) % (maxUint64 + 1) = r.index + 1 := Nat.mod_eq_of_lt (by omega)
  refine ⟨⟨hexp.format_bound, hexp.terminalAead_eq⟩, hexp.ctx_eq, hexp.open_eq,
    hexp.chunkSize_pos, hexp.clean, ?_, ?_, ?_⟩
  · have hwindow := hexp.window
    rw [hlook, ciphertextOf_cons hexp.chunkSize_pos hne, append_assoc,
      append_cancel_left_eq] at hwindow
    simpa only [ChunkedDecryptReader.afterRecord, hwrap] using hwindow
  · simp only [ChunkedDecryptReader.afterRecord, hwrap]
    omega
  · simp only [ChunkedDecryptReader.afterRecord]
    omega

/-- A ciphertext longer than a full record and a terminal starts with a full
record. -/
theorem exists_full_record (haead : r.aead.Lawful) (hterminal : terminalAead.Lawful)
    (hlong : chunkedTerminalSize + r.chunkSize + tagSize <
      (r.lookbehind ++ bytes r.source).length) :
    plaintext ≠ [] ∧ (plaintext.take r.chunkSize).length = r.chunkSize := by
  rw [hexp.window, length_ciphertextOf haead hterminal hexp.chunkSize_pos,
    ciphertextLength] at hlong
  have hmore : r.chunkSize < plaintext.length := by
    by_contra hle
    -- a plaintext of at most one chunk has at most one record
    have hcount : recordCount plaintext.length r.chunkSize ≤ 1 := by
      rw [recordCount]
      split
      · exact Nat.zero_le _
      · rw [Nat.div_eq_of_lt (by omega)]
    have := Nat.mul_le_mul_right tagSize hcount
    omega
  refine ⟨length_pos_iff.mp (by omega), ?_⟩
  rw [length_take]
  omega

/-- The look-behind loop opens full records until at most one record is left in
front of the terminal. -/
theorem flush_expects (haead : r.aead.Lawful) (hterminal : terminalAead.Lawful) :
    ∃ r' front back, r.flushLookbehind hkdf = (none, r') ∧ plaintext = front ++ back ∧
      r'.pending = r.pending ++ front ∧ r'.source = r.source ∧ r'.aead = r.aead ∧
      r'.chunkSize = r.chunkSize ∧ Expects hkdf terminalAead r' back ∧
      r'.lookbehind.length ≤ chunkedTerminalSize + r.chunkSize + tagSize := by
  generalize hlen : r.lookbehind.length = len
  induction len using Nat.strong_induction_on generalizing r plaintext with
  | _ len ih =>
    by_cases hshort : r.lookbehind.length ≤ chunkedTerminalSize + r.chunkSize + tagSize
    · exact ⟨r, [], plaintext, by rw [flushLookbehind, dif_neg (not_lt.mpr hshort)], rfl, (append_nil _).symm, rfl,
        rfl, rfl, hexp, hshort⟩
    · obtain ⟨hne, hfull⟩ := exists_full_record hexp haead hterminal (by
        rw [length_append]
        omega)
      -- the window starts with the record, so does the look-behind
      have hfirst : r.lookbehind.take (r.chunkSize + tagSize) =
          (dataCall hkdf r.aead r.format r.index
            (plaintext.take r.chunkSize)).ciphertext := by
        have hwindow := congrArg (List.take (r.chunkSize + tagSize)) hexp.window
        rw [ciphertextOf_cons hexp.chunkSize_pos hne,
          take_append_of_le_length (by omega), take_left' (by
            rw [length_dataCall haead, hfull])] at hwindow
        exact hwindow
      have hsplit : r.lookbehind =
          (dataCall hkdf r.aead r.format r.index (plaintext.take r.chunkSize)).ciphertext ++
            r.lookbehind.drop (r.chunkSize + tagSize) := by
        rw [← hfirst, take_append_drop]
      have hdata := decryptData_expects hexp haead
      rw [← hfirst] at hdata
      have hless : (r.lookbehind.drop (r.chunkSize + tagSize)).length < len := by
        rw [length_drop]
        simp only [tagSize] at hshort ⊢
        omega
      obtain ⟨r', front, back, hflush, hback, hpending, hsource, hsame, hchunk, hexp', hle⟩ :=
        ih _ hless (r := { r.afterRecord (plaintext.take r.chunkSize) with
            lookbehind := r.lookbehind.drop (r.chunkSize + tagSize) })
          (hexp.afterRecord hne hsplit) haead rfl
      refine ⟨r', plaintext.take r.chunkSize ++ front, back, ?_, ?_, ?_, hsource, hsame,
        hchunk, hexp', hle⟩
      · rw [flushLookbehind_of_none (not_le.mp hshort) hdata]
        exact hflush
      · rw [append_assoc, ← hback, take_append_drop]
      · rw [hpending, ← append_assoc]
        rfl

end

theorem verifyTerminal_expects (hexp : Expects hkdf terminalAead r [])
    (hterminal : terminalAead.Lawful) (hend : bytes r.source = []) :
    r.verifyTerminal hkdf r.lookbehind = .ok () := by
  have hlook : r.lookbehind =
      (terminalCall hkdf terminalAead r.format r.index r.plainSize).ciphertext := by
    simpa [hend, ciphertextOf, recordCount] using hexp.window
  have hindex := hexp.index_le
  have hfits : r.plainSize ≤ maxUint64 := hexp.fits
  rw [verifyTerminal_eq_ok_iff hexp.toBoundReader, hlook]
  exact ⟨length_terminalCall hterminal _ _, _, hterminal.opened_sealed _ _ _,
    decodeChunkedTerminal_encode (by omega) hfits⟩

section

variable (hexp : Expects hkdf terminalAead r plaintext) (haead : r.aead.Lawful)
    (hterminal : terminalAead.Lawful)

include hexp haead hterminal

/-- At the end of the source the rest of the plaintext comes out. -/
theorem finish_expects (hend : bytes r.source = [])
    (hshort : r.lookbehind.length ≤ chunkedTerminalSize + r.chunkSize + tagSize) :
    ∃ r', r.finish hkdf = (none, r') ∧ r'.pending = r.pending ++ plaintext := by
  have hlook : r.lookbehind = ciphertextOf hkdf r.aead terminalAead r.format r.chunkSize r.index
      r.plainSize plaintext := by
    simpa [hend] using hexp.window
  have hlen := congrArg List.length hlook
  rw [length_ciphertextOf haead hterminal hexp.chunkSize_pos, ciphertextLength] at hlen
  by_cases hne : plaintext = []
  · subst hne
    refine ⟨{ r with lookbehind := [], done := true }, ?_, (append_nil _).symm⟩
    have hterm : r.lookbehind.length = chunkedTerminalSize := by simpa [recordCount] using hlen
    rw [finish, if_neg (by omega)]
    simp only [hterm, Nat.sub_self, Nat.lt_irrefl, if_false, drop_zero,
      verifyTerminal_expects hexp hterminal hend]
  · -- what is left in front of the terminal is one record
    have hone : plaintext.length ≤ r.chunkSize := by
      by_contra hmore
      have hrest : plaintext.drop r.chunkSize ≠ [] := by
        rw [ne_eq, drop_eq_nil_iff]
        exact hmore
      rw [recordCount_of_ne_nil hexp.chunkSize_pos hne,
        recordCount_of_ne_nil hexp.chunkSize_pos hrest] at hlen
      simp only [tagSize] at hlen hshort
      omega
    rw [ciphertextOf_cons hexp.chunkSize_pos hne] at hlook
    have hdata := decryptData_expects hexp haead
    have hnext := hexp.afterRecord hne hlook
    rw [take_of_length_le hone] at hlook hdata hnext
    rw [drop_eq_nil_of_le hone] at hlook hnext
    refine ⟨_, finish_of_record hlook ?_ ?_ hdata ?_, rfl⟩
    · apply ne_nil_of_length_pos
      rw [length_dataCall haead, tagSize]
      omega
    · rw [length_ciphertextOf haead hterminal hexp.chunkSize_pos]
      rfl
    · exact verifyTerminal_expects hnext hterminal hend

/-- One turn of the reader's loop: it brings out the next part of the plaintext
and expects the rest, or it brings out all of it and is done. -/
theorem fill_expects (hpending : r.pending = []) :
    ∃ r', r.fill hkdf = (none, r') ∧
      (r'.done = true ∧ r'.pending = plaintext ∨
        ∃ back, plaintext = r'.pending ++ back ∧ Expects hkdf terminalAead r' back ∧
          r'.aead = r.aead) := by
  obtain ⟨rest, hread, hclean, hrest⟩ := readFull_of_clean (r.chunkSize + tagSize) hexp.clean
  -- the read moves bytes from the source into the look-behind
  have hmoved : Expects hkdf terminalAead
      { r with
        source := rest
        lookbehind := r.lookbehind ++ (bytes r.source).take (r.chunkSize + tagSize) }
      plaintext := by
    refine ⟨⟨hexp.format_bound, hexp.terminalAead_eq⟩, hexp.ctx_eq, hexp.open_eq, hexp.chunkSize_pos, hclean, ?_,
      hexp.index_le, hexp.fits⟩
    rw [← hexp.window]
    simp only [hrest, append_assoc, take_append_drop]
  obtain ⟨r₁, front, back, hflush, hsplit, hpend, hsource, hsame, hchunk, hexp₁, hshort₁⟩ :=
    flush_expects hmoved haead hterminal
  rw [hpending, nil_append] at hpend
  have hpoll : r.ctx.poll = (none, r.ctx) := by rw [hexp.ctx_eq, Context.poll_background]
  simp only [fill, hpoll, hread, if_pos hexp.format_bound.version_eq, hflush]
  by_cases hmore : r.chunkSize + tagSize ≤ (bytes r.source).length
  · rw [outcome, if_pos hmore]
    exact ⟨r₁, rfl, .inr ⟨back, by rw [hpend, hsplit], hexp₁, hsame⟩⟩
  · -- the source has ended, so the look-behind is all that is left
    have hend : bytes r₁.source = [] := by
      rw [hsource, hrest, drop_eq_nil_of_le (by omega)]
    obtain ⟨r₂, hfinish, hpend₂⟩ :=
      finish_expects hexp₁ (by rw [hsame]; exact haead) hterminal hend (by rw [hchunk]; exact hshort₁)
    refine ⟨r₂, ?_, .inl ⟨(done_of_finish hfinish).1, by rw [hpend₂, hpend, hsplit]⟩⟩
    rw [outcome, if_neg hmore, ← hfinish]
    cases bytes r.source with
    | nil => rfl
    | cons byte bytes => rfl

/-- **The reader gives the plaintext back.** -/
theorem refills_expects (hpending : r.pending = []) :
    ((puller hkdf).refills r).1 = plaintext ∧ ((puller hkdf).refills r).2.1 = none := by
  generalize hrank : r.rank = rank
  induction rank using Nat.strong_induction_on generalizing r plaintext with
  | _ rank ih =>
    obtain ⟨r', hfill, hcase⟩ := fill_expects hexp haead hterminal hpending
    rw [Puller.refills_of_fill hexp.open_eq hfill]
    rcases hcase with ⟨hdone, hout⟩ | ⟨back, hsplit, hexp', hsame⟩
    · rw [Puller.flow_of_done hdone]
      exact ⟨hout, rfl⟩
    · have hless := rank_fill hkdf r r' hexp.open_eq hfill
      have hnext : Expects hkdf terminalAead { r' with pending := [] } back :=
        ⟨⟨hexp'.format_bound, hexp'.terminalAead_eq⟩, hexp'.ctx_eq, hexp'.open_eq,
          hexp'.chunkSize_pos, hexp'.clean, hexp'.window, hexp'.index_le, hexp'.fits⟩
      rw [← hsame] at haead
      obtain ⟨hout, hend⟩ := ih r'.rank (by omega) hnext haead rfl rfl
      refine ⟨?_, hend⟩
      rw [hsplit]
      exact congrArg (r'.pending ++ ·) hout

end

end ChunkedDecryptReader

/-! ## The constructors -/

/-- What the bound constructors are given besides the source. -/
structure Binding where
  aead : Aead
  terminalAead : Aead
  baseIv : Bytes
  chunkSize : ℕ
  object : ObjectContext
  bindingId : Bytes

namespace Binding

variable (binding : Binding)

def format : RecordFormat :=
  ⟨chunkedFormatV2, binding.baseIv, binding.object, binding.bindingId, true⟩

def newWriter (ctx : Context) (source : Script UInt8 CryptoError) :
    Except CryptoError (ChunkedEncryptReader × ChunkManifest) :=
  newChunkedEncryptReaderV2Bound ctx source binding.aead binding.baseIv binding.chunkSize
    (some binding.terminalAead) binding.object binding.bindingId

/-- The bound reader over `source` with the given manifest. -/
def newReader (ctx : Context) (source : Script UInt8 CryptoError) (manifest : ChunkManifest) :
    Except CryptoError ChunkedDecryptReader :=
  newChunkedDecryptReaderV2Bound ctx source binding.aead (some manifest)
    (some binding.terminalAead) binding.object binding.bindingId

/-- What the constructors accept. -/
structure Valid (binding : Binding) : Prop where
  chunkSize_valid : ValidChunkSize binding.chunkSize
  object_valid : binding.object.Valid
  bindingId_length : binding.bindingId.length = bindingIdSize

/-- What the constructor returns for a writer. -/
def writer (ctx : Context) (source : Script UInt8 CryptoError) : ChunkedEncryptReader :=
  ⟨source, binding.aead, some binding.terminalAead, binding.format, binding.chunkSize,
    ⟨chunkedFormatV2, binding.chunkSize, 0, encodeBase64 binding.baseIv, .hkdfSha256⟩, ctx,
    0, 0, [], false, none, []⟩

/-- What the constructor returns for a reader. -/
def reader (ctx : Context) (source : Script UInt8 CryptoError) (manifest : ChunkManifest) :
    ChunkedDecryptReader :=
  ⟨source, binding.aead, some binding.terminalAead, manifest, binding.format, binding.chunkSize,
    ctx, 0, 0, [], [], false, none⟩

variable {binding}

section

variable (hvalid : binding.Valid)

include hvalid

theorem Valid.format_bound : binding.format.Bound :=
  ⟨rfl, rfl, hvalid.object_valid, hvalid.bindingId_length⟩

theorem Valid.chunkSize_pos : 0 < binding.chunkSize := by
  have := hvalid.chunkSize_valid.min_le
  simp only [minChunkSize] at this
  omega

theorem newWriter_of_valid (ctx : Context) (source : Script UInt8 CryptoError) :
    binding.newWriter ctx source =
      .ok (binding.writer ctx source, (binding.writer ctx source).manifest) := by
  have hclamp : clampChunkSize binding.chunkSize = binding.chunkSize := by
    have hmin := hvalid.chunkSize_valid.min_le
    have hmax := hvalid.chunkSize_valid.le_max
    simp only [clampChunkSize, if_neg (not_lt.mpr hmin), if_neg (not_lt.mpr hmax)]
  simp only [newWriter, newChunkedEncryptReaderV2Bound,
    (ObjectContext.validate_eq_ok_iff _).mpr hvalid.object_valid,
    if_neg (not_not.mpr hvalid.bindingId_length), newLegacyChunkedEncryptReaderV2,
    newChunkedEncryptReaderForVersion, hclamp]
  rfl

theorem newReader_of_valid (ctx : Context) (source : Script UInt8 CryptoError)
    {manifest : ChunkManifest} (hversion : manifest.version = chunkedFormatV2)
    (hsize : manifest.chunkSize = binding.chunkSize)
    (hiv : manifest.baseIv = encodeBase64 binding.baseIv) :
    binding.newReader ctx source manifest = .ok (binding.reader ctx source manifest) := by
  simp only [newReader, newChunkedDecryptReaderV2Bound,
    (ObjectContext.validate_eq_ok_iff _).mpr hvalid.object_valid,
    if_neg (not_not.mpr hvalid.bindingId_length), newLegacyChunkedDecryptReaderV2,
    newChunkedDecryptReaderForVersion, Option.map_some, hversion, hsize,
    validateChunkSize_of_valid hvalid.chunkSize_valid, hiv, encodeBase64, decodeBase64,
    Base64.decode_encode]
  rfl

end

end Binding

/-! ## The round trip -/

open ChunkedEncryptReader

section RoundTrip

variable {hkdf : Hkdf} {binding : Binding} {plaintext : Bytes}
  {source : Script UInt8 CryptoError} {writeSizes readSizes : ℕ → ℕ}

/-- Draining a bound writer over `source` gives a ciphertext of the announced
length, and draining a bound reader over any source of that ciphertext gives the
plaintext back.  The writer counts its records in the manifest as it goes, so
the reader may be given the manifest with any count. -/
def RoundTrips (hkdf : Hkdf) (binding : Binding) (plaintext : Bytes)
    (source : Script UInt8 CryptoError) (writeSizes readSizes : ℕ → ℕ) : Prop :=
  ∃ writer manifest fuel ciphertext writer',
    binding.newWriter .background source = .ok (writer, manifest) ∧
    drain (ChunkedEncryptReader.read hkdf) writeSizes fuel writer =
      (ciphertext, some .eof, writer') ∧
    chunkedCiphertextSize plaintext.length binding.chunkSize chunkedFormatV2 =
      .ok (ciphertext.length : ℤ) ∧
    ∀ stored count, Script.Clean stored → Script.bytes stored = ciphertext →
      ∃ reader fuel' reader',
        binding.newReader .background stored { manifest with chunkCount := count } = .ok reader ∧
        drain (ChunkedDecryptReader.read hkdf) readSizes fuel' reader =
          (plaintext, some .eof, reader')

/-- The whole output of a bound writer over a clean source, and where its
terminal record starts. -/
theorem writer_flow (hvalid : binding.Valid) (haead : binding.aead.Lawful)
    (hclean : Script.Clean source)
    (hfits : (bytes source).length ≤ maxUint64) :
    (∃ final, (puller hkdf).flow (binding.writer .background source) =
      (ciphertextOf hkdf binding.aead binding.terminalAead binding.format binding.chunkSize 0 0
        (bytes source), none, final)) ∧
    (puller hkdf).doneAfter (binding.writer .background source) +
      chunkedTerminalSize = ciphertextLength (bytes source).length binding.chunkSize := by
  obtain ⟨rest, hread⟩ := readChunks_of_clean hvalid.chunkSize_pos hclean
  have hrun : ChunkedEncryptReader.Running binding.terminalAead
      (binding.writer .background source) :=
    ⟨⟨hvalid.format_bound, rfl, hvalid.chunkSize_pos⟩, rfl, rfl, rfl, le_rfl⟩
  have hflatten := flatten_chunksOf hvalid.chunkSize_pos (bytes source)
  have hsum : (binding.writer .background source).plainSize +
      (chunksOf binding.chunkSize (bytes source)).flatten.length ≤ maxUint64 := by
    rw [hflatten]
    simpa [Binding.writer] using hfits
  constructor
  · obtain ⟨-, hout, hend, -, -⟩ :=
      @ChunkedEncryptReader.refills_of_fits _ hkdf _ _ _ _ hrun hread hsum
    refine ⟨((puller hkdf).refills
      (binding.writer .background source)).2.2, ?_⟩
    rw [Puller.flow_of_pending_eq_nil rfl]
    refine Prod.ext ?_ (Prod.ext hend rfl)
    rw [hout, ciphertextOf, hflatten, length_chunksOf_eq hvalid.chunkSize_pos]
    rfl
  · have hrecords := @length_records hkdf _ binding.format haead 0
      (chunksOf binding.chunkSize (bytes source))
    rw [Puller.doneAfter_of_pending_eq_nil rfl,
      leadOfRefills_of_fits hrun hread (by simp) hsum, ciphertextLength]
    rw [hflatten, length_chunksOf_eq hvalid.chunkSize_pos] at hrecords
    exact congrArg (· + chunkedTerminalSize) hrecords

theorem length_le_of_fits {size chunkSize : ℕ} (hint : ciphertextLength size chunkSize ≤ maxInt64) :
    size ≤ maxUint64 := by
  simp only [ciphertextLength, maxInt64, maxUint64] at hint ⊢
  omega

/-- What a drained writer over a clean source can deliver, and when it delivers
all of it. -/
theorem writer_drains (hvalid : binding.Valid) (haead : binding.aead.Lawful)
    (hterminal : binding.terminalAead.Lawful) (hclean : Script.Clean source)
    (hwrite : KeepsReading writeSizes)
    (hint : ciphertextLength (bytes source).length binding.chunkSize ≤ maxInt64) :
    let out := ciphertextOf hkdf binding.aead binding.terminalAead binding.format
      binding.chunkSize 0 0 (bytes source)
    ∃ final, (puller hkdf).flow (binding.writer .background source) =
        (out, none, final) ∧
      out.length = ciphertextLength (bytes source).length binding.chunkSize ∧
      ((∃ fuel writer', drain (read hkdf) writeSizes fuel
          (binding.writer .background source) = (out, some .eof, writer')) ↔
        ∀ n, writeSizes n = 0 →
          ¬ (ciphertextLength (bytes source).length binding.chunkSize <
                asked writeSizes n + chunkedTerminalSize ∧
              asked writeSizes n <
                ciphertextLength (bytes source).length binding.chunkSize)) := by
  intro out
  obtain ⟨⟨final, hflow⟩, hlead⟩ :=
    @writer_flow hkdf _ _ hvalid haead hclean (length_le_of_fits hint)
  have hlen : out.length = _ := length_ciphertextOf haead hterminal hvalid.chunkSize_pos 0 0
    (bytes source)
  refine ⟨final, hflow, hlen, ?_⟩
  have hinside : (puller hkdf).doneAfter (binding.writer .background source)
      < out.length := by
    rw [hlen, ← hlead, chunkedTerminalSize]
    omega
  rw [drain_full_iff rfl rfl hflow hinside hwrite, hlen, ← hlead]
  simp only [Nat.add_lt_add_iff_right]

/-- The condition under which the round trip holds: the ciphertext size fits an
`int64`, and the writer is offered no empty buffer strictly inside the terminal
record. -/
def NoEmptyReadInTerminal (size chunkSize : ℕ) (writeSizes : ℕ → ℕ) : Prop :=
  ciphertextLength size chunkSize ≤ maxInt64 ∧
    ∀ n, writeSizes n = 0 →
      ¬ (ciphertextLength size chunkSize < asked writeSizes n + chunkedTerminalSize ∧
          asked writeSizes n < ciphertextLength size chunkSize)

/-- An empty buffer inside the terminal record breaks the round trip. -/
theorem RoundTrips.noEmptyRead (hvalid : binding.Valid) (haead : binding.aead.Lawful)
    (hterminal : binding.terminalAead.Lawful) (hclean : Script.Clean source)
    (hwrite : KeepsReading writeSizes)
    (htrip : RoundTrips hkdf binding (bytes source) source writeSizes readSizes) :
    NoEmptyReadInTerminal (bytes source).length binding.chunkSize writeSizes := by
  have hsize := chunkedCiphertextSize_v2 hvalid.chunkSize_valid (bytes source).length
  obtain ⟨writer, manifest, fuel, ciphertext, writer', hnew, hdrain, hlength, -⟩ := htrip
  rw [Binding.newWriter_of_valid hvalid] at hnew
  cases hnew
  have hint : ciphertextLength (bytes source).length binding.chunkSize ≤ maxInt64 := by
    by_contra hover
    rw [hsize, if_neg hover] at hlength
    cases hlength
  obtain ⟨final, hflow, hlead, hall⟩ :=
    @writer_drains hkdf _ _ _ hvalid haead hterminal hclean hwrite hint
  rw [hsize, if_pos hint, Except.ok.injEq, Nat.cast_inj] at hlength
  -- a drain of the full length has left nothing pending
  obtain ⟨-, hdrained⟩ := drain_eof rfl hdrain
  rw [hflow] at hdrained
  have hout := congrArg Prod.fst hdrained
  have hnil : writer'.pending = [] := by
    have := congrArg List.length hout
    simp only [length_append, hlead] at this
    exact length_eq_zero_iff.mp (by omega)
  simp only [hnil, append_nil] at hout
  exact ⟨hint, hall.mp ⟨fuel, writer', by rw [hdrain, hout]⟩⟩

/-- Otherwise the round trip holds, whatever the buffers and the sources. -/
theorem roundTrips_of_noEmptyRead (hvalid : binding.Valid) (haead : binding.aead.Lawful)
    (hterminal : binding.terminalAead.Lawful) (hclean : Script.Clean source)
    (hwrite : KeepsReading writeSizes) (hreads : KeepsReading readSizes)
    (hnone : NoEmptyReadInTerminal (bytes source).length binding.chunkSize writeSizes) :
    RoundTrips hkdf binding (bytes source) source writeSizes readSizes := by
  obtain ⟨hint, hnone⟩ := hnone
  obtain ⟨final, hflow, hlead, hall⟩ :=
    @writer_drains hkdf _ _ _ hvalid haead hterminal hclean hwrite hint
  obtain ⟨fuel, writer', hdrain⟩ := hall.mpr hnone
  refine ⟨_, _, fuel, _, writer', Binding.newWriter_of_valid hvalid _ _, hdrain, ?_, ?_⟩
  · rw [chunkedCiphertextSize_v2 hvalid.chunkSize_valid, if_pos hint, hlead]
  · intro stored count hstored hbytes
    have hreader : binding.newReader .background stored
        { (binding.writer .background source).manifest with chunkCount := count } = .ok _ :=
      Binding.newReader_of_valid hvalid .background stored rfl rfl rfl
    have hexp : ChunkedDecryptReader.Expects hkdf binding.terminalAead (binding.reader .background
        stored { (binding.writer .background source).manifest with chunkCount := count })
        (bytes source) :=
      ⟨⟨hvalid.format_bound, rfl⟩, rfl, rfl, hvalid.chunkSize_pos, hstored, hbytes, le_rfl,
        by simpa [Binding.reader] using length_le_of_fits hint⟩
    obtain ⟨hplain, hend⟩ := ChunkedDecryptReader.refills_expects hexp haead hterminal rfl
    rw [← Puller.flow_of_pending_eq_nil rfl] at hplain hend
    obtain ⟨fuel', reader', hread⟩ :=
      (ChunkedDecryptReader.delivers_read hkdf).drain (s := binding.reader .background stored
        { (binding.writer .background source).manifest with chunkCount := count }) rfl hreads
    rw [hplain, hend] at hread
    exact ⟨_, fuel', reader', hreader, hread⟩

/-- **Chunked round trip.**  For every plaintext, every chunking of the sources and
every sizing of the buffers it holds exactly under `NoEmptyReadInTerminal`. -/
theorem roundTrips_iff (hvalid : binding.Valid) (haead : binding.aead.Lawful)
    (hterminal : binding.terminalAead.Lawful) (hclean : Script.Clean source)
    (hbytes : Script.bytes source = plaintext) (hwrite : KeepsReading writeSizes)
    (hreads : KeepsReading readSizes) :
    RoundTrips hkdf binding plaintext source writeSizes readSizes ↔
      NoEmptyReadInTerminal plaintext.length binding.chunkSize writeSizes := by
  subst hbytes
  exact ⟨RoundTrips.noEmptyRead hvalid haead hterminal hclean hwrite,
    roundTrips_of_noEmptyRead hvalid haead hterminal hclean hwrite hreads⟩

end RoundTrip

/-! ## A concrete instance -/

/-- The AEAD without secrecy: it appends a zero tag. -/
def zeroTagAead : Aead where
  sealed _ plaintext _ := plaintext ++ List.replicate 16 0
  opened _ ciphertext _ := some (ciphertext.take (ciphertext.length - 16))

theorem zeroTagAead_lawful : zeroTagAead.Lawful where
  opened_sealed nonce plaintext aad := by
    simp only [zeroTagAead, length_append, length_replicate, Nat.add_sub_cancel, take_left]
  length_sealed nonce plaintext aad := by
    simp only [zeroTagAead, length_append, length_replicate]

def zeroHkdf : Hkdf := ⟨fun _ _ n => List.replicate n 0, fun _ _ n => List.replicate n 0⟩

def sampleBinding : Binding :=
  ⟨zeroTagAead, zeroTagAead, [1, 2, 3], minChunkSize, ⟨[98], [107]⟩, List.replicate 16 5⟩

theorem sampleBinding_valid : sampleBinding.Valid :=
  ⟨⟨by decide, by decide⟩, ⟨by decide, by decide, by decide, by decide⟩, by decide⟩

theorem keepsReading_one : KeepsReading fun _ => 1 := fun n => ⟨n, le_rfl, Nat.one_pos⟩

/-- One byte read with one-byte buffers comes back. -/
theorem roundTrips_one_byte :
    RoundTrips zeroHkdf sampleBinding [7] [⟨[7], none⟩] (fun _ => 1) (fun _ => 1) := by
  refine (roundTrips_iff sampleBinding_valid zeroTagAead_lawful zeroTagAead_lawful
    (clean_singleton [7]) rfl keepsReading_one keepsReading_one).mpr ⟨by decide, ?_⟩
  intro n hzero
  cases hzero

/-- The empty object, read with buffers of 1, 0, 1, 1, … bytes: the second read
reports end-of-file after one byte of the terminal record. -/
theorem not_roundTrips_empty_buffer :
    ¬ RoundTrips zeroHkdf sampleBinding [] [] (fun n => if n = 1 then 0 else 1) (fun _ => 1) := by
  intro htrip
  have hkeeps : KeepsReading fun n => if n = 1 then 0 else 1 := by
    intro n
    refine ⟨n + 2, by omega, ?_⟩
    simp
  obtain ⟨-, hnone⟩ := RoundTrips.noEmptyRead sampleBinding_valid zeroTagAead_lawful
    zeroTagAead_lawful (show Script.Clean [] from trivial) hkeeps htrip
  exact hnone 1 rfl (by decide)

end S3EncryptionGateway.Crypto
