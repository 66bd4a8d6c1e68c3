import S3EncryptionGateway.Crypto.Chunked.RoundTrip

/-!
# Chunked completeness

An adversary who controls every stored byte can make the bound reader deliver
nothing but the plaintext its writer sealed: all of it if the reader reports
end-of-file, and a prefix of it otherwise.

The AEAD is ideal: `Open` succeeds only on what some writer sealed under the same
key, nonce and associated data.  The writers are any list of runs of the bound
writer, with keys, sources, contexts and objects of their own.

## Strategy

* **The log of a writer.**  `SealLog` says which calls a run has made: one per
  chunk, with consecutive indices, and possibly the terminal with the final
  counts.  It holds for every source and every context (`sealLog_of_run`).
* **What the reader can open.**  The associated data of a record names the
  object, the binding id and the index, so a data record that opens at index `i`
  is chunk `i` of the one writer of that object (`chunk_of_opened`), and a
  terminal that opens carries that writer's final counts (`counts_of_opened`).
* **The reader's run.**  `Agrees` says that what came out so far is the first
  `index` chunks.  Every refill keeps it, and the one that accepts the terminal
  has all chunks.
-/

namespace S3EncryptionGateway.Crypto

open Encoding Streams List

/-! ## The log of a writer -/

/-- The calls of a run that sealed `chunks`, and the terminal if `complete`. -/
structure SealLog (hkdf : Hkdf) (aead terminalAead : Aead) (format : RecordFormat)
    (seals : List SealCall) (chunks : List Bytes) (complete : Prop) : Prop where
  calls_of_incomplete : ¬ complete → seals = dataCalls hkdf aead format 0 chunks
  calls_of_complete : complete → seals = dataCalls hkdf aead format 0 chunks ++
    [terminalCall hkdf terminalAead format chunks.length chunks.flatten.length]
  ne_nil : ∀ chunk ∈ chunks, chunk ≠ []
  length_le : chunks.length ≤ maxUint64 + 1
  fits : complete → chunks.flatten.length ≤ maxUint64

open RecordFormat

namespace ChunkedEncryptReader

variable {hkdf : Hkdf} {terminalAead : Aead} {r r' : ChunkedEncryptReader}

/-- What one turn of a bound writer seals. -/
theorem fill_seals (hwriter : BoundWriter terminalAead r) {err : Option CryptoError}
    (hfill : r.fill hkdf = (err, r')) :
    r'.aead = r.aead ∧ r'.format = r.format ∧ r'.terminalAead = r.terminalAead ∧
      r'.chunkSize = r.chunkSize ∧
    (err ≠ none ∧ r'.seals = r.seals ∨
      (∃ data, data ≠ [] ∧ r'.seals = r.seals ++ [dataCall hkdf r.aead r.format r.index data] ∧
        (err ≠ none ∨ r'.done = r.done ∧ r'.index = r.index + 1 ∧
          r'.plainSize = r.plainSize + data.length ∧
          data.length ≤ maxUint64 - r.plainSize)) ∨
      err = none ∧ r'.done = true ∧
        r'.seals = r.seals ++ [terminalCall hkdf terminalAead r.format r.index r.plainSize]) := by
  rw [fill] at hfill
  split at hfill
  · cases hfill
    exact ⟨rfl, rfl, rfl, rfl, .inl ⟨by simp, rfl⟩⟩
  · split at hfill
    rename_i data ending source hread
    simp only at hfill
    split at hfill
    · rename_i hdata
      simp only [sealRecord, dataNonceAndAad_of_bound hwriter.format_bound] at hfill
      split at hfill
      · cases hfill
        exact ⟨rfl, rfl, rfl, rfl, .inr (.inl ⟨data, hdata, rfl, .inl (by simp)⟩)⟩
      · rename_i hsize
        split at hfill
        · cases hfill
          exact ⟨rfl, rfl, rfl, rfl, .inr (.inl ⟨data, hdata, rfl, .inl (by simp)⟩)⟩
        · cases hfill
          exact ⟨rfl, rfl, rfl, rfl,
            Or.inr (.inl ⟨data, hdata, rfl, .inr ⟨rfl, rfl, rfl, not_lt.mp hsize⟩⟩)⟩
    · split at hfill
      · cases hfill
        exact ⟨rfl, rfl, rfl, rfl, .inl ⟨by simp, rfl⟩⟩
      · simp only [sealTerminal, if_pos hwriter.format_bound.version_eq, hwriter.terminalAead_eq,
          terminalNonceAndAad_of_bound hwriter.format_bound] at hfill
        cases hfill
        exact ⟨rfl, rfl, hwriter.terminalAead_eq.symm, rfl, .inr (.inr ⟨rfl, rfl, rfl⟩)⟩

end ChunkedEncryptReader

theorem dataCalls_append (hkdf : Hkdf) (aead : Aead) (format : RecordFormat) (index : ℕ)
    (chunks : List Bytes) (chunk : Bytes) :
    dataCalls hkdf aead format index (chunks ++ [chunk]) =
      dataCalls hkdf aead format index chunks ++
        [dataCall hkdf aead format (index + chunks.length) chunk] := by
  induction chunks generalizing index with
  | nil => rfl
  | cons first chunks ih =>
    simp only [cons_append, dataCalls, ih, length_cons]
    rw [Nat.add_right_comm, Nat.add_assoc]

variable {chunks : List Bytes}

theorem length_le_flatten_length (hne : ∀ chunk ∈ chunks, chunk ≠ []) :
    chunks.length ≤ chunks.flatten.length := by
  induction chunks with
  | nil => exact le_rfl
  | cons chunk chunks ih =>
    have hpos := length_pos_iff.mpr (hne chunk (mem_cons_self ..))
    have hrest := ih fun c hc => hne c (mem_cons_of_mem _ hc)
    simp only [length_cons, flatten_cons, length_append]
    omega

section WriterRun

variable {hkdf : Hkdf} {aead terminalAead : Aead} {format : RecordFormat}
  {seals : List SealCall} {chunks : List Bytes}

theorem SealLog.snoc (hlog : SealLog hkdf aead terminalAead format seals chunks False)
    (hfits : chunks.flatten.length ≤ maxUint64) {chunk : Bytes} (hchunk : chunk ≠ []) :
    SealLog hkdf aead terminalAead format
      (seals ++ [dataCall hkdf aead format chunks.length chunk]) (chunks ++ [chunk]) False := by
  refine ⟨fun _ => ?_, False.elim, ?_, ?_, False.elim⟩
  · rw [dataCalls_append, Nat.zero_add, hlog.calls_of_incomplete id]
  · intro c hc
    rcases mem_append.mp hc with hold | hnew
    · exact hlog.ne_nil c hold
    · rw [mem_singleton.mp hnew]
      exact hchunk
  · have := length_le_flatten_length hlog.ne_nil
    rw [length_append, length_singleton]
    omega

/-- A bound writer between two refills and the log it has made so far. -/
structure Logging (hkdf : Hkdf) (aead terminalAead : Aead) (format : RecordFormat)
    (r : ChunkedEncryptReader) (chunks : List Bytes) : Prop
    extends ChunkedEncryptReader.BoundWriter terminalAead r where
  aead_eq : r.aead = aead
  format_eq : r.format = format
  log : SealLog hkdf aead terminalAead format r.seals chunks (r.done = true)
  counts : r.done = false → r.index = chunks.length ∧ r.plainSize = chunks.flatten.length ∧
    chunks.flatten.length ≤ maxUint64

variable {r : ChunkedEncryptReader}

theorem Logging.step {r' : ChunkedEncryptReader}
    (hlogging : Logging hkdf aead terminalAead format r chunks) (hopen : r.done = false)
    (hfill : r.fill hkdf = (none, r')) :
    ∃ chunks', Logging hkdf aead terminalAead format r' chunks' := by
  have hlog := hlogging.log
  rw [show (r.done = true) = False by simp [hopen]] at hlog
  obtain ⟨hindex, hsize, hfits⟩ := hlogging.counts hopen
  obtain ⟨haead, hformat, hterminal, hchunk, hcase⟩ :=
    ChunkedEncryptReader.fill_seals hlogging.toBoundWriter hfill
  have hwriter : ChunkedEncryptReader.BoundWriter terminalAead r' :=
    ⟨by rw [hformat]; exact hlogging.format_bound, by rw [hterminal]; exact hlogging.terminalAead_eq,
      by rw [hchunk]; exact hlogging.chunkSize_pos⟩
  have haead' : r'.aead = aead := haead.trans hlogging.aead_eq
  have hformat' : r'.format = format := hformat.trans hlogging.format_eq
  rcases hcase with ⟨hne, -⟩ | ⟨data, hdata, hseals, hne | ⟨hdone, hindex', hsize', hroom⟩⟩ |
    ⟨-, hdone, hseals⟩
  · exact absurd rfl hne
  · exact absurd rfl hne
  · have hopen' : r'.done = false := hdone.trans hopen
    have hflat : (chunks ++ [data]).flatten.length = chunks.flatten.length + data.length := by
      simp
    refine ⟨chunks ++ [data], hwriter, haead', hformat', ?_, fun _ => ⟨?_, ?_, ?_⟩⟩
    · rw [hseals, hlogging.aead_eq, hlogging.format_eq, hindex,
        show (r'.done = true) = False by simp [hopen']]
      exact hlog.snoc hfits hdata
    · rw [hindex', hindex, length_append, length_singleton]
    · rw [hsize', hsize, hflat]
    · rw [hflat]
      omega
  · refine ⟨chunks, hwriter, haead', hformat', ?_, fun hopen' => by simp [hdone] at hopen'⟩
    rw [show (r'.done = true) = True by simp [hdone]]
    refine ⟨fun h => absurd trivial h, fun _ => ?_, hlog.ne_nil, hlog.length_le, fun _ => hfits⟩
    rw [hseals, hlog.calls_of_incomplete id, hlogging.format_eq, hindex, hsize]

/-- A failing refill leaves a log too; it may have sealed one more chunk. -/
theorem Logging.fail {r' : ChunkedEncryptReader} {err : CryptoError}
    (hlogging : Logging hkdf aead terminalAead format r chunks) (hopen : r.done = false)
    (hfill : r.fill hkdf = (some err, r')) :
    ∃ chunks', SealLog hkdf aead terminalAead format r'.seals chunks' False := by
  have hlog := hlogging.log
  rw [show (r.done = true) = False by simp [hopen]] at hlog
  obtain ⟨hindex, -, hfits⟩ := hlogging.counts hopen
  obtain ⟨-, -, -, -, hcase⟩ := ChunkedEncryptReader.fill_seals hlogging.toBoundWriter hfill
  rcases hcase with ⟨-, hseals⟩ | ⟨data, hdata, hseals, -⟩ | ⟨hnone, -⟩
  · exact ⟨chunks, by rw [hseals]; exact hlog⟩
  · refine ⟨chunks ++ [data], ?_⟩
    rw [hseals, hlogging.aead_eq, hlogging.format_eq, hindex]
    exact hlog.snoc hfits hdata
  · cases hnone

/-- **The log of a run.**  Whatever its source and context, a bound writer has
sealed consecutive chunks, and the terminal only with their final counts. -/
theorem sealLog_of_run (hlogging : Logging hkdf aead terminalAead format r chunks) :
    ∃ chunks' complete, SealLog hkdf aead terminalAead format
      ((ChunkedEncryptReader.puller hkdf).refills r).2.2.seals chunks' complete := by
  refine Puller.refills_rule
    (fun r => ∃ chunks, Logging hkdf aead terminalAead format r chunks)
    (fun r => ∃ chunks complete, SealLog hkdf aead terminalAead format r.seals chunks complete)
    ?_ ?_ ?_ ?_ r ⟨chunks, hlogging⟩
  · rintro items r ⟨chunks, hlogging⟩
    exact ⟨chunks, ⟨hlogging.format_bound, hlogging.terminalAead_eq, hlogging.chunkSize_pos⟩,
      hlogging.aead_eq, hlogging.format_eq, hlogging.log, hlogging.counts⟩
  · rintro r - ⟨chunks, hlogging⟩
    exact ⟨chunks, _, hlogging.log⟩
  · rintro r r' hopen ⟨chunks, hlogging⟩ hfill
    exact hlogging.step hopen hfill
  · rintro r r' err hopen ⟨chunks, hlogging⟩ hfill
    obtain ⟨chunks', hlog⟩ := hlogging.fail hopen hfill
    exact ⟨chunks', False, hlog⟩

end WriterRun

/-! ## The ideal AEAD and its writers -/

structure WriterRun (Key : Type*) where
  dataKey : Key
  terminalKey : Key
  baseIv : Bytes
  chunkSize : ℕ
  object : ObjectContext
  bindingId : Bytes
  ctx : Context
  source : Script UInt8 CryptoError

namespace WriterRun

variable {Key : Type*} (hkdf : Hkdf) (family : Key → Aead) (w : WriterRun Key)

def binding : Binding :=
  ⟨family w.dataKey, family w.terminalKey, w.baseIv, w.chunkSize, w.object, w.bindingId⟩

def format : RecordFormat := ⟨chunkedFormatV2, w.baseIv, w.object, w.bindingId, true⟩

def keyOf : SealRole → Key
  | .data => w.dataKey
  | .terminal => w.terminalKey

/-- The `Seal` calls of the whole run; none if the writer was not created. -/
def calls : List SealCall :=
  match (w.binding family).newWriter w.ctx w.source with
  | .ok (writer, _) => ((ChunkedEncryptReader.puller hkdf).flow writer).2.2.seals
  | .error _ => []

/-- What the run sealed as data. -/
def plaintext : Bytes :=
  ((w.calls hkdf family).filter fun call => call.role = .data).flatMap SealCall.plaintext

/-- The run sealed its terminal. -/
def Completed : Prop := ∃ call ∈ w.calls hkdf family, call.role = .terminal

end WriterRun

/-- `Open` succeeds only on what a writer sealed under that key, nonce and
associated data, and gives what was sealed. -/
def IdealAead {Key : Type*} (hkdf : Hkdf) (family : Key → Aead) (writers : List (WriterRun Key)) :
    Prop :=
  ∀ key nonce ciphertext aad plaintext,
    (family key).opened nonce ciphertext aad = some plaintext →
      ∃ w ∈ writers, ∃ call ∈ w.calls hkdf family,
        w.keyOf call.role = key ∧ call.nonce = nonce ∧ call.aad = aad ∧
          call.ciphertext = ciphertext ∧ call.plaintext = plaintext

/-- `w` is the writer of the object and binding id of `format`: another writer of
both works under a base IV with different nonces. -/
structure SoleWriter {Key : Type*} (hkdf : Hkdf) (writers : List (WriterRun Key))
    (w : WriterRun Key) (format : RecordFormat) : Prop where
  object_eq : w.object = format.object
  bindingId_eq : w.bindingId = format.bindingId
  unique : ∀ w' ∈ writers, w'.object = format.object → w'.bindingId = format.bindingId →
    w' = w ∨ ∀ info info', readHkdfNonce hkdf w'.baseIv info ≠
      readHkdfNonce hkdf format.baseIv info'

theorem Binding.newWriter_ok {binding : Binding} {ctx : Context}
    {source : Script UInt8 CryptoError} {writer : ChunkedEncryptReader} {manifest : ChunkManifest}
    (hnew : binding.newWriter ctx source = .ok (writer, manifest)) (hkdf : Hkdf) :
    binding.format.Bound ∧ writer.pending = [] ∧
      Logging hkdf binding.aead binding.terminalAead binding.format writer [] := by
  obtain ⟨_, hvalidate, hnew⟩ := Fallible.bind_eq_ok_iff.mp hnew
  replace hnew : (if _ then _ else _) = Except.ok _ := hnew
  split at hnew
  · cases hnew
  rename_i hlen
  have hbound : binding.format.Bound :=
    ⟨rfl, rfl, (ObjectContext.validate_eq_ok_iff _).mp hvalidate, not_not.mp hlen⟩
  have hclamp : 0 < clampChunkSize binding.chunkSize := by
    simp only [clampChunkSize]
    split <;> split <;> simp only [maxChunkSize, minChunkSize] at * <;> omega
  cases hnew
  refine ⟨hbound, rfl, ⟨hbound, rfl, hclamp⟩, rfl, rfl, ?_, fun _ => ⟨rfl, rfl, Nat.zero_le _⟩⟩
  exact ⟨fun _ => rfl, fun h => Bool.noConfusion h, by simp, Nat.zero_le _, fun _ => Nat.zero_le _⟩

variable {terminalAead : Aead}

open Script

namespace WriterRun

variable {Key : Type*} {hkdf : Hkdf} {family : Key → Aead} {w : WriterRun Key}

theorem sealLog_calls : ∃ chunks complete,
    SealLog hkdf (family w.dataKey) (family w.terminalKey) w.format (w.calls hkdf family)
      chunks complete ∧ (w.calls hkdf family ≠ [] → w.format.Bound) := by
  rw [calls]
  split
  · rename_i writer manifest hnew
    obtain ⟨hbound, hpending, hlogging⟩ := Binding.newWriter_ok hnew hkdf
    obtain ⟨chunks, complete, hlog⟩ := sealLog_of_run hlogging
    rw [Puller.flow_of_pending_eq_nil hpending]
    exact ⟨chunks, complete, hlog, fun _ => hbound⟩
  · exact ⟨[], False, ⟨fun _ => rfl, False.elim, by simp, Nat.zero_le _, False.elim⟩,
      fun h => absurd rfl h⟩

/-- A run whose source delivers its bytes and then end-of-file seals all of them
and the terminal. -/
theorem calls_of_clean (hvalid : (w.binding family).Valid) (hctx : w.ctx = .background)
    (hclean : Script.Clean w.source) (hfits : (bytes w.source).length ≤ maxUint64) :
    w.calls hkdf family =
      dataCalls hkdf (family w.dataKey) w.format 0
          (chunksOf w.chunkSize (bytes w.source)) ++
        [terminalCall hkdf (family w.terminalKey) w.format
          (chunksOf w.chunkSize (bytes w.source)).length
          (bytes w.source).length] := by
  have hpos : 0 < w.chunkSize := hvalid.chunkSize_pos
  obtain ⟨rest, hread⟩ := readChunks_of_clean hpos hclean
  have hrun : ChunkedEncryptReader.Running (family w.terminalKey)
      ((w.binding family).writer .background w.source) :=
    ⟨⟨hvalid.format_bound, rfl, hpos⟩, rfl, rfl, rfl, le_rfl⟩
  have hflatten := flatten_chunksOf hpos (bytes w.source)
  obtain ⟨-, -, -, hseals, -⟩ :=
    @ChunkedEncryptReader.refills_of_fits _ hkdf _ _ _ _ hrun hread
      (by rw [hflatten]; simpa [Binding.writer] using hfits)
  rw [hflatten] at hseals
  have hflow : (ChunkedEncryptReader.puller hkdf).flow
      ((w.binding family).writer .background w.source) = _ := Puller.flow_of_pending_eq_nil rfl
  simp only [calls, hctx, Binding.newWriter_of_valid hvalid, hflow, hseals]
  simp only [Binding.writer, nil_append, Nat.zero_add]
  rfl

/-- The data calls of a log are those of its chunks. -/
theorem data_of_sealLog {aead : Aead} {format : RecordFormat} {seals : List SealCall}
    {complete : Prop} (hlog : SealLog hkdf aead terminalAead format seals chunks complete) :
    (seals.filter fun call => call.role = .data).flatMap SealCall.plaintext = chunks.flatten := by
  have hdata : ∀ index, ((dataCalls hkdf aead format index chunks).filter
      fun call => call.role = .data).flatMap SealCall.plaintext = chunks.flatten := by
    clear hlog
    induction chunks with
    | nil => exact fun _ => rfl
    | cons chunk chunks ih =>
      intro index
      rw [dataCalls, filter_cons_of_pos (by simp [dataCall]), flatMap_cons, ih]
      rfl
  by_cases hcomplete : complete
  · rw [hlog.calls_of_complete hcomplete, filter_append, flatMap_append, hdata]
    simp [terminalCall]
  · rw [hlog.calls_of_incomplete hcomplete, hdata]

/-- A call of a log is the call of one of its chunks, or its terminal. -/
theorem call_of_sealLog {aead : Aead} {format : RecordFormat} {seals : List SealCall}
    {complete : Prop} (hlog : SealLog hkdf aead terminalAead format seals chunks complete)
    {call : SealCall} (hcall : call ∈ seals) :
    (∃ i chunk, chunks[i]? = some chunk ∧ i ≤ maxUint64 ∧
        call = dataCall hkdf aead format i chunk) ∨
      complete ∧ call = terminalCall hkdf terminalAead format chunks.length
        chunks.flatten.length := by
  have hdata : ∀ start, call ∈ dataCalls hkdf aead format start chunks →
      ∃ i chunk, chunks[i]? = some chunk ∧ call = dataCall hkdf aead format (start + i) chunk := by
    clear hlog hcall
    induction chunks with
    | nil =>
      intro start hmem
      simp [dataCalls] at hmem
    | cons chunk chunks ih =>
      intro start hmem
      rcases mem_cons.mp hmem with rfl | hlater
      · exact ⟨0, chunk, rfl, rfl⟩
      · obtain ⟨i, c, hi, hc⟩ := ih (start + 1) hlater
        exact ⟨i + 1, c, by simpa using hi, by rw [hc]; congr 1; omega⟩
  have hchunk : call ∈ dataCalls hkdf aead format 0 chunks →
      ∃ i chunk, chunks[i]? = some chunk ∧ i ≤ maxUint64 ∧
        call = dataCall hkdf aead format i chunk := by
    intro hmem
    obtain ⟨i, chunk, hi, hc⟩ := hdata 0 hmem
    rw [Nat.zero_add] at hc
    have hlt := (List.getElem?_eq_some_iff.mp hi).1
    have hle := hlog.length_le
    exact ⟨i, chunk, hi, by omega, hc⟩
  by_cases hcomplete : complete
  · rw [hlog.calls_of_complete hcomplete] at hcall
    rcases mem_append.mp hcall with hold | hnew
    · exact .inl (hchunk hold)
    · exact .inr ⟨hcomplete, mem_singleton.mp hnew⟩
  · rw [hlog.calls_of_incomplete hcomplete] at hcall
    exact .inl (hchunk hcall)

end WriterRun

/-! ## What the reader can open -/

variable {ciphertext : Bytes}

section Opened

variable {Key : Type*} {hkdf : Hkdf} {family : Key → Aead} {writers : List (WriterRun Key)}
  {w : WriterRun Key} {format : RecordFormat} {chunks : List Bytes} {complete : Prop}
  (hideal : IdealAead hkdf family writers) (hsole : SoleWriter hkdf writers w format)
  (hbound : format.Bound)
  (hlog : SealLog hkdf (family w.dataKey) (family w.terminalKey) w.format
    (w.calls hkdf family) chunks complete)

include hideal hsole hbound hlog

/-- A data record that opens at index `i` is chunk `i` of the object's writer. -/
theorem chunk_of_opened {key : Key} {plaintext : Bytes} {i : ℕ} (hi : i ≤ maxUint64)
    (hopened : (family key).opened (format.dataNonce hkdf i) ciphertext (format.dataAad i) =
      some plaintext) : w ∈ writers ∧ chunks[i]? = some plaintext := by
  obtain ⟨w', hw', call, hcall, -, hnonce, haad, -, hplain⟩ := hideal _ _ _ _ _ hopened
  obtain ⟨chunks', complete', hlog', hbound'⟩ := @WriterRun.sealLog_calls _ hkdf family w'
  have hformat : w'.format.Bound := hbound' (ne_nil_of_mem hcall)
  rcases WriterRun.call_of_sealLog hlog' hcall with
    ⟨j, chunk, hj, hle, rfl⟩ | ⟨hcomplete, rfl⟩
  · obtain ⟨hobject, hbinding, rfl⟩ := dataAad_inj hformat hbound hle hi haad
    -- the call is of the object's own writer, as the nonce is one of the reader's
    have hsame : w' = w := by
      rcases hsole.unique w' hw' hobject hbinding with hsame | hother
      · exact hsame
      · exact absurd hnonce (hother _ _)
    subst hsame
    rcases WriterRun.call_of_sealLog hlog hcall with ⟨k, chunk', hk, hk', heq⟩ | ⟨-, heq⟩
    · have haad' := congrArg SealCall.aad heq
      obtain ⟨-, -, rfl⟩ := dataAad_inj hformat hformat hi hk' haad'
      refine ⟨hw', ?_⟩
      rw [hk, ← hplain]
      exact congrArg some (congrArg SealCall.plaintext heq).symm
    · cases congrArg SealCall.role heq
  · have hcount := length_le_flatten_length hlog'.ne_nil
    have hfits := hlog'.fits hcomplete
    exact absurd haad.symm (dataAad_ne_terminalAad hbound hformat hi (by omega) hfits)

/-- A terminal that opens with the reader's counts carries the final counts of the
object's writer. -/
theorem counts_of_opened {key : Key} {plaintext : Bytes} {i size : ℕ} (hi : i ≤ maxUint64)
    (hsize : size ≤ maxUint64) (hopened : (family key).opened (format.terminalNonce hkdf) ciphertext
      (format.terminalAad i size) = some plaintext) :
    w ∈ writers ∧ complete ∧ i = chunks.length ∧ w.Completed hkdf family ∧
      w.format.terminalNonce hkdf = format.terminalNonce hkdf := by
  obtain ⟨w', hw', call, hcall, -, hnonce, haad, -, hplain⟩ := hideal _ _ _ _ _ hopened
  obtain ⟨chunks', complete', hlog', hbound'⟩ := @WriterRun.sealLog_calls _ hkdf family w'
  have hformat : w'.format.Bound := hbound' (ne_nil_of_mem hcall)
  rcases WriterRun.call_of_sealLog hlog' hcall with
    ⟨j, chunk, hj, hle, rfl⟩ | ⟨hcomplete, rfl⟩
  · exact absurd haad (dataAad_ne_terminalAad hformat hbound hle hi hsize)
  have hcount := length_le_flatten_length hlog'.ne_nil
  have hfits := hlog'.fits hcomplete
  obtain ⟨hobject, hbinding, rfl, rfl⟩ := terminalAad_inj hformat hbound
    (by omega) hi hfits hsize haad
  have hsame : w' = w := by
    rcases hsole.unique w' hw' hobject hbinding with hsame | hother
    · exact hsame
    · exact absurd hnonce (hother _ _)
  subst hsame
  rcases WriterRun.call_of_sealLog hlog hcall with ⟨k, chunk', hk, hk', heq⟩ | ⟨hdone, heq⟩
  · cases congrArg SealCall.role heq
  have hcount' := length_le_flatten_length hlog.ne_nil
  have hfits' := hlog.fits hdone
  obtain ⟨-, -, hlen, -⟩ := terminalAad_inj hformat hformat hi (by omega) hsize
    hfits' (congrArg SealCall.aad heq)
  exact ⟨hw', hdone, hlen, ⟨_, hcall, rfl⟩, hnonce⟩

end Opened

/-! ## The reader's run -/

/-- What came out of the reader, `before` and now pending, is the first `index`
chunks. -/
structure Agrees {Key : Type*} (family : Key → Aead) (dataKey terminalKey : Key)
    (format : RecordFormat) (chunks : List Bytes) (before : Bytes) (r : ChunkedDecryptReader) :
    Prop where
  aead_eq : r.aead = family dataKey
  terminalAead_eq : r.terminalAead = some (family terminalKey)
  format_eq : r.format = format
  out_eq : before ++ r.pending = (chunks.take r.index).flatten
  index_le : r.index ≤ chunks.length
  size_eq : r.plainSize = (chunks.take r.index).flatten.length
  size_le : r.plainSize ≤ maxUint64

open ChunkedDecryptReader

section Reader

variable {Key : Type*} {hkdf : Hkdf} {family : Key → Aead} {writers : List (WriterRun Key)}
  {w : WriterRun Key} {format : RecordFormat} {chunks : List Bytes} {complete : Prop}
  {dataKey terminalKey : Key} {before : Bytes} {r r' : ChunkedDecryptReader}

section

variable (hagrees : Agrees family dataKey terminalKey format chunks before r)

include hagrees

/-- `Agrees` does not look at the window, the source, the context or the flags. -/
theorem Agrees.frame (source : Script UInt8 CryptoError) (ctx : Context) (lookbehind : Bytes)
    (done : Bool) :
    Agrees family dataKey terminalKey format chunks before
      { r with source := source, ctx := ctx, lookbehind := lookbehind, done := done } :=
  ⟨hagrees.aead_eq, hagrees.terminalAead_eq, hagrees.format_eq, hagrees.out_eq, hagrees.index_le,
    hagrees.size_eq, hagrees.size_le⟩

/-- The index never wraps: every record that opened had at least one byte. -/
theorem Agrees.index_le_size (hne : ∀ chunk ∈ chunks, chunk ≠ []) : r.index ≤ r.plainSize := by
  have hcount : (chunks.take r.index).length ≤ (chunks.take r.index).flatten.length :=
    length_le_flatten_length fun c hc => hne c (mem_of_mem_take hc)
  rw [length_take, min_eq_left hagrees.index_le] at hcount
  rw [hagrees.size_eq]
  exact hcount

theorem Agrees.out_isPrefix : before ++ r.pending <+: chunks.flatten := by
  refine ⟨(chunks.drop r.index).flatten, ?_⟩
  rw [hagrees.out_eq, ← flatten_append, take_append_drop]

end

variable (hideal : IdealAead hkdf family writers) (hsole : SoleWriter hkdf writers w format)
  (hbound : format.Bound)
  (hlog : SealLog hkdf (family w.dataKey) (family w.terminalKey) w.format
    (w.calls hkdf family) chunks complete)

include hideal hsole hbound hlog

section

variable (hagrees : Agrees family dataKey terminalKey format chunks before r)

include hagrees

theorem Agrees.decryptData (hdata : r.decryptData hkdf ciphertext = (none, r')) :
    
    Agrees family dataKey terminalKey format chunks before r' := by
  have hindex := hagrees.index_le_size hlog.ne_nil
  have hle := hagrees.size_le
  rw [decryptData_eq_none_iff (by rw [hagrees.format_eq]; exact hbound) hle]
    at hdata
  obtain ⟨plaintext, hopened, hfits, rfl⟩ := hdata
  rw [hagrees.aead_eq, hagrees.format_eq] at hopened
  obtain ⟨-, hchunk⟩ := chunk_of_opened hideal hsole hbound hlog (by omega) hopened
  obtain ⟨hlt, hget⟩ := List.getElem?_eq_some_iff.mp hchunk
  have hpos := length_pos_iff.mpr (hlog.ne_nil plaintext (mem_of_getElem? hchunk))
  have hwrap : (r.index + 1) % (maxUint64 + 1) = r.index + 1 := Nat.mod_eq_of_lt (by omega)
  have htake : (chunks.take (r.index + 1)).flatten =
      (chunks.take r.index).flatten ++ plaintext := by
    rw [take_add_one, hchunk]
    simp
  refine ⟨hagrees.aead_eq, hagrees.terminalAead_eq, hagrees.format_eq, ?_, ?_, ?_, hfits⟩
  · simp only [afterRecord, hwrap, htake, ← hagrees.out_eq, append_assoc]
  · simp only [afterRecord, hwrap]
    omega
  · simp only [afterRecord, hwrap, htake, length_append, hagrees.size_eq]

theorem Agrees.flushLookbehind (hok : (r.flushLookbehind hkdf).1 = none) :
    Agrees family dataKey terminalKey format chunks before (r.flushLookbehind hkdf).2 := by
  fun_induction ChunkedDecryptReader.flushLookbehind hkdf r with
  | case1 r hlong cause r' hdata => cases hok
  | case2 r hlong r' hdata ih =>
    have hnext := hagrees.decryptData hideal hsole hbound hlog hdata
    exact ih (hnext.frame r'.source r'.ctx _ r'.done) hok
  | case3 r hlong => exact hagrees

/-- A reader that accepts the terminal has all chunks of the object's writer. -/
theorem Agrees.finish (hfinish : r.finish hkdf = (none, r')) :
    before ++ r'.pending = chunks.flatten ∧ w ∈ writers ∧ w.Completed hkdf family ∧
      w.format.terminalNonce hkdf = format.terminalNonce hkdf := by
  rw [ChunkedDecryptReader.finish] at hfinish
  split at hfinish
  · cases hfinish
  simp only at hfinish
  split at hfinish
  · cases hfinish
  rename_i r₁ hbody
  have hagrees₁ : Agrees family dataKey terminalKey format chunks before r₁ := by
    split at hbody
    · exact hagrees.decryptData hideal hsole hbound hlog hbody
    · cases hbody
      exact hagrees
  split at hfinish <;> cases hfinish
  rename_i hverify
  rw [verifyTerminal_eq_ok_iff
    ⟨by rw [hagrees₁.format_eq]; exact hbound, hagrees₁.terminalAead_eq⟩] at hverify
  obtain ⟨-, plaintext, hopened, -⟩ := hverify
  have hindex := hagrees₁.index_le_size hlog.ne_nil
  have hle := hagrees₁.size_le
  rw [hagrees₁.format_eq] at hopened
  obtain ⟨hmem, -, hcount, hcompleted, hnonce⟩ := counts_of_opened hideal hsole hbound hlog
    (by omega) hle hopened
  refine ⟨?_, hmem, hcompleted, hnonce⟩
  have hout := hagrees₁.out_eq
  rw [hcount, take_length] at hout
  exact hout

theorem Agrees.fill (hopen : r.done = false) (hfill : r.fill hkdf = (none, r')) :
    r'.done = false ∧ Agrees family dataKey terminalKey format chunks before r' ∨
      r'.done = true ∧ before ++ r'.pending = chunks.flatten ∧ w ∈ writers ∧
        w.Completed hkdf family ∧ w.format.terminalNonce hkdf = format.terminalNonce hkdf := by
  rw [ChunkedDecryptReader.fill] at hfill
  split at hfill
  · cases hfill
  split at hfill
  rename_i ctx hpoll _ data err source hread
  have hversion : r.format.version = chunkedFormatV2 := by
    rw [hagrees.format_eq]
    exact hbound.version_eq
  simp only [if_pos hversion] at hfill
  split at hfill
  · cases hfill
  rename_i r₁ hflush
  have hmoved := hagrees.frame source ctx (r.lookbehind ++ data) r.done
  have hagrees₁ := hmoved.flushLookbehind hideal hsole hbound hlog (by rw [hflush])
  rw [hflush] at hagrees₁
  split at hfill
  · cases hfill
    obtain ⟨-, hdone, -⟩ := frame_of_flushLookbehind hflush
    exact .inl ⟨hdone.trans hopen, hagrees₁⟩
  · cases hfill
  · exact .inr ⟨(done_of_finish hfill).1, hagrees₁.finish hideal hsole hbound hlog hfill⟩

/-- Whatever the source is, what the refills deliver is a prefix of the writer's
chunks, and all of them if the refills do not fail. -/
theorem Agrees.refills (hopen : r.done = false) (hpending : r.pending = []) :
    before ++ ((puller hkdf).refills r).1 <+: chunks.flatten ∧
      (((puller hkdf).refills r).2.1 = none →
        before ++ ((puller hkdf).refills r).1 = chunks.flatten ∧
          w ∈ writers ∧ w.Completed hkdf family ∧
          w.format.terminalNonce hkdf = format.terminalNonce hkdf) := by
  generalize hrank : r.rank = rank
  induction rank using Nat.strong_induction_on generalizing r before with
  | _ rank ih =>
    rcases hfill : r.fill hkdf with ⟨err, r'⟩
    cases err with
    | some err =>
      rw [Puller.refills_of_error hopen hfill, append_nil]
      have hinit := hagrees.out_isPrefix
      rw [hpending, append_nil] at hinit
      exact ⟨hinit, nofun⟩
    | none =>
      have hless := rank_fill hkdf r r' hopen hfill
      rw [Puller.refills_of_fill hopen hfill]
      rcases hagrees.fill hideal hsole hbound hlog hopen hfill with
        ⟨hopen', hagrees'⟩ | ⟨hdone, hall, hrest⟩
      · have hdelivered : Agrees family dataKey terminalKey format chunks (before ++ r'.pending)
            { r' with pending := [] } :=
          { hagrees' with out_eq := (append_nil _).trans hagrees'.out_eq }
        have hlater := ih r'.rank (by omega) hdelivered hopen' rfl rfl
        rw [append_assoc] at hlater
        exact hlater
      · rw [Puller.flow_of_done hdone]
        exact ⟨hall ▸ prefix_rfl, fun _ => ⟨hall, hrest⟩⟩

end

end Reader

theorem newChunkedDecryptReaderV2Bound_ok {ctx : Context} {source : Script UInt8 CryptoError}
    {aead : Aead} {manifest : Option ChunkManifest} {object : ObjectContext} {bindingId : Bytes}
    {reader : ChunkedDecryptReader}
    (hnew : newChunkedDecryptReaderV2Bound ctx source aead manifest (some terminalAead) object
      bindingId = .ok reader) :
    reader.aead = aead ∧ reader.terminalAead = some terminalAead ∧ reader.format.Bound ∧
      reader.format.object = object ∧ reader.format.bindingId = bindingId ∧ reader.index = 0 ∧
      reader.plainSize = 0 ∧ reader.pending = [] ∧ reader.done = false ∧ reader.err = none := by
  obtain ⟨⟨⟩, hvalidate, hbind⟩ := Fallible.bind_eq_ok_iff.mp hnew
  split at hbind
  · cases hbind
  rename_i hlen
  obtain ⟨r, hlegacy, hresult⟩ := Fallible.bind_eq_ok_iff.mp hbind
  cases hresult
  rw [newLegacyChunkedDecryptReaderV2] at hlegacy
  split at hlegacy
  · cases hlegacy
  rename_i hversion
  obtain ⟨manifest, rfl, hv2⟩ := Option.map_eq_some_iff.mp (not_not.mp hversion)
  obtain ⟨⟨⟩, -, hchecked⟩ := Fallible.bind_eq_ok_iff.mp hlegacy
  obtain ⟨⟨⟩, -, hsized⟩ := Fallible.bind_eq_ok_iff.mp hchecked
  split at hsized
  · cases hsized
  split at hsized <;> cases hsized
  exact ⟨rfl, rfl, ⟨hv2, rfl, (ObjectContext.validate_eq_ok_iff _).mp hvalidate,
    not_not.mp hlen⟩, rfl, rfl, rfl, rfl, rfl, rfl, rfl⟩

section Completeness

variable {Key : Type*} {hkdf : Hkdf} {family : Key → Aead} {writers : List (WriterRun Key)}
  {w : WriterRun Key} {dataKey terminalKey : Key} {ctx : Context}
  {source : Script UInt8 CryptoError} {manifest : Option ChunkManifest} {object : ObjectContext}
  {bindingId : Bytes} {reader : ChunkedDecryptReader}

/-- What an adversary can make a bound reader deliver: it comes to an end, and it
has then delivered the writer's plaintext if it reports end-of-file and a prefix
of it otherwise. -/
def DeliversOnly (hkdf : Hkdf) (family : Key → Aead) (writers : List (WriterRun Key))
    (w : WriterRun Key) (reader : ChunkedDecryptReader) : Prop :=
  (∀ sizes, KeepsReading sizes → ∃ fuel out ended reader',
    drain (ChunkedDecryptReader.read hkdf) sizes fuel reader = (out, some ended, reader')) ∧
  ∀ sizes fuel out ended reader',
    drain (ChunkedDecryptReader.read hkdf) sizes fuel reader = (out, ended, reader') →
      (ended = some .eof → out = w.plaintext hkdf family ∧ w ∈ writers ∧
        w.Completed hkdf family ∧
        w.format.terminalNonce hkdf = reader.format.terminalNonce hkdf) ∧
      (ended ≠ some .eof → out <+: w.plaintext hkdf family)

/-- **Chunked completeness.**  For every source, every manifest and every context
the bound reader of an object delivers only what the object's writer sealed. -/
theorem deliversOnly_of_ideal (hideal : IdealAead hkdf family writers)
    (hnew : newChunkedDecryptReaderV2Bound ctx source (family dataKey) manifest
      (some (family terminalKey)) object bindingId = .ok reader)
    (hsole : SoleWriter hkdf writers w reader.format) :
    DeliversOnly hkdf family writers w reader := by
  obtain ⟨haead, hterminal, hbound, -, -, hindex, hsize, hpending, hopen, herr⟩ :=
    newChunkedDecryptReaderV2Bound_ok hnew
  obtain ⟨chunks, complete, hlog, -⟩ := @WriterRun.sealLog_calls _ hkdf family w
  have hplain : w.plaintext hkdf family = chunks.flatten := WriterRun.data_of_sealLog hlog
  have hagrees : Agrees family dataKey terminalKey reader.format chunks [] reader :=
    ⟨haead, hterminal, rfl, by rw [hpending, hindex]; rfl, by rw [hindex]; exact Nat.zero_le _,
      by rw [hsize, hindex]; rfl, by rw [hsize]; exact Nat.zero_le _⟩
  obtain ⟨hinit, hall⟩ := hagrees.refills hideal hsole hbound hlog hopen hpending
  have hflow : (puller hkdf).flow reader = _ :=
    Puller.flow_of_pending_eq_nil hpending
  rw [nil_append, ← hflow, ← hplain] at hinit
  rw [nil_append, ← hflow, ← hplain] at hall
  have hdelivers := delivers_read hkdf
  refine ⟨fun sizes hkeeps => ?_, fun sizes fuel out ended reader' hdrain => ⟨?_, ?_⟩⟩
  · obtain ⟨fuel, reader', hdrain⟩ := hdelivers.drain herr hkeeps
    exact ⟨fuel, _, _, reader', hdrain⟩
  · rintro rfl
    obtain ⟨rfl, hend⟩ := hdelivers.drain_ended herr hdrain
    refine hall ?_
    cases hlast : ((puller hkdf).flow reader).2.1 with
    | none => rfl
    | some err =>
      rw [hlast] at hend
      cases hend
  · intro _
    cases ended with
    | some err =>
      obtain ⟨rfl, -⟩ := hdelivers.drain_ended herr hdrain
      exact hinit
    | none =>
      obtain ⟨-, hrunning, -⟩ := hdelivers.advances.drain_running herr hdrain
      refine List.IsPrefix.trans ?_ hinit
      rw [hrunning]
      exact prefix_append ..

end Completeness

/-- The writer of a one-byte object. -/
def sampleRun : WriterRun Unit :=
  ⟨(), (), [1, 2, 3], minChunkSize, ⟨[98], [107]⟩, List.replicate 16 5, .background,
    [⟨[7], none⟩]⟩

/-- What it seals with all-zero tags. -/
def sampleCalls : List SealCall :=
  dataCalls zeroHkdf zeroTagAead sampleRun.format 0 [[7]] ++
    [terminalCall zeroHkdf zeroTagAead sampleRun.format 1 1]

/-- An AEAD that opens what `sampleRun` sealed and nothing else. -/
def recordedAead : Aead where
  sealed := zeroTagAead.sealed
  opened nonce ciphertext aad :=
    (sampleCalls.find? fun call =>
      call.nonce = nonce ∧ call.ciphertext = ciphertext ∧ call.aad = aad).map SealCall.plaintext

theorem sampleRun_valid : (sampleRun.binding fun _ => recordedAead).Valid :=
  ⟨⟨by decide, by decide⟩, ⟨by decide, by decide, by decide, by decide⟩, by decide⟩

theorem calls_sampleRun : sampleRun.calls zeroHkdf (fun _ => recordedAead) = sampleCalls := by
  have hchunks : chunksOf sampleRun.chunkSize (bytes sampleRun.source) = [[7]] := by
    rw [chunksOf_of_ne_nil (by decide) (by decide)]
    exact congrArg _ (chunksOf_nil _)
  rw [WriterRun.calls_of_clean sampleRun_valid rfl (clean_singleton [7]) (by decide), hchunks]
  rfl

theorem recordedAead_ideal : IdealAead zeroHkdf (fun _ => recordedAead) [sampleRun] := by
  intro key nonce ciphertext aad plaintext hopened
  obtain ⟨call, hfind, rfl⟩ := Option.map_eq_some_iff.mp hopened
  have hmatch := List.find?_some hfind
  simp only [decide_eq_true_eq] at hmatch
  obtain ⟨hnonce, hciphertext, haad⟩ := hmatch
  refine ⟨sampleRun, mem_singleton_self _, call, ?_, rfl, hnonce, haad, hciphertext, rfl⟩
  rw [calls_sampleRun]
  exact mem_of_find?_eq_some hfind

/-- The reader of the one-byte object over its own ciphertext. -/
theorem deliversOnly_sampleRun :
    DeliversOnly zeroHkdf (fun _ => recordedAead) [sampleRun] sampleRun
      ((sampleRun.binding fun _ => recordedAead).reader .background
        [⟨sampleCalls.flatMap SealCall.ciphertext, none⟩]
        ((sampleRun.binding fun _ => recordedAead).writer .background sampleRun.source).manifest) :=
  have hnew := Binding.newReader_of_valid sampleRun_valid .background _ rfl rfl rfl
  @deliversOnly_of_ideal Unit _ _ _ _ () () _ _ _ _ _ _ recordedAead_ideal hnew
    ⟨rfl, rfl, fun _ hmem _ _ => .inl (List.mem_singleton.mp hmem)⟩

end S3EncryptionGateway.Crypto
