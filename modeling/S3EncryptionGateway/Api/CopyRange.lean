import S3EncryptionGateway.Crypto.Mpu.Written

/-!
# Decoding a copied range of a multipart object

`UploadPartCopy` from an encrypted multipart object fetches the planned ciphertext of the
source range as a whole and decodes it part by part: for every part it cuts a span out of
the ciphertext, opens the chunks in it, and goes on behind the span.  At the end the
plaintext is trimmed to the range.

## The length of a span

Only for the last part of the range does the decoder look at the length of the part's
ciphertext; for every other part it takes all chunks to be full ones.  If the last chunk
of such a part is short, the span reaches into the next part.

* **Parts that end with a full chunk** have spans of the right length, empty parts have
  empty ones, and the decoder stays in step with the plan (`decodeParts_of_aligned`).
* **A short chunk inside the range** gets bytes of the next part behind it and cannot be
  opened, or the span does not fit (`decodeParts_of_short`).

`decodesRange_iff` has exactly that condition, for the decoders of both versions.
-/

namespace S3EncryptionGateway.Api.CopyRange

open Crypto Encoding Streams Slices List

inductive DecodeError where
  /-- "manifest part index %d out of range" -/
  | partIndex (index : ℕ)
  /-- "invalid ciphertext span for part %d" -/
  | span (partNumber : ℤ)
  /-- "invalid legacy MPU ciphertext span" -/
  | legacySpan
  /-- "decrypted range slice %d-%d outside %d bytes" -/
  | outside (start stop : ℤ) (length : ℕ)
  /-- "decrypted legacy range outside plaintext" -/
  | legacyOutside
  | decrypt (err : MpuError)
  /-- The panic of an index or a slice out of range. -/
  | panic
  deriving DecidableEq

/-- What the decoders of the two versions do in their own way.  Both cut out the span they
have computed when it is there. -/
structure RangeDecoder where
  decrypt : Bytes → (partNumber chunkSize chunkIndex : ℤ) → Except MpuError Bytes
  /-- a part of the plan that the manifest does not have -/
  missing : ℕ → DecodeError
  /-- the length that is cut out of `length` bytes behind `consumed` -/
  span : (partNumber consumed partLen : ℤ) → (length : ℕ) → Except DecodeError ℤ
  outside : (start stop : ℤ) → (length : ℕ) → DecodeError
  span_of_le : ∀ {partNumber : ℤ} {consumed partLen length : ℕ}, consumed + partLen ≤ length →
    span partNumber consumed partLen length = .ok partLen
  span_of_lt : ∀ {partNumber cut : ℤ} {consumed partLen length : ℕ}, consumed ≤ length →
    length < consumed + partLen → span partNumber consumed partLen length = .ok cut →
    cut = length - consumed

/-- A span that does not fit is cut off at the end. -/
def currentSpan (partNumber consumed partLen : ℤ) (length : ℕ) : Except DecodeError ℤ :=
  if partLen < 0 ∨ length < consumed then .error (.span partNumber)
  else if length < consumed + partLen then .ok (length - consumed)
  else .ok partLen

/-- A span that does not fit is refused. -/
def legacySpan (_partNumber consumed partLen : ℤ) (length : ℕ) : Except DecodeError ℤ :=
  if length < consumed + partLen then .error .legacySpan
  else if partLen < 0 then .error .panic
  else .ok partLen

section Decode

variable (d : RangeDecoder) (m : MultipartManifest) (encRange : MpuRangeResult)
  (ciphertext : Bytes)

def firstChunk (pi : ℕ) : ℤ := if pi = encRange.partStartIdx then encRange.chunkStart else 0

def lastChunk (pi : ℕ) (part : MpuPartRecord) : ℤ :=
  if pi = encRange.partEndIdx then encRange.chunkEnd else part.chunkCount - 1

/-- The length of the ciphertext of part `pi` in the range. -/
def partLen (pi : ℕ) (part : MpuPartRecord) : ℤ :=
  if pi = encRange.partEndIdx ∧ lastChunk encRange pi part = part.chunkCount - 1 then
    part.encLen - firstChunk encRange pi * (m.chunkSize + tagSize)
  else (lastChunk encRange pi part - firstChunk encRange pi + 1) * (m.chunkSize + tagSize)

/-- The loop over `count` parts from `pi` on. -/
def decodeParts : (count pi : ℕ) → (consumed : ℤ) → Except DecodeError Bytes
  | 0, _, _ => .ok []
  | count + 1, pi, consumed =>
    match m.parts[pi]? with
    | none => .error (d.missing pi)
    | some part =>
      match d.span part.partNumber consumed (partLen m encRange pi part) ciphertext.length with
      | .error err => .error err
      | .ok cut =>
        match d.decrypt (slice ciphertext consumed.toNat (consumed + cut).toNat)
            part.partNumber m.chunkSize (firstChunk encRange pi) with
        | .error err => .error (.decrypt err)
        | .ok plain => (decodeParts count (pi + 1) (consumed + cut)).map (plain ++ ·)

/-- Decode the parts of the range and trim them to it. -/
def decodeRange (pStart pEnd : ℤ) : Except DecodeError Bytes :=
  match decodeParts d m encRange ciphertext (encRange.partEndIdx + 1 - encRange.partStartIdx)
      encRange.partStartIdx 0 with
  | .error err => .error err
  | .ok plaintext =>
    if m.parts.length < encRange.partStartIdx then .error (d.missing m.parts.length)
    else
      let base := m.plainOffset encRange.partStartIdx + encRange.chunkStart * m.chunkSize
      let start := pStart - base
      let stop := pEnd - base
      if start < 0 ∨ plaintext.length ≤ stop ∨ stop < start then
        .error (d.outside start stop plaintext.length)
      else .ok (slice plaintext start.toNat (stop + 1).toNat)

end Decode

section Versions

variable (hkdf : SaltedHkdf) (createMpuAeadCipher : Bytes → Except MpuError Aead)
  (format : MpuFormat)

def currentDecoder : RangeDecoder where
  decrypt := decryptMpuPartRangeV2 hkdf createMpuAeadCipher format
  missing := .partIndex
  span := currentSpan
  outside := .outside
  span_of_le hle := by
    rw [currentSpan, if_neg (by omega), if_neg (by omega)]
  span_of_lt hin hlt hcut := by
    rw [currentSpan, if_neg (by omega), if_pos (by omega)] at hcut
    exact (Except.ok.inj hcut).symm

def legacyDecoder : RangeDecoder where
  decrypt := decryptMpuPartRangeV1 hkdf createMpuAeadCipher format
  missing _ := .panic
  span := legacySpan
  outside _ _ _ := .legacyOutside
  span_of_le hle := by
    rw [legacySpan, if_neg (by omega), if_neg (by omega)]
  span_of_lt hin hlt hcut := by
    rw [legacySpan, if_pos (by omega)] at hcut
    cases hcut

def decodeMpuPlaintextRange (ciphertext : Bytes) (m : MultipartManifest)
    (encRange : MpuRangeResult) (pStart pEnd : ℤ) : Except DecodeError Bytes :=
  decodeRange (currentDecoder hkdf createMpuAeadCipher format) m encRange ciphertext pStart pEnd

def decodeMpuPlaintextRangeV1 (ciphertext : Bytes) (m : MultipartManifest)
    (encRange : MpuRangeResult) (pStart pEnd : ℤ) : Except DecodeError Bytes :=
  decodeRange (legacyDecoder hkdf createMpuAeadCipher format) m encRange ciphertext pStart pEnd

/-- The decoder of the version the format is of. -/
def rangeDecoder : RangeDecoder :=
  if format.bound then currentDecoder hkdf createMpuAeadCipher format
  else legacyDecoder hkdf createMpuAeadCipher format

def decodeFor (ciphertext : Bytes) (m : MultipartManifest) (encRange : MpuRangeResult)
    (pStart pEnd : ℤ) : Except DecodeError Bytes :=
  if format.bound then
    decodeMpuPlaintextRange hkdf createMpuAeadCipher format ciphertext m encRange pStart pEnd
  else decodeMpuPlaintextRangeV1 hkdf createMpuAeadCipher format ciphertext m encRange pStart pEnd

theorem decodeFor_eq (ciphertext : Bytes) (m : MultipartManifest) (encRange : MpuRangeResult)
    (pStart pEnd : ℤ) :
    decodeFor hkdf createMpuAeadCipher format ciphertext m encRange pStart pEnd =
      decodeRange (rangeDecoder hkdf createMpuAeadCipher format) m encRange ciphertext pStart
        pEnd := by
  rw [decodeFor, rangeDecoder]
  split <;> rfl

theorem decrypt_rangeDecoder :
    (rangeDecoder hkdf createMpuAeadCipher format).decrypt =
      decryptPartRange hkdf createMpuAeadCipher format := by
  funext ciphertext partNumber chunkSize startChunkIdx
  rw [rangeDecoder, decryptPartRange]
  split <;> rfl

end Versions

/-! ## The loop over the parts -/

open PlainPart

open StoredObject

section Loop

variable {o : StoredObject} {d : RangeDecoder} {start last k : ℕ} (first : o.ByteAt start)
  (stop : o.ByteAt last) {part : PlainPart}

def planned : MpuRangeResult where
  encStart := o.encAt first.k first.i
  encEnd := (stop.encStop : ℤ) - 1
  partStartIdx := first.k
  chunkStart := first.i
  partEndIdx := stop.k
  chunkEnd := stop.i

theorem planned_count (hle : first.k ≤ stop.k) :
    (planned first stop).partEndIdx + 1 - (planned first stop).partStartIdx =
      stop.k - first.k + 1 := by
  show stop.k + 1 - first.k = _
  omega

def fetched : Bytes := slice o.ciphertext (o.encAt first.k first.i) stop.encStop

def chunkFrom (k : ℕ) : ℕ := if k = first.k then first.i else 0

theorem firstChunk_planned (k : ℕ) : firstChunk (planned first stop) k = chunkFrom first k := by
  show (if k = first.k then (first.i : ℤ) else 0) = _
  rw [chunkFrom]
  split <;> rfl

theorem chunkFrom_inside (hpart : o.parts[k]? = some part) :
    chunkFrom first k = 0 ∨ chunkFrom first k < part.chunkCount o.chunkSize := by
  rw [chunkFrom]
  split_ifs with hk
  · subst hk
    cases hpart.symm.trans first.chunkAt.getElem?_eq
    exact .inr first.chunkAt.inside
  · exact .inl rfl

theorem encAt_le_chunkFrom (hle : first.k ≤ k) :
    o.encAt first.k first.i ≤ o.encAt k (chunkFrom first k) := by
  rw [chunkFrom]
  split_ifs with hk
  · rw [hk]
  · have hend := first.chunkAt.encEnd_le_next
    have hnext := encAt_le_of_le (o := o) (show first.k + 1 ≤ k by omega) 0
    omega

theorem encAt_le_encStop (hle : k ≤ stop.k) : o.encAt k 0 ≤ stop.encStop :=
  (encAt_le_of_le hle stop.i).trans (Nat.le_add_right _ _)

theorem slice_fetched {a b : ℕ} (hstart : o.encAt first.k first.i ≤ a) (hstop : b ≤ stop.encStop) :
    slice (fetched first stop) (a - o.encAt first.k first.i) (b - o.encAt first.k first.i) =
      slice o.ciphertext a b := slice_slice hstart hstop

theorem length_fetched :
    (fetched first stop).length = stop.encStop - o.encAt first.k first.i := by
  have hle := stop.encStop_le
  rw [fetched, length_slice]
  omega

/-- Where part `k` begins in the fetched ciphertext. -/
def consumedAt (k : ℕ) : ℕ := o.encAt k (chunkFrom first k) - o.encAt first.k first.i

/-- Of every part but the last one all chunks are taken for full ones. -/
theorem partLen_inner (hlt : k < stop.k) (hpart : o.parts[k]? = some part) :
    partLen o.manifest (planned first stop) k (part.record o.chunkSize) =
      ((part.chunkCount o.chunkSize - chunkFrom first k) * (o.chunkSize + tagSize) : ℕ) := by
  have hinside := chunkFrom_inside first hpart
  have hne : k ≠ (planned first stop).partEndIdx := hlt.ne
  rw [partLen, lastChunk, if_neg hne, if_neg fun h => hne h.1, firstChunk_planned,
    o.laidOut.chunkSize_eq, record_chunkCount]
  push_cast [show chunkFrom first k ≤ part.chunkCount o.chunkSize by omega]
  ring

/-- One turn of the loop whose span is there and opens. -/
theorem decodeParts_succ (hd : d.decrypt = o.decrypt) (hpart : o.parts[k]? = some part)
    {length : ℕ} {plain : Bytes}
    (hlen : partLen o.manifest (planned first stop) k (part.record o.chunkSize) = length)
    (hfits : consumedAt first k + length ≤ (fetched first stop).length)
    (hopens : o.decrypt (slice (fetched first stop) (consumedAt first k)
      (consumedAt first k + length)) part.number o.chunkSize (chunkFrom first k) = .ok plain)
    (count : ℕ) :
    decodeParts d o.manifest (planned first stop) (fetched first stop) (count + 1) k
        (consumedAt first k) =
      (decodeParts d o.manifest (planned first stop) (fetched first stop) count (k + 1)
        (consumedAt first k + length : ℕ)).map (plain ++ ·) := by
  rw [decodeParts, getElem?_record hpart]
  simp only [hlen, d.span_of_le hfits, firstChunk_planned, o.laidOut.chunkSize_eq, hd,
    record_partNumber, ← Nat.cast_add, Int.toNat_natCast, hopens]

theorem decodeParts_of_dvd (hd : d.decrypt = o.decrypt) (hle : first.k ≤ k) (hlt : k < stop.k)
    (hpart : o.parts[k]? = some part) (hdvd : o.chunkSize ∣ part.data.length) (count : ℕ) :
    decodeParts d o.manifest (planned first stop) (fetched first stop) (count + 1) k
        (consumedAt first k) =
      (decodeParts d o.manifest (planned first stop) (fetched first stop) count (k + 1)
        (consumedAt first (k + 1))).map
        (slice o.plaintext (o.plainAt k (chunkFrom first k))
          (o.plainAt (k + 1) (chunkFrom first (k + 1))) ++ ·) := by
  have hinside := chunkFrom_inside first hpart
  have hnext : chunkFrom first (k + 1) = 0 := if_neg (by omega)
  have hexact := (chunkCount_mul_eq_iff o.laidOut.chunkSize_pos).mpr hdvd
  have hrest := length_partFrom (o := o) hinside
  have hbegin := encAt_le_chunkFrom first hle
  have hend := encAt_le_encStop stop (show k + 1 ≤ stop.k from hlt)
  have hstep := encAt_succ_zero hpart
  -- the span ends where the next part begins
  have hspan : consumedAt first k +
      (part.chunkCount o.chunkSize - chunkFrom first k) * (o.chunkSize + tagSize) =
        o.encAt (k + 1) 0 - o.encAt first.k first.i := by
    rw [encAt_eq_add k] at hbegin
    rw [consumedAt, encAt_eq_add k (chunkFrom first k), hstep, encLen,
      ← hexact, Nat.sub_mul, ← Nat.mul_add]
    rw [encLen, ← hexact, ← Nat.mul_add] at hrest
    omega
  have hlen := partLen_inner first stop hlt hpart
  have hopens := decrypt_partFrom (mem_of_getElem? hpart) (chunkFrom first k)
  rw [← slice_ciphertext_rest hpart hinside,
    ← slice_fetched first stop hbegin hend, ← hspan] at hopens
  rw [decodeParts_succ first stop hd hpart hlen ?_ hopens, hspan, hnext,
    slice_plaintext_rest hpart, consumedAt, hnext]
  rw [hspan, length_fetched]
  omega

theorem decodeParts_of_not_dvd (hideal : o.Ideal) (hd : d.decrypt = o.decrypt)
    (hle : first.k ≤ k) (hlt : k < stop.k) (hpart : o.parts[k]? = some part)
    (hshort : ¬o.chunkSize ∣ part.data.length) (count : ℕ) :
    ∃ err, decodeParts d o.manifest (planned first stop) (fetched first stop) (count + 1) k
      (consumedAt first k) = .error err := by
  have hpos := o.laidOut.chunkSize_pos
  have hwithin := chunkFrom_inside first hpart
  have hinside : chunkFrom first k < part.chunkCount o.chunkSize := by
    refine hwithin.elim (fun hzero => ?_) id
    rw [hzero, lt_chunkCount_iff hpos, Nat.zero_mul]
    exact Nat.pos_of_ne_zero fun hempty => hshort (hempty ▸ Nat.dvd_zero _)
  have hrest := length_partFrom (o := o) hwithin
  have hbegin := encAt_le_chunkFrom first hle
  have hstep := encAt_succ_zero hpart
  have hnext : o.encAt (k + 1) 0 < stop.encStop := by
    have := encAt_le_of_le (o := o) (show k + 1 ≤ stop.k from hlt) stop.i
    have hlen := o.length_sealedChunk stop.part stop.i
    rw [StoredObject.ByteAt.encStop, hlen, tagSize]
    omega
  have hlen := partLen_inner first stop hlt hpart
  -- the span is longer than the rest of the part
  have hlonger : (o.partFrom part (chunkFrom first k)).length <
      (part.chunkCount o.chunkSize - chunkFrom first k) * (o.chunkSize + tagSize) := by
    have hroom := @PlainPart.length_le_chunkCount_mul part _ hpos
    have hne := (chunkCount_mul_eq_iff hpos).not.mpr hshort
    rw [encLen] at hrest
    rw [Nat.sub_mul, Nat.mul_add (part.chunkCount o.chunkSize)]
    omega
  generalize (part.chunkCount o.chunkSize - chunkFrom first k) * (o.chunkSize + tagSize) =
    length at hlen hlonger
  have hconsumed : consumedAt first k ≤ (fetched first stop).length := by
    rw [consumedAt, length_fetched]
    rw [encAt_eq_add k] at hbegin ⊢
    omega
  rw [decodeParts, getElem?_record hpart]
  simp only [hlen, firstChunk_planned, o.laidOut.chunkSize_eq, hd, record_partNumber]
  rcases hcut : d.span part.number (consumedAt first k) length (fetched first stop).length with
    err | cut
  · exact ⟨err, rfl⟩
  -- what is cut out goes on behind the part
  obtain ⟨extra, hextra, hslice⟩ : ∃ extra, extra ≠ [] ∧
      slice (fetched first stop) (consumedAt first k : ℤ).toNat
        ((consumedAt first k : ℤ) + cut).toNat =
        o.partFrom part (chunkFrom first k) ++ extra := by
    obtain ⟨stopAt, hstopAt, hbehind, hwithin'⟩ : ∃ stopAt,
        ((consumedAt first k : ℤ) + cut).toNat = stopAt - o.encAt first.k first.i ∧
        o.encAt (k + 1) 0 < stopAt ∧ stopAt ≤ stop.encStop := by
      rw [length_fetched] at hcut
      rw [encAt_eq_add k] at hbegin
      by_cases hfits : consumedAt first k + length ≤ stop.encStop - o.encAt first.k first.i
      · rw [d.span_of_le hfits] at hcut
        cases hcut
        refine ⟨o.encAt k (chunkFrom first k) + length, ?_, ?_, ?_⟩
        · rw [consumedAt, encAt_eq_add k]
          omega
        · rw [encAt_eq_add k]
          omega
        · rw [consumedAt, encAt_eq_add k] at hfits
          rw [encAt_eq_add k]
          omega
      · rw [length_fetched] at hconsumed
        cases d.span_of_lt hconsumed (by omega) hcut
        exact ⟨stop.encStop, by omega, hnext, le_rfl⟩
    refine ⟨slice o.ciphertext (o.encAt (k + 1) 0) stopAt, ?_, ?_⟩
    · have hend := stop.encStop_le
      rw [← length_pos_iff, length_slice]
      omega
    · rw [Int.toNat_natCast, hstopAt, consumedAt, slice_fetched first stop hbegin hwithin',
        ← slice_ciphertext_rest hpart hwithin, slice_append_slice _ hbehind.le]
      rw [encAt_eq_add k]
      omega
  obtain ⟨err, herr⟩ := decrypt_append hideal (mem_of_getElem? hpart) hinside
    hshort hextra
  simp only [hslice, herr]
  exact ⟨_, rfl⟩

theorem decodeParts_last (hd : d.decrypt = o.decrypt) (hle : first.k ≤ stop.k)
    (hfirst : chunkFrom first stop.k ≤ stop.i) :
    decodeParts d o.manifest (planned first stop) (fetched first stop) 1 stop.k
        (consumedAt first stop.k) =
      .ok (slice o.plaintext (o.plainAt stop.k (chunkFrom first stop.k))
        (o.plainAt stop.k stop.i + (stop.part.chunk o.chunkSize stop.i).length)) := by
  have hpart := stop.chunkAt.getElem?_eq
  have hinside := stop.chunkAt.inside
  have hpos := o.laidOut.chunkSize_pos
  have hbegin := encAt_le_chunkFrom first hle
  have hchunk := stop.part.length_chunk o.chunkSize stop.i
  have hbegins := stop.chunkAt.begins
  have hwithin := chunkFrom_inside first hpart
  have hrest := length_partFrom (o := o) hwithin
  generalize hf : chunkFrom first stop.k = f at *
  have hstop : stop.encStop = o.encAt stop.k 0 +
      stop.part.encUpTo o.chunkSize (stop.i + 1) := by
    rw [StoredObject.ByteAt.encStop, ← stop.chunkAt.encUpTo_eq, encAt_zero]
  have hmono : f * (o.chunkSize + tagSize) ≤ stop.i * (o.chunkSize + tagSize) :=
    Nat.mul_le_mul_right _ hfirst
  have hupTo : f * (o.chunkSize + tagSize) ≤ stop.part.encUpTo o.chunkSize (stop.i + 1) := by
    rw [encUpTo, Nat.succ_mul]
    omega
  -- the span reaches to the end of the last chunk
  have hlen : partLen o.manifest (planned first stop) stop.k (stop.part.record o.chunkSize) =
      (stop.encStop - o.encAt stop.k f : ℕ) := by
    have hlast : lastChunk (planned first stop) stop.k (stop.part.record o.chunkSize) = stop.i :=
      if_pos rfl
    have hcast : (f : ℤ) * (o.chunkSize + tagSize) = (f * (o.chunkSize + tagSize) : ℕ) := by
      push_cast
      rfl
    rw [partLen, hlast, firstChunk_planned, hf, o.laidOut.chunkSize_eq,
      record_chunkCount, record_encLen, encAt_eq_add, hstop]
    by_cases hend : stop.i + 1 = stop.part.chunkCount o.chunkSize
    · rw [if_pos ⟨rfl, by omega⟩, hcast]
      rw [hend, encUpTo_chunkCount hpos] at hupTo ⊢
      omega
    · have hdist : ((stop.i : ℤ) - f + 1) * (o.chunkSize + tagSize) =
          ((stop.i + 1) * (o.chunkSize + tagSize) : ℕ) - (f * (o.chunkSize + tagSize) : ℕ) := by
        push_cast
        ring
      rw [if_neg fun h => hend (by omega), hdist]
      rw [encUpTo_of_lt hpos (by omega)] at hupTo ⊢
      omega
  have hspan : consumedAt first stop.k + (stop.encStop - o.encAt stop.k f) =
      stop.encStop - o.encAt first.k first.i := by
    rw [encAt_eq_add stop.k f] at hbegin ⊢
    rw [consumedAt, hf, encAt_eq_add stop.k f, hstop]
    omega
  have hciphertext : slice (fetched first stop) (consumedAt first stop.k)
      (consumedAt first stop.k + (stop.encStop - o.encAt stop.k f)) =
      (o.partFrom stop.part f).take ((stop.i + 1 - f) * (o.chunkSize + tagSize)) := by
    have hpartEnd : stop.part.encUpTo o.chunkSize (stop.i + 1) ≤ stop.part.encLen o.chunkSize :=
      min_le_right _ _
    rw [hspan, consumedAt, hf, slice_fetched first stop hbegin le_rfl, hstop,
      encAt_eq_add, slice_ciphertext_part hpart hpartEnd, slice,
      drop_partFrom hwithin, take_eq_take_iff, encUpTo, Nat.sub_mul]
    omega
  have hplaintext : slice o.plaintext (o.plainAt stop.k f)
      (o.plainAt stop.k stop.i + (stop.part.chunk o.chunkSize stop.i).length) =
      (stop.part.data.drop (f * o.chunkSize)).take ((stop.i + 1 - f) * o.chunkSize) := by
    rw [plainAt_eq_add stop.k f, plainAt_eq_add stop.k stop.i,
      Nat.add_assoc, slice_plaintext_part hpart (by omega), slice,
      take_eq_take_iff, length_drop, Nat.sub_mul, Nat.succ_mul]
    have hmono' : f * o.chunkSize ≤ stop.i * o.chunkSize := Nat.mul_le_mul_right _ hfirst
    omega
  have hopens := decrypt_take (mem_of_getElem? hpart) (stop.i + 1 - f) f
  rw [← hciphertext, ← hplaintext] at hopens
  have hturn := decodeParts_succ first stop hd hpart hlen (by rw [hspan, length_fetched])
    (by rw [hf]; exact hopens) 0
  rw [hturn, decodeParts, Except.map, append_nil]

/-- **In step.**  Without a short chunk inside the range the loop gives its chunks. -/
theorem decodeParts_of_aligned (hd : d.decrypt = o.decrypt) (hbounds : start ≤ last)
    {count k : ℕ} (hcount : k + count = stop.k) (hle : first.k ≤ k)
    (haligned : ∀ k', k ≤ k' → k' < stop.k → ∀ part, o.parts[k']? = some part →
      o.chunkSize ∣ part.data.length) :
    decodeParts d o.manifest (planned first stop) (fetched first stop) (count + 1) k
        (consumedAt first k) =
      .ok (slice o.plaintext (o.plainAt k (chunkFrom first k))
        (o.plainAt stop.k stop.i + (stop.part.chunk o.chunkSize stop.i).length)) := by
  induction count generalizing k with
  | zero =>
    obtain rfl : k = stop.k := hcount
    refine decodeParts_last first stop hd hle ?_
    have hfirst := first.le_of_le stop hbounds
    rw [chunkFrom]
    split <;> omega
  | succ count ih =>
    have hlt : k < stop.k := by omega
    obtain ⟨part, hpart⟩ := stop.exists_part hlt.le
    have hnext : chunkFrom first (k + 1) = 0 := if_neg (by omega)
    have hlater := ih (by omega) (by omega)
      fun k' hk' => haligned k' (Nat.le_of_succ_le hk')
    rw [decodeParts_of_dvd first stop hd hle hlt hpart (haligned k le_rfl hlt part hpart),
      hlater, Except.map, slice_append_slice]
    · -- the part begins before it ends
      have hsize := plainAt_succ_zero hpart
      rw [hnext, hsize, plainAt_eq_add k]
      rcases chunkFrom_inside first hpart with hzero | hinside
      · rw [hzero]
        omega
      · have := (lt_chunkCount_iff o.laidOut.chunkSize_pos _).mp hinside
        omega
    · have := plainAt_le_of_le (o := o) (show k + 1 ≤ stop.k from hlt) stop.i
      rw [hnext]
      omega

/-- **Out of step.**  A short chunk inside the range makes the loop fail. -/
theorem decodeParts_of_short (hideal : o.Ideal) (hd : d.decrypt = o.decrypt) {count k : ℕ}
    (hcount : k + count = stop.k) (hle : first.k ≤ k) {k' : ℕ} {part' : PlainPart}
    (hafter : k ≤ k') (hbefore : k' < stop.k) (hpart' : o.parts[k']? = some part')
    (hshort : ¬o.chunkSize ∣ part'.data.length) :
    ∃ err, decodeParts d o.manifest (planned first stop) (fetched first stop) (count + 1) k
      (consumedAt first k) = .error err := by
  induction count generalizing k with
  | zero => omega
  | succ count ih =>
    have hlt : k < stop.k := by omega
    obtain ⟨part, hpart⟩ := stop.exists_part hlt.le
    by_cases hdvd : o.chunkSize ∣ part.data.length
    · have hne : k ≠ k' := by
        rintro rfl
        cases hpart.symm.trans hpart'
        exact hshort hdvd
      obtain ⟨err, herr⟩ := ih (k := k + 1) (by omega) (by omega) (by omega)
      rw [decodeParts_of_dvd first stop hd hle hlt hpart hdvd, herr]
      exact ⟨err, rfl⟩
    · exact decodeParts_of_not_dvd first stop hideal hd hle hlt hpart hdvd (count + 1)

end Loop

/-! ## Ranges that are decoded -/

/-- Some part that ends inside the range has a short last chunk. -/
def ShortEndInside (m : MultipartManifest) (start last : ℤ) : Prop :=
  ∃ k < m.parts.length, (m.parts[k]?.any fun part => ¬m.chunkSize ∣ part.plainLen) = true ∧
    start < m.plainOffset (k + 1) ∧ m.plainOffset (k + 1) ≤ last

instance (m : MultipartManifest) (start last : ℤ) : Decidable (ShortEndInside m start last) :=
  inferInstanceAs (Decidable (∃ k < m.parts.length, _ ∧ _))

/-- The range can be planned, and the planned ciphertext is decoded to `expected`. -/
def DecodesRange (hkdf : SaltedHkdf) (createMpuAeadCipher : Bytes → Except MpuError Aead)
    (format : MpuFormat) (m : MultipartManifest) (object : Bytes) (pStart pEnd : ℤ)
    (expected : Bytes) : Prop :=
  ∃ encRange, m.encRangeForPlaintextRange pStart pEnd = .ok encRange ∧
    decodeFor hkdf createMpuAeadCipher format
      (slice object encRange.encStart.toNat (encRange.encEnd + 1).toNat) m encRange pStart pEnd =
        .ok expected

section Ranges

variable {o : StoredObject} {start last : ℕ}

/-- A short end inside the range, by the chunks of its ends. -/
theorem shortEndInside_iff (first : o.ByteAt start) (stop : o.ByteAt last) :
    ShortEndInside o.manifest start last ↔
      ∃ k part, first.k ≤ k ∧ k < stop.k ∧ o.parts[k]? = some part ∧
        ¬o.chunkSize ∣ part.data.length := by
  constructor
  · rintro ⟨k, -, hshort, hafter, hbefore⟩
    rw [first.lt_plainOffset_iff] at hafter
    rw [stop.plainOffset_le_iff] at hbefore
    obtain ⟨part, hpart⟩ := stop.exists_part (Nat.le_of_succ_le hbefore)
    rw [getElem?_record hpart, o.laidOut.chunkSize_eq] at hshort
    exact ⟨k, part, Nat.le_of_lt_succ hafter, hbefore, hpart,
      by simpa [Int.natCast_dvd_natCast] using hshort⟩
  · rintro ⟨k, part, hafter, hbefore, hpart, hshort⟩
    obtain ⟨hk, -⟩ := List.getElem?_eq_some_iff.mp hpart
    refine ⟨k, ?_, ?_, (first.lt_plainOffset_iff (k + 1)).mpr (Nat.lt_succ_of_le hafter),
      (stop.plainOffset_le_iff (k + 1)).mpr hbefore⟩
    · rwa [o.laidOut.parts_eq, length_map]
    · rw [getElem?_record hpart, o.laidOut.chunkSize_eq]
      simpa [Int.natCast_dvd_natCast] using hshort

variable (hle : start ≤ last) (first : o.ByteAt start) (stop : o.ByteAt last)

include hle first stop

/-- What decoding a planned range comes to. -/
theorem decodesRange_iff_decodeRange (expected : Bytes) :
    DecodesRange o.hkdf o.createMpuAeadCipher o.format o.manifest o.ciphertext start last
        expected ↔
      decodeRange (rangeDecoder o.hkdf o.createMpuAeadCipher o.format) o.manifest
        (planned first stop) (fetched first stop) start last = .ok expected := by
  have hplan : o.manifest.encRangeForPlaintextRange start last = .ok (planned first stop) :=
    first.encRangeForPlaintextRange_eq stop hle
  have hfetched : slice o.ciphertext (planned first stop).encStart.toNat
      ((planned first stop).encEnd + 1).toNat = fetched first stop := by
    rw [planned, Int.sub_add_cancel, Int.toNat_natCast, Int.toNat_natCast, fetched]
  constructor
  · rintro ⟨encRange, hrange, hdecode⟩
    cases hplan.symm.trans hrange
    rwa [hfetched, decodeFor_eq] at hdecode
  · intro hdecode
    refine ⟨planned first stop, hplan, ?_⟩
    rwa [hfetched, decodeFor_eq]

theorem decodesRange_of_not_shortEndInside (hnone : ¬ShortEndInside o.manifest start last) :
    DecodesRange o.hkdf o.createMpuAeadCipher o.format o.manifest o.ciphertext start last
      (slice o.plaintext start (last + 1)) := by
  have hd := decrypt_rangeDecoder o.hkdf o.createMpuAeadCipher o.format
  have horder := first.le_of_le stop hle
  have hzero : consumedAt first first.k = 0 := by
    rw [consumedAt, chunkFrom, if_pos rfl, Nat.sub_self]
  have hfirst : chunkFrom first first.k = first.i := if_pos rfl
  have hparts := decodeParts_of_aligned first stop hd hle
    (show first.k + (stop.k - first.k) = stop.k by omega) le_rfl fun k hafter hbefore part hpart =>
      by_contra fun hshort => hnone ((shortEndInside_iff first stop).mpr
        ⟨k, part, hafter, hbefore, hpart, hshort⟩)
  rw [hzero, hfirst, Nat.cast_zero] at hparts
  obtain ⟨hlength, -⟩ := List.getElem?_eq_some_iff.mp first.chunkAt.getElem?_eq
  have hbase := o.plainOffset_add_eq first.k first.i
  have hend : (o.plainAt stop.k stop.i + (stop.part.chunk o.chunkSize stop.i).length) ≤
      o.plaintext.length := stop.plainStop_le
  have hbegin := first.plainAt_le
  have hlast := stop.offset_lt
  rw [decodesRange_iff_decodeRange hle first stop, decodeRange,
    planned_count first stop (by omega),
    show (planned first stop).partStartIdx = first.k from rfl, hparts,
    show (planned first stop).chunkStart = first.i from rfl]
  simp only [hbase, length_slice]
  rw [if_neg, if_neg]
  · have htrim : slice (slice o.plaintext (o.plainAt first.k first.i)
        (o.plainAt stop.k stop.i + (stop.part.chunk o.chunkSize stop.i).length))
        (start - o.plainAt first.k first.i) (last + 1 - o.plainAt first.k first.i) =
        slice o.plaintext start (last + 1) := slice_slice hbegin hlast
    rw [← htrim]
    congr 2 <;> omega
  · omega
  · rw [o.laidOut.parts_eq, length_map]
    omega

theorem not_shortEndInside_of_decodesRange (hideal : o.Ideal) {expected : Bytes}
    (hdecodes : DecodesRange o.hkdf o.createMpuAeadCipher o.format o.manifest o.ciphertext start
      last expected) : ¬ShortEndInside o.manifest start last := by
  intro hshort
  obtain ⟨k, part, hafter, hbefore, hpart, hdvd⟩ := (shortEndInside_iff first stop).mp hshort
  have hzero : consumedAt first first.k = 0 := by
    rw [consumedAt, chunkFrom, if_pos rfl, Nat.sub_self]
  obtain ⟨err, herr⟩ := decodeParts_of_short first stop hideal
    (decrypt_rangeDecoder o.hkdf o.createMpuAeadCipher o.format)
    (show first.k + (stop.k - first.k) = stop.k by omega) le_rfl hafter hbefore hpart hdvd
  rw [hzero, Nat.cast_zero] at herr
  rw [decodesRange_iff_decodeRange hle first stop, decodeRange,
    planned_count first stop (by omega),
    show (planned first stop).partStartIdx = first.k from rfl, herr] at hdecodes
  cases hdecodes

end Ranges

/-- **Decoding a copied range.**  The decoders of both versions give the bytes of the range
unless a part that ends inside it has a short last chunk; then, with an AEAD that opens
nothing but the chunks of the object, they fail.  Of version 1 it has to be assumed that the
nonces tell the chunks apart. -/
theorem decodesRange_iff {hkdf : SaltedHkdf}
    {createMpuAeadCipher : Bytes → Except MpuError Aead} {aead : Aead} {format : MpuFormat}
    (hformat : format.Valid) (hcipher : createMpuAeadCipher format.dek = .ok aead)
    {m : MultipartManifest} (hvalid : m.validateLayout = .ok ()) {parts : List PlainPart}
    (hparts : List.Forall₂ MpuPartRecord.IsOf m.parts parts) {ciphertexts : List Bytes}
    (hwritten : List.Forall₂ (WrittenAs hkdf createMpuAeadCipher format m.chunkSize) parts
      ciphertexts)
    (hseals : SealsParts hkdf aead format m.chunkSize.toNat parts) {start last : ℕ}
    (hle : start ≤ last) (hlast : (last : ℤ) < m.totalPlainSize) :
    (¬ShortEndInside m start last →
      DecodesRange hkdf createMpuAeadCipher format m ciphertexts.flatten start last
        (slice (partsPlaintext parts) start (last + 1))) ∧
    (Unforged hkdf aead format m.chunkSize.toNat parts →
      (format.bound = false → format.Separates hkdf) →
      (DecodesRange hkdf createMpuAeadCipher format m ciphertexts.flatten start last
        (slice (partsPlaintext parts) start (last + 1)) ↔ ¬ShortEndInside m start last)) := by
  obtain ⟨chunkSize, hlaid⟩ := MultipartManifest.laidOut_of_validateLayout hvalid hparts
    (fun hnone => by omega)
  rw [hlaid.chunkSize_eq, Int.toNat_natCast] at hseals ⊢
  let o : StoredObject := ⟨hkdf, createMpuAeadCipher, aead, format, m, chunkSize, parts, hformat,
    hcipher, hlaid, hseals⟩
  rw [hlaid.total_eq, Nat.cast_lt] at hlast
  obtain ⟨first⟩ := exists_byteAt (o := o) (hle.trans_lt hlast)
  obtain ⟨stop⟩ := exists_byteAt (o := o) hlast
  rw [partsCiphertext_of_written hformat hcipher hlaid hwritten]
  have hdecodes : ¬ShortEndInside m start last →
      DecodesRange hkdf createMpuAeadCipher format m o.ciphertext start last
        (slice (partsPlaintext parts) start (last + 1)) :=
    decodesRange_of_not_shortEndInside hle first stop
  refine ⟨hdecodes, fun hunforged hseparates => ⟨?_, hdecodes⟩⟩
  refine not_shortEndInside_of_decodesRange hle first stop ⟨hunforged, ?_⟩
  rcases hbound : format.bound with - | -
  · exact hseparates hbound
  · exact MpuFormat.separates_of_bound hkdf hformat hbound

/-! ## An object with a short chunk -/

def sample : StoredObject :=
  .sample 2 [⟨1, [7, 8]⟩, ⟨2, []⟩, ⟨3, [9]⟩, ⟨4, [10]⟩] (by decide) (by decide) (by decide)

/-- A range across a part of full chunks and an empty one, up to a short chunk. -/
theorem decodesRange_up_to_short :
    DecodesRange sample.hkdf sample.createMpuAeadCipher sample.format sample.manifest
      sample.ciphertexts.flatten (1 : ℕ) (2 : ℕ) [8, 9] :=
  ((decodesRange_iff sample.format_valid sample.cipher_eq sample.laidOut.validateLayout_eq
    sample.isOf sample.written sample.seals (by decide) (by decide)).2
    (ideal_sample _ _ _).unforged fun hunbound => absurd hunbound (by decide)).mpr
    (by decide)

/-- A range across the short chunk. -/
theorem not_decodesRange_across_short :
    sample.manifest.validateLayout = .ok () ∧
      List.Forall₂ MpuPartRecord.IsOf sample.manifest.parts sample.parts ∧
      List.Forall₂ (WrittenAs sample.hkdf sample.createMpuAeadCipher sample.format
        sample.manifest.chunkSize) sample.parts sample.ciphertexts ∧
      ¬DecodesRange sample.hkdf sample.createMpuAeadCipher sample.format sample.manifest
        sample.ciphertexts.flatten (2 : ℕ) (3 : ℕ) (slice (partsPlaintext sample.parts) 2 4) := by
  refine ⟨sample.laidOut.validateLayout_eq, sample.isOf, sample.written, ?_⟩
  intro hdecodes
  obtain ⟨first⟩ := @StoredObject.exists_byteAt sample 2 (by decide)
  obtain ⟨stop⟩ := @StoredObject.exists_byteAt sample 3 (by decide)
  exact not_shortEndInside_of_decodesRange (by decide) first stop
    (ideal_sample _ _ _) hdecodes (by decide)

end S3EncryptionGateway.Api.CopyRange
