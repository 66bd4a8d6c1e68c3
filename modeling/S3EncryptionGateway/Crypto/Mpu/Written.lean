import S3EncryptionGateway.Library.Slice
import S3EncryptionGateway.Crypto.Mpu.RoundTrip

/-!
# Objects that were written part by part

A ranged reader does not see the encrypters; it is given a manifest and bytes.
`WrittenAs` says where those bytes come from: each part was drained from an encrypter
created with the manifest's chunk size.  `partsCiphertext_of_written` is the only place
where the encrypters are looked at; the readers are then about `partsCiphertext`.

## An ideal AEAD

That a reader fails, rather than delivers something else, rests on the AEAD:
`Unforged` says that nothing opens but the chunks that were sealed for the object.
The nonce and the associated data of a chunk belong to no other one: the
associated data of the current version names part and chunk (`separates_of_bound`); of
version 1 this has to be assumed of the nonces.

## Offsets

`plainAt` and `encAt` translate a position in the object, given as part and chunk, to
offsets in the plaintext and in the ciphertext; what lies between two of them is read off
from the part (`slice_plaintext_part`, `slice_ciphertext_part`).
-/

namespace S3EncryptionGateway.Crypto

open Encoding Streams List

/-! ## What was written -/

/-- The encrypter of the version the format is of. -/
def newPartEncryptReader (createMpuAeadCipher : Bytes → Except MpuError Aead) (format : MpuFormat)
    (body : Script UInt8 ℕ) (partNumber chunkSize plainLen : ℤ) :
    Except MpuError (MpuEncryptReader × ℤ) :=
  if format.bound then
    newMpuPartEncryptReaderV2 createMpuAeadCipher format body partNumber chunkSize plainLen
  else newMpuPartEncryptReaderV1 createMpuAeadCipher format body partNumber chunkSize plainLen

/-- Some caller read `ciphertext` to the end from an encrypter of the part. -/
def WrittenAs (hkdf : SaltedHkdf) (createMpuAeadCipher : Bytes → Except MpuError Aead)
    (format : MpuFormat) (chunkSize : ℤ) (part : PlainPart) (ciphertext : Bytes) : Prop :=
  ∃ body r encLen sizes fuel r', Script.Clean body ∧ Script.bytes body = part.data ∧
    newPartEncryptReader createMpuAeadCipher format body part.number chunkSize part.data.length =
      .ok (r, encLen) ∧
    drain (MpuEncryptReader.read hkdf) sizes fuel r = (ciphertext, some .eof, r')

variable {parts : List PlainPart}

section Written

variable {hkdf : SaltedHkdf} {createMpuAeadCipher : Bytes → Except MpuError Aead} {aead : Aead}
  {format : MpuFormat} {chunkSize : ℕ}

theorem newPartEncryptReader_eq (hformat : format.Valid) (body : Script UInt8 ℕ)
    (partNumber size plainLen : ℤ) :
    newPartEncryptReader createMpuAeadCipher format body partNumber size plainLen =
      newMpuPartEncryptReader createMpuAeadCipher format body partNumber size plainLen := by
  rw [newPartEncryptReader]
  rcases hbound : format.bound with - | -
  · have hsame : { format with bound := false } = format := by rw [← hbound]
    rw [if_neg (by simp), newMpuPartEncryptReaderV1, hsame]
  · have hsame : { format with bound := true } = format := by rw [← hbound]
    rw [if_pos rfl, newMpuPartEncryptReaderV2, hformat.validate_eq, hsame]
    exact if_neg (hformat.bindingId_ne hbound)

section

variable (hformat : format.Valid) (hcipher : createMpuAeadCipher format.dek = .ok aead)

include hformat hcipher

theorem partCiphertext_of_written (hpos : 0 < chunkSize) (hmax : chunkSize ≤ maxChunkSize)
    {part : PlainPart} (hone : 1 ≤ part.number) (hlast : part.number ≤ maxPartNumber)
    {ciphertext : Bytes}
    (hwritten : WrittenAs hkdf createMpuAeadCipher format chunkSize part ciphertext) :
    ciphertext = partCiphertext hkdf aead format chunkSize part 0 := by
  obtain ⟨body, r, encLen, sizes, fuel, r', hclean, hbody, hnew, hdrain⟩ := hwritten
  rw [newPartEncryptReader_eq hformat,
    newMpuPartEncryptReader_eq_ok_iff hformat hcipher hpos hmax hone hlast] at hnew
  obtain ⟨hcount, -, hresult⟩ := hnew
  cases hresult
  -- the drain that ended and the one that is known to end have the same outcome
  obtain ⟨hgot, -⟩ := (MpuEncryptReader.delivers_read hkdf).drain_ended
    ⟨rfl, fun h => by cases h⟩ hdrain
  obtain ⟨fuel₁, r₁, hdrain₁⟩ := MpuEncryptReader.drain_start hkdf aead hformat hpos
    hcount hclean hbody keepsReading_one
  obtain ⟨hgot₁, -⟩ := (MpuEncryptReader.delivers_read hkdf).drain_ended
    ⟨rfl, fun h => by cases h⟩ hdrain₁
  rw [hgot, ← hgot₁]

theorem partsCiphertext_of_written {m : MultipartManifest} (hlaid : m.LaidOut chunkSize parts)
    {ciphertexts : List Bytes}
    (hwritten : List.Forall₂ (WrittenAs hkdf createMpuAeadCipher format m.chunkSize) parts
      ciphertexts) : ciphertexts.flatten = partsCiphertext hkdf aead format chunkSize parts := by
  have hmem : ∀ part ∈ parts, 1 ≤ part.number ∧ part.number ≤ maxPartNumber := by
    intro part hpart
    obtain ⟨hone, hlast, -⟩ := hlaid.fits.of_mem hpart
    exact ⟨hone, hlast⟩
  rw [hlaid.chunkSize_eq] at hwritten
  have hpos := hlaid.chunkSize_pos
  have hmax := hlaid.chunkSize_le
  clear hlaid
  induction hwritten with
  | nil => rfl
  | @cons part ciphertext parts ciphertexts hpart _ ih =>
    obtain ⟨hone, hlast⟩ := hmem part (mem_cons_self ..)
    rw [flatten_cons, ih fun p hp => hmem p (mem_cons_of_mem _ hp),
      partCiphertext_of_written hformat hcipher hpos hmax hone hlast hpart]
    rfl

/-- Parts that fit can be written. -/
theorem writtenAs_partCiphertext {m : MultipartManifest} (hlaid : m.LaidOut chunkSize parts)
    {part : PlainPart} (hpart : part ∈ parts) :
    WrittenAs hkdf createMpuAeadCipher format m.chunkSize part
      (partCiphertext hkdf aead format chunkSize part 0) := by
  obtain ⟨hone, hlast, hcount⟩ := hlaid.fits.of_mem hpart
  have hclean : Script.Clean [(⟨part.data, none⟩ : ReadResult UInt8 ℕ)] :=
    Script.clean_singleton _
  have hbody : Script.bytes [(⟨part.data, none⟩ : ReadResult UInt8 ℕ)] = part.data := append_nil _
  obtain ⟨fuel, r', hdrain⟩ := MpuEncryptReader.drain_start hkdf aead hformat
    hlaid.chunkSize_pos hcount hclean hbody keepsReading_one
  refine ⟨_, _, (part.encLen chunkSize : ℤ), _, fuel, r', hclean, hbody, ?_, hdrain⟩
  rw [newPartEncryptReader_eq hformat, hlaid.chunkSize_eq,
    newMpuPartEncryptReader_eq_ok_iff hformat hcipher hlaid.chunkSize_pos hlaid.chunkSize_le hone
      hlast]
  exact ⟨hcount, hlaid.fits.encLen_le hpart, rfl⟩

end

end Written

/-! ## An ideal AEAD -/

/-- Nothing opens but the chunks of the parts, each under its own nonce and associated
data. -/
def Unforged (hkdf : SaltedHkdf) (aead : Aead) (format : MpuFormat) (chunkSize : ℕ)
    (parts : List PlainPart) : Prop :=
  ∀ nonce ciphertext aad plaintext, aead.opened nonce ciphertext aad = some plaintext →
    ∃ part ∈ parts, ∃ i, i < part.chunkCount chunkSize ∧ nonce = format.iv hkdf part.number i ∧
      aad = format.chunkAad part.number i ∧
      ciphertext = sealChunk hkdf aead format part.number i (part.chunk chunkSize i)

/-- Nonce and associated data tell the chunks of an upload apart. -/
def MpuFormat.Separates (hkdf : SaltedHkdf) (format : MpuFormat) : Prop :=
  ∀ part i part' i', part ≤ maxPartNumber → i ≤ maxInt32 → part' ≤ maxPartNumber → i' ≤ maxInt32 →
    format.iv hkdf part i = format.iv hkdf part' i' →
    format.chunkAad part i = format.chunkAad part' i' → part = part' ∧ i = i'

/-- Associated data of the current version has the numbers of part and chunk. -/
theorem MpuFormat.separates_of_bound (hkdf : SaltedHkdf) {format : MpuFormat}
    (hformat : format.Valid) (hbound : format.bound = true) : format.Separates hkdf := by
  intro part i part' i' hpart hi hpart' hi' _ haad
  rw [chunkAad, chunkAad, if_pos hbound, if_pos hbound] at haad
  simp only [maxPartNumber, maxInt32] at hpart hi hpart' hi'
  obtain ⟨-, -, -, hfields⟩ := objectAad_inj hformat.object_valid hformat.object_valid
    hformat.bindingId_length hformat.bindingId_length (by simp) (by simp) (by simp; omega)
    (by simp; omega) haad
  simpa using hfields

/-- What opens under the nonce and the associated data of a chunk is that chunk. -/
theorem Unforged.of_opened {hkdf : SaltedHkdf} {aead : Aead} {format : MpuFormat} {chunkSize : ℕ}
    (hunforged : Unforged hkdf aead format chunkSize parts) (hseparates : format.Separates hkdf)
    (hfits : PartsFit chunkSize 0 0 parts) {part i : ℕ} (hpart : part ≤ maxPartNumber)
    (hi : i ≤ maxInt32) {ciphertext plaintext : Bytes}
    (hopened : aead.opened (format.iv hkdf part i) ciphertext (format.chunkAad part i) =
      some plaintext) :
    ∃ found ∈ parts, found.number = part ∧ i < found.chunkCount chunkSize ∧
      ciphertext = sealChunk hkdf aead format part i (found.chunk chunkSize i) := by
  obtain ⟨found, hfound, j, hj, hnonce, haad, hciphertext⟩ := hunforged _ _ _ _ hopened
  obtain ⟨-, hmax, hcount⟩ := hfits.of_mem hfound
  obtain ⟨rfl, rfl⟩ := hseparates part i found.number j hpart hi hmax (hj.le.trans hcount) hnonce
    haad
  exact ⟨found, hfound, rfl, hj, hciphertext⟩

/-! ## Lengths -/

theorem length_partsPlaintext (parts : List PlainPart) :
    (partsPlaintext parts).length = plainSize parts := by
  rw [partsPlaintext, length_flatMap]
  rfl

theorem length_partsCiphertext {hkdf : SaltedHkdf} {aead : Aead} {format : MpuFormat}
    {chunkSize : ℕ} (hlength : ∀ nonce plaintext aad,
      (aead.sealed nonce plaintext aad).length = plaintext.length + tagSize)
    (hpos : 0 < chunkSize) (parts : List PlainPart) :
    (partsCiphertext hkdf aead format chunkSize parts).length = encSize chunkSize parts := by
  induction parts with
  | nil => rfl
  | cons part parts ih =>
    rw [partsCiphertext, flatMap_cons, length_append, encSize_cons, ← ih,
      length_partCiphertext hlength hpos]
    rfl

/-! ## Stored objects -/

/-- A multipart object as its readers find it. -/
structure StoredObject where
  hkdf : SaltedHkdf
  createMpuAeadCipher : Bytes → Except MpuError Aead
  aead : Aead
  format : MpuFormat
  manifest : MultipartManifest
  chunkSize : ℕ
  parts : List PlainPart
  format_valid : format.Valid
  cipher_eq : createMpuAeadCipher format.dek = .ok aead
  laidOut : manifest.LaidOut chunkSize parts
  seals : SealsParts hkdf aead format chunkSize parts

open PlainPart

open Slices

namespace StoredObject

variable (o : StoredObject)

def ciphertext : Bytes := partsCiphertext o.hkdf o.aead o.format o.chunkSize o.parts

def plaintext : Bytes := partsPlaintext o.parts

/-- Decrypt consecutive chunks of a part of the object. -/
def decrypt (ciphertext : Bytes) (partNumber chunkSize startChunkIdx : ℤ) :
    Except MpuError Bytes :=
  decryptPartRange o.hkdf o.createMpuAeadCipher o.format ciphertext partNumber chunkSize
    startChunkIdx

def ciphertexts : List Bytes :=
  o.parts.map fun part => partCiphertext o.hkdf o.aead o.format o.chunkSize part 0

theorem isOf : List.Forall₂ MpuPartRecord.IsOf o.manifest.parts o.parts := by
  rw [o.laidOut.parts_eq]
  exact forall₂_map_left_iff.mpr (forall₂_same.mpr fun _ _ => ⟨rfl, rfl⟩)

theorem written :
    List.Forall₂ (WrittenAs o.hkdf o.createMpuAeadCipher o.format o.manifest.chunkSize) o.parts
      o.ciphertexts :=
  List.forall₂_map_right_iff.mpr (List.forall₂_same.mpr fun _ hpart =>
    writtenAs_partCiphertext o.format_valid o.cipher_eq o.laidOut hpart)

/-- Nothing opens but the chunks of the object. -/
structure Ideal : Prop where
  unforged : Unforged o.hkdf o.aead o.format o.chunkSize o.parts
  separates : o.format.Separates o.hkdf

variable {o} {before after : List PlainPart} {part : PlainPart}

def sealedChunk (o : StoredObject) (part : PlainPart) (i : ℕ) : Bytes :=
  sealChunk o.hkdf o.aead o.format part.number i (part.chunk o.chunkSize i)

theorem length_sealedChunk (part : PlainPart) (i : ℕ) :
    (o.sealedChunk part i).length = (part.chunk o.chunkSize i).length + tagSize :=
  length_sealChunk o.seals.length_sealed _ _ _

theorem opened_sealedChunk (hpart : part ∈ o.parts) {i : ℕ}
    (hlt : i < part.chunkCount o.chunkSize) :
    o.aead.opened (o.format.iv o.hkdf part.number i) (o.sealedChunk part i)
      (o.format.chunkAad part.number i) = some (part.chunk o.chunkSize i) :=
  o.seals.opened_chunk part hpart i hlt

/-- The decrypter cuts what it is given into pieces of a full chunk's length. -/
theorem decrypt_eq (hpart : part ∈ o.parts) (ciphertext : Bytes) (i : ℕ) :
    o.decrypt ciphertext part.number o.chunkSize i =
      openChunks o.hkdf o.aead o.format part.number i
        (Script.chunksOf (o.chunkSize + tagSize) ciphertext) := by
  obtain ⟨hone, hmax, -⟩ := o.laidOut.fits.of_mem hpart
  exact decryptPartRange_eq o.format_valid o.cipher_eq o.laidOut.chunkSize_pos
    o.laidOut.chunkSize_le hone hmax ciphertext i

/-- With an ideal AEAD only the chunk that belongs there opens. -/
theorem decrypt_of_ne (hideal : o.Ideal) (hpart : part ∈ o.parts) {i : ℕ} (hi : i < maxInt32)
    {ciphertext : Bytes} (hne : ciphertext ≠ [])
    (hother : ¬(i < part.chunkCount o.chunkSize ∧
      ciphertext.take (o.chunkSize + tagSize) = o.sealedChunk part i)) :
    o.decrypt ciphertext part.number o.chunkSize i =
      .error (.rangeAuthFailure i part.number) := by
  obtain ⟨-, hmax, -⟩ := o.laidOut.fits.of_mem hpart
  have hnone : o.aead.opened (o.format.iv o.hkdf part.number i)
      (ciphertext.take (o.chunkSize + tagSize)) (o.format.chunkAad part.number i) = none := by
    rcases hopened : o.aead.opened (o.format.iv o.hkdf part.number i)
      (ciphertext.take (o.chunkSize + tagSize)) (o.format.chunkAad part.number i) with - | plain
    · rfl
    obtain ⟨found, hfound, hnumber, hinside, hsealed⟩ :=
      hideal.unforged.of_opened hideal.separates o.laidOut.fits hmax hi.le hopened
    cases o.laidOut.fits.eq_of_number_eq hfound hpart hnumber
    exact absurd ⟨hinside, hsealed⟩ hother
  rw [decrypt_eq hpart, Script.chunksOf_of_ne_nil (by rw [tagSize]; omega) hne,
    openChunks, if_neg (by omega)]
  simp only [Int.toNat_natCast, o.format_valid.aad_eq, hnone]

/-! ## Chunks by their position -/

/-- Part `k` of the object is `part`, and it has a chunk `i`. -/
structure ChunkAt (o : StoredObject) (k i : ℕ) (part : PlainPart) : Prop where
  getElem?_eq : o.parts[k]? = some part
  inside : i < part.chunkCount o.chunkSize

/-- Where chunk `i` of part `k` begins in the plaintext. -/
def plainAt (o : StoredObject) (k i : ℕ) : ℕ := plainSize (o.parts.take k) + i * o.chunkSize

/-- Where chunk `i` of part `k` begins in the ciphertext. -/
def encAt (o : StoredObject) (k i : ℕ) : ℕ :=
  encSize o.chunkSize (o.parts.take k) + i * (o.chunkSize + tagSize)

variable {k i : ℕ}

section

variable (hpart : o.parts[k]? = some part)

include hpart

theorem eq_take_append : o.parts = o.parts.take k ++ part :: o.parts.drop (k + 1) := by
  obtain ⟨hlt, hget⟩ := List.getElem?_eq_some_iff.mp hpart
  rw [← hget, ← drop_eq_getElem_cons hlt, take_append_drop]

theorem take_succ_eq : o.parts.take (k + 1) = o.parts.take k ++ [part] := by
  rw [take_add_one, hpart]
  rfl

theorem length_take_parts : (o.parts.take k).length = k := by
  obtain ⟨hlt, -⟩ := List.getElem?_eq_some_iff.mp hpart
  rw [length_take, min_eq_left hlt.le]

theorem getElem?_record : o.manifest.parts[k]? = some (part.record o.chunkSize) := by
  rw [o.laidOut.parts_eq, List.getElem?_map, hpart]
  rfl

end

theorem plainAt_zero (k : ℕ) : o.plainAt k 0 = plainSize (o.parts.take k) := by
  rw [plainAt, Nat.zero_mul, Nat.add_zero]

theorem encAt_zero (k : ℕ) : o.encAt k 0 = encSize o.chunkSize (o.parts.take k) := by
  rw [encAt, Nat.zero_mul, Nat.add_zero]

/-- Where a chunk begins, as the readers compute it. -/
theorem plainOffset_add_eq (k i : ℕ) :
    o.manifest.plainOffset k + (i : ℤ) * o.manifest.chunkSize = o.plainAt k i := by
  rw [o.laidOut.plainOffset_eq, o.laidOut.chunkSize_eq, plainAt]
  push_cast
  rfl

theorem plainAt_eq_add (k i : ℕ) : o.plainAt k i = o.plainAt k 0 + i * o.chunkSize := by
  rw [plainAt_zero, plainAt]

theorem encAt_eq_add (k i : ℕ) :
    o.encAt k i = o.encAt k 0 + i * (o.chunkSize + tagSize) := by
  rw [encAt_zero, encAt]

theorem plainAt_succ_zero (hpart : o.parts[k]? = some part) :
    o.plainAt (k + 1) 0 = o.plainAt k 0 + part.data.length := by
  rw [plainAt_zero, plainAt_zero, take_succ_eq hpart, plainSize_append, plainSize_cons,
    plainSize_nil, Nat.add_zero]

theorem encAt_succ_zero (hpart : o.parts[k]? = some part) :
    o.encAt (k + 1) 0 = o.encAt k 0 + part.encLen o.chunkSize := by
  rw [encAt_zero, encAt_zero, take_succ_eq hpart, encSize_append, encSize_cons, encSize_nil,
    Nat.add_zero]

theorem take_eq_append_of_le {k' : ℕ} (hle : k ≤ k') :
    o.parts.take k' = o.parts.take k ++ (o.parts.take k').drop k := by
  conv_lhs => rw [← take_append_drop k (o.parts.take k')]
  rw [take_take, min_eq_left hle]

theorem plainAt_le_of_le {k' : ℕ} (hle : k ≤ k') (i : ℕ) : o.plainAt k 0 ≤ o.plainAt k' i := by
  rw [plainAt, plainAt, take_eq_append_of_le hle, plainSize_append]
  omega

theorem encAt_le_of_le {k' : ℕ} (hle : k ≤ k') (i : ℕ) : o.encAt k 0 ≤ o.encAt k' i := by
  rw [encAt, encAt, take_eq_append_of_le hle, encSize_append]
  omega

theorem plainAt_next (hnext : i + 1 < part.chunkCount o.chunkSize) :
    o.plainAt k (i + 1) = o.plainAt k i + (part.chunk o.chunkSize i).length := by
  rw [length_chunk_of_lt o.laidOut.chunkSize_pos hnext, plainAt, plainAt, Nat.add_mul]
  omega

theorem encAt_next (hnext : i + 1 < part.chunkCount o.chunkSize) :
    o.encAt k (i + 1) = o.encAt k i + (o.sealedChunk part i).length := by
  rw [length_sealedChunk, length_chunk_of_lt o.laidOut.chunkSize_pos hnext, encAt,
    encAt, Nat.add_mul]
  omega

/-! ## The rest of a part -/

/-- The ciphertext of a part from chunk `i` on. -/
def partFrom (o : StoredObject) (part : PlainPart) (i : ℕ) : Bytes :=
  partCiphertext o.hkdf o.aead o.format o.chunkSize part i

theorem partFrom_of_lt (hlt : i < part.chunkCount o.chunkSize) :
    o.partFrom part i = o.sealedChunk part i ++ o.partFrom part (i + 1) :=
  partCiphertext_of_lt o.laidOut.chunkSize_pos hlt

theorem partFrom_of_le (hle : part.chunkCount o.chunkSize ≤ i) : o.partFrom part i = [] :=
  partCiphertext_of_le o.laidOut.chunkSize_pos hle

theorem length_partFrom_zero (part : PlainPart) :
    (o.partFrom part 0).length = part.encLen o.chunkSize :=
  length_partCiphertext o.seals.length_sealed o.laidOut.chunkSize_pos

theorem drop_partFrom (hi : i = 0 ∨ i < part.chunkCount o.chunkSize) :
    (o.partFrom part 0).drop (i * (o.chunkSize + tagSize)) = o.partFrom part i := by
  rcases hi with rfl | hlt
  · rw [Nat.zero_mul, drop_zero]
  · exact drop_partCiphertext o.seals.length_sealed o.laidOut.chunkSize_pos hlt

theorem length_partFrom (hi : i = 0 ∨ i < part.chunkCount o.chunkSize) :
    i * (o.chunkSize + tagSize) + (o.partFrom part i).length = part.encLen o.chunkSize := by
  have hle : i * (o.chunkSize + tagSize) ≤ part.encLen o.chunkSize := by
    rcases hi with rfl | hlt
    · rw [Nat.zero_mul]
      exact Nat.zero_le _
    · rw [← encUpTo_of_lt o.laidOut.chunkSize_pos hlt]
      exact min_le_right _ _
  rw [← drop_partFrom hi, length_drop, length_partFrom_zero]
  omega

section

variable (hpart : o.parts[k]? = some part)

include hpart

theorem slice_ciphertext_part {a b : ℕ} (hle : b ≤ part.encLen o.chunkSize) :
    slice o.ciphertext (o.encAt k 0 + a) (o.encAt k 0 + b) =
      slice (o.partFrom part 0) a b := by
  have hsplit : o.ciphertext =
      partsCiphertext o.hkdf o.aead o.format o.chunkSize (o.parts.take k) ++
        (o.partFrom part 0 ++
          partsCiphertext o.hkdf o.aead o.format o.chunkSize (o.parts.drop (k + 1))) := by
    conv_lhs => rw [ciphertext, eq_take_append hpart, partsCiphertext, flatMap_append,
      flatMap_cons]
    rfl
  have hbefore : (partsCiphertext o.hkdf o.aead o.format o.chunkSize (o.parts.take k)).length =
      o.encAt k 0 := by
    rw [length_partsCiphertext o.seals.length_sealed o.laidOut.chunkSize_pos, encAt_zero]
  rw [hsplit, slice_append_right (by omega), hbefore, Nat.add_sub_cancel_left,
    Nat.add_sub_cancel_left, slice_append_left (by rwa [length_partFrom_zero])]

theorem slice_plaintext_part {a b : ℕ} (hle : b ≤ part.data.length) :
    slice o.plaintext (o.plainAt k 0 + a) (o.plainAt k 0 + b) =
      slice part.data a b := by
  have hsplit : o.plaintext = partsPlaintext (o.parts.take k) ++
      (part.data ++ partsPlaintext (o.parts.drop (k + 1))) := by
    conv_lhs => rw [plaintext, eq_take_append hpart, partsPlaintext, flatMap_append, flatMap_cons]
    rfl
  have hbefore : (partsPlaintext (o.parts.take k)).length = o.plainAt k 0 := by
    rw [length_partsPlaintext, plainAt_zero]
  rw [hsplit, slice_append_right (by omega), hbefore, Nat.add_sub_cancel_left,
    Nat.add_sub_cancel_left, slice_append_left hle]

/-- The rest of a part from chunk `i` on. -/
theorem slice_ciphertext_rest (hi : i = 0 ∨ i < part.chunkCount o.chunkSize) :
    slice o.ciphertext (o.encAt k i) (o.encAt (k + 1) 0) = o.partFrom part i := by
  rw [encAt_eq_add k i, encAt_succ_zero hpart, slice_ciphertext_part hpart le_rfl, slice,
    drop_partFrom hi, take_of_length_le]
  have hlen := length_partFrom (o := o) hi
  omega

theorem slice_plaintext_rest (i : ℕ) :
    slice o.plaintext (o.plainAt k i) (o.plainAt (k + 1) 0) =
      part.data.drop (i * o.chunkSize) := by
  rw [plainAt_eq_add k i, plainAt_succ_zero hpart, slice_plaintext_part hpart le_rfl,
    slice, take_of_length_le (length_drop ..).le]

end

/-! ## Single chunks -/

namespace ChunkAt

section

variable (hat : o.ChunkAt k i part)

include hat

theorem mem : part ∈ o.parts := List.mem_of_getElem? hat.getElem?_eq

theorem begins : i * o.chunkSize < part.data.length :=
  (lt_chunkCount_iff o.laidOut.chunkSize_pos i).mp hat.inside

theorem eq_part {part' : PlainPart} (hpart : o.parts[k]? = some part') : part' = part :=
  Option.some.inj (hpart.symm.trans hat.getElem?_eq)

theorem data_ne_nil : part.data ≠ [] := List.length_pos_iff.mp (Nat.zero_lt_of_lt hat.begins)

theorem length_rest :
    i * (o.chunkSize + tagSize) +
        ((o.sealedChunk part i).length + (o.partFrom part (i + 1)).length) =
      part.encLen o.chunkSize := by
  rw [← length_partFrom (.inr hat.inside), partFrom_of_lt hat.inside, length_append]

theorem slice_plaintext :
    slice o.plaintext (o.plainAt k i)
      (o.plainAt k i + (part.chunk o.chunkSize i).length) = part.chunk o.chunkSize i := by
  have hbegins := hat.begins
  have hlen := part.length_chunk o.chunkSize i
  rw [plainAt_eq_add, Nat.add_assoc, slice_plaintext_part hat.getElem?_eq (by omega),
    slice, Nat.add_sub_cancel_left, ← chunk_append_drop, take_left]

theorem slice_ciphertext :
    slice o.ciphertext (o.encAt k i)
      (o.encAt k i + (o.sealedChunk part i).length) = o.sealedChunk part i := by
  have hrest := hat.length_rest
  rw [encAt_eq_add, Nat.add_assoc, slice_ciphertext_part hat.getElem?_eq (by omega),
    slice, Nat.add_sub_cancel_left, drop_partFrom (.inr hat.inside),
    partFrom_of_lt hat.inside, take_left]

theorem plainAt_nextPart (hlast : i + 1 = part.chunkCount o.chunkSize) :
    o.plainAt (k + 1) 0 = o.plainAt k i + (part.chunk o.chunkSize i).length := by
  have hbegins := hat.begins
  rw [chunk_of_last o.laidOut.chunkSize_pos hlast, length_drop,
    plainAt_succ_zero hat.getElem?_eq, plainAt_eq_add k i]
  omega

theorem encAt_nextPart (hlast : i + 1 = part.chunkCount o.chunkSize) :
    o.encAt (k + 1) 0 = o.encAt k i + (o.sealedChunk part i).length := by
  have hrest := hat.length_rest
  rw [partFrom_of_le hlast.ge, length_nil] at hrest
  rw [encAt_succ_zero hat.getElem?_eq, encAt_eq_add k i]
  omega

/-- The ciphertext up to the end of a chunk, as the range planner counts it. -/
theorem encUpTo_eq :
    encSize o.chunkSize (o.parts.take k) + part.encUpTo o.chunkSize (i + 1) =
      o.encAt k i + (o.sealedChunk part i).length := by
  have hpos := o.laidOut.chunkSize_pos
  rcases Nat.lt_or_eq_of_le (Nat.succ_le_of_lt hat.inside) with hnext | hlast
  · rw [encUpTo_of_lt hpos hnext, ← encAt_next hnext]
    rfl
  · rw [← hat.encAt_nextPart hlast, encAt_succ_zero hat.getElem?_eq, encAt_zero,
      show i + 1 = part.chunkCount o.chunkSize from hlast, encUpTo_chunkCount hpos]

/-- A chunk ends inside its part. -/
theorem plainEnd_le : o.plainAt k i + (part.chunk o.chunkSize i).length ≤ o.plainAt (k + 1) 0 := by
  have hbegins := hat.begins
  have hlen := part.length_chunk o.chunkSize i
  rw [plainAt_succ_zero hat.getElem?_eq, plainAt_eq_add k i]
  omega

theorem encEnd_le_next : o.encAt k i + (o.sealedChunk part i).length ≤ o.encAt (k + 1) 0 := by
  have hrest := hat.length_rest
  rw [encAt_succ_zero hat.getElem?_eq, encAt_eq_add k i]
  omega

theorem encEnd_le : o.encAt k i + (o.sealedChunk part i).length ≤ o.ciphertext.length := by
  have hlen := congrArg List.length hat.slice_ciphertext
  have hpos : 0 < (o.sealedChunk part i).length := by
    rw [length_sealedChunk]
    exact Nat.add_pos_right _ (by decide)
  rw [length_slice] at hlen
  omega

end

variable {k' i' : ℕ} {part' : PlainPart}

section

variable (hat : o.ChunkAt k i part) (hat' : o.ChunkAt k' i' part') (hlt : k < k' ∨ k = k' ∧ i < i')

include hat hat' hlt

/-- A later chunk is in a later part, or the part goes on with a full chunk. -/
theorem later : k + 1 ≤ k' ∨ k = k' ∧ i + 1 ≤ i' ∧ i + 1 < part.chunkCount o.chunkSize := by
  refine hlt.imp_right ?_
  rintro ⟨rfl, hless⟩
  rw [hat'.eq_part hat.getElem?_eq]
  exact ⟨rfl, hless, lt_of_le_of_lt hless hat'.inside⟩

/-- Chunks end before later ones begin. -/
theorem plainEnd_le_of_lt :
    o.plainAt k i + (part.chunk o.chunkSize i).length ≤ o.plainAt k' i' := by
  rcases hat.later hat' hlt with hpart | ⟨rfl, hle, hnext⟩
  · exact hat.plainEnd_le.trans (plainAt_le_of_le hpart i')
  · rw [← plainAt_next hnext]
    exact Nat.add_le_add_left (Nat.mul_le_mul_right _ hle) _

theorem encEnd_le_of_lt : o.encAt k i + (o.sealedChunk part i).length ≤ o.encAt k' i' := by
  rcases hat.later hat' hlt with hpart | ⟨rfl, hle, hnext⟩
  · exact hat.encEnd_le_next.trans (encAt_le_of_le hpart i')
  · rw [← encAt_next hnext]
    exact Nat.add_le_add_left (Nat.mul_le_mul_right _ hle) _

end

end ChunkAt

/-! ## Decrypting chunks in a row -/

/-- A chunk is a full one, or nothing follows it. -/
theorem full_or_last (hlt : i < part.chunkCount o.chunkSize) :
    (part.chunk o.chunkSize i).length = o.chunkSize ∨
      o.partFrom part (i + 1) = [] ∧ part.data.drop ((i + 1) * o.chunkSize) = [] := by
  have hpos := o.laidOut.chunkSize_pos
  rcases Nat.lt_or_eq_of_le (Nat.succ_le_of_lt hlt) with hnext | hlast
  · exact .inl (length_chunk_of_lt hpos hnext)
  · exact .inr ⟨partFrom_of_le hlast.ge, drop_eq_nil_of_le (not_lt.mp
      ((lt_chunkCount_iff hpos (i + 1)).not.mp (not_lt.mpr hlast.ge)))⟩

theorem take_partFrom (hlt : i < part.chunkCount o.chunkSize) (count : ℕ) :
    (o.partFrom part i).take ((count + 1) * (o.chunkSize + tagSize)) =
      o.sealedChunk part i ++
        (o.partFrom part (i + 1)).take (count * (o.chunkSize + tagSize)) := by
  have hlen := o.length_sealedChunk part i
  have hchunk := part.length_chunk o.chunkSize i
  rw [partFrom_of_lt hlt, Script.take_succ_mul_append (by omega)
    ((full_or_last hlt).imp (fun hfull => by rw [hlen, hfull]) And.left)]

theorem decrypt_take (hpart : part ∈ o.parts) (count i : ℕ) :
    o.decrypt ((o.partFrom part i).take (count * (o.chunkSize + tagSize))) part.number
        o.chunkSize i =
      .ok ((part.data.drop (i * o.chunkSize)).take (count * o.chunkSize)) := by
  have hpos := o.laidOut.chunkSize_pos
  have hwidth : 0 < o.chunkSize + tagSize := by omega
  obtain ⟨-, -, hcount⟩ := o.laidOut.fits.of_mem hpart
  rw [decrypt_eq hpart]
  induction count generalizing i with
  | zero => simp [openChunks]
  | succ count ih =>
    rcases le_or_gt (part.chunkCount o.chunkSize) i with hend | hlt
    · have hnone : part.data.drop (i * o.chunkSize) = [] :=
        drop_eq_nil_of_le (not_lt.mp
          ((lt_chunkCount_iff hpos i).not.mp (not_lt.mpr hend)))
      rw [partFrom_of_le hend, hnone, take_nil, take_nil, Script.chunksOf_nil, openChunks]
    · have hlen := o.length_sealedChunk part i
      have hchunk := part.length_chunk o.chunkSize i
      have hne : o.sealedChunk part i ≠ [] := by
        rw [← length_pos_iff, hlen]
        exact Nat.add_pos_right _ (by decide)
      have hpieces : (o.sealedChunk part i).length = o.chunkSize + tagSize ∨
          (o.partFrom part (i + 1)).take (count * (o.chunkSize + tagSize)) = [] :=
        (full_or_last hlt).imp (fun hfull => by rw [hlen, hfull])
          fun hlast => by rw [hlast.1, take_nil]
      rw [take_partFrom hlt, Script.chunksOf_append hwidth hne (by omega) hpieces,
        openChunks_of_some o.format_valid (by omega) _ (opened_sealedChunk hpart hlt),
        ih (i + 1), Except.map, ← chunk_append_drop o.chunkSize part i,
        Script.take_succ_mul_append (by omega) ((full_or_last hlt).imp_right And.right)]

theorem decrypt_partFrom (hpart : part ∈ o.parts) (i : ℕ) :
    o.decrypt (o.partFrom part i) part.number o.chunkSize i =
      .ok (part.data.drop (i * o.chunkSize)) := by
  have hpos := o.laidOut.chunkSize_pos
  have hlen : (o.partFrom part i).length ≤ part.encLen o.chunkSize := by
    rcases lt_or_ge i (part.chunkCount o.chunkSize) with hlt | hend
    · have := length_partFrom (o := o) (.inr hlt)
      omega
    · rw [partFrom_of_le hend]
      exact Nat.zero_le _
  have hupTo := @PlainPart.encUpTo_chunkCount part _ hpos
  have hend := @PlainPart.length_le_chunkCount_mul part _ hpos
  have hall := o.decrypt_take hpart (part.chunkCount o.chunkSize) i
  rw [encUpTo] at hupTo
  rw [take_of_length_le (show (o.partFrom part i).length ≤ _ by omega),
    take_of_length_le (by rw [length_drop]; omega)] at hall
  exact hall

/-- With an ideal AEAD, bytes behind a part whose last chunk is short spoil it. -/
theorem decrypt_append (hideal : o.Ideal) (hpart : part ∈ o.parts) {i : ℕ}
    (hlt : i < part.chunkCount o.chunkSize) (hshort : ¬o.chunkSize ∣ part.data.length)
    {extra : Bytes} (hextra : extra ≠ []) :
    ∃ err, o.decrypt (o.partFrom part i ++ extra) part.number o.chunkSize i = .error err := by
  have hpos := o.laidOut.chunkSize_pos
  have hwidth : 0 < o.chunkSize + tagSize := by omega
  obtain ⟨-, -, hcount⟩ := o.laidOut.fits.of_mem hpart
  induction hleft : part.chunkCount o.chunkSize - i generalizing i with
  | zero => omega
  | succ left ih =>
    have hlen := o.length_sealedChunk part i
    have hne : o.partFrom part i ++ extra ≠ [] := append_ne_nil_of_right_ne_nil _ hextra
    rcases Nat.lt_or_eq_of_le (Nat.succ_le_of_lt hlt) with hnext | hlast
    · -- the chunk opens, and a later one fails
      have hfull : (o.sealedChunk part i).length = o.chunkSize + tagSize := by
        rw [hlen, length_chunk_of_lt hpos hnext]
      obtain ⟨err, herr⟩ := ih hnext (by omega)
      rw [decrypt_eq hpart] at herr
      refine ⟨err, ?_⟩
      rw [decrypt_eq hpart, Script.chunksOf_of_ne_nil hwidth hne, partFrom_of_lt hlt,
        append_assoc, ← hfull, take_left, drop_left, hfull,
        openChunks_of_some o.format_valid (by omega) _ (opened_sealedChunk hpart hlt), herr]
      rfl
    · -- the last piece is longer than the chunk
      refine ⟨_, decrypt_of_ne hideal hpart (by omega) hne fun hsame => ?_⟩
      have hbegins := (lt_chunkCount_iff hpos i).mp hlt
      have hend := (lt_chunkCount_iff hpos (i + 1)).not.mp (not_lt.mpr hlast.ge)
      rw [Nat.succ_mul] at hend
      have hchunk : (part.chunk o.chunkSize i).length = part.data.length - i * o.chunkSize := by
        rw [length_chunk]
        omega
      have hless : part.data.length - i * o.chunkSize ≠ o.chunkSize := by
        intro hexact
        exact hshort ⟨i + 1, by rw [Nat.mul_succ, Nat.mul_comm]; omega⟩
      have hlonger := congrArg List.length hsame.2
      have hmore := length_pos_iff.mpr hextra
      rw [partFrom_of_lt hlt, length_take, length_append, length_append, hlen, hchunk] at hlonger
      omega

/-! ## Bytes and their chunks -/

/-- The chunk that has plaintext byte `offset`. -/
structure ByteAt (o : StoredObject) (offset : ℕ) where
  k : ℕ
  i : ℕ
  part : PlainPart
  chunkAt : o.ChunkAt k i part
  plainAt_le : o.plainAt k i ≤ offset
  offset_lt : offset < o.plainAt k i + (part.chunk o.chunkSize i).length

/-- Where the ciphertext of the chunk ends. -/
def ByteAt.encStop {offset : ℕ} (byte : o.ByteAt offset) : ℕ :=
  o.encAt byte.k byte.i + (o.sealedChunk byte.part byte.i).length

theorem exists_byteAt {offset : ℕ} (hlt : offset < plainSize o.parts) :
    Nonempty (o.ByteAt offset) := by
  obtain ⟨before, part, after, rel, hin⟩ := exists_liesIn hlt
  have hpos := o.laidOut.chunkSize_pos
  have hget : o.parts[before.length]? = some part := by
    rw [hin.parts_eq, List.getElem?_append_right le_rfl, Nat.sub_self, List.getElem?_cons_zero]
  have htake : o.parts.take before.length = before := by
    rw [hin.parts_eq, take_left]
  have hdiv := Nat.div_add_mod rel o.chunkSize
  have hmod := Nat.mod_lt rel hpos
  have hrel := hin.rel_lt
  refine ⟨before.length, rel / o.chunkSize, part,
    ⟨hget, div_lt_chunkCount hpos hin.rel_lt⟩, ?_, ?_⟩
  · rw [plainAt, htake, hin.offset_eq, Nat.mul_comm]
    omega
  · rw [plainAt, htake, hin.offset_eq, length_chunk, Nat.mul_comm]
    omega

namespace ByteAt

variable {offset start last : ℕ} (byte : o.ByteAt offset)

theorem liesIn :
    LiesIn o.parts offset (o.parts.take byte.k) byte.part (o.parts.drop (byte.k + 1))
      (offset - plainSize (o.parts.take byte.k)) := by
  have hle := byte.plainAt_le
  have hlt := byte.offset_lt
  have hbegins := byte.chunkAt.begins
  rw [length_chunk] at hlt
  rw [plainAt] at hle hlt
  exact ⟨eq_take_append byte.chunkAt.getElem?_eq, by omega, by omega⟩

theorem div_eq : (offset - plainSize (o.parts.take byte.k)) / o.chunkSize = byte.i := by
  have hle := byte.plainAt_le
  have hlt := byte.offset_lt
  rw [length_chunk] at hlt
  rw [plainAt] at hle hlt
  refine Nat.div_eq_of_lt_le (by omega) ?_
  rw [Nat.succ_mul]
  omega

theorem plainStop_le :
    o.plainAt byte.k byte.i + (byte.part.chunk o.chunkSize byte.i).length ≤
      o.plaintext.length := by
  have hlen := congrArg List.length byte.chunkAt.slice_plaintext
  have hlt := byte.offset_lt
  have hle := byte.plainAt_le
  rw [length_slice] at hlen
  omega

theorem encStop_le : byte.encStop ≤ o.ciphertext.length := byte.chunkAt.encEnd_le

/-- A later byte is in the same chunk or in a later one. -/
theorem le_of_le (first : o.ByteAt start) (stop : o.ByteAt last) (hle : start ≤ last) :
    first.k < stop.k ∨ first.k = stop.k ∧ first.i ≤ stop.i := by
  by_contra hnot
  have hend := stop.chunkAt.plainEnd_le_of_lt first.chunkAt (by omega)
  have hstart := first.plainAt_le
  have hlast := stop.offset_lt
  omega

/-- A byte lies before a part if its own part does. -/
theorem lt_plainOffset_iff (k : ℕ) : (offset : ℤ) < o.manifest.plainOffset k ↔ byte.k < k := by
  have hbegin := byte.plainAt_le
  have hend := byte.chunkAt.plainEnd_le
  have hlt := byte.offset_lt
  rw [o.laidOut.plainOffset_eq, Nat.cast_lt, ← plainAt_zero]
  constructor
  · intro hbefore
    by_contra hnot
    have := plainAt_le_of_le (o := o) (not_lt.mp hnot) byte.i
    omega
  · intro hafter
    have := plainAt_le_of_le (o := o) (show byte.k + 1 ≤ k from hafter) 0
    omega

theorem plainOffset_le_iff (k : ℕ) : o.manifest.plainOffset k ≤ offset ↔ k ≤ byte.k := by
  rw [← not_lt, byte.lt_plainOffset_iff, not_lt]

theorem exists_part {k : ℕ} (hle : k ≤ byte.k) : ∃ part, o.parts[k]? = some part := by
  obtain ⟨hlength, -⟩ := List.getElem?_eq_some_iff.mp byte.chunkAt.getElem?_eq
  exact ⟨_, List.getElem?_eq_getElem (hle.trans_lt hlength)⟩

/-- **The planned range** by the chunks of its ends. -/
theorem encRangeForPlaintextRange_eq (first : o.ByteAt start) (stop : o.ByteAt last)
    (hle : start ≤ last) :
    o.manifest.encRangeForPlaintextRange start last = .ok
      { encStart := o.encAt first.k first.i
        encEnd := (stop.encStop : ℤ) - 1
        partStartIdx := first.k
        chunkStart := first.i
        partEndIdx := stop.k
        chunkEnd := stop.i } := by
  rw [o.laidOut.encRangeForPlaintextRange_eq hle first.liesIn stop.liesIn, first.div_eq,
    stop.div_eq, stop.chunkAt.encUpTo_eq, length_take_parts first.chunkAt.getElem?_eq,
    length_take_parts stop.chunkAt.getElem?_eq]
  rfl

end ByteAt

end StoredObject

/-! ## An AEAD that is ideal for one object -/

/-- The AEAD, refusing everything but the chunks of the parts. -/
def Aead.only (aead : Aead) (hkdf : SaltedHkdf) (format : MpuFormat) (chunkSize : ℕ)
    (parts : List PlainPart) : Aead where
  sealed := aead.sealed
  opened nonce ciphertext aad :=
    if ∃ part ∈ parts, ∃ i < part.chunkCount chunkSize, nonce = format.iv hkdf part.number i ∧
        aad = format.chunkAad part.number i ∧
        ciphertext = sealChunk hkdf aead format part.number i (part.chunk chunkSize i) then
      aead.opened nonce ciphertext aad
    else none

section Only

variable {aead : Aead} (haead : aead.Lawful) (hkdf : SaltedHkdf) (format : MpuFormat)
  (chunkSize : ℕ) (parts : List PlainPart)

include haead in
theorem sealsParts_only :
    SealsParts hkdf (aead.only hkdf format chunkSize parts) format chunkSize parts := by
  refine ⟨haead.length_sealed, fun part hpart i hi => ?_⟩
  exact (if_pos ⟨part, hpart, i, hi, rfl, rfl, rfl⟩).trans (haead.opened_sealed _ _ _)

theorem unforged_only :
    Unforged hkdf (aead.only hkdf format chunkSize parts) format chunkSize parts := by
  intro nonce ciphertext aad plaintext hopened
  rw [Aead.only] at hopened
  simp only at hopened
  split at hopened
  · rename_i hmem
    obtain ⟨part, hpart, i, hi, hnonce, haad, hciphertext⟩ := hmem
    exact ⟨part, hpart, i, hi, hnonce, haad, hciphertext⟩
  · cases hopened

end Only

/-- An object under such an AEAD. -/
def StoredObject.sample (chunkSize : ℕ) (parts : List PlainPart) (hpos : 0 < chunkSize)
    (hmax : chunkSize ≤ maxChunkSize) (hfits : PartsFit chunkSize 0 0 parts) : StoredObject where
  hkdf := zeroSaltedHkdf
  createMpuAeadCipher _ := .ok (zeroTagAead.only zeroSaltedHkdf sampleFormat chunkSize parts)
  aead := zeroTagAead.only zeroSaltedHkdf sampleFormat chunkSize parts
  format := sampleFormat
  manifest := ⟨2, chunkSize, parts.map (PlainPart.record chunkSize), plainSize parts⟩
  chunkSize := chunkSize
  parts := parts
  format_valid := sampleFormat_valid
  cipher_eq := rfl
  laidOut := ⟨rfl, hpos, hmax, rfl, hfits, rfl⟩
  seals := sealsParts_only zeroTagAead_lawful zeroSaltedHkdf sampleFormat chunkSize parts

theorem StoredObject.ideal_sample {chunkSize : ℕ} (hpos : 0 < chunkSize)
    (hmax : chunkSize ≤ maxChunkSize) (hfits : PartsFit chunkSize 0 0 parts) :
    (StoredObject.sample chunkSize parts hpos hmax hfits).Ideal :=
  ⟨unforged_only zeroSaltedHkdf sampleFormat chunkSize parts,
    MpuFormat.separates_of_bound _ sampleFormat_valid rfl⟩

end S3EncryptionGateway.Crypto
