import S3EncryptionGateway.Library.Source
import S3EncryptionGateway.Crypto.Chunked.Format

/-!
# The manifest of an encrypted multipart object

A completed multipart upload is the concatenation of its encrypted parts, each a
sequence of sealed chunks of its own.  The manifest records where they lie: for
every part its number, its plaintext and ciphertext length and its number of
chunks.  This module has the manifest's own check, `validateLayout`, and the
function that plans a ranged read, `encRangeForPlaintextRange`.

The numbers of a manifest come out of a JSON document, so they are integers here
and the checks against negative ones are part of the model.

## Layouts of real parts

`PlainPart` is a part by its number and plaintext, and `PlainPart.record` what the
manifest says about it.  `eq_record_of_validateParts` turns a manifest that was
accepted into the records of its parts, and from there on all arithmetic is about
lists of parts and natural numbers.
-/

namespace S3EncryptionGateway.Crypto

open Encoding Streams List

/-- The errors of the multipart encrypter and of the manifest, with the text of each. -/
inductive MpuError where
  /-- An error of another package. -/
  | external (code : ℕ)
  /-- An error of the crypto package that is passed on. -/
  | crypto (err : CryptoError)
  /-- "mpu: v2 binding ID is required" -/
  | bindingRequired
  /-- "mpu_encrypter: invalid part number, plaintext length, or chunk size" -/
  | invalidPart
  /-- "mpu_encrypter: chunk count or ciphertext length overflow" -/
  | lengthOverflow
  /-- "mpu_encrypter: source exceeds declared plaintext length" -/
  | sourceTooLong
  /-- "mpu_encrypter: chunk index overflow" -/
  | chunkIndexOverflow
  /-- "mpu_encrypter: read source: " and the error -/
  | readSource (err : ReadError ℕ)
  /-- "mpu_decrypt: invalid part or chunk index" -/
  | invalidIndex
  /-- "mpu_decrypt: part %d chunk %d: read: " and the error -/
  | readChunk (partNumber : ℤ) (chunkIdx : ℕ) (err : ReadError ℕ)
  /-- "mpu_decrypt: part %d chunk %d auth failure: " and the error of the AEAD -/
  | authFailure (partNumber : ℤ) (chunkIdx : ℕ)
  /-- "mpu_encrypter: invalid part number, chunk index, or chunk size" -/
  | invalidPartRange
  /-- "mpu_encrypter: chunk %d auth failure in part %d: " and the error of the AEAD -/
  | rangeAuthFailure (chunkIndex : ℕ) (partNumber : ℤ)
  /-- "mpu_manifest: invalid total size or part count" -/
  | manifestTotals
  /-- "mpu_manifest: invalid chunk size %d" -/
  | manifestChunkSize (chunkSize : ℤ)
  /-- "mpu_manifest: invalid part layout" -/
  | manifestPartLayout
  /-- "mpu_manifest: invalid chunk count or ciphertext size" -/
  | manifestChunkCount
  /-- "mpu_manifest: inconsistent or overflowing part sizes" -/
  | manifestPartSizes
  /-- "mpu_manifest: total plaintext size does not match parts" -/
  | manifestTotalMismatch
  /-- "mpu_manifest: offset %d out of range [0, %d)" -/
  | offsetOutOfRange (offset totalPlainSize : ℤ)
  /-- "mpu_manifest: chunk index overflow" -/
  | manifestChunkIndex
  /-- "mpu_manifest: offset %d beyond total plain size %d" -/
  | offsetBeyond (offset totalPlainSize : ℤ)
  /-- "mpu_manifest: range [%d,%d] out of [0,%d)" -/
  | rangeOutOf (pStart pEnd totalPlainSize : ℤ)
  deriving DecidableEq

def maxInt32 : ℕ := 2147483647
def defaultChunkSize : ℕ := 65536
def maxPartNumber : ℕ := 10000

structure MpuPartRecord where
  partNumber : ℤ
  plainLen : ℤ
  encLen : ℤ
  chunkCount : ℤ

/-- The fields of the manifest that decide about the layout. -/
structure MultipartManifest where
  version : ℤ
  chunkSize : ℤ
  parts : List MpuPartRecord
  totalPlainSize : ℤ

def mpuChunkCount (plainLen chunkSize : ℤ) : ℤ :=
  let count := plainLen.tdiv chunkSize
  if plainLen.tmod chunkSize ≠ 0 then count + 1 else count

/-- The loop of `validateLayout`: the total plaintext size. -/
def validateParts (chunkSize : ℤ) : (totalPlain totalEnc previous : ℤ) → List MpuPartRecord →
    Except MpuError ℤ
  | totalPlain, _, _, [] => .ok totalPlain
  | totalPlain, totalEnc, previous, part :: parts =>
    if part.partNumber ≤ previous ∨ maxPartNumber < part.partNumber ∨ part.plainLen < 0 ∨
        part.encLen < 0 ∨ part.chunkCount < 0 then .error .manifestPartLayout
    else
      let count := mpuChunkCount part.plainLen chunkSize
      if maxInt32 < count ∨ count ≠ part.chunkCount ∨
          ((maxInt64 : ℤ) - part.plainLen).tdiv tagSize < count then .error .manifestChunkCount
      else if part.encLen ≠ part.plainLen + count * tagSize ∨
          (maxInt64 : ℤ) - totalPlain < part.plainLen ∨
          (maxInt64 : ℤ) - totalEnc < part.encLen then .error .manifestPartSizes
      else
        validateParts chunkSize (totalPlain + part.plainLen) (totalEnc + part.encLen)
          part.partNumber parts

variable (m : MultipartManifest)

namespace MultipartManifest

def validateLayout : Except MpuError Unit :=
  if m.totalPlainSize < 0 ∨ maxPartNumber < m.parts.length then .error .manifestTotals
  else if m.parts = [] ∧ m.totalPlainSize = 0 then .ok ()
  else if m.chunkSize ≤ 0 ∨ maxChunkSize < m.chunkSize then
    .error (.manifestChunkSize m.chunkSize)
  else do
    let totalPlain ← validateParts m.chunkSize 0 0 0 m.parts
    if totalPlain ≠ m.totalPlainSize then .error .manifestTotalMismatch else .ok ()

/-- The loop of `plainOffsetToPartChunk` from part `i` on, with the plaintext size of the
parts before it. -/
def findPartChunk (m : MultipartManifest) (offset : ℤ) :
    (i : ℕ) → (cumPlain : ℤ) → List MpuPartRecord → Except MpuError (ℕ × ℤ × ℤ)
  | _, _, [] => .error (.offsetBeyond offset m.totalPlainSize)
  | i, cumPlain, part :: parts =>
    if offset < cumPlain + part.plainLen then
      let relOffset := offset - cumPlain
      let index := relOffset.tdiv m.chunkSize
      if index < 0 ∨ maxInt32 < index then .error .manifestChunkIndex
      else .ok (i, index, relOffset.tmod m.chunkSize)
    else findPartChunk m offset (i + 1) (cumPlain + part.plainLen) parts

/-- The part, the chunk in it and the offset in that chunk of a plaintext byte. -/
def plainOffsetToPartChunk (offset : ℤ) :
    Except MpuError (ℕ × ℤ × ℤ) := do
  m.validateLayout
  if offset < 0 ∨ m.totalPlainSize ≤ offset then
    .error (.offsetOutOfRange offset m.totalPlainSize)
  else m.findPartChunk offset 0 0 m.parts

/-- The ciphertext length of the first `count` parts. -/
def encOffset (count : ℕ) : ℤ :=
  ((m.parts.take count).map MpuPartRecord.encLen).sum

/-- The plaintext length of the first `count` parts. -/
def plainOffset (count : ℕ) : ℤ :=
  ((m.parts.take count).map MpuPartRecord.plainLen).sum

end MultipartManifest

/-- A planned ranged read: the ciphertext bytes to fetch, both ends included, and the
first and the last chunk in them. -/
structure MpuRangeResult where
  encStart : ℤ
  encEnd : ℤ
  partStartIdx : ℕ
  chunkStart : ℤ
  partEndIdx : ℕ
  chunkEnd : ℤ

def MultipartManifest.encRangeForPlaintextRange (pStart pEnd : ℤ) :
    Except MpuError MpuRangeResult := do
  m.validateLayout
  if pStart < 0 ∨ pEnd < pStart ∨ m.totalPlainSize ≤ pEnd then
    .error (.rangeOutOf pStart pEnd m.totalPlainSize)
  else
    let encChunkSize := m.chunkSize + tagSize
    let (partStartIdx, chunkStart, _) ← m.plainOffsetToPartChunk pStart
    let (partEndIdx, chunkEnd, _) ← m.plainOffsetToPartChunk pEnd
    let partStartOff := m.encOffset partStartIdx
    let partEndOff := m.encOffset partEndIdx
    let encStart := partStartOff + chunkStart * encChunkSize
    match m.parts[partEndIdx]? with
    -- the index came out of a search through the parts
    | none => .error (.offsetBeyond pEnd m.totalPlainSize)
    | some part =>
      -- the last chunk of a part may be short
      let encEnd :=
        if chunkEnd = part.chunkCount - 1 then partEndOff + part.encLen - 1
        else partEndOff + (chunkEnd + 1) * encChunkSize - 1
      return ⟨encStart, encEnd, partStartIdx, chunkStart, partEndIdx, chunkEnd⟩

/-! ## Layouts of real parts -/

structure PlainPart where
  number : ℕ
  data : Bytes

namespace PlainPart

def chunkCount (chunkSize : ℕ) (part : PlainPart) : ℕ := recordCount part.data.length chunkSize

def encLen (chunkSize : ℕ) (part : PlainPart) : ℕ :=
  part.data.length + part.chunkCount chunkSize * tagSize

/-- What a manifest says about a part. -/
def record (chunkSize : ℕ) (part : PlainPart) : MpuPartRecord :=
  ⟨part.number, part.data.length, part.encLen chunkSize, part.chunkCount chunkSize⟩

section

variable (chunkSize : ℕ) (part : PlainPart)

include chunkSize part

@[simp] theorem record_partNumber :
    (part.record chunkSize).partNumber = part.number := rfl

@[simp] theorem record_plainLen :
    (part.record chunkSize).plainLen = part.data.length := rfl

@[simp] theorem record_encLen :
    (part.record chunkSize).encLen = part.encLen chunkSize := rfl

@[simp] theorem record_chunkCount :
    (part.record chunkSize).chunkCount = part.chunkCount chunkSize := rfl

end

end PlainPart

structure MpuPartRecord.IsOf (record : MpuPartRecord) (part : PlainPart) : Prop where
  partNumber_eq : record.partNumber = part.number
  plainLen_eq : record.plainLen = part.data.length

def plainSize (parts : List PlainPart) : ℕ := (parts.map fun part => part.data.length).sum

def encSize (chunkSize : ℕ) (parts : List PlainPart) : ℕ :=
  (parts.map (PlainPart.encLen chunkSize)).sum

/-- The parts can follow parts up to number `previous` that have `totalEnc` bytes of
ciphertext: the numbers increase, no part has too many chunks and the total fits. -/
def PartsFit (chunkSize : ℕ) : (totalEnc previous : ℕ) → List PlainPart → Prop
  | _, _, [] => True
  | totalEnc, previous, part :: parts =>
    previous < part.number ∧ part.number ≤ maxPartNumber ∧
      part.chunkCount chunkSize ≤ maxInt32 ∧ totalEnc + part.encLen chunkSize ≤ maxInt64 ∧
      PartsFit chunkSize (totalEnc + part.encLen chunkSize) part.number parts

instance decidablePartsFit (chunkSize : ℕ) :
    (totalEnc previous : ℕ) → (parts : List PlainPart) →
      Decidable (PartsFit chunkSize totalEnc previous parts)
  | _, _, [] => isTrue trivial
  | totalEnc, _, part :: parts =>
    have := decidablePartsFit chunkSize (totalEnc + part.encLen chunkSize) part.number parts
    inferInstanceAs (Decidable (_ ∧ _ ∧ _ ∧ _ ∧ _))

@[simp] theorem plainSize_nil : plainSize [] = 0 := rfl

@[simp] theorem plainSize_cons (part : PlainPart) (parts : List PlainPart) :
    plainSize (part :: parts) = part.data.length + plainSize parts := List.sum_cons

@[simp] theorem plainSize_append (parts later : List PlainPart) :
    plainSize (parts ++ later) = plainSize parts + plainSize later := by
  rw [plainSize, map_append, sum_append, plainSize, plainSize]

@[simp] theorem encSize_nil (chunkSize : ℕ) : encSize chunkSize [] = 0 := rfl

@[simp] theorem encSize_cons (chunkSize : ℕ) (part : PlainPart) (parts : List PlainPart) :
    encSize chunkSize (part :: parts) = part.encLen chunkSize + encSize chunkSize parts :=
  List.sum_cons

@[simp] theorem encSize_append (chunkSize : ℕ) (parts later : List PlainPart) :
    encSize chunkSize (parts ++ later) = encSize chunkSize parts + encSize chunkSize later := by
  rw [encSize, map_append, sum_append, encSize, encSize]

variable {chunkSize : ℕ}

/-- The code's chunk count is the number of records of that length. -/
theorem mpuChunkCount_natCast (hpos : 0 < chunkSize) (size : ℕ) :
    mpuChunkCount size chunkSize = recordCount size chunkSize := by
  have hdiv := Nat.div_add_mod size chunkSize
  have hmod := Nat.mod_lt size hpos
  rw [mpuChunkCount, ← Int.ofNat_tdiv, ← Int.ofNat_tmod, recordCount]
  by_cases hzero : size = 0
  · simp [hzero]
  rw [if_neg hzero]
  by_cases hexact : size % chunkSize = 0
  · -- a multiple: the last chunk is a full one
    rw [if_neg (by simp [hexact])]
    obtain ⟨q, hq⟩ : ∃ q, size / chunkSize = q + 1 := by
      refine Nat.exists_eq_succ_of_ne_zero ?_
      intro hnone
      rw [hnone, hexact] at hdiv
      omega
    have hprev : (size - 1) / chunkSize = q := by
      apply Nat.div_eq_of_lt_le
      · rw [hq, Nat.mul_add, hexact] at hdiv
        rw [Nat.mul_comm]
        omega
      · rw [hq, Nat.mul_add, hexact] at hdiv
        rw [Nat.add_mul, Nat.mul_comm q]
        omega
    rw [hq, hprev]
  · rw [if_pos (by exact_mod_cast hexact)]
    have hprev : (size - 1) / chunkSize = size / chunkSize := by
      apply Nat.div_eq_of_lt_le
      · rw [Nat.mul_comm]
        omega
      · rw [Nat.add_mul, Nat.mul_comm (size / chunkSize)]
        omega
    rw [hprev]
    norm_cast

variable {parts : List PlainPart}

open PlainPart

/-- An accepted manifest consists of the records of its parts. -/
theorem eq_record_of_validateParts (hpos : 0 < chunkSize) {totalPlain totalEnc previous total : ℤ}
    {records : List MpuPartRecord} (hparts : List.Forall₂ MpuPartRecord.IsOf records parts)
    (hvalid : validateParts chunkSize totalPlain totalEnc previous records = .ok total) :
    records = parts.map (PlainPart.record chunkSize) := by
  induction hparts generalizing totalPlain totalEnc previous with
  | nil => rfl
  | @cons record part records parts hrecord hrest ih =>
    obtain ⟨hnumber, hplain⟩ := hrecord
    rw [validateParts] at hvalid
    split at hvalid
    · cases hvalid
    simp only at hvalid
    split at hvalid
    · cases hvalid
    rename_i hcount
    split at hvalid
    · cases hvalid
    rename_i hsizes
    rw [hplain, mpuChunkCount_natCast hpos] at hcount hsizes
    simp only [not_or, not_not] at hcount hsizes
    rw [map_cons, ← ih hvalid]
    congr 1
    obtain ⟨number, plainLen, encLen, chunkCount⟩ := record
    simp only at hnumber hplain hcount hsizes
    rw [hnumber, hplain, hsizes.1, ← hcount.2.1]
    simp [PlainPart.record, PlainPart.encLen, PlainPart.chunkCount]

variable {totalEnc previous : ℕ}

/-- The loop of the check on the records of real parts. -/
theorem validateParts_records_iff {chunkSize : ℕ} (hpos : 0 < chunkSize)
    {totalPlain totalEnc previous : ℕ} (hle : totalPlain ≤ totalEnc) {parts : List PlainPart}
    {total : ℤ} :
    validateParts chunkSize totalPlain totalEnc previous
        (parts.map (record chunkSize)) = .ok total ↔
      PartsFit chunkSize totalEnc previous parts ∧ total = totalPlain + plainSize parts := by
  induction parts generalizing totalPlain totalEnc previous with
  | nil => simp [validateParts, PartsFit, eq_comm]
  | cons part parts ih =>
    have hlater := @ih (totalPlain + part.data.length) (totalEnc + part.encLen chunkSize)
      part.number (by rw [encLen]; omega)
    have henc : part.encLen chunkSize =
      part.data.length + part.chunkCount chunkSize * tagSize := rfl
    rw [map_cons, validateParts]
    simp only [record, mpuChunkCount_natCast hpos, PartsFit]
    simp only [tagSize] at henc
    by_cases hfits : previous < part.number ∧ part.number ≤ maxPartNumber ∧
        part.chunkCount chunkSize ≤ maxInt32 ∧ totalEnc + part.encLen chunkSize ≤ maxInt64
    · obtain ⟨hnumber, hmax, hcount, htotal⟩ := hfits
      rw [if_neg (by omega), if_neg, if_neg]
      · rw [← Nat.cast_add, ← Nat.cast_add, hlater, plainSize_cons]
        simp only [hnumber, hmax, hcount, htotal, true_and]
        push_cast
        rw [add_assoc]
      · simp only [not_or, not_not, tagSize]
        refine ⟨?_, by omega, by omega⟩
        rw [henc, chunkCount]
        push_cast
        rfl
      · have hroom : ((maxInt64 : ℤ) - part.data.length).tdiv tagSize =
            (maxInt64 - part.data.length) / 16 := by
          rw [Int.tdiv_eq_ediv_of_nonneg (by omega)]
          rfl
        rw [hroom]
        rw [chunkCount] at hcount henc
        simp only [chunkCount]
        omega
    · constructor
      · intro hok
        exfalso
        split at hok
        · cases hok
        split at hok
        · cases hok
        split at hok
        · cases hok
        rename_i hnumber hcount hsizes
        apply hfits
        simp only [chunkCount] at *
        omega
      · rintro ⟨⟨hnumber, hmax, hcount, htotal, -⟩, -⟩
        exact absurd ⟨hnumber, hmax, hcount, htotal⟩ hfits

theorem of_mem_validateParts {chunkSize totalPlain totalEnc previous total : ℤ}
    {records : List MpuPartRecord} {record : MpuPartRecord}
    (hvalid : validateParts chunkSize totalPlain totalEnc previous records = .ok total)
    (hmem : record ∈ records) :
    0 ≤ record.plainLen ∧ record.chunkCount = mpuChunkCount record.plainLen chunkSize := by
  induction records generalizing totalPlain totalEnc previous with
  | nil => cases hmem
  | cons first records ih =>
    rw [validateParts] at hvalid
    split at hvalid
    · cases hvalid
    rename_i hnumber
    simp only at hvalid
    split at hvalid
    · cases hvalid
    rename_i hcount
    split at hvalid
    · cases hvalid
    · rcases mem_cons.mp hmem with rfl | hlater
      · exact ⟨by omega, by omega⟩
      · exact ih hvalid hlater

/-- The last chunk of a part is not empty, unless the part is. -/
theorem lastChunk_pos {plainLen chunkSize : ℤ} (hpos : 0 < chunkSize) (hlen : 0 ≤ plainLen) :
    0 < plainLen - (mpuChunkCount plainLen chunkSize - 1) * chunkSize := by
  obtain ⟨size, rfl⟩ := Int.eq_ofNat_of_zero_le hlen
  obtain ⟨width, rfl⟩ := Int.eq_ofNat_of_zero_le hpos.le
  rw [mpuChunkCount_natCast (by omega), recordCount]
  split
  · simpa [*] using hpos
  have hprev := Nat.div_mul_le_self (size - 1) width
  have hcast : (((size - 1) / width + 1 : ℕ) : ℤ) - 1 = ((size - 1) / width : ℕ) := by
    push_cast
    ring
  rw [hcast, ← Nat.cast_mul]
  omega

/-! ## Accepted manifests -/

section

variable (hfits : PartsFit chunkSize totalEnc previous parts)

include hfits

theorem PartsFit.length_le (hprevious : previous ≤ maxPartNumber) :
    previous + parts.length ≤ maxPartNumber := by
  induction parts generalizing totalEnc previous with
  | nil => exact hprevious
  | cons part parts ih =>
    obtain ⟨hnumber, hmax, -, -, hrest⟩ := hfits
    have hlater := ih hrest hmax
    rw [length_cons]
    omega

theorem PartsFit.of_mem {part : PlainPart} (hpart : part ∈ parts) :
    previous < part.number ∧ part.number ≤ maxPartNumber ∧
      part.chunkCount chunkSize ≤ maxInt32 := by
  induction parts generalizing totalEnc previous with
  | nil => cases hpart
  | cons first parts ih =>
    obtain ⟨hnumber, hmax, hcount, -, hrest⟩ := hfits
    rcases mem_cons.mp hpart with rfl | hlater
    · exact ⟨hnumber, hmax, hcount⟩
    · obtain ⟨hafter, hboth⟩ := ih hrest hlater
      exact ⟨hnumber.trans hafter, hboth⟩

theorem PartsFit.encLen_le {part : PlainPart} (hpart : part ∈ parts) :
    part.encLen chunkSize ≤ maxInt64 := by
  induction parts generalizing totalEnc previous with
  | nil => cases hpart
  | cons first parts ih =>
    obtain ⟨-, -, -, htotal, hrest⟩ := hfits
    rcases mem_cons.mp hpart with rfl | hlater
    · omega
    · exact ih hrest hlater

/-- Numbers that increase tell the parts apart. -/
theorem PartsFit.eq_of_number_eq {part part' : PlainPart} (hpart : part ∈ parts)
    (hpart' : part' ∈ parts) (hnumber : part.number = part'.number) : part = part' := by
  induction parts generalizing totalEnc previous with
  | nil => cases hpart
  | cons first parts ih =>
    obtain ⟨-, -, -, -, hrest⟩ := hfits
    rcases mem_cons.mp hpart with rfl | hlater
    · rcases mem_cons.mp hpart' with rfl | hlater'
      · rfl
      · exact absurd hnumber (hrest.of_mem hlater').1.ne
    · rcases mem_cons.mp hpart' with rfl | hlater'
      · exact absurd hnumber.symm (hrest.of_mem hlater).1.ne
      · exact ih hrest hlater hlater'

end

/-- The manifest describes `parts` and is one that the check accepts. -/
structure MultipartManifest.LaidOut (m : MultipartManifest) (chunkSize : ℕ)
    (parts : List PlainPart) : Prop where
  chunkSize_eq : m.chunkSize = chunkSize
  chunkSize_pos : 0 < chunkSize
  chunkSize_le : chunkSize ≤ maxChunkSize
  parts_eq : m.parts = parts.map (PlainPart.record chunkSize)
  fits : PartsFit chunkSize 0 0 parts
  total_eq : m.totalPlainSize = plainSize parts

namespace MultipartManifest

variable {m : MultipartManifest} {chunkSize : ℕ} {parts : List PlainPart}

theorem LaidOut.validateLayout_eq (hlaid : m.LaidOut chunkSize parts) :
    m.validateLayout = .ok () := by
  have hparts := (validateParts_records_iff hlaid.chunkSize_pos (le_refl 0)).mpr
    ⟨hlaid.fits, rfl⟩
  have hlength := hlaid.fits.length_le (Nat.zero_le _)
  have hpos := hlaid.chunkSize_pos
  have hle := hlaid.chunkSize_le
  have hsize : m.parts.length = parts.length := by rw [hlaid.parts_eq, length_map]
  rw [validateLayout, if_neg (by rw [hlaid.total_eq]; omega)]
  by_cases hempty : m.parts = [] ∧ m.totalPlainSize = 0
  · rw [if_pos hempty]
  rw [if_neg hempty, if_neg (by rw [hlaid.chunkSize_eq]; omega), hlaid.parts_eq,
    hlaid.chunkSize_eq, hlaid.total_eq]
  push_cast at hparts
  rw [hparts]
  show (if (0 : ℤ) + plainSize parts ≠ plainSize parts then _ else _) = _
  rw [if_neg (by omega)]

/-- An accepted manifest is laid out as its parts are, unless it has neither parts nor
bytes: then its chunk size has not been looked at. -/
theorem laidOut_of_validateLayout (hvalid : m.validateLayout = .ok ())
    (hparts : List.Forall₂ MpuPartRecord.IsOf m.parts parts)
    (hne : ¬(m.parts = [] ∧ m.totalPlainSize = 0)) : ∃ chunkSize, m.LaidOut chunkSize parts := by
  rw [validateLayout] at hvalid
  split at hvalid
  · cases hvalid
  -- neither parts nor bytes is excluded
  split at hvalid
  · cases hvalid
  rename_i hsize
  obtain ⟨chunkSize, hchunk⟩ : ∃ chunkSize : ℕ, m.chunkSize = chunkSize :=
    Int.eq_ofNat_of_zero_le (by omega)
  rw [hchunk] at hvalid hsize
  rcases hcheck : validateParts chunkSize 0 0 0 m.parts with err | total
  · rw [hcheck] at hvalid
    cases hvalid
  rw [hcheck] at hvalid
  replace hvalid : (if total ≠ m.totalPlainSize then _ else _) = _ := hvalid
  split at hvalid
  · cases hvalid
  rename_i hsame
  have hpos : 0 < chunkSize := by omega
  have hrecords := eq_record_of_validateParts hpos hparts hcheck
  rw [hrecords, ← Nat.cast_zero] at hcheck
  obtain ⟨hfits, htotal⟩ := (validateParts_records_iff hpos (le_refl 0)).mp hcheck
  refine ⟨chunkSize, hchunk, hpos, by omega, hrecords, hfits, ?_⟩
  rw [← not_not.mp hsame, htotal]
  push_cast
  rw [zero_add]

theorem of_mem_parts (hvalid : m.validateLayout = .ok ()) {record : MpuPartRecord}
    (hmem : record ∈ m.parts) :
    0 < m.chunkSize ∧ 0 ≤ record.plainLen ∧
      record.chunkCount = mpuChunkCount record.plainLen m.chunkSize := by
  rw [validateLayout] at hvalid
  split at hvalid
  · cases hvalid
  split at hvalid
  · rename_i hempty
    rw [hempty.1] at hmem
    cases hmem
  · split at hvalid
    · cases hvalid
    rename_i hsize
    rcases hcheck : validateParts m.chunkSize 0 0 0 m.parts with err | total
    · rw [hcheck] at hvalid
      cases hvalid
    · obtain ⟨hlen, hcount⟩ := of_mem_validateParts hcheck hmem
      exact ⟨by omega, hlen, hcount⟩

end MultipartManifest

/-! ## Offsets -/

/-- Plaintext byte `offset` is byte `rel` of `part`, which follows the parts `before`. -/
structure LiesIn (parts : List PlainPart) (offset : ℕ) (before : List PlainPart)
    (part : PlainPart) (after : List PlainPart) (rel : ℕ) : Prop where
  parts_eq : parts = before ++ part :: after
  offset_eq : offset = plainSize before + rel
  rel_lt : rel < part.data.length

theorem exists_liesIn {offset : ℕ} (hlt : offset < plainSize parts) :
    ∃ before part after rel, LiesIn parts offset before part after rel := by
  induction parts generalizing offset with
  | nil => exact absurd hlt (Nat.not_lt_zero _)
  | cons part parts ih =>
    rw [plainSize_cons] at hlt
    by_cases hin : offset < part.data.length
    · exact ⟨[], part, parts, offset, rfl, (Nat.zero_add _).symm, hin⟩
    obtain ⟨before, later, after, rel, hparts, hoffset, hrel⟩ :=
      @ih (offset - part.data.length) (by omega)
    refine ⟨part :: before, later, after, rel, ?_, ?_, hrel⟩
    · rw [hparts, cons_append]
    · rw [plainSize_cons]
      omega

namespace PlainPart

variable {part : PlainPart} {chunkSize rel : ℕ}

section

variable (hpos : 0 < chunkSize)

include hpos

/-- Chunk `i` of a part begins inside its data. -/
theorem lt_chunkCount_iff (i : ℕ) :
    i < part.chunkCount chunkSize ↔ i * chunkSize < part.data.length := by
  rw [chunkCount, recordCount]
  by_cases hzero : part.data.length = 0
  · simp [hzero]
  · rw [if_neg hzero, Nat.lt_succ_iff, Nat.le_div_iff_mul_le hpos]
    omega

/-- The chunk that has byte `rel`. -/
theorem div_lt_chunkCount (hrel : rel < part.data.length) :
    rel / chunkSize < part.chunkCount chunkSize :=
  (lt_chunkCount_iff hpos _).mpr ((Nat.div_mul_le_self rel chunkSize).trans_lt hrel)

/-- Only a part of full chunks fills them all. -/
theorem chunkCount_mul_eq_iff :
    part.chunkCount chunkSize * chunkSize = part.data.length ↔ chunkSize ∣ part.data.length := by
  constructor
  · intro hexact
    exact ⟨part.chunkCount chunkSize, by rw [← hexact, Nat.mul_comm]⟩
  · rintro ⟨count, hcount⟩
    have hsame : ∀ i, i < part.chunkCount chunkSize ↔ i < count := by
      intro i
      rw [lt_chunkCount_iff hpos, hcount, Nat.mul_comm i, Nat.mul_lt_mul_left hpos]
    rw [eq_of_forall_lt_iff hsame, hcount, Nat.mul_comm]

/-- The chunks of a part have room for its data. -/
theorem length_le_chunkCount_mul : part.data.length ≤ part.chunkCount chunkSize * chunkSize :=
  not_lt.mp ((lt_chunkCount_iff hpos _).not.mp (lt_irrefl _))

end

/-- The ciphertext length of the first `i` chunks of a part. -/
def encUpTo (chunkSize : ℕ) (part : PlainPart) (i : ℕ) : ℕ :=
  min (i * (chunkSize + tagSize)) (part.encLen chunkSize)

theorem encUpTo_of_lt (hpos : 0 < chunkSize) {i : ℕ} (hlt : i < part.chunkCount chunkSize) :
    part.encUpTo chunkSize i = i * (chunkSize + tagSize) := by
  have hbegin := (lt_chunkCount_iff hpos i).mp hlt
  have htags := Nat.mul_le_mul_right tagSize hlt.le
  rw [encUpTo, min_eq_left]
  rw [encLen, Nat.mul_add]
  omega

theorem encUpTo_chunkCount (hpos : 0 < chunkSize) :
    part.encUpTo chunkSize (part.chunkCount chunkSize) = part.encLen chunkSize := by
  have hend : ¬part.chunkCount chunkSize * chunkSize < part.data.length :=
    (lt_chunkCount_iff hpos _).not.mp (lt_irrefl _)
  rw [encUpTo, min_eq_right]
  rw [encLen, Nat.mul_add]
  omega

end PlainPart

namespace MultipartManifest

variable {m : MultipartManifest} {chunkSize : ℕ} {parts before after : List PlainPart}
  {part : PlainPart} {offset rel : ℕ}

/-- The search, from part `i` on, for a byte that lies in a later part. -/
theorem findPartChunk_records (hsize : m.chunkSize = chunkSize) (hpos : 0 < chunkSize)
    (hcount : part.chunkCount chunkSize ≤ maxInt32) (hrel : rel < part.data.length)
    (i cumPlain : ℕ) :
    m.findPartChunk (cumPlain + plainSize before + rel : ℕ) i cumPlain
        ((before ++ part :: after).map (record chunkSize)) =
      .ok (i + before.length, (rel / chunkSize : ℕ), (rel % chunkSize : ℕ)) := by
  induction before generalizing i cumPlain with
  | nil =>
    have hindex := div_lt_chunkCount hpos hrel
    have hhere : ((cumPlain + plainSize [] + rel : ℕ) : ℤ) < cumPlain + part.data.length := by
      rw [plainSize_nil]
      omega
    have hdiff : ((cumPlain + plainSize [] + rel : ℕ) : ℤ) - cumPlain = rel := by
      rw [plainSize_nil]
      omega
    have hbound : ¬(((rel / chunkSize : ℕ) : ℤ) < 0 ∨
        (maxInt32 : ℤ) < (rel / chunkSize : ℕ)) := by
      rw [not_or, not_lt, not_lt]
      exact ⟨Int.natCast_nonneg _, by exact_mod_cast hindex.le.trans hcount⟩
    rw [nil_append, map_cons, findPartChunk]
    simp only [record, hsize, hdiff, ← Int.ofNat_tdiv, ← Int.ofNat_tmod]
    rw [if_pos hhere, if_neg hbound, length_nil, Nat.add_zero]
  | cons first before ih =>
    have hlater := ih (i + 1) (cumPlain + first.data.length)
    have hpast : ¬((cumPlain + plainSize (first :: before) + rel : ℕ) : ℤ) <
        cumPlain + (first.record chunkSize).plainLen := by
      rw [plainSize_cons, record_plainLen]
      omega
    have hcum : (cumPlain : ℤ) + (first.record chunkSize).plainLen =
        (cumPlain + first.data.length : ℕ) := (Nat.cast_add _ _).symm
    rw [cons_append, map_cons, findPartChunk, if_neg hpast, hcum, plainSize_cons,
      ← Nat.add_assoc, hlater, length_cons]
    congr 2
    omega

section

variable (hlaid : m.LaidOut chunkSize parts)

include hlaid

theorem LaidOut.plainOffsetToPartChunk_eq (hin : LiesIn parts offset before part after rel) :
    m.plainOffsetToPartChunk offset =
      .ok (before.length, (rel / chunkSize : ℕ), (rel % chunkSize : ℕ)) := by
  have hmem : part ∈ parts := by
    rw [hin.parts_eq]
    exact mem_append_right _ (mem_cons_self ..)
  obtain ⟨-, -, hcount⟩ := hlaid.fits.of_mem hmem
  have hfind := @findPartChunk_records m chunkSize before after part rel hlaid.chunkSize_eq
    hlaid.chunkSize_pos hcount hin.rel_lt 0 0
  have htotal : offset < plainSize parts := by
    have hrel := hin.rel_lt
    rw [hin.parts_eq, plainSize_append, plainSize_cons, hin.offset_eq]
    omega
  rw [Nat.zero_add, Nat.zero_add, ← hin.offset_eq, ← hin.parts_eq, ← hlaid.parts_eq] at hfind
  rw [plainOffsetToPartChunk, hlaid.validateLayout_eq]
  show (if (offset : ℤ) < 0 ∨ m.totalPlainSize ≤ offset then _ else _) = _
  rw [if_neg (by rw [hlaid.total_eq]; omega)]
  exact hfind

theorem LaidOut.encOffset_eq (hparts : parts = before ++ after) :
    m.encOffset before.length = encSize chunkSize before := by
  rw [encOffset, hlaid.parts_eq, hparts, map_append, take_left' (length_map ..),
    map_map, encSize, Nat.cast_list_sum, map_map]
  rfl

theorem LaidOut.plainOffset_eq (count : ℕ) :
    m.plainOffset count = plainSize (parts.take count) := by
  rw [plainOffset, hlaid.parts_eq, ← map_take, map_map, plainSize, Nat.cast_list_sum, map_map]
  rfl

/-- **The planned range.**  It begins with the chunk of the first byte and ends with the
chunk of the last one. -/
theorem LaidOut.encRangeForPlaintextRange_eq {pStart pEnd : ℕ} (hle : pStart ≤ pEnd)
    (hfirst : LiesIn parts pStart before part after rel) {before' after' : List PlainPart}
    {part' : PlainPart} {rel' : ℕ} (hlast : LiesIn parts pEnd before' part' after' rel') :
    m.encRangeForPlaintextRange pStart pEnd = .ok
      { encStart := (encSize chunkSize before + rel / chunkSize * (chunkSize + tagSize) : ℕ)
        encEnd := (encSize chunkSize before' +
          part'.encUpTo chunkSize (rel' / chunkSize + 1) : ℕ) - 1
        partStartIdx := before.length
        chunkStart := (rel / chunkSize : ℕ)
        partEndIdx := before'.length
        chunkEnd := (rel' / chunkSize : ℕ) } := by
  have hpos := hlaid.chunkSize_pos
  have htotal : pEnd < plainSize parts := by
    have hrel := hlast.rel_lt
    rw [hlast.parts_eq, plainSize_append, plainSize_cons, hlast.offset_eq]
    omega
  have hpart : m.parts[before'.length]? = some (part'.record chunkSize) := by
    rw [hlaid.parts_eq, hlast.parts_eq, map_append, map_cons,
      List.getElem?_append_right (length_map ..).le, length_map, Nat.sub_self,
      List.getElem?_cons_zero]
  rw [encRangeForPlaintextRange, hlaid.validateLayout_eq]
  show (if (pStart : ℤ) < 0 ∨ (pEnd : ℤ) < pStart ∨ m.totalPlainSize ≤ pEnd then _ else _) = _
  rw [if_neg (by rw [hlaid.total_eq]; omega), hlaid.plainOffsetToPartChunk_eq hfirst,
    hlaid.plainOffsetToPartChunk_eq hlast]
  simp only [bind, Except.bind, hpart, hlaid.encOffset_eq hfirst.parts_eq,
    hlaid.encOffset_eq hlast.parts_eq, record, hlaid.chunkSize_eq]
  have hindex := div_lt_chunkCount hpos hlast.rel_lt
  congr 2
  by_cases hend : rel' / chunkSize + 1 = part'.chunkCount chunkSize
  · rw [if_pos (by omega), hend, encUpTo_chunkCount hpos]
    push_cast
    ring
  · rw [if_neg (by omega), encUpTo_of_lt hpos (by omega)]
    push_cast
    ring

end

end MultipartManifest

end S3EncryptionGateway.Crypto
