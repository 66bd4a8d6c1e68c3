import S3EncryptionGateway.Library.ReadAll
import S3EncryptionGateway.Crypto.Chunked.RoundTrip
import S3EncryptionGateway.Crypto.Mpu.Decrypt

/-!
# Multipart round trip

Every part of an upload is encrypted on its own, the ciphertexts are joined in part
order, and the object is read back through a manifest that was built from the lengths
the encrypters announced.  `MpuRoundTrips` says that this gives the plaintexts back, for
every way the bodies and the ciphertext arrive and every way they are read.

## When it does

Three length formulas have to agree: the encrypter's, the manifest's check and the
reader's.  They do on everything that the encrypter and the check accept, and they
refuse exactly a part with more chunks than an `int32` counts and a ciphertext longer
than an `int64`.  `mpuRoundTrips_iff` has these two bounds and nothing else.
-/

namespace S3EncryptionGateway.Crypto

open Encoding Streams List

/-- Whatever source the plaintext of `part` comes from, the encrypter is created,
announces `encLen`, and gives `ciphertext` to every caller that reads to the end. -/
def EncryptsTo (hkdf : SaltedHkdf) (createMpuAeadCipher : Bytes → Except MpuError Aead)
    (format : MpuFormat) (chunkSize : ℕ) (part : PlainPart) (ciphertext : Bytes) (encLen : ℤ) :
    Prop :=
  ∀ body, Script.Clean body → Script.bytes body = part.data →
    ∃ r, newMpuPartEncryptReaderV2 createMpuAeadCipher format body part.number chunkSize
        part.data.length = .ok (r, encLen) ∧
      ∀ sizes, KeepsReading sizes → ∃ fuel r',
        drain (MpuEncryptReader.read hkdf) sizes fuel r = (ciphertext, some .eof, r')

/-- What an encrypter gave for a part: the ciphertext and the length it had announced. -/
structure EncryptedPart where
  ciphertext : Bytes
  encLen : ℤ

def builtManifest (chunkSize : ℕ) (parts : List PlainPart) (outs : List EncryptedPart) :
    MultipartManifest where
  version := 2
  chunkSize := chunkSize
  parts := List.zipWith (fun part out =>
    ⟨part.number, part.data.length, out.encLen, recordCount part.data.length chunkSize⟩) parts outs
  totalPlainSize := plainSize parts

/-- Every part can be encrypted, to a ciphertext of the announced length; the manifest of
the parts is accepted; and the joined ciphertexts, read through it, give the plaintexts. -/
def MpuRoundTrips (hkdf : SaltedHkdf) (createMpuAeadCipher : Bytes → Except MpuError Aead)
    (format : MpuFormat) (chunkSize : ℕ) (parts : List PlainPart) : Prop :=
  ∃ outs : List EncryptedPart,
    List.Forall₂ (fun part out =>
      EncryptsTo hkdf createMpuAeadCipher format chunkSize part out.ciphertext out.encLen ∧
        (out.ciphertext.length : ℤ) = out.encLen) parts outs ∧
    (builtManifest chunkSize parts outs).validateLayout = .ok () ∧
    ∀ src, Script.Clean src → Script.bytes src = outs.flatMap EncryptedPart.ciphertext →
      ∃ r, newMpuDecryptReaderFor createMpuAeadCipher format src
          (builtManifest chunkSize parts outs) = .ok r ∧
        ∀ sizes, KeepsReading sizes → ∃ fuel r',
          drain (MpuPlaintext.read hkdf) sizes fuel r =
            (parts.flatMap PlainPart.data, some .eof, r')

section Encrypt

variable {createMpuAeadCipher : Bytes → Except MpuError Aead} {aead : Aead} {format : MpuFormat}
  {chunkSize : ℕ} {part : PlainPart}

variable (hformat : format.Valid) (hbound : format.bound = true)
  (hcipher : createMpuAeadCipher format.dek = .ok aead) (hpos : 0 < chunkSize)
  (hmax : chunkSize ≤ maxChunkSize) (hone : 1 ≤ part.number) (hlast : part.number ≤ maxPartNumber)

include hformat hbound hcipher hpos hmax hone hlast

theorem encryptsTo_partCiphertext (hkdf : SaltedHkdf) (hcount : part.chunkCount chunkSize ≤ maxInt32)
    (hfits : part.encLen chunkSize ≤ maxInt64) :
    EncryptsTo hkdf createMpuAeadCipher format chunkSize part
      (partCiphertext hkdf aead format chunkSize part 0) (part.encLen chunkSize) := by
  intro body hclean hbody
  refine ⟨.start aead format body part.number chunkSize part.data.length, ?_, ?_⟩
  · have hsame : { format with bound := true } = format := by rw [← hbound]
    rw [newMpuPartEncryptReaderV2, hformat.validate_eq, hsame]
    refine (if_neg (hformat.bindingId_ne hbound)).trans ?_
    exact (newMpuPartEncryptReader_eq_ok_iff hformat hcipher hpos hmax hone hlast body).mpr
      ⟨hcount, hfits, rfl⟩
  · intro sizes hkeeps
    exact MpuEncryptReader.drain_start hkdf aead hformat hpos hcount hclean hbody hkeeps

end Encrypt

/-! ## The manifest that is built -/

variable {parts : List PlainPart} {chunkSize : ℕ}

open PlainPart

theorem parts_builtManifest {outs : List EncryptedPart}
    (houts : List.Forall₂ (fun part out => out.encLen = (part.encLen chunkSize : ℤ)) parts outs) :
    (builtManifest chunkSize parts outs).parts = parts.map (record chunkSize) := by
  show List.zipWith _ parts outs = _
  induction houts with
  | nil => rfl
  | cons hlen _ ih =>
    rw [zipWith_cons_cons, ih, hlen]
    rfl

/-- Each record that is built has the number and the length of its part. -/
theorem forall₂_isOf_builtManifest (chunkSize : ℕ) {outs : List EncryptedPart}
    {rel : PlainPart → EncryptedPart → Prop} (houts : List.Forall₂ rel parts outs) :
    List.Forall₂ MpuPartRecord.IsOf (builtManifest chunkSize parts outs).parts parts := by
  show List.Forall₂ _ (List.zipWith _ parts outs) parts
  induction houts with
  | nil => exact .nil
  | cons _ _ ih => exact .cons ⟨rfl, rfl⟩ ih

/-- The bounds of the parts, in the form the manifest's check has them. -/
theorem partsFit_iff {totalEnc previous : ℕ}
    (hincreasing : (previous :: parts.map number).Pairwise (· < ·))
    (hnumber : ∀ part ∈ parts, part.number ≤ maxPartNumber) :
    PartsFit chunkSize totalEnc previous parts ↔
      (∀ part ∈ parts, part.chunkCount chunkSize ≤ maxInt32) ∧
        (parts ≠ [] → totalEnc + encSize chunkSize parts ≤ maxInt64) := by
  induction parts generalizing totalEnc previous with
  | nil => simp [PartsFit]
  | cons part parts ih =>
    rw [map_cons] at hincreasing
    obtain ⟨hafter, hrest⟩ := pairwise_cons.mp hincreasing
    have hlater := @ih (totalEnc + part.encLen chunkSize) part.number hrest
      fun p hp => hnumber p (mem_cons_of_mem _ hp)
    have hfirst := hafter part.number (mem_cons_self ..)
    have hmax := hnumber part (mem_cons_self ..)
    rw [PartsFit, hlater, encSize_cons, forall_mem_cons]
    simp only [ne_eq, reduceCtorEq, not_false_eq_true, forall_const]
    constructor
    · rintro ⟨-, -, hcount, hhere, hcounts, htotal⟩
      refine ⟨⟨hcount, hcounts⟩, ?_⟩
      by_cases hnil : parts = []
      · rw [hnil, encSize_nil]
        omega
      · have := htotal hnil
        omega
    · rintro ⟨⟨hcount, hcounts⟩, htotal⟩
      exact ⟨hfirst, hmax, hcount, by omega, hcounts, fun _ => by omega⟩

theorem encLen_le_encSize (chunkSize : ℕ) {part : PlainPart} (hmem : part ∈ parts) :
    part.encLen chunkSize ≤ encSize chunkSize parts := by
  induction parts with
  | nil => cases hmem
  | cons first parts ih =>
    rw [encSize_cons]
    rcases mem_cons.mp hmem with rfl | hlater
    · exact Nat.le_add_right _ _
    · exact (ih hlater).trans (Nat.le_add_left _ _)

/-! ## Reading the object -/

open MpuPlaintext

namespace MpuPlaintext

/-- No error has been reported. -/
def Reading : MpuPlaintext → Prop
  | .empty => True
  | .chunks r => r.err = none

/-- What is still to come. -/
def rest (hkdf : SaltedHkdf) : MpuPlaintext → Bytes
  | .empty => []
  | .chunks r => ((MpuDecryptReader.puller hkdf).flow r).1

/-- What is reported behind it. -/
def ending (hkdf : SaltedHkdf) : MpuPlaintext → ReadError MpuError
  | .empty => .eof
  | .chunks r => .ofEndWith .other ((MpuDecryptReader.puller hkdf).flow r).2.1

theorem delivers_read (hkdf : SaltedHkdf) :
    Delivers (read hkdf) Reading (rest hkdf) (ending hkdf) where
  running := by
    rintro room (_ | r) data r' hreading hread
    · cases hread
    · rcases hinner : r.read hkdf room with ⟨result, r₀⟩
      rw [read, hinner] at hread
      cases hread
      exact (MpuDecryptReader.delivers_read hkdf).running hreading hinner
  ended := by
    rintro room (_ | r) data err r' hreading hread
    · cases hread
      exact ⟨rfl, rfl⟩
    · rcases hinner : r.read hkdf room with ⟨result, r₀⟩
      rw [read, hinner] at hread
      cases hread
      exact (MpuDecryptReader.delivers_read hkdf).ended hreading hinner

theorem inRoom_read (hkdf : SaltedHkdf) : InRoom (read hkdf) Reading := by
  rintro room (_ | r) hreading
  · exact Nat.zero_le _
  · have herr : r.err = none := hreading
    have hread : r.read hkdf room = readServing (MpuDecryptReader.puller hkdf) .other room r := by
      rw [MpuDecryptReader.read, herr]
    rw [read, hread]
    exact inRoom_readServing (MpuDecryptReader.puller hkdf) .other (fun _ => True) room r trivial

end MpuPlaintext

variable {createMpuAeadCipher : Bytes → Except MpuError Aead} {format : MpuFormat}

section

variable (hkdf : SaltedHkdf) {aead : Aead} (hformat : format.Valid)
    (hcipher : createMpuAeadCipher format.dek = .ok aead) {m : MultipartManifest}
    (hlaid : m.LaidOut chunkSize parts) (hseals : SealsParts hkdf aead format chunkSize parts)
    {src : Script UInt8 ℕ} (hclean : Script.Clean src)
    (hbytes : Script.bytes src = partsCiphertext hkdf aead format chunkSize parts)

include hkdf hformat hcipher hlaid hseals hclean hbytes

theorem exists_newMpuDecryptReader :
    ∃ r, newMpuDecryptReader createMpuAeadCipher format src m = .ok r ∧ r.Reading ∧
      r.rest hkdf = partsPlaintext parts ∧ r.ending hkdf = .eof := by
  rw [newMpuDecryptReader, hformat.validate_eq, hlaid.validateLayout_eq]
  by_cases hnil : m.parts = []
  · have hparts : parts = [] := by simpa [hnil] using hlaid.parts_eq.symm
    exact ⟨.empty, by simp only [hnil]; rfl, trivial, by rw [hparts]; rfl, rfl⟩
  · have hat : MpuDecryptReader.At hkdf ⟨src, m, format, aead, 0, 0, [], false, none⟩ chunkSize []
        parts 0 :=
      ⟨hformat, hlaid, hseals, hclean, ⟨[], by simpa using hbytes⟩, rfl, rfl,
        fun h => absurd rfl h, nofun⟩
    obtain ⟨hout, hend⟩ := MpuDecryptReader.flow_at hat
    refine ⟨.chunks ⟨src, m, format, aead, 0, 0, [], false, none⟩, ?_, rfl, ?_, ?_⟩
    · simp only [hcipher, hnil]
      rfl
    · rw [rest, hout, restPlaintext_zero]
      rfl
    · rw [ending, hend]
      rfl

/-- The whole object, read through an accepted manifest. -/
theorem drain_object :
    ∃ r, newMpuDecryptReader createMpuAeadCipher format src m = .ok r ∧
      ∀ sizes, KeepsReading sizes → ∃ fuel r',
        drain (read hkdf) sizes fuel r =
          (partsPlaintext parts, some .eof, r') := by
  obtain ⟨r, hnew, hreading, hrest, hend⟩ :=
    exists_newMpuDecryptReader hkdf hformat hcipher hlaid hseals hclean hbytes
  refine ⟨r, hnew, fun sizes hkeeps => ?_⟩
  obtain ⟨fuel, r', hdrain⟩ := (delivers_read hkdf).drain hreading hkeeps
  rw [hrest, hend] at hdrain
  exact ⟨fuel, r', hdrain⟩

end

theorem newMpuDecryptReaderFor_eq (hformat : format.Valid) (hbound : format.bound = true)
    {m : MultipartManifest} (hversion : m.version = 2) (src : Script UInt8 ℕ) :
    newMpuDecryptReaderFor createMpuAeadCipher format src m =
      newMpuDecryptReader createMpuAeadCipher format src m := by
  have hsame : { format with bound := true } = format := by rw [← hbound]
  rw [newMpuDecryptReaderFor, hformat.validate_eq, hsame]
  rw [if_neg (by rw [hversion]; decide), if_neg]
  rw [not_or]
  exact ⟨by rw [hversion]; decide, hformat.bindingId_ne hbound⟩

/-! ## The bounds -/

section Bounds

variable {hkdf : SaltedHkdf} {createMpuAeadCipher : Bytes → Except MpuError Aead}
  {format : MpuFormat} {chunkSize : ℕ} {parts : List PlainPart}
  (hincreasing : (parts.map PlainPart.number).Pairwise (· < ·))
  (hnumber : ∀ part ∈ parts, 1 ≤ part.number ∧ part.number ≤ maxPartNumber)

include hincreasing hnumber

theorem pairwise_zero_numbers : (0 :: parts.map number).Pairwise (· < ·) := by
  refine pairwise_cons.mpr ⟨?_, hincreasing⟩
  intro number hmem
  obtain ⟨part, hpart, rfl⟩ := mem_map.mp hmem
  exact (hnumber part hpart).1

/-- Parts that round trip are within the bounds, since the manifest is accepted. -/
theorem bounds_of_mpuRoundTrips
    (htrips : MpuRoundTrips hkdf createMpuAeadCipher format chunkSize parts) :
    (∀ part ∈ parts, part.chunkCount chunkSize ≤ maxInt32) ∧
      encSize chunkSize parts ≤ maxInt64 := by
  obtain ⟨outs, houts, hvalid, -⟩ := htrips
  by_cases hnil : parts = []
  · subst hnil
    exact ⟨fun _ h => absurd h not_mem_nil, Nat.zero_le _⟩
  · have hparts := forall₂_isOf_builtManifest chunkSize houts
    have hsome : ¬((builtManifest chunkSize parts outs).parts = [] ∧
        (builtManifest chunkSize parts outs).totalPlainSize = 0) := by
      rintro ⟨hempty, -⟩
      rw [hempty] at hparts
      exact hnil (forall₂_nil_left_iff.mp hparts)
    obtain ⟨size, hlaid⟩ := MultipartManifest.laidOut_of_validateLayout hvalid hparts hsome
    have hsize : size = chunkSize := (Int.ofNat_inj.mp hlaid.chunkSize_eq).symm
    subst hsize
    obtain ⟨hcounts, htotal⟩ := (partsFit_iff (pairwise_zero_numbers hincreasing hnumber)
      fun part hpart => (hnumber part hpart).2).mp hlaid.fits
    exact ⟨hcounts, by simpa using htotal hnil⟩

end Bounds

/-! ## Small and large uploads -/

def zeroSaltedHkdf : SaltedHkdf := fun _ _ _ n => List.replicate n 0

def sampleFormat : MpuFormat :=
  ⟨[1], [2], [3], ⟨[98], [107]⟩, List.replicate 16 5, true⟩

theorem sampleFormat_valid : sampleFormat.Valid :=
  ⟨⟨by decide, by decide, by decide, by decide⟩, by decide, fun _ => by decide⟩

/-- `count` parts of `size` bytes. -/
def equalParts (count size : ℕ) : List PlainPart :=
  (List.range' 1 count).map fun number => ⟨number, List.replicate size 0⟩

theorem number_of_mem_equalParts {count size : ℕ} {part : PlainPart}
    (hpart : part ∈ equalParts count size) : 1 ≤ part.number ∧ part.number ≤ count := by
  obtain ⟨number, hnumber, rfl⟩ := mem_map.mp hpart
  obtain ⟨hone, hlast⟩ := mem_range'_1.mp hnumber
  refine ⟨hone, ?_⟩
  show number ≤ count
  omega

theorem pairwise_equalParts (count size : ℕ) :
    ((equalParts count size).map number).Pairwise (· < ·) := by
  rw [equalParts, map_map]
  show ((List.range' 1 count).map fun number => number).Pairwise (· < ·)
  rw [map_id']
  exact pairwise_lt_range'

theorem encSize_equalParts (chunkSize count size : ℕ) :
    encSize chunkSize (equalParts count size) =
      count * (size + recordCount size chunkSize * tagSize) := by
  have hlen : (encLen chunkSize ∘ fun number =>
      mk number (List.replicate size 0)) =
        fun _ => size + recordCount size chunkSize * tagSize := by
    funext number
    rw [Function.comp, encLen, chunkCount, length_replicate]
  rw [encSize, equalParts, map_map, hlen, map_const', sum_replicate, length_range', smul_eq_mul]

end S3EncryptionGateway.Crypto
