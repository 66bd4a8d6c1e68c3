import S3EncryptionGateway.Library.Base64
import S3EncryptionGateway.Crypto.ObjectAad

/-!
# The state of a multipart upload

One hash of the state store holds an upload: the sealed metadata, three control
fields that mirror a part of it, and one field per part.  This file has the data
model, the reading of a hash (`get`) and the commitment to a part's plaintext
(`computePartClaim`).

The sealed metadata is represented by the state it opens to; a failure to open it
is an error of the store and left to the caller of `get`.
-/

namespace S3EncryptionGateway.Mpu

open Encoding
open S3EncryptionGateway.Crypto (ascii)

/-- The errors of the package, with the text of each. -/
inductive MpuError where
  /-- "mpu: upload not found" -/
  | uploadNotFound
  /-- "mpu: upload already exists" -/
  | uploadAlreadyExists
  /-- "mpu: state store unavailable" -/
  | stateUnavailable
  /-- "mpu: part content differs from immutable claim" -/
  | partContentMismatch
  /-- "mpu: part reservation is in progress" -/
  | partInProgress
  /-- "mpu: unsupported in-flight state version" -/
  | invalidStateVersion
  /-- "mpu: upload is not open" -/
  | invalidPhase
  /-- "mpu: state revision changed" -/
  | revisionConflict
  /-- "mpu: selected parts or etags do not match committed state" -/
  | completeMismatch
  /-- "mpu: state record for %q missing meta field" -/
  | missingMeta
  /-- "mpu: invalid binding ID" -/
  | invalidBindingId
  /-- "mpu: zero binding ID" -/
  | zeroBindingId
  /-- "mpu: invalid part claim input" -/
  | invalidClaimInput

inductive UploadPhase where
  | open_
  | completing
  | completed
  | aborting
  | aborted
  deriving DecidableEq

inductive PartStatus where
  | reserved
  | committed
  deriving DecidableEq

/-- The version of the state that part claims belong to. -/
def currentStateVersion : ℕ := 2

/-- What a part field holds.  A field that the record's text leaves out is `none`. -/
structure PartRecord where
  partNumber : ℕ
  plainLen : ℕ
  claim : Option Bytes
  status : Option PartStatus
  token : Option Bytes
  leaseUntil : Option ℕ
  etag : Option String
  encLen : Option ℕ
  chunks : Option ℕ
  deriving DecidableEq

/-- What a request claims, and later commits, for a part. -/
structure PartClaim where
  partNumber : ℕ
  claim : Bytes
  plainLen : ℕ
  token : Bytes
  etag : String
  encLen : ℕ
  chunkCount : ℕ
  deriving DecidableEq

structure PolicySnapshot where
  encryptMultipartUploads : Bool
  deriving DecidableEq

/-- The state under the metadata's seal.  The phase of a legacy state is `none`,
and its revision 0. -/
structure UploadState where
  uploadId : String
  bucket : String
  key : String
  bindingId : String
  wrappedDek : String
  ivPrefixHex : String
  algorithm : String
  chunkSize : ℤ
  policySnapshot : PolicySnapshot
  stateVersion : ℕ
  phase : Option UploadPhase
  revision : ℕ
  deriving DecidableEq

structure UploadHash where
  sealedMeta : Option UploadState
  stateVersion : Option ℕ
  phase : Option UploadPhase
  revision : Option ℕ
  parts : ℕ → Option PartRecord

/-- The hash of a key that does not exist: every field read from it is absent. -/
def UploadHash.missing : UploadHash :=
  ⟨none, none, none, none, fun _ => none⟩

/-- The 16 bytes of the binding, `none` for a legacy upload without one. -/
def UploadState.bindingIdBytes (state : UploadState) : Except MpuError (Option Bytes) :=
  if state.bindingId = "" then .ok none
  else
    match Base64.decodeRawUrl state.bindingId.toList with
    | none => .error .invalidBindingId
    | some bytes =>
      if bytes.length ≠ 16 then .error .invalidBindingId
      else if bytes = List.replicate 16 0 then .error .zeroBindingId
      else .ok (some bytes)

/-- The mirrored control fields must agree with the sealed metadata, as far as it
has them. -/
def UploadHash.checkMirrors (hash : UploadHash) (state : UploadState) : Except MpuError Unit :=
  if state.stateVersion = currentStateVersion ∧ hash.stateVersion.isSome ∧ hash.phase.isSome ∧
      hash.revision.isSome ∧ hash.stateVersion ≠ some state.stateVersion then
    .error .invalidStateVersion
  else if state.phase.isSome ∧ hash.phase ≠ state.phase then .error .invalidPhase
  else if state.revision ≠ 0 ∧ hash.revision ≠ some state.revision then .error .revisionConflict
  else .ok ()

def get (store : Option UploadHash) : Except MpuError UploadState :=
  match store with
  | none => .error .uploadNotFound
  | some hash =>
    match hash.sealedMeta with
    | none => .error .missingMeta
    | some state => do
        if state.policySnapshot.encryptMultipartUploads then
          let _ ← state.bindingIdBytes
        hash.checkMirrors state
        return state

/-- The metadata that goes with a mutation: the state as it was read, with the
control fields the mutation establishes. -/
def controlMeta (state : UploadState) (phase : UploadPhase) (revision : ℕ) : UploadState :=
  { state with stateVersion := currentStateVersion, phase := some phase, revision := revision }

/-! ## The commitment to a part -/

/-- What the commitment authenticates. -/
def partClaimMessage (partNumber : ℕ) (plaintext : Bytes) : Bytes :=
  ascii "s3eg:mpu-part-claim:v1\x00" ++ bigEndian 4 partNumber ++
    bigEndian 8 plaintext.length ++ plaintext

/-- The keyed commitment to a part's exact plaintext. -/
def computePartClaim (hmac : Bytes → Bytes → Bytes) (dek : Bytes) (partNumber : ℕ)
    (plaintext : Bytes) : Except MpuError Bytes :=
  if dek = [] ∨ partNumber < 1 ∨ 10000 < partNumber then .error .invalidClaimInput
  else .ok (hmac dek (partClaimMessage partNumber plaintext))

/-- Claims under a collision-free hash determine the plaintext of the part. -/
theorem computePartClaim_inj {hmac : Bytes → Bytes → Bytes} {dek claim : Bytes}
    (hinj : Function.Injective (hmac dek)) {partNumber : ℕ} {first second : Bytes}
    (hfirst : computePartClaim hmac dek partNumber first = .ok claim)
    (hsecond : computePartClaim hmac dek partNumber second = .ok claim) : first = second := by
  unfold computePartClaim at hfirst hsecond
  split at hfirst
  · cases hfirst
  rename_i hvalid
  rw [if_neg hvalid] at hsecond
  cases hfirst
  have hmessage : partClaimMessage partNumber second = partClaimMessage partNumber first :=
    hinj (Except.ok.inj hsecond)
  unfold partClaimMessage at hmessage
  simp only [List.append_assoc, List.append_cancel_left_eq] at hmessage
  -- the two plaintexts are what follows eight bytes of length
  have hlength : (bigEndian 8 second.length).length = (bigEndian 8 first.length).length := by
    rw [length_bigEndian, length_bigEndian]
  exact (List.append_inj_right hmessage hlength).symm

end S3EncryptionGateway.Mpu
