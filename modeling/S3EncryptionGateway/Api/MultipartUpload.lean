import S3EncryptionGateway.Mpu.Lifecycle
import S3EncryptionGateway.Metadata.WritePlan

/-!
# The handlers of a multipart upload

A multipart upload is encrypted part by part or not at all.  Three things say which: the
marker in the metadata that the backend freezes when the upload is created, the policy
snapshot in the state that the gateway keeps for the upload, and what the handlers do with
the parts.

This file has the handlers of creation, of parts (uploaded or copied) and of completion,
each as a machine whose steps are one access to the policy, the state store or the
backend; and the system that runs one creation together with any number of other requests,
reloads of the policy and aborts, in any order.

Checks that only refuse a request before it has done anything (of its headers, its part
number, its credentials and so on) are the event `refuse`.
-/

namespace S3EncryptionGateway.Api.Multipart

open Encoding Text MapRange Metadata
open S3EncryptionGateway.Mpu (UploadState UploadHash MpuError PartClaim SelectedPart Call CallPc
  readState currentStateVersion computePartClaim)

/-! ## What the gateway is made of -/

/-- What the policies in force say about the bucket. -/
structure Policy where
  encryptsMultipart : Bool
  requiresEncryption : Bool

/-- The configuration, the key management and the part encrypter. -/
structure Gateway where
  hasStateStore : Bool
  hasKeyManager : Bool
  allowUntrackedPlaintextUploads : Bool
  filterKeys : List Str
  leaseTime : ℕ
  hmac : Bytes → Bytes → Bytes
  /-- The key of a state, for a bucket. -/
  unwrapMpuDek : String → UploadState → Option Bytes
  /-- Bucket, key, binding and key of the upload, its other parameters in the state, the
  part number and the plaintext. -/
  mpuPartEncrypter : String → String → Bytes → Bytes → UploadState → ℕ → Bytes → Option Bytes

namespace Gateway

variable (gw : Gateway)

def mpuEncryptionReady : Bool :=
  gw.hasStateStore && gw.hasKeyManager

/-- The policy wants encrypted uploads and something for them is missing. -/
def mpuGuardMisconfig (policy : Policy) : Bool :=
  policy.encryptsMultipart && !gw.mpuEncryptionReady

/-- The state that a request is routed by. -/
def uploadState (succeeds : Bool) (store : Option UploadHash) :
    Except MpuError (Option UploadState) :=
  if gw.hasStateStore = false then .ok none
  else if succeeds = false then .error .stateUnavailable
  else
    match Mpu.get store with
    | .ok state => .ok (some state)
    | .error .uploadNotFound =>
      if gw.allowUntrackedPlaintextUploads then .ok none else .error .uploadNotFound
    | .error err => .error err

def encryptMpuPartWithState (bucket key : String) (partNumber : ℕ) (plaintext : Bytes)
    (state : UploadState) : Option Bytes := do
  let dek ← gw.unwrapMpuDek bucket state
  match state.bindingIdBytes with
  | .ok (some bindingId) => gw.mpuPartEncrypter bucket key bindingId dek state partNumber plaintext
  | _ => none

end Gateway

def validateMpuRouteIdentity (state : UploadState) (bucket key : String) : Bool :=
  state.bucket = bucket && state.key = key

/-- Whether a request with this state takes the encrypted path; one without a state, as far
as it is let through, does not. -/
def routesEncrypted (state : Option UploadState) : Bool :=
  state.any UploadState.encrypted

/-! ## Creation -/

structure CreateRequest where
  bucket : String
  key : String
  standardVisits : StandardHeader → List (Str × List Str)
  visits : List (Str × List Str)

def metaMpuEncrypted : Str := "x-amz-meta-encrypted-mpu".toList
def metaObjectBindingId : Str := "x-amz-meta-encryption-binding-id".toList
def metaFallbackMode : Str := "x-amz-meta-encryption-fallback".toList
def metaFallbackPointer : Str := "x-amz-meta-encryption-fallback-ptr".toList
def mpuManifestSuffix : Str := ".mpu-manifest".toList

/-- The metadata that says the object is an encrypted upload. -/
def setMarkers (key : String) (bindingId : Bytes) (metadata : Map Str Str) : Map Str Str :=
  (((metadata.insert metaMpuEncrypted "v2".toList).insert metaObjectBindingId
    (Base64.encodeRawUrl bindingId)).insert metaFallbackMode "mpu".toList).insert
    metaFallbackPointer (key.toList ++ mpuManifestSuffix)

def withContentType (metadata : Map Str Str) : Map Str Str :=
  if (metadata.lookup StandardHeader.contentType.name).getD [] = [] then
    metadata.insert StandardHeader.contentType.name "application/octet-stream".toList
  else metadata

/-- The metadata given to the backend; there is a binding if the upload is marked. -/
def createMetadata (filterKeys : List Str) (key : String) (m : WriteMetadata)
    (bindingId : Option Bytes) : Map Str Str :=
  let metadata := withContentType (m.engineInput none)
  let marked :=
    match bindingId with
    | some bindingId => setMarkers key bindingId metadata
    | none => metadata
  let persist := buildPersistPlan marked false filterKeys
  persist.native.applyTo persist.metadata

/-- What `initMPUEncryptionState` generates and has wrapped. -/
structure KeyMaterial where
  wrappedDek : String
  ivPrefixHex : String
  algorithm : String

def defaultChunkSize : ℤ := 65536

def initMpuEncryptionState (gw : Gateway) (request : CreateRequest) (uploadId : String)
    (bindingId : Bytes) (material : Option KeyMaterial) : Option UploadState :=
  if bindingId = List.replicate 16 0 ∨ gw.hasKeyManager = false then none
  else
    material.map fun material =>
      { uploadId := uploadId
        bucket := request.bucket
        key := request.key
        bindingId := String.ofList (Base64.encodeRawUrl bindingId)
        wrappedDek := material.wrappedDek
        ivPrefixHex := material.ivPrefixHex
        algorithm := if material.algorithm = "" then "AES256-GCM" else material.algorithm
        chunkSize := defaultChunkSize
        policySnapshot := ⟨true⟩
        stateVersion := currentStateVersion
        phase := some .open_
        revision := 1 }

/-- The state of the new upload by the policy now in force; `none` if it cannot be made. -/
def newUploadState (gw : Gateway) (request : CreateRequest) (policy : Policy) (uploadId : String)
    (metadata : Map Str Str) (material : Option KeyMaterial) : Option UploadState :=
  if policy.encryptsMultipart then
    match Base64.decodeRawUrl ((metadata.lookup metaObjectBindingId).getD []) with
    | some bindingId =>
      if bindingId.length = 16 then
        initMpuEncryptionState gw request uploadId bindingId material
      else none
    | none => none
  else
    some
      { uploadId := uploadId
        bucket := request.bucket
        key := request.key
        bindingId := ""
        wrappedDek := ""
        ivPrefixHex := ""
        algorithm := ""
        chunkSize := 0
        policySnapshot := ⟨false⟩
        stateVersion := currentStateVersion
        phase := some .open_
        revision := 1 }

inductive CreatePc where
  | received
  | guarded
  /-- The metadata is made. -/
  | marked (metadata : Map Str Str)
  /-- The backend has the upload. -/
  | initiated (metadata : Map Str Str) (uploadId : String)
  /-- The state is made and about to be stored. -/
  | tracking (state : UploadState)
  | aborting
  | returned
  | refused

inductive CreateEvent where
  | guard
  | refuse
  /-- The binding, if the random source delivers it. -/
  | mark (bindingId : Option Bytes)
  /-- The upload ID, if the backend creates the upload. -/
  | initiate (uploadId : Option String)
  | snapshot (material : Option KeyMaterial)
  | store (reply : Mpu.Reply)
  | abort

/-! ## Parts -/

inductive SourceClass where
  | plaintext
  | chunked
  | legacy
  | mpuEncrypted

/-- The range of an object that a part is copied from: what the backend stores, and what
the gateway reads from it. -/
structure CopySource where
  sourceClass : SourceClass
  stored : Bytes
  plaintext : Bytes
  stored_eq : sourceClass = .plaintext → stored = plaintext

inductive PartInput where
  | body (bytes : Bytes)
  | copy (source : CopySource)

/-- The bytes the client means the part to have. -/
def PartInput.content : PartInput → Bytes
  | .body bytes => bytes
  | .copy source => source.plaintext

/-- A part as the backend gets it, with the bytes the client meant. -/
structure SentPart where
  partNumber : ℕ
  content : Bytes
  body : Bytes
  deriving DecidableEq

inductive PartPc where
  | received
  | guarded
  | routed (state : Option UploadState)
  /-- On the encrypted path: the state the request was routed by, its claim, the
  ciphertext once there is one, and where it is in the protocol of claims. -/
  | encrypting (state : UploadState) (part : PartClaim) (body : Option Bytes) (pc : Mpu.Pc)
  | finished
  deriving DecidableEq

inductive PartEvent where
  | guard
  | refuse
  | route (succeeds : Bool)
  | claim (token : Bytes)
  /-- A copy reads the state again for this, and the read can fail. -/
  | encrypt (succeeds : Bool) (outcome : Mpu.EncryptOutcome)
  | protocol (event : Mpu.Event)
  | forward
  deriving DecidableEq

structure PartRequest where
  bucket : String
  key : String
  partNumber : ℕ
  input : PartInput
  pc : PartPc

namespace PartRequest

variable (gw : Gateway) (policy : Policy) (store : Option UploadHash) (r : PartRequest)

/-- What goes to the backend on the plaintext path.  A plaintext source is copied by the
backend itself, unless the policy wants the bucket encrypted. -/
def forwarded : Option SentPart :=
  match r.input with
  | .body bytes => some ⟨r.partNumber, bytes, bytes⟩
  | .copy source =>
    match source.sourceClass with
    | .plaintext =>
      if policy.requiresEncryption then none
      else some ⟨r.partNumber, source.plaintext, source.stored⟩
    | .chunked | .legacy | .mpuEncrypted =>
      some ⟨r.partNumber, source.plaintext, source.plaintext⟩

/-- The claim of the part, on the encrypted path. -/
def claimed (state : UploadState) (token : Bytes) : Option PartClaim :=
  match r.input with
  | .copy _ => if state.stateVersion = currentStateVersion then unversioned else none
  | .body _ => unversioned
where
  unversioned : Option PartClaim := do
    let dek ← gw.unwrapMpuDek r.bucket state
    let claim ← (computePartClaim gw.hmac dek r.partNumber r.input.content).toOption
    return ⟨r.partNumber, claim, r.input.content.length, token, "", 0, 0⟩

/-- The ciphertext.  A copy takes the state and the key from a new read. -/
def encrypted (state : UploadState) (succeeds : Bool) : Option Bytes :=
  match r.input with
  | .body bytes => gw.encryptMpuPartWithState r.bucket r.key r.partNumber bytes state
  | .copy source => do
      let fresh ← readState succeeds store
      gw.encryptMpuPartWithState r.bucket fresh.key r.partNumber source.plaintext fresh

/-- The step of a request for a part: where it is then, the store, and what it sent. -/
def next : PartPc → PartEvent → Option (PartPc × Option UploadHash × Option SentPart)
  | .received, .guard =>
    some (if gw.mpuGuardMisconfig policy then .finished else .guarded, store, none)
  | .received, .refuse | .guarded, .refuse | .routed _, .refuse => some (.finished, store, none)
  | .guarded, .route succeeds =>
    match gw.uploadState succeeds store with
    | .error _ => some (.finished, store, none)
    | .ok none => some (.routed none, store, none)
    | .ok (some state) =>
      if state.encrypted && !validateMpuRouteIdentity state r.bucket r.key then
        some (.finished, store, none)
      else some (.routed (some state), store, none)
  | .routed (some state), .claim token =>
    if state.encrypted then
      match r.claimed gw state token with
      | some part => some (.encrypting state part none (.reserving 0), store, none)
      | none => some (.finished, store, none)
    else none
  | .routed state, .forward =>
    if routesEncrypted state then none else some (.finished, store, r.forwarded policy)
  | .encrypting state part body pc, .encrypt succeeds outcome =>
    match outcome, r.encrypted gw store state succeeds with
    | .failed, _ =>
      (pc.next gw.leaseTime part store (.encrypt .failed)).map fun result =>
        (.encrypting state part body result.1, result.2, none)
    | outcome, some ciphertext =>
      (pc.next gw.leaseTime part store (.encrypt outcome)).map fun result =>
        (.encrypting state part (some ciphertext) result.1, result.2, none)
    | _, none => none
  | .encrypting state part body pc, .protocol event =>
    match event, body with
    | .encrypt _, _ => none
    | .upload, none => none
    | .upload, some ciphertext =>
      (pc.next gw.leaseTime part store .upload).map fun result =>
        (.encrypting state part body result.1, result.2,
          some ⟨r.partNumber, r.input.content, ciphertext⟩)
    | event, _ =>
      (pc.next gw.leaseTime part store event).map fun result =>
        (.encrypting state part body result.1, result.2, none)
  | _, _ => none

end PartRequest

/-! ## Completion -/

/-- The upload as a completion was routed; an encrypted one is closed for new parts at
some revision. -/
inductive CompleteRoute where
  | untracked
  | plaintext
  | encrypted (revision : ℕ)
  deriving DecidableEq

inductive CompletePc where
  | received
  | guarded
  | calling (call : Call) (pc : CallPc)
  | manifest (revision : ℕ)
  | completing (route : CompleteRoute)
  | deleting
  | finished
  deriving DecidableEq

inductive CompleteEvent where
  | guard
  | refuse
  | route (succeeds : Bool)
  | call (event : Mpu.Event)
  | manifest (succeeds : Bool)
  /-- The parts that the backend makes the object of, if it does. -/
  | complete (parts : Option (List SentPart))
  | delete (succeeds : Bool)
  deriving DecidableEq

structure CompleteRequest where
  bucket : String
  key : String
  selection : List SelectedPart
  pc : CompletePc

def afterCall (call : Call) : CallPc → CompletePc
  | .reading => .calling call .reading
  | .scripting state => .calling call (.scripting state)
  | .done state =>
    match call with
    | .beginComplete _ => .manifest (state.revision + 1)
    | .finalizeComplete _ => .deleting
    | .reopen _ | .beginAbort | .finalizeAbort _ => .finished
  | .failed => .finished

/-- The step of a request for completion: where it is then, and the store. -/
def CompleteRequest.next (gw : Gateway) (policy : Policy) (store : Option UploadHash)
    (r : CompleteRequest) : CompletePc → CompleteEvent → Option (CompletePc × Option UploadHash)
  | .received, .guard =>
    some (if gw.mpuGuardMisconfig policy then .finished else .guarded, store)
  | .received, .refuse | .guarded, .refuse => some (.finished, store)
  | .guarded, .route succeeds =>
    match gw.uploadState succeeds store with
    | .error _ => some (.finished, store)
    | .ok none => some (.completing .untracked, store)
    | .ok (some state) =>
      if state.encrypted then
        if validateMpuRouteIdentity state r.bucket r.key then
          some (.calling (.beginComplete r.selection) .reading, store)
        else some (.finished, store)
      else some (.completing .plaintext, store)
  | .calling call pc, .call event =>
    (call.next store pc event).map fun result => (afterCall call result.1, result.2)
  | .manifest revision, .manifest succeeds =>
    some (if succeeds then .completing (.encrypted revision)
      else .calling (.reopen revision) .reading, store)
  | .completing route, .complete parts =>
    match route, parts with
    | .encrypted revision, none => some (.calling (.reopen revision) .reading, store)
    | .encrypted revision, some _ =>
      some (.calling (.finalizeComplete revision) .reading, store)
    | .plaintext, some _ => some (.deleting, store)
    | _, _ => some (.finished, store)
  | .deleting, .delete succeeds => some (.finished, if succeeds then none else store)
  | _, _ => none

/-! ## The system -/

/-- One upload from its creation on, with a record of what the backend was given.
`firstRead` is the policy that was in force when the metadata was made. -/
structure System where
  policy : Policy
  create : CreatePc
  firstRead : Option Policy
  given : Option (Map Str Str)
  store : Option UploadHash
  parts : List PartRequest
  completes : List CompleteRequest
  calls : List (Call × CallPc)
  sent : List SentPart
  objects : List (List SentPart)

def System.initial (policy : Policy) : System :=
  ⟨policy, .received, none, none, none, [], [], [], [], []⟩

inductive Action where
  | reload (policy : Policy)
  | create (event : CreateEvent)
  | arrivePart (bucket key : String) (partNumber : ℕ) (input : PartInput)
  | part (index : ℕ) (event : PartEvent)
  | arriveComplete (bucket key : String) (selection : List SelectedPart)
  | complete (index : ℕ) (event : CompleteEvent)
  /-- A lifecycle call of some other handler, as an abort makes it. -/
  | startCall (call : Call)
  | call (index : ℕ) (event : Mpu.Event)
  /-- The state runs out, or an abort deletes it. -/
  | expire

namespace System

variable (gw : Gateway) (request : CreateRequest) (s : System)

/-- The policy is read a first time when the metadata is made, and a second time when the
state is. -/
def createStep (event : CreateEvent) : Option System :=
  match s.create, event with
  | .received, .guard =>
    some { s with create := if gw.mpuGuardMisconfig s.policy then .refused else .guarded }
  | .received, .refuse | .guarded, .refuse => some { s with create := .refused }
  | .guarded, .mark random =>
    match parseWriteMetadata request.standardVisits request.visits, s.policy.encryptsMultipart,
      random with
    | .error _, _, _ => some { s with create := .refused }
    | .ok _, true, none => some { s with create := .refused }
    | .ok m, true, some bindingId =>
      if bindingId.length = 16 then
        some { s with
          create := .marked (createMetadata gw.filterKeys request.key m (some bindingId))
          firstRead := some s.policy }
      else none
    | .ok m, false, _ =>
      some { s with
        create := .marked (createMetadata gw.filterKeys request.key m none)
        firstRead := some s.policy }
  | .marked metadata, .initiate (some uploadId) =>
    some { s with
      create := .initiated metadata uploadId
      given := some metadata }
  | .marked metadata, .initiate none =>
    some { s with
      create := .refused
      given := some metadata }
  | .initiated metadata uploadId, .snapshot material =>
    if gw.hasStateStore = false then some { s with create := .returned }
    else
      match newUploadState gw request s.policy uploadId metadata material with
      | some state => some { s with create := .tracking state }
      | none => some { s with create := .aborting }
  | .tracking state, .store reply =>
    let created := Mpu.create state s.store
    match reply, created.1 with
    | .delivered, .ok () => some { s with
        create := .returned
        store := created.2 }
    | .delivered, .error _ => some { s with
        create := .aborting
        store := created.2 }
    | .lost, _ => some { s with
        create := .aborting
        store := created.2 }
    | .retried, _ => some { s with store := created.2 }
    | .unreached, _ => some { s with create := .aborting }
  -- whether the backend's abort succeeds is not looked at
  | .aborting, .abort => some { s with create := .refused }
  | _, _ => none

def step : Action → Option System
  | .reload policy => some { s with policy := policy }
  | .create event => s.createStep gw request event
  | .arrivePart bucket key partNumber input =>
    some { s with parts := s.parts ++ [⟨bucket, key, partNumber, input, .received⟩] }
  | .part index event => do
      let r ← s.parts[index]?
      let (pc, store, sent) ← r.next gw s.policy s.store r.pc event
      return { s with
        store := store
        parts := s.parts.set index { r with pc := pc }
        sent := s.sent ++ sent.toList }
  | .arriveComplete bucket key selection =>
    some { s with completes := s.completes ++ [⟨bucket, key, selection, .received⟩] }
  | .complete index event => do
      let r ← s.completes[index]?
      let (pc, store) ← r.next gw s.policy s.store r.pc event
      match event with
      | .complete (some parts) =>
        -- the backend has no parts but those it was sent
        if parts ⊆ s.sent then
          return { s with
            store := store
            completes := s.completes.set index { r with pc := pc }
            objects := s.objects ++ [parts] }
        else none
      | _ =>
        return { s with
          store := store
          completes := s.completes.set index { r with pc := pc } }
  | .startCall call => some { s with calls := s.calls ++ [(call, .reading)] }
  | .call index event => do
      let (call, pc) ← s.calls[index]?
      let (pc, store) ← call.next s.store pc event
      return { s with
        store := store
        calls := s.calls.set index (call, pc) }
  | .expire => some { s with store := none }

end System

end S3EncryptionGateway.Api.Multipart
