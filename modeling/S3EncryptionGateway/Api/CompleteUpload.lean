import S3EncryptionGateway.Crypto.Mpu.Manifest
import S3EncryptionGateway.Api.MultipartUpload

/-!
# The companion manifest of a completed upload

Completing an encrypted upload makes two backend calls: the manifest is put under the key
with the suffix ".mpu-manifest", and then the backend joins the parts to the object.  Both
objects have one key each, whichever upload they come from, so between the two calls the
manifest under the key can be that of another object than the one stored there.

This module has the completions of uploads to one key with everything that can come between
their calls: any number of requests, replies of the backend and of the state store that get
lost, uploads that run out, and the calls of the state store that close, reopen and finish
an upload.

## Strategy

`written` says how the parts of each upload were encrypted, and every object in the model
says which parts of which upload it was made of.  `Request.next_effect` says all that one
step of a request can do: leave the backend alone, put the manifest of the object it is
about to make, or make it.  With that the invariant `Settled` is three short cases, and
`consistent_of_writesAlone` is the result for whole runs.
-/

namespace S3EncryptionGateway.Api.Completion

open Encoding Transitions List
open S3EncryptionGateway.Mpu (UploadState UploadHash PartRecord SelectedPart CompleteAnswer Call
  CallPc Reply Seals ControlFree unquoteEtag selectParts controlMeta readState send)
open S3EncryptionGateway.Api.Multipart (Gateway validateMpuRouteIdentity)

/-! ## Manifests and objects -/

/-- What a reader needs to know about the encryption of an upload. -/
structure UploadKeys where
  uploadId : String
  bindingId : String
  wrappedDek : String
  ivPrefixHex : String
  algorithm : String
  chunkSize : ℤ
  deriving DecidableEq

def keysOf (state : UploadState) : UploadKeys :=
  ⟨state.uploadId, state.bindingId, state.wrappedDek, state.ivPrefixHex, state.algorithm,
    state.chunkSize⟩

/-- How the parts of an upload with this state are encrypted; `none` if they are not. -/
def encryptedWith (state : UploadState) : Option UploadKeys :=
  if state.encrypted then some (keysOf state) else none

/-- A part by its number and its tag. -/
abbrev PartId := ℤ × List Char

def recordId (record : PartRecord) : PartId :=
  (record.partNumber, unquoteEtag (record.etag.getD ""))

def selectedId (selected : SelectedPart) : PartId :=
  (selected.partNumber, unquoteEtag selected.etag)

/-- The manifest, as it is stored under the companion key. -/
structure CompanionManifest where
  keys : UploadKeys
  parts : List PartRecord
  totalPlainSize : ℕ

/-- The fields of the manifest that its own check looks at. -/
def CompanionManifest.layout (m : CompanionManifest) : Crypto.MultipartManifest where
  version := 2
  chunkSize := m.keys.chunkSize
  parts := m.parts.map fun record =>
    ⟨record.partNumber, record.plainLen, record.encLen.getD 0, record.chunks.getD 0⟩
  totalPlainSize := m.totalPlainSize

def sortedPartRecords (parts : List PartRecord) : List PartRecord :=
  parts.insertionSort fun first second => first.partNumber ≤ second.partNumber

/-- The sum of the plaintext lengths, unless it overflows. -/
def totalPlain : ℕ → List PartRecord → Option ℕ
  | total, [] => some total
  | total, record :: records =>
    if Crypto.maxInt64 - total < record.plainLen then none
    else totalPlain (total + record.plainLen) records

/-- The manifest that is written for a state and the parts selected from it; `none` if
there is an error before anything is sent to the backend. -/
def writeMpuManifestObject (state : UploadState) (parts : List PartRecord) :
    Option CompanionManifest := do
  let sortedParts := sortedPartRecords parts
  let total ← totalPlain 0 sortedParts
  let manifest : CompanionManifest := ⟨keysOf state, sortedParts, total⟩
  let _ ← manifest.layout.validateLayout.toOption
  let bindingId ← Base64.decodeRawUrl state.bindingId.toList
  if bindingId.length = 16 then some manifest else none

inductive KeyObject where
  /-- An encrypted multipart object, made of these parts. -/
  | mpu (keys : UploadKeys) (parts : List PartId)
  | other
  deriving DecidableEq

/-- The manifest has the parts and the key of exactly this object. -/
def CompanionManifest.Lists (m : CompanionManifest) : KeyObject → Prop
  | .mpu keys parts => m.keys = keys ∧ m.parts.map recordId = parts
  | .other => False

instance (m : CompanionManifest) : (object : KeyObject) → Decidable (m.Lists object)
  | .mpu keys parts => inferInstanceAs (Decidable (m.keys = keys ∧ m.parts.map recordId = parts))
  | .other => inferInstanceAs (Decidable False)

/-- What the backend has under the key and under the companion key. -/
structure Backend where
  object : Option KeyObject
  companion : Option CompanionManifest

/-- The manifest a read of the object goes by.  The object's metadata has its binding, and
a manifest of another one is refused. -/
def loadMpuManifest : KeyObject → Option CompanionManifest → Option CompanionManifest
  | .mpu keys _, some m => if m.keys.bindingId = keys.bindingId then some m else none
  | _, _ => none

/-- The key has an encrypted multipart object, and a read of it gets its manifest. -/
def Backend.readable (backend : Backend) : Bool :=
  match backend.object with
  | none => false
  | some object =>
    (loadMpuManifest object backend.companion).any fun manifest => manifest.Lists object

/-- If the key has an encrypted multipart object, then the companion is its manifest. -/
def Backend.Agrees (backend : Backend) : Prop :=
  ∀ keys parts, backend.object = some (.mpu keys parts) →
    ∃ m, backend.companion = some m ∧ m.Lists (.mpu keys parts)

/-! ## Requests -/

inductive BackendReply where
  | done
  /-- It took effect, and the caller gets an error. -/
  | lost
  /-- It had no effect, and the caller gets an error. -/
  | refused
  deriving DecidableEq

inductive CompletePc where
  | received
  /-- An encrypted upload, to be closed for new parts. -/
  | beginning
  | scripting (state : UploadState)
  /-- The state after `BeginComplete`, with the parts that were selected. -/
  | manifest (state : UploadState) (parts : List PartRecord)
  /-- The manifest is written; the upload was closed at this revision. -/
  | completing (revision : ℕ)
  /-- An upload that was not encrypted, with or without a state. -/
  | forwarding (tracked : Bool)
  | calling (call : Call) (pc : CallPc)
  | deleting
  | finished (succeeded : Bool)
  deriving DecidableEq

inductive CompleteEvent where
  /-- The request is turned down before it is routed. -/
  | refuse
  | route (succeeds : Bool)
  /-- An access to the state store. -/
  | store (event : Mpu.Event)
  | backend (reply : BackendReply)
  | delete (succeeds : Bool)

/-- A request, with whether the key had a readable object when it arrived. -/
structure Request where
  uploadId : String
  selection : List SelectedPart
  foundReadable : Bool
  pc : CompletePc
  deriving DecidableEq

/-- The object that the backend makes for a request. -/
def Request.made (written : String → Option UploadKeys) (r : Request) : KeyObject :=
  match written r.uploadId with
  | some keys => .mpu keys (r.selection.map selectedId)
  | none => .other

/-- After the script of `BeginComplete` for a request that read `state`. -/
def afterBegin (state : UploadState) : CompleteAnswer → CompletePc
  | .selected parts =>
    .manifest { state with phase := some .completing, revision := state.revision + 1 } parts
  | .notFound | .badVersion | .badPhase | .conflict | .mismatch => .finished false

/-- After a step of a call; what the reopening of an upload says is not looked at. -/
def afterCall (call : Call) : CallPc → CompletePc
  | .reading => .calling call .reading
  | .scripting state => .calling call (.scripting state)
  | .done _ =>
    match call with
    | .finalizeComplete _ => .deleting
    | _ => .finished false
  | .failed => .finished false

/-- What a call of the backend leaves there. -/
def Backend.after (backend changed : Backend) : BackendReply → Backend
  | .done | .lost => changed
  | .refused => backend

/-- The step of a request: where it is then, the state of its upload and the backend. -/
def Request.next (gw : Gateway) (bucket key : String) (written : String → Option UploadKeys)
    (r : Request) (store : Option UploadHash) (backend : Backend) :
    CompleteEvent → Option (CompletePc × Option UploadHash × Backend)
  | .refuse =>
    match r.pc with
    | .received => some (.finished false, store, backend)
    | _ => none
  | .route succeeds =>
    match r.pc with
    | .received =>
      match gw.uploadState succeeds store with
      | .error _ => some (.finished false, store, backend)
      | .ok none => some (.forwarding false, store, backend)
      | .ok (some state) =>
        if state.encrypted then
          if validateMpuRouteIdentity state bucket key then some (.beginning, store, backend)
          else some (.finished false, store, backend)
        else some (.forwarding true, store, backend)
    | _ => none
  | .store event =>
    match r.pc, event with
    | .beginning, .get succeeds =>
      if r.selection = [] then some (.finished false, store, backend)
      else
        match readState succeeds store with
        | none => some (.finished false, store, backend)
        | some state => some (.scripting state, store, backend)
    | .scripting state, .script _ reply =>
      let (pc, store) := send reply
        (Mpu.beginComplete state.revision r.selection
          (controlMeta state .completing (state.revision + 1)))
        store (.scripting state) (.finished false) (afterBegin state)
      some (pc, store, backend)
    | .calling call pc, event =>
      (call.next store pc event).map fun result =>
        (afterCall call result.1, result.2, backend)
    | _, _ => none
  | .backend reply =>
    match r.pc with
    | .manifest state parts =>
      match writeMpuManifestObject state parts with
      | none => some (.calling (.reopen state.revision) .reading, store, backend)
      | some manifest =>
        some (if reply = .done then .completing state.revision
            else .calling (.reopen state.revision) .reading,
          store, backend.after { backend with companion := some manifest } reply)
    | .completing revision =>
      some (if reply = .done then .calling (.finalizeComplete revision) .reading
          else .calling (.reopen revision) .reading,
        store, backend.after { backend with object := some (r.made written) } reply)
    | .forwarding tracked =>
      some (if reply = .done then (if tracked then .deleting else .finished true)
          else .finished false,
        store, backend.after { backend with object := some (r.made written) } reply)
    | _ => none
  | .delete succeeds =>
    match r.pc with
    -- an error is only logged
    | .deleting => some (.finished true, if succeeds then none else store, backend)
    | _ => none

/-! ## The system -/

/-- The uploads to one key, and the requests that complete them. -/
structure System where
  uploads : String → Option UploadHash
  backend : Backend
  requests : List Request

inductive Action where
  | arrive (uploadId : String) (selection : List SelectedPart)
  | request (index : ℕ) (event : CompleteEvent)
  /-- The state of an upload runs out. -/
  | expire (uploadId : String)

section

variable (gw : Gateway) (bucket key : String) (written : String → Option UploadKeys)

def System.step (s : System) : Action → Option System
  | .arrive uploadId selection =>
    some { s with
      requests := s.requests ++ [⟨uploadId, selection, s.backend.readable, .received⟩] }
  | .request index event => do
      let r ← s.requests[index]?
      let (pc, store, backend) ←
        r.next gw bucket key written (s.uploads r.uploadId) s.backend event
      return {
        uploads := Function.update s.uploads r.uploadId store
        backend := backend
        requests := s.requests.set index { r with pc := pc } }
  | .expire uploadId => some { s with uploads := Function.update s.uploads uploadId none }

/-- An encrypted object under the key has its manifest next to it, and a completion that
failed left a readable object readable, unless something else has taken its place. -/
def System.Consistent (s : System) : Prop :=
  s.backend.Agrees ∧
    ∀ r ∈ s.requests, r.pc = .finished false → r.foundReadable = true →
      s.backend.object = some .other ∨ s.backend.readable = true

/-- No other encrypted multipart object is under the key. -/
def System.freeFor (s : System) (r : Request) : Bool :=
  s.backend.object.all fun object => object = .other || object = r.made written

def CompletePc.isCompleting : CompletePc → Bool
  | .completing _ => true
  | _ => false

/-- No request but the one at the index is between its manifest and its object. -/
def System.othersSettled (s : System) (index : ℕ) : Bool :=
  s.requests.zipIdx.all fun entry => entry.2 = index || !entry.1.pc.isCompleting

def isUntracked : Except Mpu.MpuError (Option UploadState) → Bool
  | .ok none => true
  | _ => false

/-- The condition on a step: a manifest that reaches the backend finds no other encrypted
object under the key and no other request between its manifest and its object, and an
upload that was encrypted is not routed without its state. -/
def System.writesAlone (s : System) : Action → Bool
  | .request index event =>
    s.requests[index]?.all fun r =>
      match r.pc, event with
      | .received, .route succeeds =>
        (written r.uploadId).isNone ||
          !isUntracked (gw.uploadState succeeds (s.uploads r.uploadId))
      | .manifest _ _, .backend reply =>
        reply = .refused || (s.freeFor written r && s.othersSettled index)
      | _, _ => true
  | _ => true

end

/-! ## What a completion reads -/

/-- The hash of an upload whose parts were encrypted with these keys: its state says so, and
every part has its own field. -/
structure Tracked (keys : Option UploadKeys) (store : Option UploadHash) : Prop where
  seals : Seals (fun state => encryptedWith state = keys) store
  numbered : ∀ number record, (store.getD .missing).parts number = some record →
    record.partNumber = number

theorem controlFree_encryptedWith (keys : Option UploadKeys) :
    ControlFree fun state => encryptedWith state = keys :=
  fun _ _ _ _ hstate => hstate

theorem tracked_none (keys : Option UploadKeys) : Tracked keys none where
  seals := Mpu.seals_none _
  numbered := fun _ _ hrecord => absurd hrecord nofun

variable {keys : Option UploadKeys}

variable {store : Option UploadHash}

/-- A script that leaves the part fields alone and writes back what was read. -/
theorem Tracked.send {store' : Option UploadHash} (htracked : Tracked keys store)
    {Answer Place : Type*} {reply : Reply} {script : UploadHash → Answer × Option UploadHash}
    {newMeta : UploadState} (hwrites : Mpu.WritesMeta newMeta script)
    (hnew : encryptedWith newMeta = keys)
    (hparts : ∀ hash written, (script hash).2 = some written → written.parts = hash.parts)
    {again failed place : Place} {next : Answer → Place}
    (hsend : send reply script store again failed next = (place, store')) :
    Tracked keys store' := by
  refine ⟨htracked.seals.send hwrites hnew hsend, ?_⟩
  rcases Mpu.send_cases hsend with ⟨rfl, -⟩ | ⟨rfl, -⟩
  · exact htracked.numbered
  rw [Mpu.exec_snd]
  cases hwritten : (script (store.getD .missing)).2 with
  | none =>
    rw [Option.none_or]
    exact htracked.numbered
  | some written =>
    rw [Option.some_or, Option.getD_some, hparts _ _ hwritten]
    exact htracked.numbered

variable {selection : List SelectedPart} {parts : List PartRecord}

section

variable {hash : UploadHash}
  (hnumbered : ∀ number record, hash.parts number = some record → record.partNumber = number)
include hnumbered

/-- The records of a selection are those of its parts, in its order. -/
theorem ids_of_selectParts {previous : ℤ}
    (hparts : selectParts hash previous selection = some parts) :
    parts.map recordId = selection.map selectedId := by
  induction selection generalizing previous parts with
  | nil =>
    cases hparts
    rfl
  | cons selected more ih =>
    obtain ⟨record, rest, rfl, -, hselects, hrest⟩ := Mpu.selectParts_cons_eq_some_iff.mp hparts
    have hone := hselects.inRange.1
    have hnumber : (record.partNumber : ℤ) = selected.partNumber := by
      rw [hnumbered _ _ hselects.found]
      omega
    rw [map_cons, map_cons, ih hrest, recordId, selectedId, hnumber, hselects.etag]

/-- A selection is in increasing order, and so are its records. -/
theorem sorted_of_selectParts {previous : ℤ}
    (hparts : selectParts hash previous selection = some parts) :
    (∀ record ∈ parts, previous < record.partNumber) ∧
      parts.Pairwise fun first second => first.partNumber ≤ second.partNumber := by
  induction selection generalizing previous parts with
  | nil =>
    cases hparts
    exact ⟨nofun, .nil⟩
  | cons selected more ih =>
    obtain ⟨record, rest, rfl, habove, hselects, hrest⟩ :=
      Mpu.selectParts_cons_eq_some_iff.mp hparts
    obtain ⟨hbelow, hsorted⟩ := ih hrest
    have hone := hselects.inRange.1
    have hnumber := hnumbered _ _ hselects.found
    refine ⟨?_, pairwise_cons.mpr ⟨?_, hsorted⟩⟩
    · intro other hother
      rcases mem_cons.mp hother with rfl | hlater
      · omega
      · have := hbelow other hlater
        omega
    · intro other hother
      have := hbelow other hother
      omega

end

/-- The parts that `BeginComplete` returns are those of the request. -/
structure Selects (selection : List SelectedPart) (parts : List PartRecord) : Prop where
  ids : parts.map recordId = selection.map selectedId
  sorted : parts.Pairwise fun first second => first.partNumber ≤ second.partNumber

variable {state : UploadState}

/-- The manifest that is written has the keys of the state and the selected parts. -/
theorem lists_of_writeMpuManifestObject (hselects : Selects selection parts) {m : CompanionManifest}
    (hwrite : writeMpuManifestObject state parts = some m) :
    m.Lists (.mpu (keysOf state) (selection.map selectedId)) := by
  have hsorted : sortedPartRecords parts = parts := hselects.sorted.insertionSort_eq
  unfold writeMpuManifestObject at hwrite
  simp only [bind, Option.bind_eq_some_iff] at hwrite
  obtain ⟨total, -, -, -, bindingId, -, hm⟩ := hwrite
  split at hm <;> cases hm
  refine ⟨rfl, ?_⟩
  rw [hsorted]
  exact hselects.ids

/-! ## What a step of a request does -/

variable {companion : Option CompanionManifest}

section

variable {gw : Gateway} {bucket key : String} {written : String → Option UploadKeys}
  {r : Request} {store store' : Option UploadHash} {backend backend' : Backend}
  {event : CompleteEvent} {pc' : CompletePc}

/-- The companion is the manifest of the object that the request is about to make. -/
def Request.Announced (written : String → Option UploadKeys) (companion : Option CompanionManifest)
    (r : Request) : Prop :=
  ∃ m, companion = some m ∧ m.Lists (r.made written)

/-- What a request at this place knows about its upload, and about the companion. -/
def Request.Fits (written : String → Option UploadKeys) (companion : Option CompanionManifest)
    (r : Request) : CompletePc → Prop
  | .beginning => (written r.uploadId).isSome
  | .scripting state => encryptedWith state = written r.uploadId ∧ (written r.uploadId).isSome
  | .manifest state parts =>
    written r.uploadId = some (keysOf state) ∧ Selects r.selection parts
  | .completing _ => r.Announced written companion
  | .forwarding _ => written r.uploadId = none
  | .calling _ pc => ∀ state, pc.read = some state → encryptedWith state = written r.uploadId
  | .received | .deleting | .finished _ => True

/-- What a step does to the backend: nothing, or it puts the manifest of the object that the
request is about to make, or it makes the object, of which the companion is the manifest. -/
inductive Effect (written : String → Option UploadKeys) (r : Request) (backend : Backend) :
    CompleteEvent → Backend → Prop
  | none (event : CompleteEvent) : Effect written r backend event backend
  | announce (state : UploadState) (parts : List PartRecord) (reply : BackendReply)
      (m : CompanionManifest) (hpc : r.pc = .manifest state parts) (hreply : reply ≠ .refused)
      (hlists : m.Lists (r.made written)) :
      Effect written r backend (.backend reply) { backend with companion := some m }
  | make (event : CompleteEvent)
      (hmade : r.made written = .other ∨ r.Announced written backend.companion) :
      Effect written r backend event { backend with object := some (r.made written) }

/-- A state that says that its parts are encrypted says how. -/
theorem eq_some_keysOf (hstate : encryptedWith state = keys) (hkeys : keys.isSome) :
    keys = some (keysOf state) := by
  unfold encryptedWith at hstate
  split at hstate
  · exact hstate.symm
  · subst hstate
    cases hkeys

theorem get_of_uploadState {succeeds : Bool}
    (hroute : gw.uploadState succeeds store = .ok (some state)) : Mpu.get store = .ok state := by
  unfold Gateway.uploadState at hroute
  split at hroute
  · cases hroute
  split at hroute
  · cases hroute
  split at hroute
  · rename_i found hget
    obtain rfl := Option.some.inj (Except.ok.inj hroute)
    exact hget
  · split at hroute <;> cases hroute
  · cases hroute

theorem Tracked.call (htracked : Tracked keys store) {call : Call} {pc : CallPc} {event : Mpu.Event}
    {result : CallPc × Option UploadHash}
    (hread : ∀ state, pc.read = some state → encryptedWith state = keys)
    (hnext : call.next store pc event = some result) :
    Tracked keys result.2 ∧ ∀ state, result.1.read = some state → encryptedWith state = keys := by
  obtain ⟨hseals, hread'⟩ :=
    Mpu.Call.next_seals (controlFree_encryptedWith keys) htracked.seals hread hnext
  refine ⟨⟨hseals, ?_⟩, hread'⟩
  unfold Call.next at hnext
  split at hnext
  · split at hnext
    · cases hnext
      exact htracked.numbered
    · split at hnext <;>
        · cases hnext
          exact htracked.numbered
  · rename_i state now reply
    obtain ⟨script, hscript, hsend⟩ := Option.map_eq_some_iff.mp hnext
    obtain ⟨newMeta, hnew, hwrites⟩ := Mpu.writesMeta_script hscript
      (controlFree_encryptedWith keys) (hread state rfl)
    exact (htracked.send hwrites hnew (fun _ _ => Mpu.parts_of_script hscript) hsend).numbered
  · cases hnext

theorem fits_afterCall {call : Call} {pc : CallPc}
    (hread : ∀ state, pc.read = some state → encryptedWith state = written r.uploadId) :
    r.Fits written companion (afterCall call pc) := by
  cases pc with
  | reading => exact hread
  | scripting state => exact hread
  | done state => cases call <;> trivial
  | failed => trivial

theorem fits_afterBegin {answer : CompleteAnswer} (hkeys : written r.uploadId = some (keysOf state))
    (hanswer : ∀ parts, answer = .selected parts → Selects r.selection parts) :
    r.Fits written companion (afterBegin state answer) := by
  cases answer with
  | selected parts => exact ⟨hkeys, hanswer parts rfl⟩
  | _ => trivial

/-- A request that reopens its upload, or finishes it, has read nothing yet. -/
theorem fits_calling (call : Call) : r.Fits written companion (.calling call .reading) :=
  fun _ hread => absurd hread nofun

/-- **A step of a request.** -/
theorem Request.next_effect (htracked : Tracked (written r.uploadId) store)
    (hfits : r.Fits written backend.companion r.pc)
    (hroute : ∀ succeeds, event = .route succeeds → r.pc = .received →
      written r.uploadId = none ∨ isUntracked (gw.uploadState succeeds store) = false)
    (hnext : r.next gw bucket key written store backend event = some (pc', store', backend')) :
    Tracked (written r.uploadId) store' ∧ r.Fits written backend'.companion pc' ∧
      Effect written r backend event backend' := by
  -- a step that only takes the request to another place
  have hmove : ∀ {place : CompletePc},
      some (place, store, backend) = some (pc', store', backend') →
      r.Fits written backend.companion place →
      Tracked (written r.uploadId) store' ∧ r.Fits written backend'.companion pc' ∧
        Effect written r backend event backend' := by
    intro place heq hplace
    cases heq
    exact ⟨htracked, hplace, .none _⟩
  cases event with
  | refuse =>
    simp only [Request.next] at hnext
    split at hnext
    · exact hmove hnext trivial
    · cases hnext
  | route succeeds =>
    simp only [Request.next] at hnext
    split at hnext
    · rename_i hpc
      have huntracked := hroute succeeds rfl hpc
      split at hnext
      · exact hmove hnext trivial
      · rename_i hrouted
        rw [hrouted] at huntracked
        exact hmove hnext (huntracked.resolve_right nofun)
      · rename_i state hrouted
        have hstate := htracked.seals.of_get (get_of_uploadState hrouted)
        unfold encryptedWith at hstate
        split at hnext
        · rename_i hencrypted
          rw [if_pos hencrypted] at hstate
          split at hnext
          · exact hmove hnext (Option.isSome_of_eq_some hstate.symm)
          · exact hmove hnext trivial
        · rename_i hencrypted
          rw [if_neg hencrypted] at hstate
          exact hmove hnext hstate.symm
    · cases hnext
  | store event =>
    simp only [Request.next] at hnext
    split at hnext
    · rename_i hpc
      rw [hpc] at hfits
      split at hnext
      · exact hmove hnext trivial
      split at hnext
      · exact hmove hnext trivial
      · rename_i state hread
        exact hmove hnext ⟨htracked.seals.of_readState hread, hfits⟩
    · rename_i state now reply hpc
      rw [hpc] at hfits
      rcases hsent : send reply _ store _ _ (afterBegin state) with ⟨place, sent⟩
      rw [hsent] at hnext
      cases hnext
      have hnew : encryptedWith (controlMeta state .completing (state.revision + 1)) =
        written r.uploadId := hfits.1
      refine ⟨htracked.send (Mpu.writesMeta_beginComplete _ _ _) hnew
        (fun _ _ => Mpu.parts_of_beginComplete) hsent, ?_, .none _⟩
      rcases Mpu.send_cases hsent with ⟨-, rfl⟩ | ⟨-, rfl | rfl | rfl⟩
      · trivial
      · exact hfits
      · trivial
      · rw [Mpu.exec_fst]
        refine fits_afterBegin (eq_some_keysOf hfits.1 hfits.2) fun parts hanswer => ?_
        obtain ⟨-, -, hfound⟩ := Mpu.beginComplete_fst_eq_selected_iff.mp hanswer
        exact ⟨ids_of_selectParts htracked.numbered hfound,
          (sorted_of_selectParts htracked.numbered hfound).2⟩
    · rename_i call pc hpc
      rw [hpc] at hfits
      obtain ⟨result, hcall, hresult⟩ := Option.map_eq_some_iff.mp hnext
      obtain ⟨htracked', hread⟩ := htracked.call hfits hcall
      cases hresult
      exact ⟨htracked', fits_afterCall hread, .none _⟩
    · cases hnext
  | backend reply =>
    -- a call that changes the backend, if it has an effect
    have hcall : ∀ {place : CompletePc} {changed : Backend},
        some (place, store, backend.after changed reply) = some (pc', store', backend') →
        r.Fits written (backend.after changed reply).companion place →
        (reply ≠ .refused → Effect written r backend (.backend reply) changed) →
        Tracked (written r.uploadId) store' ∧ r.Fits written backend'.companion pc' ∧
          Effect written r backend (.backend reply) backend' := by
      intro place changed heq hplace heffect
      cases heq
      refine ⟨htracked, hplace, ?_⟩
      cases reply with
      | refused => exact .none _
      | _ => exact heffect nofun
    simp only [Request.next] at hnext
    split at hnext
    · rename_i state parts hpc
      rw [hpc] at hfits
      split at hnext
      · exact hmove hnext (fits_calling _)
      rename_i manifest hmanifest
      have hlists : manifest.Lists (r.made written) := by
        rw [Request.made, hfits.1]
        exact lists_of_writeMpuManifestObject hfits.2 hmanifest
      refine hcall hnext ?_ fun hreply => .announce state parts reply manifest hpc hreply hlists
      cases reply with
      | done => exact ⟨manifest, rfl, hlists⟩
      | _ => exact fits_calling _
    · rename_i revision hpc
      rw [hpc] at hfits
      refine hcall hnext ?_ fun _ => .make _ (.inr hfits)
      cases reply <;> exact fits_calling _
    · rename_i tracked hpc
      rw [hpc] at hfits
      refine hcall hnext ?_ fun _ => .make _ (.inl (by rw [Request.made, hfits]))
      cases reply <;> cases tracked <;> trivial
    · cases hnext
  | delete succeeds =>
    simp only [Request.next] at hnext
    split at hnext
    · cases hnext
      refine ⟨?_, trivial, .none _⟩
      split
      · exact tracked_none _
      · exact htracked
    · cases hnext

end

/-! ## Whole runs -/

section

variable {gw : Gateway} {bucket key : String} {written : String → Option UploadKeys}
  {s s' : System} {action : Action} {actions : List Action}

structure System.Settled (written : String → Option UploadKeys) (s : System) : Prop where
  tracked : ∀ uploadId, Tracked (written uploadId) (s.uploads uploadId)
  agrees : s.backend.Agrees
  kept : ∀ r ∈ s.requests, r.foundReadable = true → s.backend.object ≠ none
  fits : ∀ r ∈ s.requests, r.Fits written s.backend.companion r.pc

/-- Where a run begins: nothing is being completed, and what the key has is in order. -/
structure System.Starts (written : String → Option UploadKeys) (s : System) : Prop where
  tracked : ∀ uploadId, Tracked (written uploadId) (s.uploads uploadId)
  agrees : s.backend.Agrees
  requests : s.requests = []

theorem System.Starts.settled (hstart : s.Starts written) : s.Settled written where
  tracked := hstart.tracked
  agrees := hstart.agrees
  kept := fun _ hr => absurd (hstart.requests ▸ hr) List.not_mem_nil
  fits := fun _ hr => absurd (hstart.requests ▸ hr) List.not_mem_nil

theorem Backend.Agrees.readable {backend : Backend} (hagrees : backend.Agrees)
    (hobject : backend.object ≠ none) :
    backend.object = some .other ∨ backend.readable = true := by
  rcases hobj : backend.object with _ | object
  · exact absurd hobj hobject
  cases object with
  | other => exact .inl rfl
  | mpu keys parts =>
    obtain ⟨m, hcompanion, hlists⟩ := hagrees keys parts hobj
    right
    unfold Backend.readable
    rw [hobj, hcompanion]
    have hload : loadMpuManifest (.mpu keys parts) (some m) = some m :=
      if_pos (congrArg UploadKeys.bindingId hlists.1)
    simp only [hload, Option.any_some, decide_eq_true_eq]
    exact hlists

variable {r : Request}

theorem tracked_update {uploads : String → Option UploadHash}
    (htracked : ∀ uploadId, Tracked (written uploadId) (uploads uploadId)) {changed : String}
    (hstore : Tracked (written changed) store) (uploadId : String) :
    Tracked (written uploadId) (Function.update uploads changed store uploadId) := by
  rcases eq_or_ne uploadId changed with rfl | hne
  · rw [Function.update_self]
    exact hstore
  · rw [Function.update_of_ne hne]
    exact htracked uploadId

theorem exists_of_mem_set {requests : List Request} {index : ℕ} {other : Request}
    (hother : other ∈ requests.set index r) :
    other = r ∨ ∃ place, place ≠ index ∧ requests[place]? = some other := by
  obtain ⟨place, hplace⟩ := mem_iff_getElem?.mp hother
  rw [List.getElem?_set] at hplace
  split at hplace
  · split at hplace
    · exact .inl (Option.some.inj hplace).symm
    · cases hplace
  · rename_i hne
    exact .inr ⟨place, Ne.symm hne, hplace⟩

theorem System.writesAlone_request {index : ℕ} {event : CompleteEvent}
    (hr : s.requests[index]? = some r)
    (halone : s.writesAlone gw written (.request index event) = true) :
    (∀ succeeds, event = .route succeeds → r.pc = .received → written r.uploadId = none ∨
      isUntracked (gw.uploadState succeeds (s.uploads r.uploadId)) = false) ∧
    ∀ state parts reply, r.pc = .manifest state parts → event = .backend reply →
      reply ≠ .refused → s.freeFor written r = true ∧ s.othersSettled index = true := by
  simp only [System.writesAlone, hr, Option.all_some] at halone
  refine ⟨?_, ?_⟩
  · intro succeeds hevent hpc
    subst hevent
    simpa [hpc] using halone
  · intro state parts reply hpc hevent hreply
    subst hevent
    simpa [hpc, hreply] using halone

/-- An object is made, and the companion is its manifest. -/
theorem Backend.agrees_made {backend : Backend}
    (hmade : r.made written = .other ∨ r.Announced written backend.companion) :
    Backend.Agrees { backend with object := some (r.made written) } := by
  intro keys parts hobject
  have hmpu : r.made written = .mpu keys parts := Option.some.inj hobject
  rcases hmade with hother | ⟨m, hcompanion, hlists⟩
  · rw [hother] at hmpu
    cases hmpu
  · exact ⟨m, hcompanion, hmpu ▸ hlists⟩

/-- A manifest is put next to the object it lists, or to none. -/
theorem System.agrees_announced {m : CompanionManifest} (hfree : s.freeFor written r = true)
    (hlists : m.Lists (r.made written)) :
    Backend.Agrees { s.backend with companion := some m } := by
  intro keys parts hobject
  replace hobject : s.backend.object = some (.mpu keys parts) := hobject
  unfold System.freeFor at hfree
  rw [hobject] at hfree
  have hmade : KeyObject.mpu keys parts = r.made written := by simpa using hfree
  exact ⟨m, rfl, hmade ▸ hlists⟩

theorem System.step_settled (hs : s.Settled written)
    (halone : s.writesAlone gw written action = true)
    (hstep : s.step gw bucket key written action = some s') : s'.Settled written := by
  cases action with
  | arrive uploadId selection =>
    cases hstep
    refine ⟨hs.tracked, hs.agrees, ?_, ?_⟩
    · intro r hr hfound hnone
      rcases mem_append.mp hr with hr | hr
      · exact hs.kept r hr hfound hnone
      obtain rfl := mem_singleton.mp hr
      replace hfound : s.backend.readable = true := hfound
      unfold Backend.readable at hfound
      rw [show s.backend.object = none from hnone] at hfound
      cases hfound
    · intro r hr
      rcases mem_append.mp hr with hr | hr
      · exact hs.fits r hr
      · obtain rfl := mem_singleton.mp hr
        trivial
  | expire uploadId =>
    cases hstep
    exact ⟨tracked_update hs.tracked (tracked_none _), hs.agrees, hs.kept, hs.fits⟩
  | request index event =>
    simp only [System.step, bind, pure, Option.bind_eq_some_iff, Option.some.injEq] at hstep
    obtain ⟨r, hr, ⟨pc', store', backend'⟩, hnext, rfl⟩ := hstep
    have hmem : r ∈ s.requests := mem_of_getElem? hr
    obtain ⟨hroute, hwrite⟩ := System.writesAlone_request hr halone
    obtain ⟨htracked, hfits, heffect⟩ :=
      Request.next_effect (hs.tracked r.uploadId) (hs.fits r hmem) hroute hnext
    -- what is known of the other requests, and of the backend, depends on the effect
    have hrest : backend'.Agrees ∧ (s.backend.object ≠ none → backend'.object ≠ none) ∧
        ∀ place other, place ≠ index → s.requests[place]? = some other →
          other.Fits written backend'.companion other.pc := by
      cases heffect with
      | none =>
        exact ⟨hs.agrees, id, fun _ other _ hother =>
          hs.fits other (mem_of_getElem? hother)⟩
      | announce state parts reply m hpc hreply hlists =>
        obtain ⟨hfree, hsettled⟩ := hwrite state parts reply hpc rfl hreply
        refine ⟨System.agrees_announced hfree hlists, id, ?_⟩
        intro place other hplace hother
        have hmem : (other, place) ∈ s.requests.zipIdx := mk_mem_zipIdx_iff_getElem?.mpr hother
        have hpc : other.pc.isCompleting = false := by
          simpa [hplace] using all_eq_true.mp hsettled _ hmem
        have hfits := hs.fits other (mem_of_getElem? hother)
        -- only a request between its manifest and its object cares about the companion
        cases hother' : other.pc with
        | completing revision => rw [hother'] at hpc; cases hpc
        | _ => rw [hother'] at hfits; exact hfits
      | make _ hmade =>
        exact ⟨Backend.agrees_made hmade, fun _ => nofun, fun _ other _ hother =>
          hs.fits other (mem_of_getElem? hother)⟩
    obtain ⟨hagrees, hobject, hothers⟩ := hrest
    refine ⟨tracked_update hs.tracked htracked, hagrees, ?_, ?_⟩
    · intro other hother hfound
      apply hobject
      rcases exists_of_mem_set hother with rfl | ⟨place, -, hplace⟩
      · exact hs.kept r hmem hfound
      · exact hs.kept other (mem_of_getElem? hplace) hfound
    · intro other hother
      rcases exists_of_mem_set hother with rfl | ⟨place, hne, hplace⟩
      · exact hfits
      · exact hothers place other hne hplace

/-- **Object and manifest agree.**  In every run in which manifests are written alone, an
encrypted object has its manifest, and failed completions leave readable objects readable. -/
theorem consistent_of_writesAlone (hstart : s.Starts written)
    (halone : Meets (System.step gw bucket key written)
      (fun s action => s.writesAlone gw written action = true) s actions)
    (hrun : run (System.step gw bucket key written) s actions = some s') : s'.Consistent := by
  have hs : s'.Settled written := by
    refine run_invariant _ ?_ hstart.settled halone hrun
    intro before action after hbefore hcondition hstep
    exact System.step_settled hbefore hcondition hstep
  exact ⟨hs.agrees, fun r hr _ hfound => hs.agrees.readable (hs.kept r hr hfound)⟩

end

/-! ## Two uploads to one key -/

def sampleGateway : Gateway where
  hasStateStore := true
  hasKeyManager := true
  allowUntrackedPlaintextUploads := false
  filterKeys := []
  leaseTime := 1000
  hmac := fun key message => key ++ message
  unwrapMpuDek := fun _ _ => some [1]
  mpuPartEncrypter := fun _ _ _ _ _ _ plaintext => some (0 :: plaintext)

def sampleState (uploadId bindingId : String) : UploadState :=
  ⟨uploadId, "bucket", "key", bindingId, "dek", "iv", "AES256-GCM", 65536, ⟨true⟩, 2,
    some .open_, 1⟩

/-- An open upload with one committed part of five bytes. -/
def sampleHash (uploadId bindingId : String) : UploadHash where
  sealedMeta := some (sampleState uploadId bindingId)
  stateVersion := some 2
  phase := some .open_
  revision := some 1
  parts := fun number =>
    if number = 1 then
      some ⟨1, 5, some [0], some .committed, some [0], none, some "tag", some 21, some 1⟩
    else none

/-- The uploads "a" and "b" to the same key, with different bindings. -/
def sampleUploads (uploadId : String) : Option UploadHash :=
  if uploadId = "a" then some (sampleHash "a" "AQAAAAAAAAAAAAAAAAAAAA")
  else if uploadId = "b" then some (sampleHash "b" "AgAAAAAAAAAAAAAAAAAAAA")
  else none

def sampleWritten (uploadId : String) : Option UploadKeys :=
  (sampleUploads uploadId).bind fun hash => hash.sealedMeta.bind encryptedWith

def sampleSystem : System := ⟨sampleUploads, ⟨none, none⟩, []⟩

theorem starts_sampleSystem : sampleSystem.Starts sampleWritten where
  tracked := by
    intro uploadId
    refine ⟨?_, ?_⟩
    · intro hash state hhash hstate
      replace hhash : sampleUploads uploadId = some hash := hhash
      rw [sampleWritten, hhash, Option.bind_some, hstate, Option.bind_some]
    · intro number record hrecord
      replace hrecord : ((sampleUploads uploadId).getD .missing).parts number = some record :=
        hrecord
      have hsample : ∀ id binding, (sampleHash id binding).parts number = some record →
          record.partNumber = number := by
        intro id binding hpart
        unfold sampleHash at hpart
        simp only [Option.ite_none_right_eq_some, Option.some.injEq] at hpart
        obtain ⟨rfl, rfl⟩ := hpart
        rfl
      unfold sampleUploads at hrecord
      split_ifs at hrecord
      · exact hsample _ _ hrecord
      · exact hsample _ _ hrecord
      · cases hrecord
  agrees := fun _ _ hobject => absurd hobject nofun
  requests := rfl

/-- A request for the only part, up to its call of the backend's completion. -/
def announces (index : ℕ) : List Action :=
  [.request index (.route true), .request index (.store (.get true)),
    .request index (.store (.script 0 .delivered)), .request index (.backend .done)]

/-- What follows the backend's reply. -/
def ends (index : ℕ) (reply : BackendReply) : List Action :=
  [.request index (.backend reply), .request index (.store (.get true)),
    .request index (.store (.script 0 .delivered))]

def completesFirst : List Action :=
  .arrive "a" [⟨1, "tag"⟩] :: announces 0 ++ ends 0 .done ++ [.request 0 (.delete true)]

/-- Then the backend refuses to complete the upload "b". -/
def secondRefused : List Action :=
  completesFirst ++ .arrive "b" [⟨1, "tag"⟩] :: announces 1 ++ ends 1 .refused

theorem consistent_completesFirst :
    ∃ s, run (System.step sampleGateway "bucket" "key" sampleWritten) sampleSystem
        completesFirst = some s ∧ s.backend.readable = true ∧ s.Consistent := by
  have hrun : (run (System.step sampleGateway "bucket" "key" sampleWritten) sampleSystem
      completesFirst).map (fun s => s.backend.readable) = some true := by
    decide +kernel
  obtain ⟨s, hs, hreadable⟩ := Option.map_eq_some_iff.mp hrun
  refine ⟨s, hs, hreadable, ?_⟩
  exact consistent_of_writesAlone starts_sampleSystem (by decide +kernel) hs

def sampleKeys : UploadKeys := keysOf (sampleState "a" "AQAAAAAAAAAAAAAAAAAAAA")

/-- The request that failed has replaced the manifest of the object, which was readable
before it. -/
theorem not_consistent_secondRefused :
    ∃ s, run (System.step sampleGateway "bucket" "key" sampleWritten) sampleSystem
        secondRefused = some s ∧
      s.requests = [⟨"a", [⟨1, "tag"⟩], false, .finished true⟩,
        ⟨"b", [⟨1, "tag"⟩], true, .finished false⟩] ∧
      s.backend.object = some (.mpu sampleKeys [(1, ['t', 'a', 'g'])]) ∧
      s.backend.readable = false ∧ ¬s.Consistent := by
  have hrun : (run (System.step sampleGateway "bucket" "key" sampleWritten) sampleSystem
      secondRefused).map (fun s => (s.requests, s.backend.object, s.backend.readable)) =
      some ([⟨"a", [⟨1, "tag"⟩], false, .finished true⟩,
          ⟨"b", [⟨1, "tag"⟩], true, .finished false⟩],
        some (.mpu sampleKeys [(1, ['t', 'a', 'g'])]), false) := by
    decide +kernel
  obtain ⟨s, hs, hobs⟩ := Option.map_eq_some_iff.mp hrun
  simp only [Prod.mk.injEq] at hobs
  obtain ⟨hrequests, hobject, hreadable⟩ := hobs
  refine ⟨s, hs, hrequests, hobject, hreadable, ?_⟩
  intro hconsistent
  have hfailed := hconsistent.2 ⟨"b", [⟨1, "tag"⟩], true, .finished false⟩
    (by rw [hrequests]; simp) rfl rfl
  rw [hobject, hreadable] at hfailed
  exact absurd hfailed (by simp)

end S3EncryptionGateway.Api.Completion
