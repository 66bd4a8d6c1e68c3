import S3EncryptionGateway.Api.MultipartUpload

/-!
# Marker, state and parts of an upload

The metadata of an upload, the state kept for it and the bodies of its parts have to agree
on whether the upload is encrypted: a reader of the object goes by the metadata, and the
handlers of the parts by the state.

## Strategy

* `carriesMarker_createMetadata` computes the marker from the policy that was in force
  when the metadata was made.  A client cannot set it, since its name is reserved.
* `Consistent` says that the marker is the snapshot of every state around: of the one in
  the store and of those that requests have read, which they may still write back.  It
  also says that whatever was sent fits the marker.
* A step of a request keeps this (`PartRequest.next_fits`, `CompleteRequest.next_fits`),
  because requests fail without a state.  Creation keeps it if the policy still encrypts
  uploads at its second reading, provided it did at the first.  The other way round the
  binding is missing from the metadata, and creation fails.
-/

namespace S3EncryptionGateway.Api.Multipart

open Encoding Text MapRange Metadata Transitions List
open S3EncryptionGateway.Mpu (UploadState UploadHash Call CallPc Sealed)

/-! ## What agreement means -/

def carriesMarker (metadata : Map Str Str) : Bool :=
  (metadata.lookup metaMpuEncrypted).isSome

/-- The body is what the part encrypter makes of the content, for a state that says the
upload is encrypted. -/
def Gateway.Encrypts (gw : Gateway) (part : SentPart) : Prop :=
  ∃ (bucket key : String) (state : UploadState), state.encrypted = true ∧
    gw.encryptMpuPartWithState bucket key part.partNumber part.content state = some part.body

def Gateway.PartAgrees (gw : Gateway) (metadata : Map Str Str) (part : SentPart) : Prop :=
  if carriesMarker metadata then gw.Encrypts part else part.body = part.content

/-- Metadata, state, parts and objects agree. -/
structure System.Agrees (gw : Gateway) (s : System) : Prop where
  state : ∀ metadata hash state, s.given = some metadata → s.store = some hash →
    hash.sealedMeta = some state → (carriesMarker metadata = true ↔ state.encrypted = true)
  parts : ∀ metadata, s.given = some metadata → ∀ part ∈ s.sent, gw.PartAgrees metadata part
  objects : ∀ metadata, s.given = some metadata → ∀ object ∈ s.objects, ∀ part ∈ object,
    gw.PartAgrees metadata part

/-- At the second reading the policy encrypts uploads if it did at the first. -/
def stillEncrypts (s : System) : Action → Bool
  | .create (.snapshot _) =>
    s.firstRead.all fun first => !first.encryptsMultipart || s.policy.encryptsMultipart
  | _ => true

/-! ## The marker in the metadata -/

theorem marker_reserved :
    isGatewayReservedKey metaMpuEncrypted = true ∧
      isGatewayReservedKey metaObjectBindingId = true := by
  decide +kernel

theorem lookup_withContentType {name : Str} (hname : isStandard name = false)
    (metadata : Map Str Str) : (withContentType metadata).lookup name = metadata.lookup name := by
  unfold withContentType
  split
  · apply Finmap.lookup_insert_of_ne
    rintro rfl
    rw [isStandard_name] at hname
    cases hname
  · rfl

/-- What the backend gets under a name that is neither a standard header nor its own. -/
theorem lookup_createMetadata {name : Str} (hname : isStandard name = false)
    (hbackend : isBackendField name = false) (filterKeys : List Str) (key : String)
    (m : WriteMetadata) (bindingId : Option Bytes) :
    (createMetadata filterKeys key m bindingId).lookup name =
      if isFiltered filterKeys name then none
      else
        match bindingId with
        | some bindingId =>
          (setMarkers key bindingId (withContentType (m.engineInput none))).lookup name
        | none => m.user.lookup name := by
  unfold createMetadata
  rw [lookup_applyTo hname, lookup_buildPersistPlan hname hbackend]
  cases bindingId with
  | some bindingId => rfl
  | none => rw [lookup_withContentType hname, lookup_engineInput hname]

section Metadata

variable {request : CreateRequest} {m : WriteMetadata}

/-- **The marker is set exactly with a binding.** -/
theorem carriesMarker_createMetadata
    (hparse : parseWriteMetadata request.standardVisits request.visits = .ok m)
    {filterKeys : List Str} (hfilter : isFiltered filterKeys metaMpuEncrypted = false)
    (key : String) (bindingId : Option Bytes) :
    carriesMarker (createMetadata filterKeys key m bindingId) = bindingId.isSome := by
  unfold carriesMarker
  rw [lookup_createMetadata (by decide) (by decide), hfilter]
  cases bindingId with
  | none =>
    simp only [Bool.false_eq_true, if_false]
    rw [lookup_user_of_reserved hparse marker_reserved.1]
    rfl
  | some bindingId =>
    simp only [Bool.false_eq_true, if_false, setMarkers]
    rw [Finmap.lookup_insert_of_ne _ (by decide), Finmap.lookup_insert_of_ne _ (by decide),
      Finmap.lookup_insert_of_ne _ (by decide), Finmap.lookup_insert]
    rfl

end Metadata

variable {state : UploadState}

/-- The state of the new upload has the policy's answer as its snapshot, and an encrypted
one needs a binding in the metadata. -/
theorem encrypted_of_newUploadState {gw : Gateway} {request : CreateRequest} {policy : Policy}
    {uploadId : String} {metadata : Map Str Str} {material : Option KeyMaterial}
    (hstate : newUploadState gw request policy uploadId metadata material = some state) :
    state.encrypted = policy.encryptsMultipart ∧
      (state.encrypted = true → metadata.lookup metaObjectBindingId ≠ none) := by
  unfold newUploadState at hstate
  split_ifs at hstate with hpolicy
  · split at hstate
    · rename_i bindingId hbinding
      split at hstate
      · rename_i hlength
        unfold initMpuEncryptionState at hstate
        split at hstate
        · cases hstate
        obtain ⟨material, -, rfl⟩ := Option.map_eq_some_iff.mp hstate
        refine ⟨hpolicy.symm, ?_⟩
        intro _ hnone
        -- without the entry the binding would be empty
        rw [hnone] at hbinding
        cases hbinding
        exact absurd hlength (by decide)
      · cases hstate
    · cases hstate
  · cases hstate
    refine ⟨(Bool.not_eq_true _ ▸ hpolicy).symm, ?_⟩
    intro hencrypted
    cases hencrypted

/-! ## The invariant -/

/-- The marker, once the backend has the metadata. -/
def System.marker (s : System) : Option Bool :=
  s.given.map carriesMarker

/-- A part that fits the marker.  Nothing fits before there is one. -/
def Gateway.Sound (gw : Gateway) (marker : Option Bool) (part : SentPart) : Prop :=
  marker = some true ∧ gw.Encrypts part ∨ marker = some false ∧ part.body = part.content

/-- What a request for a part has read and made fits the marker. -/
def PartPc.Fits (gw : Gateway) (marker : Option Bool) (partNumber : ℕ) (content : Bytes) :
    PartPc → Prop
  | .routed state => ∃ found, state = some found ∧ some found.encrypted = marker
  | .encrypting state _ body pc =>
    marker = some true ∧ state.encrypted = true ∧
      (∀ read, pc.read = some read → some read.encrypted = marker) ∧
      ∀ ciphertext, body = some ciphertext → gw.Encrypts ⟨partNumber, content, ciphertext⟩
  | .received | .guarded | .finished => True

def CompletePc.read : CompletePc → Option UploadState
  | .calling _ pc => pc.read
  | _ => none

/-- What the metadata under way says is what the policy said at its first reading. -/
def Creating (marker : Option Bool) (given : Option (Map Str Str)) (firstRead : Option Policy) :
    CreatePc → Prop
  | .received | .guarded => given = none
  | .marked metadata => given = none ∧ Made metadata
  | .initiated metadata _ => given = some metadata ∧ Made metadata
  | .tracking state => some state.encrypted = marker
  | .aborting | .returned | .refused => True
where
  Made (metadata : Map Str Str) : Prop :=
    ∃ first, firstRead = some first ∧ carriesMarker metadata = first.encryptsMultipart ∧
      (metadata.lookup metaObjectBindingId ≠ none → first.encryptsMultipart = true)

structure Consistent (gw : Gateway) (s : System) : Prop where
  stored : Sealed s.marker s.store
  creating : Creating s.marker s.given s.firstRead s.create
  parts : ∀ r ∈ s.parts, r.pc.Fits gw s.marker r.partNumber r.input.content
  completes : ∀ r ∈ s.completes, ∀ state, r.pc.read = some state → some state.encrypted = s.marker
  calls : ∀ call ∈ s.calls, ∀ state, call.2.read = some state → some state.encrypted = s.marker
  sent : ∀ part ∈ s.sent, gw.Sound s.marker part
  objects : ∀ object ∈ s.objects, object ⊆ s.sent

theorem consistent_initial (gw : Gateway) (policy : Policy) :
    Consistent gw (.initial policy) where
  stored := Mpu.seals_none _
  creating := rfl
  parts := fun _ hr => absurd hr List.not_mem_nil
  completes := fun _ hr => absurd hr List.not_mem_nil
  calls := fun _ hcall => absurd hcall List.not_mem_nil
  sent := fun _ hpart => absurd hpart List.not_mem_nil
  objects := fun _ hobject => absurd hobject List.not_mem_nil

open System

theorem Consistent.agrees {gw : Gateway} {s : System} (hs : Consistent gw s) : s.Agrees gw := by
  have hsound : ∀ metadata, s.given = some metadata → ∀ part ∈ s.sent,
      gw.PartAgrees metadata part := by
    intro metadata hgiven part hpart
    have hmarker : s.marker = some (carriesMarker metadata) := by
      unfold marker
      rw [hgiven, Option.map_some]
    unfold Gateway.PartAgrees
    rcases hs.sent part hpart with ⟨htrue, hencrypts⟩ | ⟨hfalse, hplain⟩
    · rw [if_pos (Option.some.inj (hmarker.symm.trans htrue))]
      exact hencrypts
    · rw [Option.some.inj (hmarker.symm.trans hfalse)]
      exact hplain
  refine ⟨?_, hsound, ?_⟩
  · intro metadata hash state hgiven hstore hstate
    have hmarker := hs.stored hash state hstore hstate
    unfold marker at hmarker
    rw [hgiven, Option.map_some] at hmarker
    rw [Option.some.inj hmarker]
  · intro metadata hgiven object hobject part hpart
    exact hsound metadata hgiven part (hs.objects object hobject hpart)

/-! ## Requests -/

section Requests

variable {gw : Gateway} {policy : Policy} {store store' : Option UploadHash}
  {marker : Option Bool}

/-- With a store and without the switch for old uploads, a request has the state of the
upload or fails. -/
theorem exists_of_uploadState (hstore : gw.hasStateStore = true)
    (hswitch : gw.allowUntrackedPlaintextUploads = false) (hsealed : Sealed marker store)
    {succeeds : Bool} {state : Option UploadState}
    (hread : gw.uploadState succeeds store = .ok state) :
    ∃ found, state = some found ∧ some found.encrypted = marker := by
  unfold Gateway.uploadState at hread
  rw [hstore, hswitch] at hread
  simp only [Bool.true_eq_false, if_false, Bool.false_eq_true] at hread
  split at hread
  · cases hread
  split at hread
  · rename_i found hget
    cases hread
    exact ⟨found, rfl, Mpu.Seals.of_get hsealed hget⟩
  · cases hread
  · cases hread

/-- What is sent on the plaintext path is the content. -/
theorem body_of_forwarded {r : PartRequest} {part : SentPart}
    (hpart : r.forwarded policy = some part) : part.body = part.content := by
  unfold PartRequest.forwarded at hpart
  split at hpart
  · cases hpart
    rfl
  · rename_i source _
    split at hpart
    · rename_i hclass
      split at hpart <;> cases hpart
      exact source.stored_eq hclass
    all_goals
      cases hpart
      rfl

theorem encrypts_of_encrypted {r : PartRequest} {succeeds : Bool} {ciphertext : Bytes}
    (hsealed : Sealed (some true) store) (hstate : state.encrypted = true)
    (hbody : r.encrypted gw store state succeeds = some ciphertext) :
    gw.Encrypts ⟨r.partNumber, r.input.content, ciphertext⟩ := by
  unfold PartRequest.encrypted at hbody
  cases hinput : r.input with
  | body bytes =>
    rw [hinput] at hbody
    exact ⟨r.bucket, r.key, state, hstate, hbody⟩
  | copy source =>
    rw [hinput] at hbody
    obtain ⟨fresh, hread, hencrypt⟩ := Option.bind_eq_some_iff.mp hbody
    exact ⟨r.bucket, fresh.key, fresh, Option.some.inj (Mpu.Seals.of_readState hsealed hread), hencrypt⟩

/-- The protocol of claims reads and writes states with the snapshot it found. -/
theorem PartPc.Fits.protocol {partNumber : ℕ} {content : Bytes} {part : Mpu.PartClaim}
    {body body' : Option Bytes} {pc : Mpu.Pc} {event : Mpu.Event}
    {result : Mpu.Pc × Option UploadHash} (hsealed : Sealed marker store)
    (hfits : (PartPc.encrypting state part body pc).Fits gw marker partNumber content)
    (hbody : ∀ ciphertext, body' = some ciphertext →
      gw.Encrypts ⟨partNumber, content, ciphertext⟩)
    (hnext : pc.next gw.leaseTime part store event = some result) :
    Sealed marker result.2 ∧
      (PartPc.encrypting state part body' result.1).Fits gw marker partNumber content := by
  obtain ⟨htrue, hstate, hread, -⟩ := hfits
  obtain ⟨hsealed', hread'⟩ := Mpu.Pc.next_seals (Mpu.controlFree_encrypted _) hsealed hread hnext
  exact ⟨hsealed', htrue, hstate, hread', hbody⟩

/-- **A step of a request for a part.** -/
theorem PartRequest.next_fits (hstore : gw.hasStateStore = true)
    (hswitch : gw.allowUntrackedPlaintextUploads = false) (hsealed : Sealed marker store)
    {r : PartRequest} {pc pc' : PartPc} {event : PartEvent} {sent : Option SentPart}
    (hfits : pc.Fits gw marker r.partNumber r.input.content)
    (hnext : r.next gw policy store pc event = some (pc', store', sent)) :
    Sealed marker store' ∧ pc'.Fits gw marker r.partNumber r.input.content ∧
      ∀ part, sent = some part → gw.Sound marker part := by
  -- a step that leaves the store alone and sends nothing
  have hquiet : ∀ {place : PartPc}, some (place, store, none) = some (pc', store', sent) →
      place.Fits gw marker r.partNumber r.input.content → Sealed marker store' ∧
        pc'.Fits gw marker r.partNumber r.input.content ∧
        ∀ part, sent = some part → gw.Sound marker part := by
    intro place heq hplace
    cases heq
    exact ⟨hsealed, hplace, fun part hpart => absurd hpart nofun⟩
  -- a step of the protocol of claims that sends nothing
  have hprotocol : ∀ {state : UploadState} {part : Mpu.PartClaim} {body body' : Option Bytes}
      {at' : Mpu.Pc} {step : Mpu.Event},
      (PartPc.encrypting state part body at').Fits gw marker r.partNumber r.input.content →
      (∀ ciphertext, body' = some ciphertext →
        gw.Encrypts ⟨r.partNumber, r.input.content, ciphertext⟩) →
      (at'.next gw.leaseTime part store step).map (fun result =>
        (PartPc.encrypting state part body' result.1, result.2, none)) =
          some (pc', store', sent) →
      Sealed marker store' ∧ pc'.Fits gw marker r.partNumber r.input.content ∧
        ∀ part, sent = some part → gw.Sound marker part := by
    intro state part body body' at' step hplace hbody heq
    obtain ⟨result, hresult, heq⟩ := Option.map_eq_some_iff.mp heq
    cases heq
    obtain ⟨hsealed', hfits'⟩ := PartPc.Fits.protocol hsealed hplace hbody hresult
    exact ⟨hsealed', hfits', fun part hpart => absurd hpart nofun⟩
  unfold PartRequest.next at hnext
  split at hnext
  -- the guard
  · apply hquiet hnext
    split <;> trivial
  -- refusals
  · exact hquiet hnext trivial
  · exact hquiet hnext trivial
  · exact hquiet hnext trivial
  -- routing
  · split at hnext
    · exact hquiet hnext trivial
    · rename_i hread
      exact hquiet hnext (exists_of_uploadState hstore hswitch hsealed hread)
    · rename_i hread
      split at hnext
      · exact hquiet hnext trivial
      · exact hquiet hnext (exists_of_uploadState hstore hswitch hsealed hread)
  -- the claim of an encrypted part
  · rename_i state token
    split at hnext
    · rename_i hencrypted
      split at hnext
      · obtain ⟨found, hfound, hmarker⟩ := hfits
        cases hfound
        refine hquiet hnext ⟨?_, hencrypted, ?_, ?_⟩
        · rw [← hmarker, hencrypted]
        · exact fun read hread => absurd hread nofun
        · exact fun ciphertext hbody => absurd hbody nofun
      · exact hquiet hnext trivial
    · cases hnext
  -- a part that is passed on
  · rename_i state
    split at hnext
    · cases hnext
    rename_i hroute
    obtain ⟨found, rfl, hmarker⟩ := hfits
    cases hnext
    refine ⟨hsealed, trivial, ?_⟩
    intro part hpart
    have hplain : found.encrypted = false := Bool.not_eq_true _ ▸ hroute
    exact .inr ⟨by rw [← hmarker, hplain], body_of_forwarded hpart⟩
  -- encryption
  · split at hnext
    · exact hprotocol hfits hfits.2.2.2 hnext
    · rename_i hbody
      apply hprotocol hfits _ hnext
      intro ciphertext heq
      cases heq
      rw [hfits.1] at hsealed
      exact encrypts_of_encrypted hsealed hfits.2.1 hbody
    · cases hnext
  -- the other steps of the protocol
  · split at hnext
    · cases hnext
    · cases hnext
    · rename_i ciphertext
      obtain ⟨result, hresult, heq⟩ := Option.map_eq_some_iff.mp hnext
      cases heq
      obtain ⟨hsealed', hfits'⟩ := PartPc.Fits.protocol hsealed hfits hfits.2.2.2 hresult
      refine ⟨hsealed', hfits', ?_⟩
      intro part hpart
      cases hpart
      exact .inl ⟨hfits.1, hfits.2.2.2 ciphertext rfl⟩
    · exact hprotocol hfits hfits.2.2.2 hnext
  · cases hnext

theorem read_afterCall (call : Call) (pc : CallPc) (hread : (afterCall call pc).read = some state) :
    pc.read = some state := by
  cases pc with
  | reading => exact hread
  | scripting read => exact hread
  | done read => cases call <;> cases hread
  | failed => cases hread

/-- **A step of a completion.** -/
theorem CompleteRequest.next_fits (hsealed : Sealed marker store) {r : CompleteRequest}
    {pc pc' : CompletePc} {event : CompleteEvent}
    (hread : ∀ state, pc.read = some state → some state.encrypted = marker)
    (hnext : r.next gw policy store pc event = some (pc', store')) :
    Sealed marker store' ∧ ∀ state, pc'.read = some state → some state.encrypted = marker := by
  have hquiet : ∀ {place : CompletePc}, place.read = none →
      some (place, store) = some (pc', store') → Sealed marker store' ∧
        ∀ state, pc'.read = some state → some state.encrypted = marker := by
    intro place hplace heq
    cases heq
    refine ⟨hsealed, ?_⟩
    intro state hstate
    rw [hplace] at hstate
    cases hstate
  unfold CompleteRequest.next at hnext
  split at hnext
  -- the guard and refusals
  · apply hquiet _ hnext
    split <;> rfl
  · exact hquiet rfl hnext
  · exact hquiet rfl hnext
  -- routing
  · split at hnext
    · exact hquiet rfl hnext
    · exact hquiet rfl hnext
    · split at hnext
      · split at hnext
        · exact hquiet rfl hnext
        · exact hquiet rfl hnext
      · exact hquiet rfl hnext
  -- a call
  · obtain ⟨result, hresult, heq⟩ := Option.map_eq_some_iff.mp hnext
    cases heq
    obtain ⟨hsealed', hread'⟩ := Mpu.Call.next_seals (Mpu.controlFree_encrypted _) hsealed hread hresult
    exact ⟨hsealed', fun state hstate => hread' state (read_afterCall _ _ hstate)⟩
  -- the manifest and the backend
  · apply hquiet _ hnext
    split <;> rfl
  · split at hnext <;> exact hquiet rfl hnext
  -- the end
  · cases hnext
    refine ⟨?_, fun state hstate => absurd hstate nofun⟩
    split
    · exact Mpu.seals_none _
    · exact hsealed
  · cases hnext

end Requests

/-! ## Steps of the system -/

section Steps

variable {gw : Gateway} {request : CreateRequest} {s s' : System}

/-- The creating request moved on, and the backend has been given nothing new. -/
theorem Consistent.of_create (hs : Consistent gw s) {create : CreatePc}
    {firstRead : Option Policy} {store : Option UploadHash} (hsealed : Sealed s.marker store)
    (hcreating : Creating s.marker s.given firstRead create) :
    Consistent gw { s with create := create, firstRead := firstRead, store := store } :=
  ⟨hsealed, hcreating, hs.parts, hs.completes, hs.calls, hs.sent, hs.objects⟩

/-- The backend is given the metadata.  Before that there is no state anywhere. -/
theorem Consistent.of_given (hs : Consistent gw s) (hnone : s.given = none)
    {metadata : Map Str Str} {create : CreatePc}
    (hcreating : Creating (some (carriesMarker metadata)) (some metadata) s.firstRead create) :
    Consistent gw { s with create := create, given := some metadata } := by
  have hmarker : s.marker = none := by
    unfold marker
    rw [hnone, Option.map_none]
  obtain ⟨hstored, -, hparts, hcompletes, hcalls, hsent, hobjects⟩ := hs
  rw [hmarker] at hstored hparts hcompletes hcalls hsent
  refine ⟨?_, hcreating, ?_, ?_, ?_, ?_, hobjects⟩
  · intro hash state hhash hstate
    exact absurd (hstored hash state hhash hstate) nofun
  · intro r hr
    have hfits := hparts r hr
    cases hpc : r.pc with
    | routed state =>
      rw [hpc] at hfits
      obtain ⟨found, -, hfound⟩ := hfits
      cases hfound
    | encrypting state part body pc =>
      rw [hpc] at hfits
      exact absurd hfits.1 nofun
    | received => trivial
    | guarded => trivial
    | finished => trivial
  · intro r hr state hread
    exact absurd (hcompletes r hr state hread) nofun
  · intro call hcall state hread
    exact absurd (hcalls call hcall state hread) nofun
  · intro part hpart
    rcases hsent part hpart with ⟨hmarker, -⟩ | ⟨hmarker, -⟩
    · cases hmarker
    · cases hmarker

theorem made_createMetadata {m : WriteMetadata}
    (hparse : parseWriteMetadata request.standardVisits request.visits = .ok m)
    (hfilter : isFiltered gw.filterKeys metaMpuEncrypted = false) {policy : Policy}
    {bindingId : Option Bytes} (hbinding : bindingId.isSome = policy.encryptsMultipart) :
    Creating.Made (some policy) (createMetadata gw.filterKeys request.key m bindingId) := by
  refine ⟨policy, rfl, ?_, ?_⟩
  · rw [carriesMarker_createMetadata hparse hfilter, hbinding]
  · intro hlookup
    cases bindingId with
    | some bindingId => exact hbinding.symm
    | none =>
      refine absurd ?_ hlookup
      rw [lookup_createMetadata (by decide) (by decide)]
      split
      · rfl
      · exact lookup_user_of_reserved hparse marker_reserved.2

/-- **A step of the creation.** -/
theorem Consistent.create (hstore : gw.hasStateStore = true)
    (hfilter : isFiltered gw.filterKeys metaMpuEncrypted = false) (hs : Consistent gw s)
    {event : CreateEvent} (hstill : stillEncrypts s (.create event) = true)
    (hstep : s.createStep gw request event = some s') : Consistent gw s' := by
  have hcreating := hs.creating
  unfold createStep at hstep
  split at hstep
  any_goals (cases hstep; done)
  all_goals
    rename_i hpc
    rw [hpc] at hcreating
  -- the guard and refusals
  · cases hstep
    apply hs.of_create hs.stored
    split
    · trivial
    · exact hcreating
  · cases hstep
    exact hs.of_create hs.stored trivial
  · cases hstep
    exact hs.of_create hs.stored trivial
  -- the first reading of the policy
  · split at hstep
    · cases hstep
      exact hs.of_create hs.stored trivial
    · cases hstep
      exact hs.of_create hs.stored trivial
    · rename_i m bindingId hparse hpolicy
      split at hstep
      · cases hstep
        exact hs.of_create hs.stored
          ⟨hcreating, made_createMetadata hparse hfilter hpolicy.symm⟩
      · cases hstep
    · rename_i m hparse hpolicy
      cases hstep
      exact hs.of_create hs.stored
        ⟨hcreating, made_createMetadata hparse hfilter hpolicy.symm⟩
  -- the backend creates the upload, or fails to
  · cases hstep
    exact hs.of_given hcreating.1 ⟨rfl, hcreating.2⟩
  · cases hstep
    exact hs.of_given hcreating.1 trivial
  -- the second reading
  · rename_i metadata uploadId material
    rw [hstore] at hstep
    simp only [Bool.true_eq_false, if_false] at hstep
    obtain ⟨hgiven, first, hfirst, hcarries, hbinding⟩ := hcreating
    split at hstep
    · rename_i state hstate
      cases hstep
      apply hs.of_create hs.stored
      obtain ⟨hpolicy, hneeds⟩ := encrypted_of_newUploadState hstate
      have hsame : state.encrypted = first.encryptsMultipart := by
        cases hencrypted : state.encrypted with
        | true => exact (hbinding (hneeds hencrypted)).symm
        | false =>
          -- the policy does not encrypt now, so it did not before
          rw [hpolicy] at hencrypted
          simpa [stillEncrypts, hfirst, hencrypted] using hstill
      show some state.encrypted = s.marker
      unfold marker
      rw [hgiven, Option.map_some, hcarries, hsame]
    · cases hstep
      exact hs.of_create hs.stored trivial
  -- the state is stored, perhaps without an answer
  · have hsealed := hs.stored.create hcreating
    simp only at hstep
    split at hstep
    · cases hstep
      exact hs.of_create hsealed trivial
    · cases hstep
      exact hs.of_create hsealed trivial
    · cases hstep
      exact hs.of_create hsealed trivial
    · cases hstep
      exact hs.of_create hsealed hs.creating
    · cases hstep
      exact hs.of_create hs.stored trivial
  · cases hstep
    exact hs.of_create hs.stored trivial

theorem Consistent.part (hstore : gw.hasStateStore = true)
    (hswitch : gw.allowUntrackedPlaintextUploads = false) (hs : Consistent gw s) {index : ℕ}
    {event : PartEvent} (hstep : s.step gw request (.part index event) = some s') :
    Consistent gw s' := by
  simp only [step, Option.bind_eq_bind, Option.bind_eq_some_iff, Option.pure_def,
    Option.some.injEq, Prod.exists] at hstep
  obtain ⟨r, hr, pc, store, sent, hnext, rfl⟩ := hstep
  have hmem : r ∈ s.parts := mem_of_getElem? hr
  obtain ⟨hsealed, hfits, hsound⟩ :=
    PartRequest.next_fits hstore hswitch hs.stored (hs.parts r hmem) hnext
  refine ⟨hsealed, hs.creating, ?_, hs.completes, hs.calls, ?_, ?_⟩
  · intro r' hr'
    rcases mem_or_eq_of_mem_set hr' with hold | rfl
    · exact hs.parts r' hold
    · exact hfits
  · intro part hpart
    rcases mem_append.mp hpart with hold | hnew
    · exact hs.sent part hold
    · exact hsound part (Option.mem_toList.mp hnew)
  · intro object hobject
    exact List.Subset.trans (hs.objects object hobject) (subset_append_left _ _)

theorem Consistent.complete (hs : Consistent gw s) {index : ℕ} {event : CompleteEvent}
    (hstep : s.step gw request (.complete index event) = some s') : Consistent gw s' := by
  simp only [step, Option.bind_eq_bind, Option.bind_eq_some_iff, Prod.exists] at hstep
  obtain ⟨r, hr, pc, store, hnext, hstep⟩ := hstep
  have hmem : r ∈ s.completes := mem_of_getElem? hr
  obtain ⟨hsealed, hread⟩ := CompleteRequest.next_fits hs.stored (hs.completes r hmem) hnext
  have hcompletes : ∀ r' ∈ s.completes.set index { r with pc := pc }, ∀ state,
      r'.pc.read = some state → some state.encrypted = s.marker := by
    intro r' hr'
    rcases mem_or_eq_of_mem_set hr' with hold | rfl
    · exact hs.completes r' hold
    · exact hread
  split at hstep
  · -- the object is made of parts that were sent
    split at hstep <;> cases hstep
    rename_i hparts
    refine ⟨hsealed, hs.creating, hs.parts, hcompletes, hs.calls, hs.sent, ?_⟩
    intro object hobject
    rcases mem_append.mp hobject with hold | hnew
    · exact hs.objects object hold
    · obtain rfl := mem_singleton.mp hnew
      exact hparts
  · cases hstep
    exact ⟨hsealed, hs.creating, hs.parts, hcompletes, hs.calls, hs.sent, hs.objects⟩

theorem Consistent.call (hs : Consistent gw s) {index : ℕ} {event : Mpu.Event}
    (hstep : s.step gw request (.call index event) = some s') : Consistent gw s' := by
  simp only [step, Option.bind_eq_bind, Option.bind_eq_some_iff, Option.pure_def,
    Option.some.injEq, Prod.exists] at hstep
  obtain ⟨call, pc, hcall, pc', store, hnext, rfl⟩ := hstep
  have hmem : (call, pc) ∈ s.calls := mem_of_getElem? hcall
  obtain ⟨hsealed, hread⟩ := Mpu.Call.next_seals (Mpu.controlFree_encrypted _) hs.stored (hs.calls _ hmem) hnext
  refine ⟨hsealed, hs.creating, hs.parts, hs.completes, ?_, hs.sent, hs.objects⟩
  intro call' hcall'
  rcases mem_or_eq_of_mem_set hcall' with hold | rfl
  · exact hs.calls call' hold
  · exact hread

theorem Consistent.step (hstore : gw.hasStateStore = true)
    (hswitch : gw.allowUntrackedPlaintextUploads = false)
    (hfilter : isFiltered gw.filterKeys metaMpuEncrypted = false) (hs : Consistent gw s)
    {action : Action} (hstill : stillEncrypts s action = true)
    (hstep : s.step gw request action = some s') : Consistent gw s' := by
  cases action with
  | reload policy =>
    cases hstep
    exact ⟨hs.stored, hs.creating, hs.parts, hs.completes, hs.calls, hs.sent, hs.objects⟩
  | create event => exact hs.create hstore hfilter hstill hstep
  | arrivePart bucket key partNumber input =>
    cases hstep
    refine ⟨hs.stored, hs.creating, ?_, hs.completes, hs.calls, hs.sent, hs.objects⟩
    intro r hr
    rcases mem_append.mp hr with hold | hnew
    · exact hs.parts r hold
    · obtain rfl := mem_singleton.mp hnew
      trivial
  | part index event => exact hs.part hstore hswitch hstep
  | arriveComplete bucket key selection =>
    cases hstep
    refine ⟨hs.stored, hs.creating, hs.parts, ?_, hs.calls, hs.sent, hs.objects⟩
    intro r hr
    rcases mem_append.mp hr with hold | hnew
    · exact hs.completes r hold
    · obtain rfl := mem_singleton.mp hnew
      exact fun state hread => absurd hread nofun
  | complete index event => exact hs.complete hstep
  | startCall call =>
    cases hstep
    refine ⟨hs.stored, hs.creating, hs.parts, hs.completes, ?_, hs.sent, hs.objects⟩
    intro call' hcall'
    rcases mem_append.mp hcall' with hold | hnew
    · exact hs.calls call' hold
    · obtain rfl := mem_singleton.mp hnew
      exact fun state hread => absurd hread nofun
  | call index event => exact hs.call hstep
  | expire =>
    cases hstep
    exact ⟨Mpu.seals_none _, hs.creating, hs.parts, hs.completes, hs.calls, hs.sent, hs.objects⟩

end Steps

/-- **Marker, state and parts agree** in every run in which the policy encrypts uploads at
the second reading of the creation if it did at the first. -/
theorem agrees_of_stillEncrypts {gw : Gateway} {request : CreateRequest} {policy : Policy}
    {actions : List Action} {s : System} (hstore : gw.hasStateStore = true)
    (hswitch : gw.allowUntrackedPlaintextUploads = false)
    (hfilter : isFiltered gw.filterKeys metaMpuEncrypted = false)
    (hmeets : Meets (System.step gw request) (fun s action => stillEncrypts s action = true)
      (.initial policy) actions)
    (hrun : run (System.step gw request) (.initial policy) actions = some s) : s.Agrees gw := by
  have hs : Consistent gw s := run_invariant (step gw request)
    (fun _ _ _ hs hstill hstep => hs.step hstore hswitch hfilter hstill hstep)
    (consistent_initial gw policy) hmeets hrun
  exact hs.agrees

/-! ## Runs of one upload -/

/-- An encrypter that puts a byte before the plaintext. -/
def sampleGateway : Gateway where
  hasStateStore := true
  hasKeyManager := true
  allowUntrackedPlaintextUploads := false
  filterKeys := []
  leaseTime := 1000
  hmac := fun key message => key ++ message
  unwrapMpuDek := fun _ _ => some [1]
  mpuPartEncrypter := fun _ _ _ _ _ _ plaintext => some (0 :: plaintext)

def sampleRequest : CreateRequest := ⟨"bucket", "key", fun _ => [], []⟩

/-- A creation; `between` happens after the backend has created the upload. -/
def creates (between : List Action) : List Action :=
  [.create .guard, .create (.mark (some (List.replicate 16 1))), .create (.initiate (some "id"))] ++
    between ++ [.create (.snapshot (some ⟨"dek", "iv", ""⟩)), .create (.store .delivered)]

def policyOff : Action := .reload ⟨false, false⟩

/-- The policy stops to encrypt uploads while the backend creates this one.  A part is
passed on as it is, and the upload is completed. -/
def policyOffBetween : List Action :=
  creates [policyOff] ++
    [.arrivePart "bucket" "key" 1 (.body [7]), .part 0 .guard, .part 0 (.route true),
      .part 0 .forward, .arriveComplete "bucket" "key" [], .complete 0 .guard,
      .complete 0 (.route true), .complete 0 (.complete (some [⟨1, [7], [7]⟩]))]

/-- The policy stops to encrypt uploads after this one was created. -/
def policyOffAfter : List Action :=
  creates [] ++ policyOff ::
    [.arrivePart "bucket" "key" 1 (.body [7]), .part 0 .guard, .part 0 (.route true),
      .part 0 (.claim [9]), .part 0 (.protocol (.get true)),
      .part 0 (.protocol (.script 0 .delivered)), .part 0 (.encrypt true .quick),
      .part 0 (.protocol .upload), .part 0 (.protocol (.uploaded (some ⟨"etag", 2, 1⟩))),
      .part 0 (.protocol (.get true)), .part 0 (.protocol (.script 0 .delivered)),
      .arriveComplete "bucket" "key" [⟨1, "etag"⟩], .complete 0 .guard, .complete 0 (.route true),
      .complete 0 (.call (.get true)), .complete 0 (.call (.script 0 .delivered)),
      .complete 0 (.manifest true), .complete 0 (.complete (some [⟨1, [7], [0, 7]⟩]))]

/-- The upload that was created before the change is encrypted to its end. -/
theorem agrees_policyOffAfter :
    ∃ s, run (System.step sampleGateway sampleRequest) (.initial ⟨true, false⟩) policyOffAfter =
        some s ∧ s.marker = some true ∧ s.objects = [[⟨1, [7], [0, 7]⟩]] ∧
      s.Agrees sampleGateway := by
  have hrun : (run (step sampleGateway sampleRequest) (.initial ⟨true, false⟩)
      policyOffAfter).map (fun s => (s.marker, s.objects)) =
        some (some true, [[⟨1, [7], [0, 7]⟩]]) := by
    decide +kernel
  obtain ⟨s, hs, hobs⟩ := Option.map_eq_some_iff.mp hrun
  obtain ⟨hmarker, hobjects⟩ := Prod.mk.inj hobs
  refine ⟨s, hs, hmarker, hobjects, ?_⟩
  exact agrees_of_stillEncrypts rfl rfl rfl (by decide +kernel) hs

/-- The upload is marked, its state says plaintext, and its object holds a plaintext part. -/
theorem not_agrees_policyOffBetween :
    ∃ s, run (System.step sampleGateway sampleRequest) (.initial ⟨true, false⟩) policyOffBetween =
        some s ∧ s.marker = some true ∧ s.objects = [[⟨1, [7], [7]⟩]] ∧
      ¬s.Agrees sampleGateway := by
  have hrun : (run (step sampleGateway sampleRequest) (.initial ⟨true, false⟩)
      policyOffBetween).map (fun s => (s.marker, s.objects)) =
        some (some true, [[⟨1, [7], [7]⟩]]) := by
    decide +kernel
  obtain ⟨s, hs, hobs⟩ := Option.map_eq_some_iff.mp hrun
  obtain ⟨hmarker, hobjects⟩ := Prod.mk.inj hobs
  refine ⟨s, hs, hmarker, hobjects, ?_⟩
  intro hagrees
  obtain ⟨metadata, hgiven, hcarries⟩ := Option.map_eq_some_iff.mp hmarker
  have hpart := hagrees.objects metadata hgiven [⟨1, [7], [7]⟩] (by rw [hobjects]; simp)
    ⟨1, [7], [7]⟩ (by simp)
  unfold Gateway.PartAgrees at hpart
  rw [if_pos hcarries] at hpart
  obtain ⟨bucket, key, state, -, hencrypt⟩ := hpart
  -- what the encrypter makes begins with a zero byte
  unfold Gateway.encryptMpuPartWithState at hencrypt
  obtain ⟨dek, -, hbody⟩ := Option.bind_eq_some_iff.mp hencrypt
  split at hbody
  · exact absurd (Option.some.inj hbody) (by decide)
  · cases hbody

end S3EncryptionGateway.Api.Multipart
