import S3EncryptionGateway.Mpu.Lifecycle

/-!
# The lifecycle of a multipart upload

Any number of clients call the ten operations of the store on one upload.  All but
`Create` first read the upload and then run one script with what they read, so between
the two the upload may have changed: what a client has read may be old.  Three of the
operations read again and repeat if it was.

The upload is a state machine all the same, because a script compares the phase and the
revision it was given with the stored ones and writes metadata that was made for exactly
these.

## Strategy

* **What an operation writes.**  `Effect` lists what the script of an operation can do to
  a current upload; `effect_of_script` reads it off the scripts, once for all of them.
* **The invariant.**  `Current` says that the sealed metadata and the control fields
  mirror each other; every `Effect` keeps it, and clients have only read current uploads.
* **Runs.**  `step_effect` says that a step leaves the hash alone, creates it, or has the
  effect of an operation of one of the clients.  All results about runs come from this.
-/

namespace S3EncryptionGateway.Mpu.StateMachine

open Encoding Transitions List

/-! ## Operations -/

inductive Operation where
  | create (state : UploadState)
  | reservePart (part : PartClaim)
  | renewPart (partNumber : ℕ) (token : Bytes)
  | releasePart (partNumber : ℕ) (token : Bytes)
  | commitPart (part : PartClaim)
  | lifecycle (call : Call)
  deriving DecidableEq

/-- The check of an operation's arguments. -/
def Operation.valid : Operation → Bool
  | .create _ | .lifecycle _ => true
  | .reservePart part | .commitPart part =>
    1 ≤ part.partNumber ∧ part.partNumber ≤ 10000 ∧ part.claim ≠ [] ∧ part.token ≠ []
  | .renewPart partNumber token => 1 ≤ partNumber ∧ partNumber ≤ 10000 ∧ token ≠ []
  | .releasePart partNumber token => 1 ≤ partNumber ∧ token ≠ []

/-- What an operation makes of the answer of its script. -/
inductive Verdict where
  | success
  /-- The upload changed since it was read. -/
  | conflict
  | failure

def ofReserve : ReserveAnswer → Verdict
  | .reserved _ _ | .reacquired _ _ | .committed _ => .success
  | .conflict => .conflict
  | .notFound | .badVersion | .badPhase | .mismatch | .inProgress => .failure

def ofPart : PartAnswer → Verdict
  | .done => .success
  | .conflict => .conflict
  | .notFound | .notOwner | .badVersion | .badPhase => .failure

def ofCall (happened : Bool) : Verdict :=
  if happened then .success else .failure

/-- The script of an operation that read `state`. -/
def Operation.script (leaseTime now : ℕ) (state : UploadState) :
    Operation → Option (UploadHash → Verdict × Option UploadHash)
  | .create _ => none
  | .reservePart part => some fun hash =>
    (Mpu.reservePart now part state.revision leaseTime
      (controlMeta state .open_ (state.revision + 1)) hash).map ofReserve id
  | .renewPart partNumber token => some fun hash =>
    (Mpu.renewPart now partNumber token state.revision leaseTime hash).map ofPart id
  | .releasePart partNumber token => some fun hash =>
    (Mpu.releasePart partNumber token state.revision
      (controlMeta state .open_ (state.revision + 1)) hash).map ofPart id
  | .commitPart part => some fun hash =>
    (Mpu.commitPart part state.revision
      (controlMeta state .open_ (state.revision + 1)) hash).map ofPart id
  | .lifecycle call => (call.script state).map fun script hash => (script hash).map ofCall id

/-- The operations that read again after a conflict. -/
def Operation.repeats : Operation → Bool
  | .reservePart _ | .renewPart _ _ | .commitPart _ => true
  | .create _ | .releasePart _ _ | .lifecycle _ => false

/-! ## Clients -/

/-- Where a call of an operation is. -/
inductive Place where
  | creating
  | reading (attempt : ℕ)
  | scripting (attempt : ℕ) (state : UploadState)
  | finished (succeeded : Bool)
  deriving DecidableEq

structure Client where
  operation : Operation
  place : Place
  deriving DecidableEq

def Operation.start (operation : Operation) : Place :=
  match operation with
  | .create _ => .creating
  | _ => if operation.valid then .reading 0 else .finished false

def Operation.after (operation : Operation) (attempt : ℕ) : Verdict → Place
  | .success => .finished true
  | .conflict =>
    if operation.repeats ∧ attempt + 1 < maxAttempts then .reading (attempt + 1)
    else .finished false
  | .failure => .finished false

/-- Sends the script of `Create`. -/
def sendCreate (reply : Reply) (state : UploadState) (store : Option UploadHash) :
    Place × Option UploadHash :=
  match reply with
  | .delivered => (.finished (create state store).1.isOk, (create state store).2)
  | .lost => (.finished false, (create state store).2)
  | .retried => (.creating, (create state store).2)
  | .unreached => (.finished false, store)

def Operation.next (leaseTime : ℕ) (operation : Operation) (store : Option UploadHash) :
    Place → Event → Option (Place × Option UploadHash)
  | .creating, .script _ reply =>
    match operation with
    | .create state => some (sendCreate reply state store)
    | _ => none
  | .reading attempt, .get succeeds =>
    match readState succeeds store with
    | some state => some (.scripting attempt state, store)
    | none => some (.finished false, store)
  | .scripting attempt state, .script now reply =>
    match operation.script leaseTime now state with
    | some script =>
      some (send reply script store (.scripting attempt state) (.finished false)
        (operation.after attempt))
    | none => some (.finished false, store)
  | _, _ => none

/-- One upload and the calls on it. -/
structure System where
  store : Option UploadHash
  clients : List Client

inductive Action where
  | arrive (operation : Operation)
  | client (index : ℕ) (event : Event)

def System.step (leaseTime : ℕ) (s : System) : Action → Option System
  | .arrive operation =>
    some { s with clients := s.clients ++ [⟨operation, operation.start⟩] }
  | .client index event => do
      let c ← s.clients[index]?
      let (place, store) ← c.operation.next leaseTime s.store c.place event
      return ⟨store, s.clients.set index { c with place := place }⟩

/-! ## What a step can do -/

def Place.read : Place → Option UploadState
  | .scripting _ state => some state
  | _ => none

variable {leaseTime : ℕ}

/-- A step of a call fails, reads, or runs the call's script. -/
theorem Operation.next_cases {operation : Operation} {store store' : Option UploadHash}
    {place place' : Place} {event : Event}
    (hnext : operation.next leaseTime store place event = some (place', store')) :
    (store' = store ∧ place' = .finished false) ∨
    (∃ attempt succeeds state, store' = store ∧ place = .reading attempt ∧
      readState succeeds store = some state ∧ place' = .scripting attempt state) ∨
    (∃ state now reply, event = .script now reply ∧ operation = .create state ∧
      store' = (Mpu.create state store).2 ∧
      (place' = .creating ∨ place' = .finished false ∨
        place' = .finished (Mpu.create state store).1.isOk)) ∨
    ∃ attempt state now reply script, event = .script now reply ∧
      place = .scripting attempt state ∧
      operation.script leaseTime now state = some script ∧ store' = (exec script store).2 ∧
      (place' = place ∨ place' = .finished false ∨
        place' = operation.after attempt (exec script store).1) := by
  unfold Operation.next at hnext
  split at hnext
  · rename_i now reply
    split at hnext
    · rename_i state
      have hsend := Option.some.inj hnext
      cases reply with
      | delivered =>
        cases hsend
        exact .inr (.inr (.inl ⟨state, _, _, rfl, rfl, rfl, .inr (.inr rfl)⟩))
      | lost =>
        cases hsend
        exact .inr (.inr (.inl ⟨state, _, _, rfl, rfl, rfl, .inr (.inl rfl)⟩))
      | retried =>
        cases hsend
        exact .inr (.inr (.inl ⟨state, _, _, rfl, rfl, rfl, .inl rfl⟩))
      | unreached =>
        cases hsend
        exact .inl ⟨rfl, rfl⟩
    · cases hnext
  · rename_i attempt succeeds
    split at hnext
    · rename_i state hread
      cases hnext
      exact .inr (.inl ⟨attempt, succeeds, state, rfl, rfl, hread, rfl⟩)
    · cases hnext
      exact .inl ⟨rfl, rfl⟩
  · rename_i attempt state now reply
    split at hnext
    · rename_i script hscript
      rcases send_cases (Option.some.inj hnext) with ⟨rfl, rfl⟩ | ⟨rfl, hplace⟩
      · exact .inl ⟨rfl, rfl⟩
      · exact .inr (.inr (Or.inr
          ⟨attempt, state, now, reply, script, rfl, rfl, hscript, rfl, hplace⟩))
    · cases hnext
      exact .inl ⟨rfl, rfl⟩
  · cases hnext

variable {s s' : System}

open System

theorem System.step_client {index : ℕ} {event : Event}
    (hstep : s.step leaseTime (.client index event) = some s') :
    ∃ c place, s.clients[index]? = some c ∧
      c.operation.next leaseTime s.store c.place event = some (place, s'.store) ∧
      s'.clients = s.clients.set index { c with place := place } := by
  simp only [step, Option.bind_eq_bind, Option.bind_eq_some_iff, Option.pure_def,
    Option.some.injEq, Prod.exists] at hstep
  obtain ⟨c, hc, place, store, hnext, rfl⟩ := hstep
  exact ⟨c, place, hc, hnext, rfl⟩

/-! ## What an operation does to a current upload -/

/-- The changes of phase that there are. -/
def leads : UploadPhase → UploadPhase → Bool
  | .open_, .completing | .open_, .aborting => true
  | .completing, .open_ | .completing, .completed => true
  | .aborting, .open_ | .aborting, .aborted => true
  | _, _ => false

/-- A current upload: what is sealed and what is stored next to it agree. -/
structure Current (hash : UploadHash) : Prop where
  version : hash.stateVersion = some currentStateVersion
  phase : ∃ phase, hash.phase = some phase
  mirrored : ∃ state, hash.sealedMeta = some state ∧ state.stateVersion = currentStateVersion ∧
    state.phase = hash.phase ∧ hash.revision = some state.revision

/-- Metadata for the mutation that follows on the stored state. -/
structure Succeeds (hash : UploadHash) (phase : UploadPhase) (newMeta : UploadState) : Prop where
  version : newMeta.stateVersion = currentStateVersion
  phase : newMeta.phase = some phase
  revision : ∃ revision, hash.revision = some revision ∧ newMeta.revision = revision + 1

/-- The hash with new metadata and the control fields that go with it. -/
def withControl (hash : UploadHash) (newMeta : UploadState) : UploadHash :=
  { hash with
    sealedMeta := some newMeta
    stateVersion := some currentStateVersion
    phase := newMeta.phase
    revision := some newMeta.revision }

/-- What an operation can write over a current upload. -/
inductive Effect (hash : UploadHash) : Operation → UploadHash → Prop where
  | reserve {part : PartClaim} {lease : ℕ} {newMeta : UploadState}
      (hopen : hash.phase = some .open_)
      (hfree : ∀ current, hash.parts part.partNumber = some current →
        current.claim = some part.claim ∧ current.status ≠ some .committed)
      (hmeta : Succeeds hash .open_ newMeta) :
      Effect hash (.reservePart part)
        (withControl (hash.setPart part.partNumber (some (reservedRecord part lease))) newMeta)
  | renew {partNumber lease : ℕ} {token : Bytes} {current : PartRecord}
      (hopen : hash.phase = some .open_) (hcurrent : hash.parts partNumber = some current)
      (hstatus : current.status = some .reserved) :
      Effect hash (.renewPart partNumber token)
        (hash.setPart partNumber (some { current with leaseUntil := some lease }))
  | release {partNumber : ℕ} {token : Bytes} {current : PartRecord} {newMeta : UploadState}
      (hopen : hash.phase = some .open_) (hcurrent : hash.parts partNumber = some current)
      (hstatus : current.status = some .reserved) (hmeta : Succeeds hash .open_ newMeta) :
      Effect hash (.releasePart partNumber token)
        (withControl (hash.setPart partNumber none) newMeta)
  | commit {part : PartClaim} {current : PartRecord} {newMeta : UploadState}
      (hopen : hash.phase = some .open_) (hcurrent : hash.parts part.partNumber = some current)
      (hclaim : current.claim = some part.claim) (htoken : current.token = some part.token)
      (hstatus : current.status = some .reserved) (hmeta : Succeeds hash .open_ newMeta) :
      Effect hash (.commitPart part)
        (withControl (hash.setPart part.partNumber (some (committedRecord part))) newMeta)
  | move {call : Call} {phase phase' : UploadPhase} {newMeta : UploadState}
      (hphase : hash.phase = some phase) (hleads : leads phase phase' = true)
      (hmeta : Succeeds hash phase' newMeta) :
      Effect hash (.lifecycle call) (withControl hash newMeta)

variable {hash written : UploadHash} {operation : Operation}

variable {revision : ℕ}

theorem Current.revision_eq (hcurrent : Current hash)
    (hrevision : hash.revision.getD 0 = revision) : hash.revision = some revision := by
  obtain ⟨state, -, -, -, hstored⟩ := hcurrent.mirrored
  rw [hstored] at hrevision ⊢
  rw [← hrevision, Option.getD_some]

variable {state : UploadState}

theorem Current.succeeds_controlMeta (hcurrent : Current hash)
    (hrevision : hash.revision.getD 0 = state.revision) (phase : UploadPhase) :
    Succeeds hash phase (controlMeta state phase (state.revision + 1)) :=
  ⟨rfl, rfl, state.revision, hcurrent.revision_eq hrevision, rfl⟩

variable {partNumber : ℕ} {newMeta : UploadState}

/-- What the scripts on parts write, in terms of the metadata they were given. -/
theorem Current.with_eq_withControl (hcurrent : Current hash) (hopen : hash.OpenAt revision)
    (record : Option PartRecord) (hmeta : Succeeds hash .open_ newMeta) {stored : Option ℕ}
    (hstored : stored = some newMeta.revision) :
    { hash.setPart partNumber record with
      sealedMeta := some newMeta
      revision := stored } = withControl (hash.setPart partNumber record) newMeta := by
  rw [withControl, hmeta.phase, ← hopen.phase, ← hcurrent.version, hstored]
  rfl

theorem Succeeds.next_revision {phase : UploadPhase} (hmeta : Succeeds hash phase newMeta) :
    some (hash.revision.getD 1 + 1) = some newMeta.revision := by
  obtain ⟨revision, hstored, hnext⟩ := hmeta.revision
  rw [hstored, Option.getD_some, hnext]

/-- A change of phase by a caller that has read a current upload. -/
theorem effect_of_changePhase (hcurrent : Current hash)
    (hstate : state.stateVersion = currentStateVersion) {fromPhase toPhase : UploadPhase}
    (hleads : leads fromPhase toPhase = true) (call : Call)
    (hwritten : (changePhase fromPhase toPhase revision state hash).2 = some written) :
    Effect hash (.lifecycle call) written := by
  have hlegacy : decide (toPhase = .aborting ∧ state.stateVersion ≠ currentStateVersion) = false :=
    decide_eq_false fun h => h.2 hstate
  obtain ⟨-, -, hguard, rfl⟩ := atomicLifecycle_written hwritten
  rcases hguard with ⟨hallowed, -⟩ | ⟨hphase, hrevision⟩
  · rw [hlegacy] at hallowed
    cases hallowed
  have hmeta : Succeeds hash toPhase (lifecycleMeta toPhase revision state) := by
    refine ⟨?_, rfl, revision, hcurrent.revision_eq hrevision, rfl⟩
    simp only [lifecycleMeta, hstate, ne_eq, not_true_eq_false, and_false, if_false]
  exact Effect.move hphase hleads hmeta

theorem effect_of_call (hcurrent : Current hash) (hstate : state.stateVersion = currentStateVersion)
    {call : Call} {script : UploadHash → Bool × Option UploadHash}
    (hscript : call.script state = some script) (hwritten : (script hash).2 = some written) :
    Effect hash (.lifecycle call) written := by
  rcases Call.script_eq_some hscript with ⟨selection, rfl, rfl⟩ |
    ⟨fromPhase, revision, rfl, hfrom, rfl⟩ | ⟨revision, rfl, rfl⟩ | ⟨rfl, rfl⟩ |
    ⟨revision, rfl, rfl⟩
  · rw [closeParts_snd] at hwritten
    obtain ⟨⟨parts, hparts⟩, rfl⟩ := beginComplete_written hwritten
    obtain ⟨-, hopen, -⟩ := beginComplete_fst_eq_selected_iff.mp hparts
    have heffect : Effect hash (.lifecycle (.beginComplete selection))
        (withControl hash (controlMeta state .completing (state.revision + 1))) :=
      Effect.move hopen.phase rfl (hcurrent.succeeds_controlMeta hopen.revision .completing)
    rw [withControl, ← hcurrent.version] at heffect
    exact heffect
  · rcases hfrom with rfl | rfl
    · exact effect_of_changePhase hcurrent hstate rfl _ hwritten
    · exact effect_of_changePhase hcurrent hstate rfl _ hwritten
  · exact effect_of_changePhase hcurrent hstate rfl _ hwritten
  · exact effect_of_changePhase hcurrent hstate rfl _ hwritten
  · exact effect_of_changePhase hcurrent hstate rfl _ hwritten

variable {script : UploadHash → Verdict × Option UploadHash}

/-- **What an operation writes.** -/
theorem effect_of_script (hcurrent : Current hash) {now : ℕ}
    (hstate : state.stateVersion = currentStateVersion)
    (hscript : operation.script leaseTime now state = some script)
    (hwritten : (script hash).2 = some written) : Effect hash operation written := by
  cases operation with
  | create state => cases hscript
  | reservePart part =>
    cases hscript
    obtain ⟨hopen, hfree, rfl⟩ := reservePart_written hwritten
    have hmeta := hcurrent.succeeds_controlMeta hopen.revision .open_
    rw [hcurrent.with_eq_withControl hopen _ hmeta hmeta.next_revision]
    exact Effect.reserve hopen.phase hfree hmeta
  | renewPart partNumber token =>
    cases hscript
    obtain ⟨hopen, current, hfound, hstatus, rfl⟩ := renewPart_written hwritten
    exact Effect.renew hopen.phase hfound hstatus
  | releasePart partNumber token =>
    cases hscript
    obtain ⟨hopen, ⟨current, hfound, hstatus, -⟩, rfl⟩ := releasePart_written hwritten
    have hmeta := hcurrent.succeeds_controlMeta hopen.revision .open_
    have hnext : some (state.revision + 1) =
        some (controlMeta state .open_ (state.revision + 1)).revision := rfl
    rw [hcurrent.with_eq_withControl hopen _ hmeta hnext]
    exact Effect.release hopen.phase hfound hstatus hmeta
  | commitPart part =>
    cases hscript
    obtain ⟨hopen, ⟨current, hfound, hclaim, htoken, hstatus⟩, rfl⟩ := commitPart_written hwritten
    have hmeta := hcurrent.succeeds_controlMeta hopen.revision .open_
    rw [hcurrent.with_eq_withControl hopen _ hmeta hmeta.next_revision]
    exact Effect.commit hopen.phase hfound hclaim htoken hstatus hmeta
  | lifecycle call =>
    obtain ⟨inner, hinner, rfl⟩ := Option.map_eq_some_iff.mp hscript
    exact effect_of_call hcurrent hstate hinner hwritten

/-! ## What an effect keeps -/

/-- New control fields that mirror the new metadata. -/
theorem current_withControl {phase : UploadPhase} (hmeta : Succeeds written phase newMeta)
    (base : UploadHash) : Current (withControl base newMeta) :=
  ⟨rfl, ⟨phase, hmeta.phase⟩, newMeta, rfl, hmeta.version, rfl, rfl⟩

theorem Effect.current (hcurrent : Current hash) (heffect : Effect hash operation written) :
    Current written := by
  cases heffect with
  | reserve _ _ hmeta => exact current_withControl hmeta _
  | renew => exact ⟨hcurrent.version, hcurrent.phase, hcurrent.mirrored⟩
  | release _ _ _ hmeta => exact current_withControl hmeta _
  | commit _ _ _ _ _ hmeta => exact current_withControl hmeta _
  | move _ _ hmeta => exact current_withControl hmeta _

def Operation.renews : Operation → Bool
  | .renewPart _ _ => true
  | _ => false

/-- One mutation of a current upload. -/
structure Advances (operation : Operation) (before after : UploadHash) : Prop where
  phase : after.phase = before.phase ∨ ∃ phase phase', before.phase = some phase ∧
    after.phase = some phase' ∧ leads phase phase' = true
  parts : after.parts ≠ before.parts → before.phase = some .open_ ∧ after.phase = some .open_
  revision : ∃ revision, before.revision = some revision ∧
    after.revision = some (if operation.renews then revision else revision + 1)
  committed : ∀ partNumber record, before.parts partNumber = some record →
    record.status = some .committed → after.parts partNumber = some record

/-- Writing to a field that is not committed keeps what is committed. -/
theorem committed_setPart
    (hfield : ∀ current, hash.parts partNumber = some current → current.status ≠ some .committed)
    (record : Option PartRecord) {other : ℕ} {kept : PartRecord}
    (hkept : hash.parts other = some kept) (hstatus : kept.status = some .committed) :
    (hash.setPart partNumber record).parts other = some kept := by
  have hne : other ≠ partNumber := by
    rintro rfl
    exact hfield kept hkept hstatus
  exact (Function.update_of_ne hne record hash.parts).trans hkept

theorem ne_committed_of_reserved {current : PartRecord}
    (hcurrent : hash.parts partNumber = some current) (hstatus : current.status = some .reserved) :
    ∀ record, hash.parts partNumber = some record → record.status ≠ some .committed := by
  intro record hrecord hcommitted
  rw [hcurrent] at hrecord
  cases hrecord
  rw [hstatus] at hcommitted
  cases hcommitted

/-- A mutation of one part field of an open upload. -/
theorem advances_of_part {record : Option PartRecord} (hopen : hash.phase = some .open_)
    (hmeta : Succeeds hash .open_ newMeta)
    (hfield : ∀ current, hash.parts partNumber = some current → current.status ≠ some .committed)
    (hrenews : operation.renews = false) :
    Advances operation hash (withControl (hash.setPart partNumber record) newMeta) := by
  refine ⟨.inl (hmeta.phase.trans hopen.symm), fun _ => ⟨hopen, hmeta.phase⟩, ?_, ?_⟩
  · obtain ⟨revision, hstored, hnext⟩ := hmeta.revision
    refine ⟨revision, hstored, ?_⟩
    rw [hrenews, if_neg Bool.false_ne_true, ← hnext]
    rfl
  · intro other kept hkept hstatus
    exact committed_setPart hfield record hkept hstatus

theorem Effect.advances (hcurrent : Current hash) (heffect : Effect hash operation written) :
    Advances operation hash written := by
  cases heffect with
  | reserve hopen hfree hmeta =>
    exact advances_of_part hopen hmeta (fun current hfound => (hfree current hfound).2) rfl
  | renew hopen hfound hstatus =>
    obtain ⟨state, -, -, -, hrevision⟩ := hcurrent.mirrored
    refine ⟨.inl rfl, fun _ => ⟨hopen, hopen⟩, ⟨state.revision, hrevision, hrevision⟩, ?_⟩
    intro other kept hkept hcommitted
    exact committed_setPart (ne_committed_of_reserved hfound hstatus) _ hkept hcommitted
  | release hopen hfound hstatus hmeta =>
    exact advances_of_part hopen hmeta (ne_committed_of_reserved hfound hstatus) rfl
  | commit hopen hfound _ _ hstatus hmeta =>
    exact advances_of_part hopen hmeta (ne_committed_of_reserved hfound hstatus) rfl
  | move hphase hleads hmeta =>
    refine ⟨.inr ⟨_, _, hphase, hmeta.phase, hleads⟩, fun hparts => absurd rfl hparts, ?_,
      fun _ _ hkept _ => hkept⟩
    obtain ⟨revision, hstored, hnext⟩ := hmeta.revision
    exact ⟨revision, hstored, congrArg some hnext⟩

/-- Nothing is written to an upload that is completed or aborted. -/
theorem Effect.not_over (heffect : Effect hash operation written) :
    hash.phase ≠ some .completed ∧ hash.phase ≠ some .aborted := by
  have hopen : hash.phase = some .open_ →
      hash.phase ≠ some .completed ∧ hash.phase ≠ some .aborted := by
    intro hphase
    rw [hphase]
    exact ⟨nofun, nofun⟩
  cases heffect with
  | reserve hphase => exact hopen hphase
  | renew hphase => exact hopen hphase
  | release hphase => exact hopen hphase
  | commit hphase => exact hopen hphase
  | move hphase hleads =>
    rw [hphase]
    constructor
    · rintro hover
      cases hover
      cases hleads
    · rintro hover
      cases hover
      cases hleads

/-! ## Steps of the system -/

def createdHash (state : UploadState) : UploadHash :=
  ⟨some (controlMeta state .open_ 1), some currentStateVersion, some .open_, some 1, fun _ => none⟩

theorem current_createdHash (state : UploadState) : Current (createdHash state) :=
  ⟨rfl, ⟨_, rfl⟩, _, rfl, rfl, rfl, rfl⟩

theorem create_cases (state : UploadState) (store : Option UploadHash) :
    (create state store).2 = store ∨
      store = none ∧ (create state store).2 = some (createdHash state) := by
  unfold create
  simp only
  split
  · exact .inl rfl
  · cases store with
    | some hash => exact .inl rfl
    | none => exact .inr ⟨rfl, rfl⟩

/-- Scripts write only where there is an upload. -/
theorem script_absent {now : ℕ} (hscript : operation.script leaseTime now state = some script)
    (hmeta : hash.sealedMeta = none) (hversion : hash.stateVersion = none) :
    (script hash).2 = none := by
  rw [Option.eq_none_iff_forall_ne_some]
  intro written hwritten
  have hclosed : ∀ revision, ¬ hash.OpenAt revision := by
    intro revision hopen
    exact absurd (hversion.symm.trans hopen.version) nofun
  cases operation with
  | create state => cases hscript
  | reservePart part =>
    cases hscript
    exact hclosed _ (reservePart_written hwritten).1
  | renewPart partNumber token =>
    cases hscript
    exact hclosed _ (renewPart_written hwritten).1
  | releasePart partNumber token =>
    cases hscript
    exact hclosed _ (releasePart_written hwritten).1
  | commitPart part =>
    cases hscript
    exact hclosed _ (commitPart_written hwritten).1
  | lifecycle call =>
    obtain ⟨inner, hinner, rfl⟩ := Option.map_eq_some_iff.mp hscript
    rcases Call.script_cases hinner with ⟨selection, rfl⟩ | ⟨fromPhase, toPhase, revision, rfl⟩
    · replace hwritten : (closeParts selection state hash).2 = some written := hwritten
      rw [closeParts_snd] at hwritten
      obtain ⟨⟨parts, hparts⟩, -⟩ := beginComplete_written hwritten
      exact hclosed _ (beginComplete_fst_eq_selected_iff.mp hparts).2.1
    · have hsealed := (atomicLifecycle_written hwritten).1
      rw [hmeta] at hsealed
      cases hsealed

/-- The upload is current, and so was everything that clients have read of it. -/
structure System.Sound (s : System) : Prop where
  current : ∀ hash, s.store = some hash → Current hash
  read : ∀ c ∈ s.clients, ∀ state, c.place.read = some state →
    state.stateVersion = currentStateVersion

theorem System.Sound.of_readState (hsound : s.Sound) {succeeds : Bool}
    (hread : readState succeeds s.store = some state) :
    state.stateVersion = currentStateVersion := by
  have hseals : Seals (fun state => state.stateVersion = currentStateVersion) s.store := by
    intro hash stored hhash hstored
    obtain ⟨state', hstate', hversion, -, -⟩ := (hsound.current hash hhash).mirrored
    rw [hstored] at hstate'
    cases hstate'
    exact hversion
  exact hseals.of_readState hread

/-- **What a step does to the upload**: nothing, or it creates it, or a client's operation
has its effect on it. -/
theorem System.step_effect {action : Action} (hsound : s.Sound)
    (hstep : s.step leaseTime action = some s') :
    s'.store = s.store ∨
    (s.store = none ∧ ∃ state, s'.store = some (createdHash state)) ∨
    ∃ index event c hash written, action = .client index event ∧ s.clients[index]? = some c ∧
      s.store = some hash ∧ s'.store = some written ∧ Effect hash c.operation written := by
  cases action with
  | arrive operation =>
    cases hstep
    exact .inl rfl
  | client index event =>
    obtain ⟨c, place, hc, hnext, -⟩ := step_client hstep
    rcases Operation.next_cases hnext with ⟨hstore, -⟩ | ⟨_, _, _, hstore, -⟩ |
      ⟨state, _, _, -, -, hstore, -⟩ |
      ⟨attempt, state, now, _, script, -, hplace, hscript, hstore, -⟩
    · exact .inl hstore
    · exact .inl hstore
    · rw [hstore]
      rcases create_cases state s.store with hsame | ⟨hnone, hcreated⟩
      · exact .inl hsame
      · exact .inr (.inl ⟨hnone, state, hcreated⟩)
    · rw [hstore, exec_snd]
      cases hhash : s.store with
      | none =>
        rw [Option.getD_none, script_absent hscript rfl rfl]
        exact .inl rfl
      | some hash =>
        rw [Option.getD_some]
        cases hwritten : (script hash).2 with
        | none => exact .inl rfl
        | some written =>
          have hstate : state.stateVersion = currentStateVersion :=
            hsound.read c (mem_of_getElem? hc) state (by rw [hplace]; rfl)
          exact .inr (.inr ⟨index, event, c, hash, written, rfl, hc, rfl, rfl,
            effect_of_script (hsound.current hash hhash) hstate hscript hwritten⟩)

theorem Operation.read_next {store store' : Option UploadHash} {place place' : Place}
    {event : Event} (hnext : operation.next leaseTime store place event = some (place', store'))
    (hread : place'.read = some state) :
    place.read = some state ∨ ∃ succeeds, readState succeeds store = some state := by
  rcases Operation.next_cases hnext with ⟨-, rfl⟩ | ⟨attempt, succeeds, found, -, -, hfound, rfl⟩ |
    ⟨created, _, _, -, -, -, rfl | rfl | rfl⟩ |
    ⟨attempt, found, now, _, script, -, rfl, -, -, rfl | rfl | rfl⟩
  · cases hread
  · cases hread
    exact .inr ⟨succeeds, hfound⟩
  · cases hread
  · cases hread
  · cases hread
  · exact .inl hread
  · cases hread
  · exfalso
    cases hverdict : (exec script store).1 with
    | success =>
      rw [hverdict] at hread
      cases hread
    | conflict =>
      rw [hverdict] at hread
      simp only [Operation.after] at hread
      split at hread <;> cases hread
    | failure =>
      rw [hverdict] at hread
      cases hread

theorem Operation.read_start (operation : Operation) : operation.start.read = none := by
  unfold Operation.start
  split
  · rfl
  · split <;> rfl

theorem System.Sound.step {action : Action} (hsound : s.Sound)
    (hstep : s.step leaseTime action = some s') : s'.Sound := by
  constructor
  · intro hash hhash
    rcases step_effect hsound hstep with hsame | ⟨-, state, hcreated⟩ |
      ⟨index, event, c, before, written, -, -, hbefore, hwritten, heffect⟩
    · exact hsound.current hash (hsame ▸ hhash)
    · rw [hcreated] at hhash
      cases hhash
      exact current_createdHash state
    · rw [hwritten] at hhash
      cases hhash
      exact heffect.current (hsound.current before hbefore)
  · cases action with
    | arrive operation =>
      cases hstep
      intro c hc state hread
      rcases mem_append.mp hc with hold | hnew
      · exact hsound.read c hold state hread
      · obtain rfl := mem_singleton.mp hnew
        rw [Operation.read_start] at hread
        cases hread
    | client index event =>
      obtain ⟨c, place, hc, hnext, hclients⟩ := step_client hstep
      intro c' hc' state hread
      rw [hclients] at hc'
      rcases mem_or_eq_of_mem_set hc' with hold | rfl
      · exact hsound.read c' hold state hread
      · rcases Operation.read_next hnext hread with hbefore | ⟨succeeds, hfound⟩
        · exact hsound.read c (mem_of_getElem? hc) state hbefore
        · exact hsound.of_readState hfound

/-! ## Runs -/

/-- Before the first call: no upload yet, or a current one. -/
structure System.Initial (s : System) : Prop where
  clients : s.clients = []
  current : ∀ hash, s.store = some hash → Current hash

theorem System.Initial.sound (hinitial : s.Initial) : s.Sound := by
  refine ⟨hinitial.current, ?_⟩
  rw [hinitial.clients]
  exact nofun

variable {actions : List Action}

section

variable (hsound : s.Sound) (hrun : run (System.step leaseTime) s actions = some s')

include hsound hrun

theorem System.Sound.run : s'.Sound :=
  run_keeps (System.step leaseTime) System.Sound (fun _ _ _ hs hstep => hs.step hstep) hsound hrun

/-- An upload that is over stays as it is. -/
theorem System.store_of_over (hhash : s.store = some hash) (hover : hash.phase = some .completed ∨
      hash.phase = some .aborted) : s'.store = some hash := by
  have hkept : s'.Sound ∧ s'.store = some hash := by
    refine run_keeps (step leaseTime) (fun t => t.Sound ∧ t.store = some hash) ?_
      ⟨hsound, hhash⟩ hrun
    rintro t action t' ⟨ht, hstore⟩ hstep
    refine ⟨ht.step hstep, ?_⟩
    rcases step_effect ht hstep with hsame | ⟨hnone, -⟩ |
      ⟨index, event, c, before, written, -, -, hbefore, -, heffect⟩
    · exact hsame.trans hstore
    · rw [hstore] at hnone
      cases hnone
    · rw [hstore] at hbefore
      cases hbefore
      rcases hover with hphase | hphase
      · exact absurd hphase heffect.not_over.1
      · exact absurd hphase heffect.not_over.2
  exact hkept.2

/-- A committed record stays in its field. -/
theorem System.committed_of_run (hhash : s.store = some hash) {record : PartRecord}
    (hrecord : hash.parts partNumber = some record) (hstatus : record.status = some .committed) :
    ∃ hash', s'.store = some hash' ∧ hash'.parts partNumber = some record := by
  have hkept : s'.Sound ∧ ∃ hash', s'.store = some hash' ∧
      hash'.parts partNumber = some record := by
    refine run_keeps (step leaseTime) (fun t => t.Sound ∧ ∃ hash', t.store = some hash' ∧
      hash'.parts partNumber = some record) ?_ ⟨hsound, hash, hhash, hrecord⟩ hrun
    rintro t action t' ⟨ht, now, hstore, hfield⟩ hstep
    refine ⟨ht.step hstep, ?_⟩
    rcases step_effect ht hstep with hsame | ⟨hnone, -⟩ |
      ⟨index, event, c, before, written, -, -, hbefore, hwritten, heffect⟩
    · exact ⟨now, hsame.trans hstore, hfield⟩
    · rw [hstore] at hnone
      cases hnone
    · rw [hstore] at hbefore
      cases hbefore
      have hadvances := heffect.advances (ht.current now hstore)
      exact ⟨written, hwritten, hadvances.committed partNumber record hfield hstatus⟩
  exact hkept.2

end

/-- What one step of the clients does to the upload, seen from outside. -/
inductive Progress (s : System) : Action → System → Prop where
  | unchanged {action : Action} {s' : System} (hstore : s'.store = s.store) :
      Progress s action s'
  | created {action : Action} {s' : System} {hash : UploadHash} (hnone : s.store = none)
      (hstore : s'.store = some hash) (hphase : hash.phase = some .open_)
      (hrevision : hash.revision = some 1) (hparts : ∀ partNumber, hash.parts partNumber = none) :
      Progress s action s'
  | mutated {index : ℕ} {event : Event} {s' : System} {c : Client} {before after : UploadHash}
      (hclient : s.clients[index]? = some c) (hbefore : s.store = some before)
      (hafter : s'.store = some after) (hadvances : Advances c.operation before after) :
      Progress s (.client index event) s'

/-- **The lifecycle of an upload.**  In every run of any calls on a current upload: the
sealed phase and revision are the stored ones, every step is a legal mutation or none, an
upload that is completed or aborted stays as it is, and committed records stay. -/
theorem lifecycle_of_run {leaseTime : ℕ} {start s : System} {actions : List Action}
    (hinitial : start.Initial) (hrun : run (System.step leaseTime) start actions = some s) :
    (∀ hash, s.store = some hash → ∃ state, hash.sealedMeta = some state ∧
      state.phase = hash.phase ∧ hash.revision = some state.revision) ∧
    (∀ action s', s.step leaseTime action = some s' → Progress s action s') ∧
    (∀ later s' hash, run (System.step leaseTime) s later = some s' → s.store = some hash →
      hash.phase = some .completed ∨ hash.phase = some .aborted → s'.store = s.store) ∧
    (∀ later s' hash partNumber record, run (System.step leaseTime) s later = some s' →
      s.store = some hash → hash.parts partNumber = some record →
      record.status = some .committed →
        ∃ hash', s'.store = some hash' ∧ hash'.parts partNumber = some record) := by
  have hsound : s.Sound := hinitial.sound.run hrun
  refine ⟨?_, ?_, ?_, ?_⟩
  · intro hash hhash
    obtain ⟨state, hstate, -, hphase, hrevision⟩ := (hsound.current hash hhash).mirrored
    exact ⟨state, hstate, hphase, hrevision⟩
  · intro action s' hstep
    rcases step_effect hsound hstep with hsame | ⟨hnone, state, hcreated⟩ |
      ⟨index, event, c, before, written, rfl, hclient, hbefore, hwritten, heffect⟩
    · exact Progress.unchanged hsame
    · exact Progress.created hnone hcreated rfl rfl fun _ => rfl
    · exact Progress.mutated hclient hbefore hwritten
        (heffect.advances (hsound.current before hbefore))
  · intro later s' hash hlater hhash hover
    rw [hhash]
    exact store_of_over hsound hlater hhash hover
  · intro later s' hash partNumber record hlater hhash hrecord hstatus
    exact committed_of_run hsound hlater hhash hrecord hstatus

/-- The steps of a call that reads the upload and whose script is answered. -/
def calls (index now : ℕ) : List Action :=
  [.client index (.get true), .client index (.script now .delivered)]

def samplePart : PartClaim := ⟨1, [1], 3, [2], "etag", 19, 1⟩

/-- An upload of one part, up to `BeginComplete`. -/
def sampleUpload : List Action :=
  .arrive (.create sampleState) :: .client 0 (.script 0 .delivered) ::
    .arrive (.reservePart samplePart) :: calls 1 0 ++
    .arrive (.commitPart samplePart) :: calls 2 1 ++
    .arrive (.lifecycle (.beginComplete [⟨1, "\"etag\""⟩])) :: calls 3 2

theorem lifecycle_of_sampleUpload : ∃ s hash state,
    run (System.step 1000) ⟨none, []⟩ sampleUpload = some s ∧ s.store = some hash ∧
      hash.phase = some .completing ∧ hash.revision = some 4 ∧
      hash.sealedMeta = some state ∧ state.phase = hash.phase ∧
      hash.revision = some state.revision := by
  have hend : (run (step 1000) ⟨none, []⟩ sampleUpload).map
      (fun s => s.store.map fun hash => (hash.phase, hash.revision)) =
      some (some (some .completing, some 4)) := by decide
  obtain ⟨s, hrun, hs⟩ := Option.map_eq_some_iff.mp hend
  obtain ⟨hash, hhash, hfields⟩ := Option.map_eq_some_iff.mp hs
  obtain ⟨hphase, hrevision⟩ := Prod.mk.inj hfields
  have hinitial : System.Initial ⟨none, []⟩ := ⟨rfl, fun hash hnone => absurd hnone nofun⟩
  obtain ⟨state, hmirrors⟩ := (lifecycle_of_run hinitial hrun).1 hash hhash
  exact ⟨s, hash, state, hrun, hhash, hphase, hrevision, hmirrors⟩

end S3EncryptionGateway.Mpu.StateMachine
