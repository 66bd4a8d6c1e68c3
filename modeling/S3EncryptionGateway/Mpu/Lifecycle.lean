import S3EncryptionGateway.Mpu.PartClaims

/-!
# Lifecycle calls and the policy snapshot

The calls that change the phase of an upload read its state and then run one script with
what they read.  Between the two the upload can change, expire or be deleted.

No mutation of an upload makes new metadata: each writes the metadata it read, with other
control fields.  So a property of the state that does not look at those, such as the
snapshot of the policy that was taken when the upload was created, stays what it was.
`Seals` says that the state in the store has such a property, `Sealed` that it has a given
snapshot.  `Pc.next_seals` and `Call.next_seals` say that a step of a request or of a call
keeps this, as long as what the request or call has read has the property too.
-/

namespace S3EncryptionGateway.Mpu

/-! ## Calls -/

inductive Call where
  | beginComplete (selection : List SelectedPart)
  | reopen (revision : ℕ)
  | finalizeComplete (revision : ℕ)
  | beginAbort
  | finalizeAbort (revision : ℕ)
  deriving DecidableEq

/-- The metadata a change of phase writes; the abort of a legacy upload upgrades it. -/
def lifecycleMeta (toPhase : UploadPhase) (revision : ℕ) (state : UploadState) : UploadState :=
  { state with
    phase := some toPhase
    revision := revision + 1
    stateVersion :=
      if toPhase = .aborting ∧ state.stateVersion ≠ currentStateVersion then currentStateVersion
      else state.stateVersion }

/-- A change of phase by a caller that read `state`; the answer is whether it happened. -/
def changePhase (fromPhase toPhase : UploadPhase) (revision : ℕ) (state : UploadState)
    (hash : UploadHash) : Bool × Option UploadHash :=
  let legacyAbort := toPhase = .aborting ∧ state.stateVersion ≠ currentStateVersion
  let result := atomicLifecycle fromPhase revision toPhase (lifecycleMeta toPhase revision state)
    (decide legacyAbort) hash
  (result.1 = .done, result.2)

/-- Closes the upload for new parts. -/
def closeParts (selection : List SelectedPart) (state : UploadState) (hash : UploadHash) :
    Bool × Option UploadHash :=
  match beginComplete state.revision selection
      (controlMeta state .completing (state.revision + 1)) hash with
  | (.selected _, written) => (true, written)
  | (_, written) => (false, written)

/-- The script of a call that read `state`; `none` if the call fails on what it read. -/
def Call.script (state : UploadState) : Call → Option (UploadHash → Bool × Option UploadHash)
  | .beginComplete selection => if selection = [] then none else some (closeParts selection state)
  | .reopen revision =>
    match state.phase with
    | some .completing => some (changePhase .completing .open_ revision state)
    | some .aborting => some (changePhase .aborting .open_ revision state)
    | _ => none
  | .finalizeComplete revision => some (changePhase .completing .completed revision state)
  | .beginAbort =>
    if state.stateVersion ∉ [0, 1, currentStateVersion] then none
    else
      match state.phase with
      | some .open_ => some (changePhase .open_ .aborting state.revision state)
      | none =>
        -- a current upload always has a phase, and its script compares it with this one
        if state.stateVersion = currentStateVersion then none
        else some (changePhase .open_ .aborting state.revision state)
      | some _ => none
  | .finalizeAbort revision => some (changePhase .aborting .aborted revision state)

inductive CallPc where
  | reading
  | scripting (state : UploadState)
  | done (state : UploadState)
  | failed
  deriving DecidableEq

def Call.next (call : Call) (store : Option UploadHash) :
    CallPc → Event → Option (CallPc × Option UploadHash)
  | .reading, .get succeeds =>
    match readState succeeds store with
    | none => some (.failed, store)
    | some state =>
      if (call.script state).isSome then some (.scripting state, store)
      else some (.failed, store)
  | .scripting state, .script _ reply =>
    (call.script state).map fun script =>
      send reply script store (.scripting state) .failed
        fun happened => if happened then .done state else .failed
  | _, _ => none

/-! ## The snapshot under the seal -/

def UploadState.encrypted (state : UploadState) : Bool :=
  state.policySnapshot.encryptMultipartUploads

/-- The state in the store, if there is one, has the property. -/
def Seals (property : UploadState → Prop) (store : Option UploadHash) : Prop :=
  ∀ hash state, store = some hash → hash.sealedMeta = some state → property state

/-- The state in the store, if there is one, was created with this snapshot. -/
def Sealed (snapshot : Option Bool) (store : Option UploadHash) : Prop :=
  ∀ hash state, store = some hash → hash.sealedMeta = some state → some state.encrypted = snapshot

/-- The property does not depend on the control fields. -/
def ControlFree (property : UploadState → Prop) : Prop :=
  ∀ (state : UploadState) (version : ℕ) (phase : Option UploadPhase) (revision : ℕ),
    property state →
      property { state with stateVersion := version, phase := phase, revision := revision }

theorem controlFree_encrypted (snapshot : Option Bool) :
    ControlFree fun state => some state.encrypted = snapshot :=
  fun _ _ _ _ hstate => hstate

variable {property : UploadState → Prop}

theorem seals_none (property : UploadState → Prop) : Seals property none :=
  fun _ _ hstore => absurd hstore nofun

variable {store : Option UploadHash} {state : UploadState}

theorem Seals.of_get (hseals : Seals property store) (hget : get store = .ok state) :
    property state := by
  unfold get at hget
  cases store with
  | none => cases hget
  | some hash =>
    simp only at hget
    cases hmeta : hash.sealedMeta with
    | none =>
      rw [hmeta] at hget
      cases hget
    | some stored =>
      rw [hmeta] at hget
      -- the checks of a read either fail or return what is stored
      have hstored : stored = state := by
        simp only [bind, Except.bind, pure, Except.pure] at hget
        split at hget
        · split at hget
          · cases hget
          · split at hget
            · cases hget
            · exact Except.ok.inj hget
        · split at hget
          · cases hget
          · exact Except.ok.inj hget
      subst hstored
      exact hseals hash stored rfl hmeta

theorem Seals.of_readState (hseals : Seals property store) {succeeds : Bool}
    (hread : readState succeeds store = some state) : property state := by
  unfold readState at hread
  split at hread
  · apply hseals.of_get
    cases hget : get store with
    | error err =>
      rw [hget] at hread
      cases hread
    | ok read =>
      rw [hget] at hread
      rw [Option.some.inj hread]
  · cases hread

/-- A script that writes no metadata but the one it was given. -/
def WritesMeta {Answer : Type*} (newMeta : UploadState)
    (script : UploadHash → Answer × Option UploadHash) : Prop :=
  ∀ hash written, (script hash).2 = some written →
    written.sealedMeta = hash.sealedMeta ∨ written.sealedMeta = some newMeta

theorem Seals.exec {Answer : Type*} {script : UploadHash → Answer × Option UploadHash}
    {newMeta : UploadState} (hscript : WritesMeta newMeta script) (hnew : property newMeta)
    (hseals : Seals property store) : Seals property (exec script store).2 := by
  intro hash state hhash hstate
  rw [exec_snd] at hhash
  cases hwritten : (script (store.getD .missing)).2 with
  | none =>
    rw [hwritten, Option.none_or] at hhash
    exact hseals hash state hhash hstate
  | some written =>
    rw [hwritten, Option.some_or] at hhash
    cases hhash
    rcases hscript _ _ hwritten with hsame | hgiven
    · rw [hsame] at hstate
      cases store with
      | none => cases hstate
      | some old => exact hseals old state rfl hstate
    · rw [hgiven] at hstate
      cases hstate
      exact hnew

theorem Sealed.create {snapshot : Option Bool} (hsealed : Sealed snapshot store)
    (hstate : some state.encrypted = snapshot) : Sealed snapshot (create state store).2 := by
  unfold Mpu.create
  simp only
  split
  · exact hsealed
  cases store with
  | some hash => exact hsealed
  | none =>
    intro hash stored hhash hstored
    cases hhash
    cases hstored
    exact hstate

/-! ## What the scripts write -/

variable (newMeta : UploadState)

theorem writesMeta_reservePart (now : ℕ) (part : PartClaim) (revision leaseTime : ℕ) :
    WritesMeta newMeta (reservePart now part revision leaseTime newMeta) := by
  intro hash written hwritten
  obtain ⟨-, -, rfl⟩ := reservePart_written hwritten
  exact .inr rfl

/-- Renewing a lease leaves the metadata alone, so any state may stand for it. -/
theorem writesMeta_renewPart (now partNumber : ℕ) (token : Encoding.Bytes)
    (revision leaseTime : ℕ) (state : UploadState) :
    WritesMeta state (renewPart now partNumber token revision leaseTime) := by
  intro hash written hwritten
  obtain ⟨-, current, -, -, rfl⟩ := renewPart_written hwritten
  exact .inl rfl

theorem writesMeta_commitPart (part : PartClaim) (revision : ℕ) :
    WritesMeta newMeta (commitPart part revision newMeta) := by
  intro hash written hwritten
  obtain ⟨-, -, rfl⟩ := commitPart_written hwritten
  exact .inr rfl

theorem writesMeta_releasePart (partNumber : ℕ) (token : Encoding.Bytes) (revision : ℕ) :
    WritesMeta newMeta (releasePart partNumber token revision newMeta) := by
  intro hash written hwritten
  obtain ⟨-, -, rfl⟩ := releasePart_written hwritten
  exact .inr rfl

theorem writesMeta_beginComplete (revision : ℕ) (selection : List SelectedPart) :
    WritesMeta newMeta (beginComplete revision selection newMeta) := by
  intro hash written hwritten
  obtain ⟨-, rfl⟩ := beginComplete_written hwritten
  exact .inr rfl

theorem closeParts_snd (selection : List SelectedPart) (state : UploadState) (hash : UploadHash) :
    (closeParts selection state hash).2 =
      (beginComplete state.revision selection
        (controlMeta state .completing (state.revision + 1)) hash).2 := by
  unfold closeParts
  split <;>
    · rename_i hresult
      rw [hresult]

variable {script : UploadHash → Bool × Option UploadHash} {call : Call}

section

variable (hscript : call.script state = some script)

include hscript

/-- The script of a call closes the upload, or makes the change of phase that the call is
for. -/
theorem Call.script_eq_some :
    (∃ selection, call = .beginComplete selection ∧ script = closeParts selection state) ∨
    (∃ fromPhase revision, call = .reopen revision ∧
      (fromPhase = .completing ∨ fromPhase = .aborting) ∧
      script = changePhase fromPhase .open_ revision state) ∨
    (∃ revision, call = .finalizeComplete revision ∧
      script = changePhase .completing .completed revision state) ∨
    (call = .beginAbort ∧ script = changePhase .open_ .aborting state.revision state) ∨
    ∃ revision, call = .finalizeAbort revision ∧
      script = changePhase .aborting .aborted revision state := by
  cases call with
  | beginComplete selection =>
    simp only [Call.script] at hscript
    split at hscript
    · cases hscript
    · exact .inl ⟨selection, rfl, (Option.some.inj hscript).symm⟩
  | reopen revision =>
    simp only [Call.script] at hscript
    split at hscript
    · exact .inr (.inl ⟨_, revision, rfl, .inl rfl, (Option.some.inj hscript).symm⟩)
    · exact .inr (.inl ⟨_, revision, rfl, .inr rfl, (Option.some.inj hscript).symm⟩)
    · cases hscript
  | finalizeComplete revision =>
    exact .inr (.inr (.inl ⟨revision, rfl, (Option.some.inj hscript).symm⟩))
  | beginAbort =>
    refine .inr (.inr (.inr (.inl ⟨rfl, ?_⟩)))
    simp only [Call.script] at hscript
    split at hscript
    · cases hscript
    split at hscript
    · exact (Option.some.inj hscript).symm
    · split at hscript
      · cases hscript
      · exact (Option.some.inj hscript).symm
    · cases hscript
  | finalizeAbort revision =>
    exact .inr (.inr (.inr (.inr ⟨revision, rfl, (Option.some.inj hscript).symm⟩)))

/-- The script of a call closes the upload or changes its phase. -/
theorem Call.script_cases :
    (∃ selection, script = closeParts selection state) ∨
      ∃ fromPhase toPhase revision, script = changePhase fromPhase toPhase revision state := by
  rcases Call.script_eq_some hscript with ⟨selection, -, rfl⟩ | ⟨fromPhase, revision, -, -, rfl⟩ |
    ⟨revision, -, rfl⟩ | ⟨-, rfl⟩ | ⟨revision, -, rfl⟩
  · exact .inl ⟨selection, rfl⟩
  · exact .inr ⟨_, _, _, rfl⟩
  · exact .inr ⟨_, _, _, rfl⟩
  · exact .inr ⟨_, _, _, rfl⟩
  · exact .inr ⟨_, _, _, rfl⟩

/-- Whatever a call writes is what it read up to the control fields. -/
theorem writesMeta_script (hfree : ControlFree property) (hstate : property state) :
    ∃ newMeta : UploadState, property newMeta ∧ WritesMeta newMeta script := by
  rcases Call.script_cases hscript with ⟨selection, rfl⟩ | ⟨fromPhase, toPhase, revision, rfl⟩
  · refine ⟨controlMeta state .completing (state.revision + 1), hfree _ _ _ _ hstate, ?_⟩
    intro hash written hwritten
    rw [closeParts_snd] at hwritten
    exact writesMeta_beginComplete _ _ _ hash written hwritten
  · exact ⟨lifecycleMeta toPhase revision state, hfree _ _ _ _ hstate,
      fun hash written hwritten => by
        obtain ⟨-, -, -, rfl⟩ := atomicLifecycle_written hwritten
        exact .inr rfl⟩

/-- Calls leave the part fields alone. -/
theorem parts_of_script {hash written : UploadHash} (hwritten : (script hash).2 = some written) :
    written.parts = hash.parts := by
  rcases Call.script_cases hscript with ⟨selection, rfl⟩ | ⟨fromPhase, toPhase, revision, rfl⟩
  · rw [closeParts_snd] at hwritten
    exact parts_of_beginComplete hwritten
  · exact parts_of_atomicLifecycle hwritten

end

/-! ## Steps keep what is sealed -/

variable {store' : Option UploadHash}

theorem Seals.send {Answer Place : Type*} {reply : Reply}
    {script : UploadHash → Answer × Option UploadHash} {newMeta : UploadState}
    (hscript : WritesMeta newMeta script) (hnew : property newMeta) (hseals : Seals property store)
    {again failed place : Place} {next : Answer → Place}
    (hsend : Mpu.send reply script store again failed next = (place, store')) :
    Seals property store' := by
  rcases send_cases hsend with ⟨rfl, -⟩ | ⟨rfl, -⟩
  · exact hseals
  · exact hseals.exec hscript hnew

def CallPc.read : CallPc → Option UploadState
  | .scripting state | .done state => some state
  | .reading | .failed => none

theorem Call.next_seals {pc pc' : CallPc} {event : Event} (hfree : ControlFree property)
    (hseals : Seals property store) (hread : ∀ state, pc.read = some state → property state)
    (hnext : call.next store pc event = some (pc', store')) :
    Seals property store' ∧ ∀ state, pc'.read = some state → property state := by
  unfold Call.next at hnext
  split at hnext
  · split at hnext
    · cases hnext
      exact ⟨hseals, fun state hstate => absurd hstate nofun⟩
    · rename_i found hfound
      split at hnext
      · cases hnext
        refine ⟨hseals, ?_⟩
        intro state hstate
        cases hstate
        exact hseals.of_readState hfound
      · cases hnext
        exact ⟨hseals, fun state hstate => absurd hstate nofun⟩
  · rename_i state now reply
    obtain ⟨script, hscript, hsend⟩ := Option.map_eq_some_iff.mp hnext
    obtain ⟨newMeta, hnew, hwrites⟩ := writesMeta_script hscript hfree (hread state rfl)
    refine ⟨hseals.send hwrites hnew hsend, ?_⟩
    -- afterwards the call has what it had, or nothing
    intro state' hstate'
    rcases send_cases hsend with ⟨-, rfl⟩ | ⟨-, rfl | rfl | rfl⟩
    · cases hstate'
    · exact hread state' hstate'
    · cases hstate'
    · split at hstate'
      · exact hread state' hstate'
      · cases hstate'
  · cases hnext

/-- The state that a request for a part has read for its next script. -/
def Pc.read : Pc → Option UploadState
  | .reserveScript _ state | .renewScript _ _ state | .commitScript _ _ state
  | .releaseScript _ state => some state
  | _ => none

theorem read_afterReserve (attempt : ℕ) (answer : ReserveAnswer) :
    (afterReserve attempt answer).read = none := by
  cases answer with
  | conflict =>
    simp only [afterReserve]
    split <;> rfl
  | _ => rfl

theorem read_afterRenew (reservation : Reservation) (attempt : ℕ) (answer : PartAnswer) :
    (afterRenew reservation attempt answer).read = none := by
  cases answer with
  | conflict =>
    simp only [afterRenew]
    split <;> rfl
  | _ => rfl

theorem read_afterCommit (uploaded : UploadedPart) (attempt : ℕ) (answer : PartAnswer) :
    (afterCommit uploaded attempt answer).read = none := by
  cases answer with
  | conflict =>
    simp only [afterCommit]
    split <;> rfl
  | _ => rfl

theorem Seals.send_pc {Answer : Type*} {reply : Reply}
    {script : UploadHash → Answer × Option UploadHash} {newMeta : UploadState}
    {again failed pc' : Pc} {next : Answer → Pc} (hseals : Seals property store)
    (hsend : Mpu.send reply script store again failed next = (pc', store'))
    (hagain : again.read = some state) (hscript : WritesMeta newMeta script)
    (hnew : property newMeta) (hstate : property state) (hfailed : failed.read = none)
    (hafter : ∀ answer, (next answer).read = none) :
    Seals property store' ∧ ∀ state, pc'.read = some state → property state := by
  refine ⟨hseals.send hscript hnew hsend, ?_⟩
  intro state' hstate'
  rcases send_cases hsend with ⟨-, rfl⟩ | ⟨-, rfl | rfl | rfl⟩
  · rw [hfailed] at hstate'
    cases hstate'
  · rw [hagain] at hstate'
    cases hstate'
    exact hstate
  · rw [hfailed] at hstate'
    cases hstate'
  · rw [hafter] at hstate'
    cases hstate'

theorem Pc.next_seals {leaseTime : ℕ} {part : PartClaim} {pc pc' : Pc} {event : Event}
    (hfree : ControlFree property) (hseals : Seals property store)
    (hread : ∀ state, pc.read = some state → property state)
    (hnext : pc.next leaseTime part store event = some (pc', store')) :
    Seals property store' ∧ ∀ state, pc'.read = some state → property state := by
  -- a step that leaves the store alone and has read nothing
  have hquiet : ∀ {place : Pc}, place.read = none →
      some (place, store) = some (pc', store') → Seals property store' ∧
        ∀ state, pc'.read = some state → property state := by
    intro place hplace heq
    cases heq
    refine ⟨hseals, ?_⟩
    intro state hstate
    rw [hplace] at hstate
    cases hstate
  -- a read that found `state`
  have hfound : ∀ {succeeds : Bool} {state : UploadState} {place : Pc},
      readState succeeds store = some state → place.read = some state →
      some (place, store) = some (pc', store') → Seals property store' ∧
        ∀ state, pc'.read = some state → property state := by
    intro succeeds state place hstate hplace heq
    cases heq
    refine ⟨hseals, ?_⟩
    intro state' hstate'
    rw [hplace] at hstate'
    cases hstate'
    exact hseals.of_readState hstate
  unfold Pc.next at hnext
  split at hnext
  -- reserving
  · split at hnext
    · exact hfound (by assumption) rfl hnext
    · exact hquiet rfl hnext
  -- reserveScript
  · exact hseals.send_pc (Option.some.inj hnext) rfl (writesMeta_reservePart _ _ _ _ _)
      (hfree _ _ _ _ (hread _ rfl)) (hread _ rfl) rfl (read_afterReserve _)
  -- encrypting
  · exact hquiet rfl hnext
  · exact hquiet rfl hnext
  · exact hquiet rfl hnext
  -- renewing
  · split at hnext
    · exact hfound (by assumption) rfl hnext
    · exact hquiet rfl hnext
  -- renewScript
  · exact hseals.send_pc (Option.some.inj hnext) rfl (writesMeta_renewPart _ _ _ _ _ _)
      (hread _ rfl) (hread _ rfl) rfl (read_afterRenew _ _)
  -- ready and uploading
  · exact hquiet rfl hnext
  · exact hquiet rfl hnext
  · exact hquiet rfl hnext
  -- committing
  · split at hnext
    · exact hfound (by assumption) rfl hnext
    · exact hquiet rfl hnext
  -- commitScript
  · exact hseals.send_pc (Option.some.inj hnext) rfl (writesMeta_commitPart _ _ _)
      (hfree _ _ _ _ (hread _ rfl)) (hread _ rfl) rfl (read_afterCommit _ _)
  -- releasing
  · split at hnext
    · exact hfound (by assumption) rfl hnext
    · exact hquiet rfl hnext
  -- releaseScript
  · exact hseals.send_pc (Option.some.inj hnext) rfl (writesMeta_releasePart _ _ _ _)
      (hfree _ _ _ _ (hread _ rfl)) (hread _ rfl) rfl (fun _ => rfl)
  · cases hnext

end S3EncryptionGateway.Mpu
