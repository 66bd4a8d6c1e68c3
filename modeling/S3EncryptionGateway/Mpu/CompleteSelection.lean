import S3EncryptionGateway.Mpu.StateMachine

/-!
# The parts that Complete selects

`BeginComplete` closes an upload for new parts if all requested parts are committed, and
returns their records.  The check, the choice of the records and the change of phase are
one script, so it is about the upload as it is at one moment; only the revision it must
have was read before.

The second half is about how records come to be committed.  A committed record stays as it
is, so it goes back to one step, and `Effect` leaves only one kind of operation for it: a
`CommitPart` by a client that knows the token of the reservation and repeats its claim.
-/

namespace S3EncryptionGateway.Mpu.StateMachine

open Encoding Transitions List

/-! ## `BeginComplete` -/

/-- What the answers of the script mean to the caller. -/
def ofComplete : CompleteAnswer → Except MpuError (List PartRecord)
  | .notFound => .error .uploadNotFound
  | .badVersion => .error .invalidStateVersion
  | .badPhase => .error .invalidPhase
  | .conflict => .error .revisionConflict
  | .mismatch => .error .completeMismatch
  | .selected parts => .ok parts

/-- `BeginComplete` of a caller that reads the upload as `seen` and whose script then runs
against `store`.  The result has the state and the selected parts. -/
def ValkeyStateStore.beginComplete (selection : List SelectedPart)
    (seen store : Option UploadHash) :
    Except MpuError (UploadState × List PartRecord) × Option UploadHash :=
  if selection = [] then (.error .completeMismatch, store)
  else
    match get seen with
    | .error err => (.error err, store)
    | .ok state =>
      let result := exec (Mpu.beginComplete state.revision selection
        (controlMeta state .completing (state.revision + 1))) store
      let closed : UploadState :=
        { state with
          phase := some .completing
          revision := state.revision + 1 }
      ((ofComplete result.1).map fun parts => (closed, parts), result.2)

/-- What a request to complete needs: a current open upload at the revision that was read,
and increasing part numbers with committed parts. -/
structure Completable (seen store : Option UploadHash) (selection : List SelectedPart) :
    Prop where
  nonempty : selection ≠ []
  increasing : (selection.map SelectedPart.partNumber).Pairwise (· < ·)
  upload : ∃ state hash, get seen = .ok state ∧ store = some hash ∧ hash.sealedMeta.isSome ∧
    hash.OpenAt state.revision ∧ ∀ selected ∈ selection, ∃ record, selected.Selects hash record

variable {parts : List PartRecord}

theorem ofComplete_eq_ok_iff {answer : CompleteAnswer} :
    ofComplete answer = .ok parts ↔ answer = .selected parts := by
  cases answer with
  | selected found =>
    constructor
    · intro hfound
      rw [Except.ok.inj hfound]
    · intro hfound
      rw [CompleteAnswer.selected.inj hfound]
      rfl
  | _ => exact ⟨nofun, nofun⟩

variable {hash : UploadHash}

/-- The numbers of a selection that can be selected are positive, so the script's first
comparison, with zero, asks nothing new. -/
theorem isChain_zero_iff {selection : List SelectedPart}
    (hselects : ∀ selected ∈ selection, ∃ record, selected.Selects hash record) :
    (0 :: selection.map SelectedPart.partNumber).IsChain (· < ·) ↔
      (selection.map SelectedPart.partNumber).Pairwise (· < ·) := by
  rw [isChain_iff_pairwise, pairwise_cons]
  refine ⟨fun h => h.2, fun h => ⟨?_, h⟩⟩
  intro number hnumber
  obtain ⟨selected, hselected, rfl⟩ := mem_map.mp hnumber
  obtain ⟨record, hrecord⟩ := hselects selected hselected
  have := hrecord.inRange.1
  omega

theorem exists_forall₂_iff {α β : Type*} {relation : α → β → Prop} {items : List α} :
    (∃ results, List.Forall₂ relation items results) ↔
      ∀ item ∈ items, ∃ result, relation item result := by
  induction items with
  | nil => simp
  | cons item items ih =>
    simp only [forall₂_cons_left_iff, mem_cons, forall_eq_or_imp, ← ih]
    constructor
    · rintro ⟨_, result, rest, hresult, hrest, -⟩
      exact ⟨⟨result, hresult⟩, rest, hrest⟩
    · rintro ⟨⟨result, hresult⟩, rest, hrest⟩
      exact ⟨_, result, rest, hresult, hrest, rfl⟩

namespace ValkeyStateStore

variable {selection : List SelectedPart} {seen store : Option UploadHash}

theorem beginComplete_eq_ok_iff {closed : UploadState} :
    (beginComplete selection seen store).1 = .ok (closed, parts) ↔
      selection ≠ [] ∧ ∃ state, get seen = .ok state ∧
        closed = { state with
          phase := some .completing
          revision := state.revision + 1 } ∧
        (exec (Mpu.beginComplete state.revision selection
          (controlMeta state .completing (state.revision + 1))) store).1 = .selected parts := by
  unfold beginComplete
  by_cases hselection : selection = []
  · rw [if_pos hselection]
    exact ⟨nofun, fun h => absurd hselection h.1⟩
  · rw [if_neg hselection]
    cases hget : get seen with
    | error err => exact ⟨nofun, by rintro ⟨-, state, hstate, -⟩; exact absurd hstate nofun⟩
    | ok state =>
      simp only
      constructor
      · intro hok
        cases hparts : ofComplete (exec (Mpu.beginComplete state.revision selection
            (controlMeta state .completing (state.revision + 1))) store).1 with
        | error err =>
          rw [hparts] at hok
          cases hok
        | ok found =>
          rw [hparts] at hok
          cases hok
          exact ⟨hselection, state, rfl, rfl, ofComplete_eq_ok_iff.mp hparts⟩
      · rintro ⟨-, state', hstate', rfl, hanswer⟩
        cases hstate'
        rw [ofComplete_eq_ok_iff.mpr hanswer]
        rfl

/-- A script that does not select changes nothing. -/
theorem store_of_not_selected {revision : ℕ} {newMeta : UploadState}
    (hanswer : ∀ parts, (exec (Mpu.beginComplete revision selection newMeta) store).1 ≠
      .selected parts) :
    (exec (Mpu.beginComplete revision selection newMeta) store).2 = store := by
  rw [exec_snd]
  cases hwritten : (Mpu.beginComplete revision selection newMeta (store.getD .missing)).2 with
  | none => rfl
  | some written =>
    obtain ⟨⟨parts, hparts⟩, -⟩ := beginComplete_written hwritten
    exact absurd ((exec_fst _ _).trans hparts) (hanswer parts)

/-- What the script selects, in terms of the upload. -/
theorem exec_beginComplete_eq_selected_iff {revision : ℕ} {newMeta : UploadState} :
    (exec (Mpu.beginComplete revision selection newMeta) store).1 = .selected parts ↔
      ∃ hash, store = some hash ∧ hash.sealedMeta.isSome ∧ hash.OpenAt revision ∧
        (selection.map SelectedPart.partNumber).Pairwise (· < ·) ∧
        List.Forall₂ (SelectedPart.Selects hash) selection parts := by
  rw [exec_fst, beginComplete_fst_eq_selected_iff, selectParts_eq_some_iff]
  have hselects : ∀ {hash : UploadHash},
      List.Forall₂ (SelectedPart.Selects hash) selection parts →
      ∀ selected ∈ selection, ∃ record, selected.Selects hash record :=
    fun hall => exists_forall₂_iff.mp ⟨parts, hall⟩
  constructor
  · rintro ⟨hmeta, hopen, hchain, hall⟩
    cases store with
    | none => cases hmeta
    | some hash =>
      exact ⟨hash, rfl, hmeta, hopen, (isChain_zero_iff (hselects hall)).mp hchain, hall⟩
  · rintro ⟨hash, rfl, hmeta, hopen, hpairwise, hall⟩
    exact ⟨hmeta, hopen, (isChain_zero_iff (hselects hall)).mpr hpairwise, hall⟩

theorem isOk_beginComplete_iff :
    (∃ closed parts, (beginComplete selection seen store).1 = .ok (closed, parts)) ↔
      Completable seen store selection := by
  simp only [beginComplete_eq_ok_iff, exec_beginComplete_eq_selected_iff]
  constructor
  · rintro ⟨_, parts, hselection, state, hstate, -, hash, hhash, hmeta, hopen, hpairwise, hall⟩
    exact ⟨hselection, hpairwise, state, hash, hstate, hhash, hmeta, hopen,
      exists_forall₂_iff.mp ⟨parts, hall⟩⟩
  · rintro ⟨hselection, hpairwise, state, hash, hstate, hhash, hmeta, hopen, hselects⟩
    obtain ⟨parts, hall⟩ := exists_forall₂_iff.mpr hselects
    exact ⟨_, parts, hselection, state, hstate, rfl, hash, hhash, hmeta, hopen, hpairwise, hall⟩

/-- A call that fails leaves the upload as it was. -/
theorem store_of_error {err : MpuError} (herror : (beginComplete selection seen store).1 =
    .error err) : (beginComplete selection seen store).2 = store := by
  unfold beginComplete at herror ⊢
  by_cases hselection : selection = []
  · rw [if_pos hselection]
  rw [if_neg hselection] at herror ⊢
  cases hget : get seen with
  | error err => rfl
  | ok state =>
    rw [hget] at herror
    refine store_of_not_selected ?_
    intro parts hparts
    simp only [hparts, ofComplete, Except.map] at herror
    cases herror

end ValkeyStateStore

/-! ## Where committed records come from -/

/-- An effect after which a record is committed that was not there before is the commit of
a client that holds the reservation. -/
theorem Effect.committed_new {written : UploadHash} {operation : Operation}
    (heffect : Effect hash operation written) {partNumber : ℕ} {record : PartRecord}
    (hnew : hash.parts partNumber ≠ some record) (hrecord : written.parts partNumber = some record)
    (hstatus : record.status = some .committed) :
    ∃ part current, operation = .commitPart part ∧ part.partNumber = partNumber ∧
      record = committedRecord part ∧ hash.parts partNumber = some current ∧
      current.status = some .reserved ∧ current.token = some part.token ∧
      current.claim = some part.claim := by
  -- the field that was written is the one in question, and the record is what was written
  have hfield : ∀ {changed : ℕ} {value : Option PartRecord},
      (hash.setPart changed value).parts partNumber = some record →
        changed = partNumber ∧ value = some record := by
    intro changed value hvalue
    replace hvalue : Function.update hash.parts changed value partNumber = some record := hvalue
    by_cases hchanged : partNumber = changed
    · rw [hchanged, Function.update_self] at hvalue
      exact ⟨hchanged.symm, hvalue⟩
    · rw [Function.update_of_ne hchanged] at hvalue
      exact absurd hvalue hnew
  cases heffect with
  | reserve =>
    obtain ⟨-, hvalue⟩ := hfield hrecord
    cases hvalue
    cases hstatus
  | renew _ _ hreserved =>
    obtain ⟨-, hvalue⟩ := hfield hrecord
    cases hvalue
    exact absurd (hreserved.symm.trans hstatus) nofun
  | release =>
    obtain ⟨-, hvalue⟩ := hfield hrecord
    cases hvalue
  | @commit part current _ _ hcurrent hclaim htoken hreserved =>
    obtain ⟨rfl, hvalue⟩ := hfield hrecord
    exact ⟨part, current, rfl, rfl, (Option.some.inj hvalue).symm, hcurrent, hreserved, htoken,
      hclaim⟩
  | move => exact absurd hrecord hnew

/-- The history has a step in which a client commits the record of a part while the part's
field is reserved under the token and for the claim of that client. -/
def CommittedByHolder (leaseTime : ℕ) (actions : List Action) (partNumber : ℕ)
    (record : PartRecord) : Prop :=
  ∃ before index event after mid place hash part current,
    actions = before ++ .client index event :: after ∧
    run (System.step leaseTime) ⟨none, []⟩ before = some mid ∧
    mid.clients[index]? = some ⟨.commitPart part, place⟩ ∧
    mid.store = some hash ∧ hash.parts partNumber = some current ∧
    current.status = some .reserved ∧ current.token = some part.token ∧
    current.claim = some part.claim ∧ part.partNumber = partNumber ∧
    record = committedRecord part

theorem committedByHolder_of_run {leaseTime : ℕ} {actions : List Action} {s : System}
    (hrun : run (System.step leaseTime) ⟨none, []⟩ actions = some s) (hhash : s.store = some hash)
    {partNumber : ℕ} {record : PartRecord} (hrecord : hash.parts partNumber = some record)
    (hstatus : record.status = some .committed) :
    CommittedByHolder leaseTime actions partNumber record := by
  obtain ⟨before, action, after, mid, next, rfl, hbefore, hstep, hnot, hnow, -⟩ :=
    exists_step_of_run (System.step leaseTime)
      (fun t => ∃ hash, t.store = some hash ∧ hash.parts partNumber = some record)
      (by rintro ⟨hash, hnone, -⟩; exact absurd hnone nofun) hrun ⟨hash, hhash, hrecord⟩
  obtain ⟨written, hwritten, hfield⟩ := hnow
  have hinitial : System.Initial ⟨none, []⟩ := ⟨rfl, fun hash hnone => absurd hnone nofun⟩
  rcases System.step_effect (hinitial.sound.run hbefore) hstep with hsame | ⟨-, state, hcreated⟩ |
    ⟨index, event, c, old, written', rfl, hclient, hold, hwritten', heffect⟩
  · exact absurd ⟨written, hsame.symm.trans hwritten, hfield⟩ hnot
  · rw [hcreated] at hwritten
    cases hwritten
    cases hfield
  · rw [hwritten'] at hwritten
    cases hwritten
    have hnew : old.parts partNumber ≠ some record := fun hthere => hnot ⟨old, hold, hthere⟩
    obtain ⟨part, current, hoperation, hnumber, hcommitted, hcurrent, hreserved, htoken, hclaim⟩ :=
      Effect.committed_new heffect hnew hfield hstatus
    obtain ⟨operation, place⟩ := c
    obtain rfl : operation = .commitPart part := hoperation
    exact ⟨before, index, event, after, mid, place, old, part, current, rfl, hbefore, hclient, hold,
      hcurrent, hreserved, htoken, hclaim, hnumber, hcommitted⟩

/-- **Complete selects committed parts.**  `BeginComplete` succeeds exactly on a request
that can be completed, with the committed records in the order of the request, and leaves
the upload alone if it fails; and every committed record of every history was committed
under its reservation. -/
theorem complete_selects_committed :
    (∀ (selection : List SelectedPart) (seen store : Option UploadHash),
      ((∃ closed parts, (ValkeyStateStore.beginComplete selection seen store).1 =
          .ok (closed, parts)) ↔ Completable seen store selection) ∧
      (∀ closed parts, (ValkeyStateStore.beginComplete selection seen store).1 =
          .ok (closed, parts) →
        ∃ hash, store = some hash ∧ List.Forall₂ (fun selected record =>
          hash.parts selected.partNumber.toNat = some record ∧
            record.status = some .committed) selection parts) ∧
      (∀ err, (ValkeyStateStore.beginComplete selection seen store).1 = .error err →
        (ValkeyStateStore.beginComplete selection seen store).2 = store)) ∧
    ∀ (leaseTime : ℕ) (actions : List Action) (s : System) (hash : UploadHash) (partNumber : ℕ)
      (record : PartRecord), run (System.step leaseTime) ⟨none, []⟩ actions = some s →
      s.store = some hash → hash.parts partNumber = some record →
      record.status = some .committed → CommittedByHolder leaseTime actions partNumber record := by
  refine ⟨fun selection seen store => ⟨?_, ?_, ?_⟩, ?_⟩
  · exact ValkeyStateStore.isOk_beginComplete_iff
  · intro closed parts hok
    obtain ⟨-, state, -, -, hselected⟩ := ValkeyStateStore.beginComplete_eq_ok_iff.mp hok
    obtain ⟨hash, hhash, -, -, -, hall⟩ :=
      ValkeyStateStore.exec_beginComplete_eq_selected_iff.mp hselected
    exact ⟨hash, hhash, hall.imp fun selected record hselects =>
      ⟨hselects.found, hselects.committed⟩⟩
  · intro err herror
    exact ValkeyStateStore.store_of_error herror
  · intro leaseTime actions s hash partNumber record hrun hhash hrecord hstatus
    exact committedByHolder_of_run hrun hhash hrecord hstatus

/-- The part of the sample upload was committed by its holder. -/
theorem complete_selects_sample : ∃ s hash record,
    run (System.step 1000) ⟨none, []⟩ sampleUpload = some s ∧ s.store = some hash ∧
      hash.parts 1 = some record ∧ record.status = some .committed ∧
      CommittedByHolder 1000 sampleUpload 1 record := by
  have hend : (run (System.step 1000) ⟨none, []⟩ sampleUpload).map
      (fun s => s.store.map fun hash => hash.parts 1) =
      some (some (some (committedRecord samplePart))) := by decide
  obtain ⟨s, hrun, hs⟩ := Option.map_eq_some_iff.mp hend
  obtain ⟨hash, hhash, hrecord⟩ := Option.map_eq_some_iff.mp hs
  refine ⟨s, hash, committedRecord samplePart, hrun, hhash, hrecord, rfl, ?_⟩
  exact complete_selects_committed.2 1000 sampleUpload s hash 1 _ hrun hhash hrecord rfl

end S3EncryptionGateway.Mpu.StateMachine
