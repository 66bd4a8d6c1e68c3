import S3EncryptionGateway.Mpu.StateMachine

/-!
# Uploads without part claims

An upload whose state was created before there were part claims has no control fields, and
its parts must not be written any more: all that may be done with it is to abort it.  The
scripts see to this by the stored version, with one exception.  `BeginAbort` is let through
and writes the control fields of a current upload in the aborting phase.

From there the upload is only as closed as its phase.  The handler of
`AbortMultipartUpload` calls `Reopen` if the backend does not abort the upload, and what
`Reopen` leaves behind is a current upload in the open phase, to which parts can be written
again (`legacy_reopens`).  As long as that does not happen, the upload is abort-only
(`legacy_abortOnly`).
-/

namespace S3EncryptionGateway.Mpu.StateMachine

open Encoding Transitions

/-! ## The operations that need part claims -/

/-- The operations that a legacy upload must refuse. -/
def Operation.needsClaims : Operation → Bool
  | .reservePart _ | .commitPart _ | .lifecycle (.beginComplete _) => true
  | _ => false

variable {hash : UploadHash}

theorem openAt_of_reservePart {now : ℕ} {part : PartClaim} {revision leaseTime : ℕ}
    {newMeta : UploadState}
    (hsuccess : ofReserve (reservePart now part revision leaseTime newMeta hash).1 = .success) :
    hash.OpenAt revision := by
  unfold reservePart at hsuccess
  simp only at hsuccess
  split_ifs at hsuccess with _ hversion hphase hrevision
  · cases hsuccess
  · cases hsuccess
  · cases hsuccess
  · cases hsuccess
  · exact ⟨not_not.mp hversion, not_not.mp hphase, not_not.mp hrevision⟩

theorem openAt_of_commitPart {part : PartClaim} {revision : ℕ} {newMeta : UploadState}
    (hsuccess : ofPart (commitPart part revision newMeta hash).1 = .success) :
    hash.OpenAt revision := by
  unfold commitPart at hsuccess
  split_ifs at hsuccess with _ hversion hphase hrevision
  · cases hsuccess
  · cases hsuccess
  · cases hsuccess
  · cases hsuccess
  · exact ⟨not_not.mp hversion, not_not.mp hphase, not_not.mp hrevision⟩

variable {state : UploadState}

theorem openAt_of_closeParts {selection : List SelectedPart}
    (hsuccess : (closeParts selection state hash).1 = true) : hash.OpenAt state.revision := by
  unfold closeParts at hsuccess
  split at hsuccess
  · rename_i parts written hresult
    exact (beginComplete_fst_eq_selected_iff.mp (congrArg Prod.fst hresult)).2.1
  · cases hsuccess

theorem openAt_of_success {operation : Operation} {leaseTime now : ℕ}
    {script : UploadHash → Verdict × Option UploadHash} (hneeds : operation.needsClaims = true)
    (hscript : operation.script leaseTime now state = some script)
    (hsuccess : (script hash).1 = .success) : hash.OpenAt state.revision := by
  cases operation with
  | reservePart part =>
    cases hscript
    exact openAt_of_reservePart hsuccess
  | commitPart part =>
    cases hscript
    exact openAt_of_commitPart hsuccess
  | lifecycle call =>
    cases call with
    | beginComplete selection =>
      obtain ⟨inner, hinner, rfl⟩ := Option.map_eq_some_iff.mp hscript
      simp only [Call.script] at hinner
      split at hinner
      · cases hinner
      cases hinner
      apply openAt_of_closeParts
      by_contra hfailed
      replace hsuccess : ofCall (closeParts selection state hash).1 = .success := hsuccess
      rw [Bool.not_eq_true] at hfailed
      rw [hfailed] at hsuccess
      cases hsuccess
    | _ => cases hneeds
  | _ => cases hneeds

/-! ## Closed uploads -/

/-- An upload without part claims: its state has version 0 or 1. -/
structure Legacy (hash : UploadHash) : Prop where
  version : hash.stateVersion ≠ some currentStateVersion
  sealedVersion : ∃ state, hash.sealedMeta = some state ∧ state.stateVersion ≤ 1

/-- An upload that parts cannot be written to. -/
def Closed (hash : UploadHash) : Prop :=
  hash.stateVersion ≠ some currentStateVersion ∨ hash.phase = some .aborting ∨
    hash.phase = some .aborted

theorem Closed.not_openAt (hclosed : Closed hash) (revision : ℕ) : ¬ hash.OpenAt revision := by
  intro hopen
  rcases hclosed with hversion | hphase | hphase
  · exact hversion hopen.version
  · exact absurd (hphase.symm.trans hopen.phase) nofun
  · exact absurd (hphase.symm.trans hopen.phase) nofun

/-- The upload is reopened: the one way out of the aborting phase. -/
def Operation.reopens (operation : Operation) (hash : UploadHash) : Bool :=
  match operation with
  | .lifecycle (.reopen revision) =>
    hash.phase = some .aborting ∧ hash.revision.getD 0 = revision
  | _ => false

/-- A change of phase of a closed upload goes through a legacy abort or starts from the
aborting phase. -/
theorem closed_of_changePhase {hash written : UploadHash} (hclosed : Closed hash)
    {fromPhase toPhase : UploadPhase} {revision : ℕ}
    (hwritten : (changePhase fromPhase toPhase revision state hash).2 = some written) :
    written.parts = hash.parts ∧ written.phase = some toPhase ∧
      (toPhase = .aborting ∨
        (fromPhase = .aborting ∨ fromPhase = .aborted) ∧ hash.phase = some fromPhase ∧
          hash.revision.getD 0 = revision) := by
  obtain ⟨-, hversion, hguard, rfl⟩ := atomicLifecycle_written hwritten
  refine ⟨rfl, rfl, ?_⟩
  by_cases hallowed : toPhase = .aborting
  · exact .inl hallowed
  -- without a legacy abort the version and the phase must be right
  have hlegacy : decide (toPhase = .aborting ∧ state.stateVersion ≠ currentStateVersion) =
      false := decide_eq_false fun h => hallowed h.1
  rw [hlegacy] at hversion hguard
  obtain ⟨hphase, hrevision⟩ := hguard.resolve_left (by rintro ⟨habsurd, -⟩; cases habsurd)
  have hcurrent := hversion.resolve_right nofun
  refine .inr ⟨?_, hphase, hrevision⟩
  rcases hclosed with hother | haborting | haborted
  · exact absurd hcurrent hother
  · exact .inl (Option.some.inj (hphase.symm.trans haborting))
  · exact .inr (Option.some.inj (hphase.symm.trans haborted))

/-- **Closed uploads stay closed**, if they are not reopened, and their parts stay. -/
theorem Closed.script {hash written : UploadHash} (hclosed : Closed hash) {operation : Operation}
    {leaseTime now : ℕ} {script : UploadHash → Verdict × Option UploadHash}
    (hscript : operation.script leaseTime now state = some script)
    (hreopens : operation.reopens hash = false) (hwritten : (script hash).2 = some written) :
    Closed written ∧ written.parts = hash.parts := by
  cases operation with
  | create state => cases hscript
  | reservePart part =>
    cases hscript
    exact absurd (reservePart_written hwritten).1 (hclosed.not_openAt _)
  | renewPart partNumber token =>
    cases hscript
    exact absurd (renewPart_written hwritten).1 (hclosed.not_openAt _)
  | releasePart partNumber token =>
    cases hscript
    exact absurd (releasePart_written hwritten).1 (hclosed.not_openAt _)
  | commitPart part =>
    cases hscript
    exact absurd (commitPart_written hwritten).1 (hclosed.not_openAt _)
  | lifecycle call =>
    obtain ⟨inner, hinner, rfl⟩ := Option.map_eq_some_iff.mp hscript
    replace hwritten : (inner hash).2 = some written := hwritten
    rcases Call.script_eq_some hinner with ⟨selection, rfl, rfl⟩ |
      ⟨fromPhase, revision, rfl, hfrom, rfl⟩ | ⟨revision, rfl, rfl⟩ | ⟨rfl, rfl⟩ |
      ⟨revision, rfl, rfl⟩
    · rw [closeParts_snd] at hwritten
      obtain ⟨⟨parts, hparts⟩, -⟩ := beginComplete_written hwritten
      exact absurd (beginComplete_fst_eq_selected_iff.mp hparts).2.1 (hclosed.not_openAt _)
    · obtain ⟨-, -, habort | ⟨hstart, hphase, hrevision⟩⟩ := closed_of_changePhase hclosed hwritten
      · cases habort
      · -- this is the reopening that is excluded
        exfalso
        rcases hfrom with rfl | rfl
        · exact absurd hstart (by rintro (h | h) <;> cases h)
        · exact of_decide_eq_false hreopens ⟨hphase, hrevision⟩
    · obtain ⟨-, -, habort | ⟨hstart, -⟩⟩ := closed_of_changePhase hclosed hwritten
      · cases habort
      · exact absurd hstart (by rintro (h | h) <;> cases h)
    · obtain ⟨hparts, hphase, -⟩ := closed_of_changePhase hclosed hwritten
      exact ⟨.inr (.inl hphase), hparts⟩
    · obtain ⟨hparts, hphase, -⟩ := closed_of_changePhase hclosed hwritten
      exact ⟨.inr (.inr hphase), hparts⟩

/-! ## Runs -/

/-- The operations of the clients, and the deletion of the upload. -/
inductive StoreAction where
  | operation (action : Action)
  | delete

def legacyStep (leaseTime : ℕ) (s : System) : StoreAction → Option System
  | .operation action => s.step leaseTime action
  | .delete => some { s with store := none }

/-- The step does not reopen an upload that is being aborted, and does not create another
upload in place of a deleted one. -/
def staysClosed (s : System) : StoreAction → Bool
  | .operation (.client index (.script _ _)) =>
    match s.clients[index]?, s.store with
    | some ⟨operation, _⟩, some hash => !operation.reopens hash
    | some ⟨.create _, _⟩, none => false
    | _, _ => true
  | _ => true

/-- What an upload without part claims owes: nothing that needs them succeeds, and its parts
are what they were. -/
structure AbortOnly (parts : ℕ → Option PartRecord) (s : System) : Prop where
  claims : ∀ c ∈ s.clients, c.place = .finished true → c.operation.needsClaims = false
  parts : ∀ hash, s.store = some hash → hash.parts = parts

structure Locked (parts : ℕ → Option PartRecord) (s : System) : Prop where
  abortOnly : AbortOnly parts s
  closed : ∀ hash, s.store = some hash → Closed hash

variable {parts : ℕ → Option PartRecord} {s s' : System} {leaseTime : ℕ}

section

variable (hlocked : Locked parts s) {operation : Operation} {now : ℕ} {state : UploadState}
    {script : UploadHash → Verdict × Option UploadHash}
    (hscript : operation.script leaseTime now state = some script)

include hlocked hscript

/-- What the script of a call leaves of a locked upload. -/
theorem Locked.exec (hreopens : ∀ hash, s.store = some hash → operation.reopens hash = false) :
    ∀ hash, (exec script s.store).2 = some hash → Closed hash ∧ hash.parts = parts := by
  intro hash hhash
  rw [exec_snd] at hhash
  cases hstore : s.store with
  | none =>
    rw [hstore, Option.getD_none, script_absent hscript rfl rfl] at hhash
    cases hhash
  | some old =>
    rw [hstore, Option.getD_some] at hhash
    have hold := hlocked.abortOnly.parts old hstore
    cases hwritten : (script old).2 with
    | none =>
      rw [hwritten, Option.none_or] at hhash
      obtain rfl := Option.some.inj hhash
      exact ⟨hlocked.closed old hstore, hold⟩
    | some written =>
      rw [hwritten, Option.some_or] at hhash
      cases hhash
      obtain ⟨hclosed, hparts⟩ := (hlocked.closed old hstore).script hscript
        (hreopens old hstore) hwritten
      exact ⟨hclosed, hparts.trans hold⟩

/-- A call that needs claims does not succeed on a locked upload. -/
theorem Locked.not_success (hneeds : operation.needsClaims = true) :
    (Mpu.exec script s.store).1 ≠ .success := by
  intro hsuccess
  rw [exec_fst] at hsuccess
  have hopen := openAt_of_success hneeds hscript hsuccess
  cases hstore : s.store with
  | none =>
    rw [hstore] at hopen
    exact absurd hopen.version nofun
  | some hash =>
    rw [hstore] at hopen
    exact (hlocked.closed hash hstore).not_openAt _ hopen

end

theorem Operation.after_eq_finished_true {operation : Operation} {attempt : ℕ}
    {verdict : Verdict} (hafter : operation.after attempt verdict = .finished true) :
    verdict = .success := by
  cases verdict with
  | success => rfl
  | conflict =>
    simp only [Operation.after] at hafter
    split at hafter <;> cases hafter
  | failure => cases hafter

theorem Operation.start_ne_finished_true (operation : Operation) :
    operation.start ≠ .finished true := by
  unfold Operation.start
  split
  · exact nofun
  · split
    · exact nofun
    · exact nofun

/-- What a step of a call leaves behind. -/
theorem Locked.next (hlocked : Locked parts s) {index : ℕ} {event : Event} {c : Client}
    {place : Place} {store : Option UploadHash} (hc : s.clients[index]? = some c)
    (hcondition : staysClosed s (.operation (.client index event)) = true)
    (hnext : c.operation.next leaseTime s.store c.place event = some (place, store)) :
    (∀ hash, store = some hash → Closed hash ∧ hash.parts = parts) ∧
      (place = .finished true → c.operation.needsClaims = false) := by
  have hold : ∀ hash, s.store = some hash → Closed hash ∧ hash.parts = parts :=
    fun hash hhash => ⟨hlocked.closed hash hhash, hlocked.abortOnly.parts hash hhash⟩
  obtain ⟨operation, before⟩ := c
  rcases Operation.next_cases hnext with ⟨rfl, rfl⟩ | ⟨_, _, _, rfl, -, -, rfl⟩ |
    ⟨state, now, reply, rfl, hcreate, rfl, -⟩ |
    ⟨attempt, state, now, reply, script, rfl, hbefore, hscript, rfl, hplace⟩
  · exact ⟨hold, nofun⟩
  · exact ⟨hold, nofun⟩
  · obtain rfl : operation = .create state := hcreate
    refine ⟨?_, fun _ => rfl⟩
    intro hash hhash
    rcases create_cases state s.store with hsame | ⟨hnone, -⟩
    · exact hold hash (hsame.symm.trans hhash)
    · simp only [staysClosed, hc, hnone] at hcondition
      cases hcondition
  · have hreopens : ∀ hash, s.store = some hash → operation.reopens hash = false := by
      intro hash hhash
      simpa only [staysClosed, hc, hhash, Bool.not_eq_true'] using hcondition
    refine ⟨hlocked.exec hscript hreopens, ?_⟩
    intro hfinished
    by_contra hneeds
    rw [Bool.not_eq_false] at hneeds
    rcases hplace with rfl | rfl | rfl
    · exact absurd (hbefore.symm.trans hfinished) nofun
    · cases hfinished
    · exact hlocked.not_success hscript hneeds (Operation.after_eq_finished_true hfinished)

theorem Locked.step {action : StoreAction} (hlocked : Locked parts s)
    (hcondition : staysClosed s action = true) (hstep : legacyStep leaseTime s action = some s') :
    Locked parts s' := by
  cases action with
  | delete =>
    cases hstep
    exact ⟨⟨hlocked.abortOnly.claims, nofun⟩, nofun⟩
  | operation action =>
    cases action with
    | arrive operation =>
      cases hstep
      refine ⟨⟨?_, hlocked.abortOnly.parts⟩, hlocked.closed⟩
      intro c hc hfinished
      rcases List.mem_append.mp hc with hold | hnew
      · exact hlocked.abortOnly.claims c hold hfinished
      · obtain rfl := List.mem_singleton.mp hnew
        exact absurd hfinished (Operation.start_ne_finished_true operation)
    | client index event =>
      obtain ⟨c, place, hc, hnext, hclients⟩ := System.step_client hstep
      obtain ⟨hstore, hplace⟩ := hlocked.next hc hcondition hnext
      refine ⟨⟨?_, fun hash hhash => (hstore hash hhash).2⟩, fun hash hhash =>
        (hstore hash hhash).1⟩
      intro c' hc' hfinished
      rw [hclients] at hc'
      rcases List.mem_or_eq_of_mem_set hc' with hold | rfl
      · exact hlocked.abortOnly.claims c' hold hfinished
      · exact hplace hfinished

/-- **Legacy uploads are abort-only** in every run in which they are not reopened while they
are being aborted. -/
theorem legacy_abortOnly {hash : UploadHash} (hlegacy : Legacy hash) {actions : List StoreAction}
    (hmeets : Meets (legacyStep leaseTime) (fun s action => staysClosed s action = true)
      ⟨some hash, []⟩ actions)
    (hrun : run (legacyStep leaseTime) ⟨some hash, []⟩ actions = some s) :
    AbortOnly hash.parts s := by
  have hstart : Locked hash.parts ⟨some hash, []⟩ := by
    refine ⟨⟨nofun, ?_⟩, ?_⟩
    · intro other hother
      rw [Option.some.inj hother]
    · intro other hother
      rw [← Option.some.inj hother]
      exact .inl hlegacy.version
  have hlocked : Locked hash.parts s := run_invariant (legacyStep leaseTime)
    (fun _ _ _ hs hcondition hstep => hs.step hcondition hstep) hstart hmeets hrun
  exact hlocked.abortOnly

def legacyHash : UploadHash :=
  ⟨some sampleState, none, none, none, fun _ => none⟩

theorem legacy_legacyHash : Legacy legacyHash := ⟨nofun, sampleState, rfl, Nat.zero_le 1⟩

def arrives (operation : Operation) (index now : ℕ) : List StoreAction :=
  .operation (.arrive operation) :: (calls index now).map .operation

/-- An abort that the backend carries out, and an attempt to write a part after it. -/
def legacyAborted : List StoreAction :=
  arrives (.lifecycle .beginAbort) 0 0 ++ arrives (.lifecycle (.finalizeAbort 1)) 1 1 ++
    arrives (.reservePart samplePart) 2 2 ++ [.delete]

theorem legacy_abortOnly_aborted : ∃ s,
    run (legacyStep 1000) ⟨some legacyHash, []⟩ legacyAborted = some s ∧
      AbortOnly legacyHash.parts s := by
  have hsome : (run (legacyStep 1000) ⟨some legacyHash, []⟩ legacyAborted).isSome := by decide
  obtain ⟨s, hrun⟩ := Option.isSome_iff_exists.mp hsome
  exact ⟨s, hrun, legacy_abortOnly legacy_legacyHash (by decide) hrun⟩

/-- An abort that the backend refuses, after which the handler reopens the upload, and a
part that is then reserved and committed. -/
def legacyReopened : List StoreAction :=
  arrives (.lifecycle .beginAbort) 0 0 ++ arrives (.lifecycle (.reopen 1)) 1 1 ++
    arrives (.reservePart samplePart) 2 2 ++ arrives (.commitPart samplePart) 3 3

/-- After a failed abort, parts can be written to a legacy upload. -/
theorem legacy_reopens : Legacy legacyHash ∧ ∃ s,
    run (legacyStep 1000) ⟨some legacyHash, []⟩ legacyReopened = some s ∧
      ¬ AbortOnly legacyHash.parts s := by
  have hend : (run (legacyStep 1000) ⟨some legacyHash, []⟩ legacyReopened).map
      (fun s => s.clients[2]?) = some (some ⟨.reservePart samplePart, .finished true⟩) := by decide
  obtain ⟨s, hrun, hclient⟩ := Option.map_eq_some_iff.mp hend
  refine ⟨legacy_legacyHash, s, hrun, ?_⟩
  intro habortOnly
  exact absurd (habortOnly.claims _ (List.mem_of_getElem? hclient) rfl) nofun

end S3EncryptionGateway.Mpu.StateMachine
