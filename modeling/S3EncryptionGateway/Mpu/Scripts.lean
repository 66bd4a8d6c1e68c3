import S3EncryptionGateway.Mpu.State

/-!
# The scripts of the state store

Every mutation of an upload is a script that the store runs atomically.  A script
reads the hash and either only answers or also writes; it is modelled by a
function from the hash to its answer and the hash it writes, if it writes one.
The answers of the source are numbers; here they are constructors, with the
number in the comment.

The scripts compare the revision they are given with the stored one, so a caller
that read the upload earlier learns that it changed since.
-/

namespace S3EncryptionGateway.Mpu

open Encoding List

/-- Runs a script against the store. -/
def exec {Answer : Type*} (script : UploadHash → Answer × Option UploadHash)
    (store : Option UploadHash) : Answer × Option UploadHash :=
  match script (store.getD .missing) with
  | (answer, some hash) => (answer, some hash)
  | (answer, none) => (answer, store)

theorem exec_fst {Answer : Type*} (script : UploadHash → Answer × Option UploadHash)
    (store : Option UploadHash) : (exec script store).1 = (script (store.getD .missing)).1 := by
  unfold exec
  split <;> simp_all

theorem exec_snd {Answer : Type*} (script : UploadHash → Answer × Option UploadHash)
    (store : Option UploadHash) :
    (exec script store).2 = ((script (store.getD .missing)).2).or store := by
  unfold exec
  split <;> simp_all

namespace UploadHash

/-- The hash with another record in a part field. -/
def setPart (hash : UploadHash) (partNumber : ℕ) (record : Option PartRecord) : UploadHash :=
  { hash with parts := Function.update hash.parts partNumber record }

end UploadHash

/-- What the scripts on parts require: a current upload in the open phase, at the revision
the caller has read. -/
structure UploadHash.OpenAt (hash : UploadHash) (revision : ℕ) : Prop where
  version : hash.stateVersion = some currentStateVersion
  phase : hash.phase = some .open_
  revision : hash.revision.getD 0 = revision

/-! ## Reserving a part -/

inductive ReserveAnswer where
  /-- 0 -/
  | notFound
  /-- 1 -/
  | badVersion
  /-- 2 -/
  | badPhase
  /-- 3: the field holds another claim. -/
  | mismatch
  /-- 4: the lease of the field's reservation has not run out. -/
  | inProgress
  /-- 5 -/
  | committed (etag : String)
  /-- 6: the field was free. -/
  | reserved (revision lease : ℕ)
  /-- 7 -/
  | conflict
  /-- 8: the field held the same claim under a lease that has run out. -/
  | reacquired (revision lease : ℕ)

/-- A reservation without a lease time never runs out. -/
def PartRecord.leaseActive (record : PartRecord) (now : ℕ) : Bool :=
  record.leaseUntil.all fun lease => now < lease

def reservedRecord (part : PartClaim) (lease : ℕ) : PartRecord :=
  ⟨part.partNumber, part.plainLen, some part.claim, some .reserved, some part.token, some lease,
    none, none, none⟩

def reservePart (now : ℕ) (part : PartClaim) (revision leaseTime : ℕ) (newMeta : UploadState)
    (hash : UploadHash) : ReserveAnswer × Option UploadHash :=
  let next := hash.revision.getD 1 + 1
  let lease := now + leaseTime
  let written : UploadHash :=
    { hash.setPart part.partNumber (some (reservedRecord part lease)) with
      sealedMeta := some newMeta
      revision := some next }
  if hash.sealedMeta.isNone then (.notFound, none)
  else if hash.stateVersion ≠ some currentStateVersion then (.badVersion, none)
  else if hash.phase ≠ some .open_ then (.badPhase, none)
  else if hash.revision.getD 0 ≠ revision then (.conflict, none)
  else
    match hash.parts part.partNumber with
    | none => (.reserved next lease, some written)
    | some current =>
      if current.claim ≠ some part.claim then (.mismatch, none)
      else if current.status = some .reserved ∧ current.leaseActive now then (.inProgress, none)
      else if current.status = some .committed then (.committed (current.etag.getD ""), none)
      else (.reacquired next lease, some written)

/-- What the script can do: answer without writing, or put the caller's record
into a field that was free or held the same claim. -/
theorem reservePart_cases (now : ℕ) (part : PartClaim) (revision leaseTime : ℕ)
    (newMeta : UploadState) (hash : UploadHash) :
    (∃ answer, reservePart now part revision leaseTime newMeta hash = (answer, none) ∧
      (∀ r l, answer ≠ .reserved r l) ∧ ∀ r l, answer ≠ .reacquired r l) ∨
    ∃ written : UploadHash, written.parts = Function.update hash.parts part.partNumber
        (some (reservedRecord part (now + leaseTime))) ∧
      (hash.parts part.partNumber = none ∧
        reservePart now part revision leaseTime newMeta hash =
          (.reserved (hash.revision.getD 1 + 1) (now + leaseTime), some written) ∨
      ∃ current, hash.parts part.partNumber = some current ∧ current.claim = some part.claim ∧
        reservePart now part revision leaseTime newMeta hash =
          (.reacquired (hash.revision.getD 1 + 1) (now + leaseTime), some written)) := by
  unfold reservePart
  simp only
  -- every refusal is an answer of its own, without a write
  split_ifs
  any_goals exact .inl ⟨_, rfl, by simp, by simp⟩
  cases hpart : hash.parts part.partNumber with
  | none => exact .inr ⟨_, rfl, .inl ⟨rfl, rfl⟩⟩
  | some current =>
    simp only
    split_ifs with hclaim
    any_goals exact .inl ⟨_, rfl, by simp, by simp⟩
    exact .inr ⟨_, rfl, .inr ⟨current, rfl, not_not.mp hclaim, rfl⟩⟩

variable {hash written : UploadHash} {newMeta : UploadState} {revision : ℕ}

/-- What the script writes, and when. -/
theorem reservePart_written {now : ℕ} {part : PartClaim} {leaseTime : ℕ}
    (hwritten : (reservePart now part revision leaseTime newMeta hash).2 = some written) :
    hash.OpenAt revision ∧
      (∀ current, hash.parts part.partNumber = some current →
        current.claim = some part.claim ∧ current.status ≠ some .committed) ∧
      written = { hash.setPart part.partNumber (some (reservedRecord part (now + leaseTime))) with
        sealedMeta := some newMeta
        revision := some (hash.revision.getD 1 + 1) } := by
  unfold reservePart at hwritten
  simp only at hwritten
  split_ifs at hwritten with _ hversion hphase hrevision
  have hopen : hash.OpenAt revision :=
    ⟨not_not.mp hversion, not_not.mp hphase, not_not.mp hrevision⟩
  cases hpart : hash.parts part.partNumber with
  | none =>
    rw [hpart] at hwritten
    exact ⟨hopen, nofun, (Option.some.inj hwritten).symm⟩
  | some current =>
    rw [hpart] at hwritten
    simp only at hwritten
    split_ifs at hwritten with hclaim _ hstatus
    refine ⟨hopen, ?_, (Option.some.inj hwritten).symm⟩
    intro record hrecord
    cases hrecord
    exact ⟨not_not.mp hclaim, hstatus⟩

/-! ## Renewing, committing and releasing a reservation -/

/-- The answers of the scripts that act on an existing reservation. -/
inductive PartAnswer where
  /-- 0 -/
  | notFound
  /-- 1 -/
  | done
  /-- 2: the field is not reserved under the caller's token. -/
  | notOwner
  /-- 3 -/
  | badVersion
  /-- 4 -/
  | badPhase
  /-- 5 -/
  | conflict

def renewPart (now partNumber : ℕ) (token : Bytes) (revision leaseTime : ℕ) (hash : UploadHash) :
    PartAnswer × Option UploadHash :=
  if hash.stateVersion ≠ some currentStateVersion then (.badVersion, none)
  else if hash.phase ≠ some .open_ then (.badPhase, none)
  else if hash.revision.getD 0 ≠ revision then (.conflict, none)
  else
    match hash.parts partNumber with
    | none => (.notFound, none)
    | some current =>
      if current.status ≠ some .reserved ∨ current.token ≠ some token then (.notOwner, none)
      else (.done, some (hash.setPart partNumber
        (some { current with leaseUntil := some (now + leaseTime) })))

/-- Renewing changes the lease of a reservation only. -/
theorem renewPart_written {now partNumber : ℕ} {token : Bytes} {leaseTime : ℕ}
    (hwritten : (renewPart now partNumber token revision leaseTime hash).2 = some written) :
    hash.OpenAt revision ∧ ∃ current, hash.parts partNumber = some current ∧
      current.status = some .reserved ∧
      written = hash.setPart partNumber
        (some { current with leaseUntil := some (now + leaseTime) }) := by
  unfold renewPart at hwritten
  split_ifs at hwritten with hversion hphase hrevision
  split at hwritten
  · cases hwritten
  rename_i current hpart
  split_ifs at hwritten with howner
  rw [not_or, not_not, not_not] at howner
  exact ⟨⟨not_not.mp hversion, not_not.mp hphase, not_not.mp hrevision⟩, current, hpart,
    howner.1, (Option.some.inj hwritten).symm⟩

def committedRecord (part : PartClaim) : PartRecord :=
  ⟨part.partNumber, part.plainLen, some part.claim, some .committed, some part.token, none,
    some part.etag, some part.encLen, some part.chunkCount⟩

def commitPart (part : PartClaim) (revision : ℕ) (newMeta : UploadState) (hash : UploadHash) :
    PartAnswer × Option UploadHash :=
  if hash.sealedMeta.isNone then (.notFound, none)
  else if hash.stateVersion ≠ some currentStateVersion then (.badVersion, none)
  else if hash.phase ≠ some .open_ then (.badPhase, none)
  else if hash.revision.getD 0 ≠ revision then (.conflict, none)
  else
    match hash.parts part.partNumber with
    | none => (.notFound, none)
    | some current =>
      if current.claim ≠ some part.claim ∨ current.token ≠ some part.token then (.notOwner, none)
      else if current.status = some .committed then
        -- a repeated commit succeeds if it says the same
        if current.plainLen ≠ part.plainLen ∨ current.etag ≠ some part.etag ∨
            current.encLen ≠ some part.encLen ∨ current.chunks ≠ some part.chunkCount then
          (.notOwner, none)
        else (.done, none)
      else if current.status ≠ some .reserved then (.notOwner, none)
      else
        (.done, some
          { hash.setPart part.partNumber (some (committedRecord part)) with
            sealedMeta := some newMeta
            revision := some (hash.revision.getD 1 + 1) })

/-- Committing keeps the claim and the token of the record. -/
theorem commitPart_written {part : PartClaim}
    (hwritten : (commitPart part revision newMeta hash).2 = some written) :
    hash.OpenAt revision ∧ (∃ current, hash.parts part.partNumber = some current ∧
      current.claim = some part.claim ∧ current.token = some part.token ∧
      current.status = some .reserved) ∧
      written = { hash.setPart part.partNumber (some (committedRecord part)) with
        sealedMeta := some newMeta
        revision := some (hash.revision.getD 1 + 1) } := by
  unfold commitPart at hwritten
  split_ifs at hwritten with _ hversion hphase hrevision
  split at hwritten
  · cases hwritten
  rename_i current hpart
  split_ifs at hwritten with howner _ _ hstatus
  rw [not_or, not_not, not_not] at howner
  exact ⟨⟨not_not.mp hversion, not_not.mp hphase, not_not.mp hrevision⟩,
    ⟨current, hpart, howner.1, howner.2, not_not.mp hstatus⟩, (Option.some.inj hwritten).symm⟩

def releasePart (partNumber : ℕ) (token : Bytes) (revision : ℕ) (newMeta : UploadState)
    (hash : UploadHash) : PartAnswer × Option UploadHash :=
  if hash.stateVersion ≠ some currentStateVersion then (.badVersion, none)
  else if hash.phase ≠ some .open_ then (.badPhase, none)
  else if hash.revision.getD 0 ≠ revision then (.conflict, none)
  else
    match hash.parts partNumber with
    | none => (.notFound, none)
    | some current =>
      if current.status ≠ some .reserved ∨ current.token ≠ some token then (.notOwner, none)
      else
        (.done, some
          { hash.setPart partNumber none with
            sealedMeta := some newMeta
            revision := some (revision + 1) })

/-- Releasing empties a field that is reserved under the caller's token. -/
theorem releasePart_written {partNumber : ℕ} {token : Bytes}
    (hwritten : (releasePart partNumber token revision newMeta hash).2 = some written) :
    hash.OpenAt revision ∧ (∃ current, hash.parts partNumber = some current ∧
      current.status = some .reserved ∧ current.token = some token) ∧
      written = { hash.setPart partNumber none with
        sealedMeta := some newMeta
        revision := some (revision + 1) } := by
  unfold releasePart at hwritten
  split_ifs at hwritten with hversion hphase hrevision
  split at hwritten
  · cases hwritten
  rename_i current hpart
  split_ifs at hwritten with howner
  rw [not_or, not_not, not_not] at howner
  exact ⟨⟨not_not.mp hversion, not_not.mp hphase, not_not.mp hrevision⟩,
    ⟨current, hpart, howner⟩, (Option.some.inj hwritten).symm⟩

/-! ## The lifecycle -/

/-- Creates the hash of an upload, unless the key exists. -/
def createState (newMeta : UploadState) (store : Option UploadHash) : Bool × Option UploadHash :=
  match store with
  | some hash => (false, some hash)
  | none =>
    (true, some ⟨some newMeta, some currentStateVersion, some .open_, some 1, fun _ => none⟩)

/-- `Create`: the control fields are set here, whatever the caller's state says. -/
def create (state : UploadState) (store : Option UploadHash) :
    Except MpuError Unit × Option UploadHash :=
  let bindingId :=
    if state.policySnapshot.encryptMultipartUploads then state.bindingIdBytes else .ok none
  match bindingId with
  | .error err => (.error err, store)
  | .ok _ =>
    match createState (controlMeta state .open_ 1) store with
    | (true, store) => (.ok (), store)
    | (false, store) => (.error .uploadAlreadyExists, store)

inductive LifecycleAnswer where
  /-- 0 -/
  | notFound
  /-- 1 -/
  | badVersion
  /-- 2 -/
  | badPhase
  /-- 3 -/
  | conflict
  /-- 4 -/
  | done
  deriving DecidableEq

/-- A change of phase.  A legacy upload has no control fields and may only be
aborted, which gives it some. -/
def atomicLifecycle (fromPhase : UploadPhase) (revision : ℕ) (toPhase : UploadPhase)
    (newMeta : UploadState) (allowLegacyAbort : Bool) (hash : UploadHash) :
    LifecycleAnswer × Option UploadHash :=
  let written : UploadHash :=
    { hash with
      sealedMeta := some newMeta
      stateVersion := some currentStateVersion
      phase := some toPhase
      revision := some (revision + 1) }
  if hash.sealedMeta.isNone then (.notFound, none)
  else if hash.stateVersion ≠ some currentStateVersion ∧ ¬ allowLegacyAbort then (.badVersion, none)
  else if allowLegacyAbort ∧ hash.phase.isNone ∧ hash.revision.isNone then
    if fromPhase ≠ .open_ ∨ revision ≠ 0 then (.conflict, none) else (.done, some written)
  else if hash.phase ≠ some fromPhase then (.badPhase, none)
  else if hash.revision.getD 0 ≠ revision then (.conflict, none)
  else (.done, some written)

structure SelectedPart where
  partNumber : ℤ
  etag : String
  deriving DecidableEq

/-- Takes one pair of surrounding quotes away. -/
def unquoteEtag (etag : String) : List Char :=
  match etag.toList with
  | '"' :: rest => if rest.getLast? = some '"' then rest.dropLast else '"' :: rest
  | text => text

/-- The committed records of a selection in increasing order. -/
def selectParts (hash : UploadHash) : ℤ → List SelectedPart → Option (List PartRecord)
  | _, [] => some []
  | previous, selected :: more =>
    if selected.partNumber < 1 ∨ 10000 < selected.partNumber ∨
        selected.partNumber ≤ previous then none
    else
      match hash.parts selected.partNumber.toNat with
      | none => none
      | some record =>
        if record.status ≠ some .committed then none
        else if unquoteEtag (record.etag.getD "") ≠ unquoteEtag selected.etag then none
        else (selectParts hash selected.partNumber more).map (record :: ·)

/-- What a selection asks of a part, and which record it takes for it. -/
structure SelectedPart.Selects (hash : UploadHash) (selected : SelectedPart)
    (record : PartRecord) : Prop where
  inRange : 1 ≤ selected.partNumber ∧ selected.partNumber ≤ 10000
  found : hash.parts selected.partNumber.toNat = some record
  committed : record.status = some .committed
  etag : unquoteEtag (record.etag.getD "") = unquoteEtag selected.etag

theorem selectParts_cons_eq_some_iff {previous : ℤ} {selected : SelectedPart}
    {more : List SelectedPart} {records : List PartRecord} :
    selectParts hash previous (selected :: more) = some records ↔
      ∃ record rest, records = record :: rest ∧ previous < selected.partNumber ∧
        selected.Selects hash record ∧ selectParts hash selected.partNumber more = some rest := by
  constructor
  · intro hrecords
    simp only [selectParts] at hrecords
    split_ifs at hrecords with hrange
    split at hrecords
    · cases hrecords
    rename_i record hrecord
    split_ifs at hrecords with hstatus hetag
    obtain ⟨rest, hrest, rfl⟩ := Option.map_eq_some_iff.mp hrecords
    exact ⟨record, rest, rfl, by omega,
      ⟨by omega, hrecord, not_not.mp hstatus, not_not.mp hetag⟩, hrest⟩
  · rintro ⟨record, rest, rfl, habove, hselects, hrest⟩
    have hrange : ¬ (selected.partNumber < 1 ∨ 10000 < selected.partNumber ∨
        selected.partNumber ≤ previous) := by
      have := hselects.inRange
      omega
    simp only [selectParts, if_neg hrange, hselects.found, hselects.committed, hselects.etag,
      ne_eq, not_true_eq_false, if_false, hrest, Option.map_some]

variable {selection : List SelectedPart}

/-- **A selection succeeds** if its numbers increase and every part can be selected; the
records are those of the parts, in the order of the selection. -/
theorem selectParts_eq_some_iff {previous : ℤ} {records : List PartRecord} :
    selectParts hash previous selection = some records ↔
      (previous :: selection.map SelectedPart.partNumber).IsChain (· < ·) ∧
        List.Forall₂ (SelectedPart.Selects hash) selection records := by
  induction selection generalizing previous records with
  | nil =>
    rw [selectParts, Option.some.injEq, map_nil, forall₂_nil_left_iff]
    exact ⟨fun h => ⟨.singleton previous, h.symm⟩, fun h => h.2.symm⟩
  | cons selected more ih =>
    rw [selectParts_cons_eq_some_iff, map_cons, isChain_cons_cons, forall₂_cons_left_iff]
    constructor
    · rintro ⟨record, rest, rfl, habove, hselects, hrest⟩
      obtain ⟨hchain, hall⟩ := ih.mp hrest
      exact ⟨⟨habove, hchain⟩, record, rest, hselects, hall, rfl⟩
    · rintro ⟨⟨habove, hchain⟩, record, rest, hselects, hall, rfl⟩
      exact ⟨record, rest, rfl, habove, hselects, ih.mpr ⟨hchain, hall⟩⟩

inductive CompleteAnswer where
  /-- 0 -/
  | notFound
  /-- 1 -/
  | badVersion
  /-- 2 -/
  | badPhase
  /-- 3 -/
  | conflict
  /-- 4 -/
  | selected (parts : List PartRecord)
  /-- 5 -/
  | mismatch

/-- Checks the selection and closes the upload for new parts in one script. -/
def beginComplete (revision : ℕ) (selection : List SelectedPart) (newMeta : UploadState)
    (hash : UploadHash) : CompleteAnswer × Option UploadHash :=
  if hash.sealedMeta.isNone then (.notFound, none)
  else if hash.stateVersion ≠ some currentStateVersion then (.badVersion, none)
  else if hash.phase ≠ some .open_ then (.badPhase, none)
  else if hash.revision.getD 0 ≠ revision then (.conflict, none)
  else
    match selectParts hash 0 selection with
    | none => (.mismatch, none)
    | some parts =>
      (.selected parts, some
        { hash with
          sealedMeta := some newMeta
          phase := some .completing
          revision := some (revision + 1) })

theorem atomicLifecycle_written {fromPhase toPhase : UploadPhase} {allowLegacyAbort : Bool}
    (hwritten : (atomicLifecycle fromPhase revision toPhase newMeta allowLegacyAbort hash).2 =
      some written) :
    hash.sealedMeta.isSome ∧ (hash.stateVersion = some currentStateVersion ∨ allowLegacyAbort) ∧
      (allowLegacyAbort ∧ hash.phase = none ∧ hash.revision = none ∧ fromPhase = .open_ ∧
          revision = 0 ∨
        hash.phase = some fromPhase ∧ hash.revision.getD 0 = revision) ∧
      written = { hash with
        sealedMeta := some newMeta
        stateVersion := some currentStateVersion
        phase := some toPhase
        revision := some (revision + 1) } := by
  unfold atomicLifecycle at hwritten
  simp only at hwritten
  split_ifs at hwritten with hmeta hversion hlegacy hstart hphase hrevision <;>
    rw [Bool.not_eq_true, Option.isNone_eq_false_iff] at hmeta
  · rw [not_or, not_not, not_not] at hstart
    refine ⟨hmeta, .inr hlegacy.1, .inl ⟨hlegacy.1, ?_, ?_, hstart.1, hstart.2⟩,
      (Option.some.inj hwritten).symm⟩
    · exact Option.isNone_iff_eq_none.mp hlegacy.2.1
    · exact Option.isNone_iff_eq_none.mp hlegacy.2.2
  · refine ⟨hmeta, ?_, .inr ⟨not_not.mp hphase, not_not.mp hrevision⟩,
      (Option.some.inj hwritten).symm⟩
    rw [not_and_or, not_not, not_not] at hversion
    exact hversion

/-- When `BeginComplete` selects. -/
theorem beginComplete_fst_eq_selected_iff {parts : List PartRecord} :
    (beginComplete revision selection newMeta hash).1 = .selected parts ↔
      hash.sealedMeta.isSome ∧ hash.OpenAt revision ∧ selectParts hash 0 selection = some parts := by
  constructor
  · intro hanswer
    unfold beginComplete at hanswer
    split_ifs at hanswer with hmeta hversion hphase hrevision
    split at hanswer
    · cases hanswer
    rename_i found hfound
    obtain rfl := CompleteAnswer.selected.inj hanswer
    rw [Bool.not_eq_true, Option.isNone_eq_false_iff] at hmeta
    exact ⟨hmeta, ⟨not_not.mp hversion, not_not.mp hphase, not_not.mp hrevision⟩, hfound⟩
  · rintro ⟨hmeta, hopen, hfound⟩
    rw [← Option.isNone_eq_false_iff, ← Bool.not_eq_true] at hmeta
    unfold beginComplete
    rw [if_neg hmeta, if_neg (not_not.mpr hopen.version), if_neg (not_not.mpr hopen.phase),
      if_neg (not_not.mpr hopen.revision), hfound]

theorem beginComplete_written
    (hwritten : (beginComplete revision selection newMeta hash).2 = some written) :
    (∃ parts, (beginComplete revision selection newMeta hash).1 = .selected parts) ∧
      written = { hash with
        sealedMeta := some newMeta
        phase := some .completing
        revision := some (revision + 1) } := by
  unfold beginComplete at hwritten ⊢
  split_ifs at hwritten ⊢
  split at hwritten
  · cases hwritten
  · rename_i parts hparts
    exact ⟨⟨parts, rfl⟩, (Option.some.inj hwritten).symm⟩

/-- The lifecycle scripts leave the part fields alone. -/
theorem parts_of_atomicLifecycle {fromPhase toPhase : UploadPhase} {allowLegacyAbort : Bool}
    (hwritten : (atomicLifecycle fromPhase revision toPhase newMeta allowLegacyAbort hash).2 =
      some written) : written.parts = hash.parts := by
  obtain ⟨-, -, -, rfl⟩ := atomicLifecycle_written hwritten
  rfl

theorem parts_of_beginComplete
    (hwritten : (beginComplete revision selection newMeta hash).2 = some written) :
    written.parts = hash.parts := by
  obtain ⟨-, rfl⟩ := beginComplete_written hwritten
  rfl

end S3EncryptionGateway.Mpu
