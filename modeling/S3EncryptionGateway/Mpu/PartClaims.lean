import S3EncryptionGateway.Library.TransitionSystem
import S3EncryptionGateway.Mpu.Scripts

/-!
# Nonce safety of encrypted parts

The nonces of an encrypted part are determined by the upload, the part number and
the chunk index, so two different plaintexts must never be encrypted for one part.
The handlers of `UploadPart` and `UploadPartCopy` follow one protocol for this: they
reserve the part for a commitment to the plaintext, encrypt, renew the lease if that
took long, hand the ciphertext to the backend and commit.  A request that fails
before the backend call releases its reservation.

This file runs any number of such requests against the store, one script or one
local step at a time.  A script can also fail, lose its answer, or be repeated by
the client after a lost answer; the lease times and the clock are arbitrary.

## Strategy

* **What one step does.**  `Pc.next_cases` says how a request's step can touch the
  part fields: not at all as far as claims and tokens go, by reserving a free field,
  by taking over a field with the same claim, or by releasing its own field.
* **The invariant.**  `Safe` says that everything handed over, or still to be handed
  over, for a part has one plaintext, that the part's field holds its claim, and that
  the owner of a first-hand reservation is alone with it.  The last point is what
  makes a release harmless; it fails for a reservation that was taken over.
* **Runs.**  Under `ReleasesFirstHand` every step keeps `Safe`.
-/

namespace S3EncryptionGateway.Mpu

open Encoding Transitions

/-! ## The handlers' protocol -/

structure Reservation where
  revision : ℕ
  leaseUntil : ℕ
  reacquired : Bool
  deriving DecidableEq

/-- What the backend reports of an uploaded part. -/
structure UploadedPart where
  etag : String
  encLen : ℕ
  chunkCount : ℕ
  deriving DecidableEq

/-- Where a request is.  The places before a script carry the state that was read for
it; the numbers count the attempts of the calls that repeat on a changed revision. -/
inductive Pc where
  | reserving (attempt : ℕ)
  | reserveScript (attempt : ℕ) (state : UploadState)
  | encrypting (reservation : Reservation)
  | renewing (reservation : Reservation) (attempt : ℕ)
  | renewScript (reservation : Reservation) (attempt : ℕ) (state : UploadState)
  | ready (reservation : Reservation)
  | uploading
  | committing (uploaded : UploadedPart) (attempt : ℕ)
  | commitScript (uploaded : UploadedPart) (attempt : ℕ) (state : UploadState)
  | releasing (reservation : Reservation)
  | releaseScript (reservation : Reservation) (state : UploadState)
  | finished (etag : Option String)
  deriving DecidableEq

/-- What becomes of a script that a request sends. -/
inductive Reply where
  | delivered
  /-- It ran, and the call fails without its answer. -/
  | lost
  /-- It ran, and the client sends it again. -/
  | retried
  /-- It did not run, and the call fails. -/
  | unreached
  deriving DecidableEq

inductive EncryptOutcome where
  | failed
  | quick
  /-- It took a quarter of the lease or longer. -/
  | slow
  deriving DecidableEq

/-- What a request does or meets next. -/
inductive Event where
  | get (succeeds : Bool)
  | script (now : ℕ) (reply : Reply)
  | encrypt (outcome : EncryptOutcome)
  | upload
  | uploaded (result : Option UploadedPart)
  deriving DecidableEq

/-- How often a call repeats on a changed revision. -/
def maxAttempts : ℕ := 16

/-- A read of the upload; it can also fail in the store. -/
def readState (succeeds : Bool) (store : Option UploadHash) : Option UploadState :=
  if succeeds then (get store).toOption else none

/-- Sends a script: where the sender is afterwards, and the store. -/
def send {Answer Place : Type*} (reply : Reply)
    (script : UploadHash → Answer × Option UploadHash) (store : Option UploadHash)
    (again failed : Place) (next : Answer → Place) : Place × Option UploadHash :=
  match reply with
  | .delivered => (next (exec script store).1, (exec script store).2)
  | .lost => (failed, (exec script store).2)
  | .retried => (again, (exec script store).2)
  | .unreached => (failed, store)

def afterReserve (attempt : ℕ) : ReserveAnswer → Pc
  | .reserved revision lease => .encrypting ⟨revision, lease, false⟩
  | .reacquired revision lease => .encrypting ⟨revision, lease, true⟩
  | .committed etag => .finished (some etag)
  | .conflict => if attempt + 1 < maxAttempts then .reserving (attempt + 1) else .finished none
  | .notFound | .badVersion | .badPhase | .mismatch | .inProgress => .finished none

/-- `RenewPart` after its script; a failure is one before the backend call. -/
def afterRenew (reservation : Reservation) (attempt : ℕ) : PartAnswer → Pc
  | .done => .ready reservation
  | .conflict =>
    if attempt + 1 < maxAttempts then .renewing reservation (attempt + 1)
    else .releasing reservation
  | .notFound | .notOwner | .badVersion | .badPhase => .releasing reservation

/-- `CommitPart` after its script; the reservation is kept if it fails. -/
def afterCommit (uploaded : UploadedPart) (attempt : ℕ) : PartAnswer → Pc
  | .done => .finished (some uploaded.etag)
  | .conflict =>
    if attempt + 1 < maxAttempts then .committing uploaded (attempt + 1) else .finished none
  | .notFound | .notOwner | .badVersion | .badPhase => .finished none

/-- The step of a request with the claim `part`. -/
def Pc.next (leaseTime : ℕ) (part : PartClaim) (store : Option UploadHash) :
    Pc → Event → Option (Pc × Option UploadHash)
  | .reserving attempt, .get succeeds =>
    match readState succeeds store with
    | some state => some (.reserveScript attempt state, store)
    | none => some (.finished none, store)
  | .reserveScript attempt state, .script now reply =>
    some (send reply (reservePart now part state.revision leaseTime
      (controlMeta state .open_ (state.revision + 1))) store (.reserveScript attempt state)
      (.finished none) (afterReserve attempt))
  | .encrypting reservation, .encrypt .failed => some (.releasing reservation, store)
  | .encrypting reservation, .encrypt .quick => some (.ready reservation, store)
  | .encrypting reservation, .encrypt .slow => some (.renewing reservation 0, store)
  | .renewing reservation attempt, .get succeeds =>
    match readState succeeds store with
    | some state => some (.renewScript reservation attempt state, store)
    | none => some (.releasing reservation, store)
  | .renewScript reservation attempt state, .script now reply =>
    some (send reply (renewPart now part.partNumber part.token state.revision leaseTime) store
      (.renewScript reservation attempt state) (.releasing reservation)
      (afterRenew reservation attempt))
  | .ready _, .upload => some (.uploading, store)
  | .uploading, .uploaded (some uploaded) => some (.committing uploaded 0, store)
  -- the outcome is uncertain, so the reservation stays
  | .uploading, .uploaded none => some (.finished none, store)
  | .committing uploaded attempt, .get succeeds =>
    match readState succeeds store with
    | some state => some (.commitScript uploaded attempt state, store)
    | none => some (.finished none, store)
  | .commitScript uploaded attempt state, .script _ reply =>
    some (send reply (commitPart
      { part with
        etag := uploaded.etag
        encLen := uploaded.encLen
        chunkCount := uploaded.chunkCount } state.revision
      (controlMeta state .open_ (state.revision + 1))) store
      (.commitScript uploaded attempt state) (.finished none) (afterCommit uploaded attempt))
  | .releasing reservation, .get succeeds =>
    match readState succeeds store with
    | some state => some (.releaseScript reservation state, store)
    | none => some (.finished none, store)
  | .releaseScript reservation state, .script _ reply =>
    some (send reply (releasePart part.partNumber part.token state.revision
      (controlMeta state .open_ (state.revision + 1))) store (.releaseScript reservation state)
      (.finished none) (fun _ => .finished none))
  | _, _ => none

/-! ## The system -/

/-- What a run is about: the key material of the upload and the lease time. -/
structure Config where
  hmac : Bytes → Bytes → Bytes
  dek : Bytes
  leaseTime : ℕ

structure Request where
  part : PartClaim
  plaintext : Bytes
  pc : Pc

/-- One upload: its hash, the requests for its parts, and a record of what was
handed to the backend as part number and plaintext of each ciphertext. -/
structure System where
  store : Option UploadHash
  requests : List Request
  sent : List (ℕ × Bytes)

inductive Action where
  /-- A request that has buffered its plaintext and drawn its token. -/
  | arrive (partNumber : ℕ) (plaintext token : Bytes)
  | request (index : ℕ) (event : Event)
  | lifecycle (fromPhase : UploadPhase) (revision : ℕ) (toPhase : UploadPhase)
      (newMeta : UploadState) (allowLegacyAbort : Bool)
  | complete (revision : ℕ) (selection : List SelectedPart) (newMeta : UploadState)
  /-- The hash runs out or is deleted. -/
  | expire

/-- The claim a request goes in with. -/
def Config.claimOf (config : Config) (partNumber : ℕ) (plaintext : Bytes) :
    Except MpuError Bytes :=
  computePartClaim config.hmac config.dek partNumber plaintext

def System.step (config : Config) (s : System) : Action → Option System
  | .arrive partNumber plaintext token =>
    -- tokens are drawn at random; a run in which one repeats is left out
    if s.requests.any (fun r => r.part.token = token) then none
    else
      match config.claimOf partNumber plaintext with
      | .error _ => none
      | .ok claim =>
        if claim = [] ∨ token = [] then none
        else
          some { s with requests := s.requests ++
            [⟨⟨partNumber, claim, plaintext.length, token, "", 0, 0⟩, plaintext, .reserving 0⟩] }
  | .request index event => do
      let r ← s.requests[index]?
      let (pc, store) ← r.pc.next config.leaseTime r.part s.store event
      return {
        store := store
        requests := s.requests.set index { r with pc := pc }
        sent := if event = .upload then s.sent ++ [(r.part.partNumber, r.plaintext)] else s.sent }
  | .lifecycle fromPhase revision toPhase newMeta allowLegacyAbort =>
    some { s with store :=
      (exec (atomicLifecycle fromPhase revision toPhase newMeta allowLegacyAbort) s.store).2 }
  | .complete revision selection newMeta =>
    some { s with store := (exec (beginComplete revision selection newMeta) s.store).2 }
  | .expire => some { s with store := none }

def System.created (state : UploadState) : System :=
  ⟨(create state none).2, [], []⟩

/-- All ciphertexts handed over for a part have one plaintext. -/
def System.NonceSafe (s : System) : Prop :=
  ∀ partNumber first second, (partNumber, first) ∈ s.sent → (partNumber, second) ∈ s.sent →
    first = second

/-! ## What one step does -/

/-- The reservation of a request that may still hand its ciphertext over. -/
def Pc.held : Pc → Option Reservation
  | .encrypting reservation | .renewing reservation _ | .renewScript reservation _ _
  | .ready reservation => some reservation
  | _ => none

/-- The reservation of a request that may still hand over or release. -/
def Pc.owned : Pc → Option Reservation
  | .releasing reservation | .releaseScript reservation _ => some reservation
  | pc => pc.held

/-- No claim and no token in the part fields changed; the hash may be gone. -/
def Keeps (before after : Option UploadHash) : Prop :=
  ∀ hash', after = some hash' → ∃ hash, before = some hash ∧
    ∀ partNumber, (hash'.parts partNumber).map (fun record => (record.claim, record.token)) =
      (hash.parts partNumber).map fun record => (record.claim, record.token)

theorem Keeps.refl (store : Option UploadHash) : Keeps store store :=
  fun hash hstore => ⟨hash, hstore, fun _ => rfl⟩

theorem Keeps.of_update {hash written : UploadHash} {partNumber : ℕ} {current record : PartRecord}
    (hcurrent : hash.parts partNumber = some current)
    (hparts : written.parts = Function.update hash.parts partNumber (some record))
    (hclaim : record.claim = current.claim) (htoken : record.token = current.token) :
    Keeps (some hash) (some written) := by
  intro hash' hhash'
  cases hhash'
  refine ⟨hash, rfl, fun other => ?_⟩
  rw [hparts]
  by_cases hother : other = partNumber
  · subst hother
    rw [Function.update_self, hcurrent, Option.map_some, Option.map_some, hclaim, htoken]
  · rw [Function.update_of_ne hother]

/-- The request put its claim into a field that was free or held the same claim. -/
structure Claims (part : PartClaim) (before after : Option UploadHash) (pc' : Pc) : Prop where
  writes : ∃ hash hash' lease, before = some hash ∧ after = some hash' ∧
    hash'.parts = Function.update hash.parts part.partNumber (some (reservedRecord part lease)) ∧
    (∀ record, hash.parts part.partNumber = some record → record.claim = some part.claim) ∧
    ∀ reservation, pc'.owned = some reservation →
      reservation.reacquired = (hash.parts part.partNumber).isSome

/-- The request emptied the field that held its token. -/
structure Releases (part : PartClaim) (before after : Option UploadHash) : Prop where
  writes : ∃ hash hash' record, before = some hash ∧ after = some hash' ∧
    hash.parts part.partNumber = some record ∧ record.token = some part.token ∧
    hash'.parts = Function.update hash.parts part.partNumber none

variable {store' store : Option UploadHash}

/-- Where a script leaves its sender, and what it leaves in the store. -/
theorem send_cases {Answer Place : Type*} {reply : Reply}
    {script : UploadHash → Answer × Option UploadHash} {again failed pc' : Place}
    {next : Answer → Place} (hsend : send reply script store again failed next = (pc', store')) :
    store' = store ∧ pc' = failed ∨
      store' = (exec script store).2 ∧
        (pc' = again ∨ pc' = failed ∨ pc' = next (exec script store).1) := by
  cases reply with
  | delivered =>
    cases hsend
    exact .inr ⟨rfl, .inr (.inr rfl)⟩
  | lost =>
    cases hsend
    exact .inr ⟨rfl, .inr (.inl rfl)⟩
  | retried =>
    cases hsend
    exact .inr ⟨rfl, .inl rfl⟩
  | unreached =>
    cases hsend
    exact .inl ⟨rfl, rfl⟩

theorem owned_afterReserve {attempt : ℕ} {answer : ReserveAnswer}
    (hfresh : ∀ r l, answer ≠ .reserved r l) (hover : ∀ r l, answer ≠ .reacquired r l) :
    (afterReserve attempt answer).owned = none := by
  cases answer with
  | reserved revision lease => exact absurd rfl (hfresh revision lease)
  | reacquired revision lease => exact absurd rfl (hover revision lease)
  | conflict =>
    simp only [afterReserve]
    split <;> rfl
  | _ => rfl

/-- A request that runs the reserve script gets no reservation and leaves the store
alone, or it claims the part. -/
theorem send_reservePart {reply : Reply} {now revision leaseTime attempt : ℕ} {part : PartClaim}
    {newMeta : UploadState} {again pc' : Pc} (hagain : again.owned = none)
    (hsend : send reply (reservePart now part revision leaseTime newMeta) store again
      (.finished none) (afterReserve attempt) = (pc', store')) :
    store' = store ∧ pc'.owned = none ∨ Claims part store store' pc' := by
  rcases send_cases hsend with ⟨hstore, hpc⟩ | ⟨hstore, hpc⟩
  · subst hpc
    exact .inl ⟨hstore, rfl⟩
  · rw [exec_snd] at hstore
    rw [exec_fst] at hpc
    rcases reservePart_cases now part revision leaseTime newMeta (store.getD .missing) with
      ⟨answer, hscript, hfresh, hover⟩ | ⟨written, hparts, hwhich⟩
    · rw [hscript] at hstore hpc
      refine .inl ⟨hstore, ?_⟩
      rcases hpc with rfl | rfl | rfl
      · exact hagain
      · rfl
      · exact owned_afterReserve hfresh hover
    · -- the key exists, as the script finds nothing in a missing hash
      cases store with
      | none =>
        rcases hwhich with ⟨-, hscript⟩ | ⟨current, hcurrent, -⟩
        · cases hscript
        · cases hcurrent
      | some hash =>
        refine .inr ⟨hash, written, now + leaseTime, rfl, ?_, hparts, ?_, ?_⟩
        · rcases hwhich with ⟨-, hscript⟩ | ⟨current, -, -, hscript⟩ <;>
            · rw [hscript] at hstore
              exact hstore
        · intro record hrecord
          rcases hwhich with ⟨hnone, -⟩ | ⟨current, hcurrent, hclaim, -⟩
          · rw [Option.getD_some, hrecord] at hnone
            cases hnone
          · rw [Option.getD_some, hrecord] at hcurrent
            cases hcurrent
            exact hclaim
        · intro reservation howned
          rcases hpc with rfl | rfl | rfl
          · rw [hagain] at howned
            cases howned
          · cases howned
          · rcases hwhich with ⟨hnone, hscript⟩ | ⟨current, hcurrent, -, hscript⟩
            · rw [hscript] at howned
              cases howned
              rw [Option.getD_some] at hnone
              rw [hnone]
              rfl
            · rw [hscript] at howned
              cases howned
              rw [Option.getD_some] at hcurrent
              rw [hcurrent]
              rfl

theorem keeps_renewPart (now partNumber : ℕ) (token : Bytes) (revision leaseTime : ℕ)
    (store : Option UploadHash) :
    Keeps store (exec (renewPart now partNumber token revision leaseTime) store).2 := by
  rw [exec_snd]
  cases hwritten : (renewPart now partNumber token revision leaseTime (store.getD .missing)).2 with
  | none => exact Keeps.refl store
  | some written =>
    obtain ⟨-, current, hcurrent, -, rfl⟩ := renewPart_written hwritten
    cases store with
    | none => cases hcurrent
    | some hash => exact Keeps.of_update hcurrent rfl rfl rfl

theorem keeps_commitPart (part : PartClaim) (revision : ℕ) (newMeta : UploadState)
    (store : Option UploadHash) :
    Keeps store (exec (commitPart part revision newMeta) store).2 := by
  rw [exec_snd]
  cases hwritten : (commitPart part revision newMeta (store.getD .missing)).2 with
  | none => exact Keeps.refl store
  | some written =>
    obtain ⟨-, ⟨current, hcurrent, hclaim, htoken, -⟩, rfl⟩ := commitPart_written hwritten
    cases store with
    | none => cases hcurrent
    | some hash => exact Keeps.of_update hcurrent rfl hclaim.symm htoken.symm

theorem releases_or_eq (part : PartClaim) (revision : ℕ) (newMeta : UploadState)
    (store : Option UploadHash) :
    (exec (releasePart part.partNumber part.token revision newMeta) store).2 = store ∨
      Releases part store
        (exec (releasePart part.partNumber part.token revision newMeta) store).2 := by
  rw [exec_snd]
  cases hwritten :
    (releasePart part.partNumber part.token revision newMeta (store.getD .missing)).2 with
  | none => exact .inl rfl
  | some written =>
    obtain ⟨-, ⟨current, hcurrent, -, htoken⟩, rfl⟩ := releasePart_written hwritten
    cases store with
    | none => cases hcurrent
    | some hash => exact .inr ⟨hash, _, current, rfl, rfl, hcurrent, htoken, rfl⟩

/-- A step that changes no claim and hands out no reservation. -/
structure Quiet (store store' : Option UploadHash) (pc pc' : Pc) (event : Event) : Prop where
  keeps : Keeps store store'
  owned : pc'.owned = none ∨ pc'.owned = pc.owned
  held : pc'.held.isSome → pc.held.isSome
  upload : event = .upload → pc.held.isSome ∧ pc'.owned = none

theorem owned_afterRenew (reservation : Reservation) (attempt : ℕ) (answer : PartAnswer) :
    (afterRenew reservation attempt answer).owned = some reservation := by
  cases answer with
  | conflict =>
    simp only [afterRenew]
    split <;> rfl
  | _ => rfl

theorem owned_afterCommit (uploaded : UploadedPart) (attempt : ℕ) (answer : PartAnswer) :
    (afterCommit uploaded attempt answer).owned = none := by
  cases answer with
  | conflict =>
    simp only [afterCommit]
    split <;> rfl
  | _ => rfl

theorem held_of_owned_eq_none {pc : Pc} (howned : pc.owned = none) : pc.held = none := by
  cases pc <;> first | rfl | cases howned

/-- **What one step of a request can do.** -/
theorem Pc.next_cases {leaseTime : ℕ} {part : PartClaim} {pc pc' : Pc} {event : Event}
    (hnext : pc.next leaseTime part store event = some (pc', store')) :
    Quiet store store' pc pc' event ∨
    event ≠ .upload ∧ Claims part store store' pc' ∨
    event ≠ .upload ∧ pc'.held = none ∧ (pc'.owned = none ∨ pc' = pc) ∧
      Releases part store store' ∧ ∃ reservation state, pc = .releaseScript reservation state := by
  unfold Pc.next at hnext
  split at hnext
  -- reserving
  · left
    split at hnext <;> cases hnext <;>
      exact ⟨Keeps.refl _, .inl rfl, nofun, nofun⟩
  -- reserveScript
  · rcases send_reservePart rfl (Option.some.inj hnext) with ⟨rfl, howned⟩ | hclaims
    · left
      refine ⟨Keeps.refl _, .inl howned, ?_, nofun⟩
      rw [held_of_owned_eq_none howned]
      exact nofun
    · exact .inr (.inl ⟨by simp, hclaims⟩)
  -- encrypting
  · cases hnext
    exact .inl ⟨Keeps.refl _, .inr rfl, fun _ => rfl, nofun⟩
  · cases hnext
    exact .inl ⟨Keeps.refl _, .inr rfl, fun _ => rfl, nofun⟩
  · cases hnext
    exact .inl ⟨Keeps.refl _, .inr rfl, fun _ => rfl, nofun⟩
  -- renewing
  · left
    split at hnext <;> cases hnext <;>
      exact ⟨Keeps.refl _, .inr rfl, fun _ => rfl, nofun⟩
  -- renewScript
  · rename_i reservation attempt state now reply
    left
    refine ⟨?_, .inr ?_, fun _ => rfl, nofun⟩
    · rcases send_cases (Option.some.inj hnext) with ⟨rfl, -⟩ | ⟨rfl, -⟩
      · exact Keeps.refl _
      · exact keeps_renewPart _ _ _ _ _ _
    · rcases send_cases (Option.some.inj hnext) with ⟨-, rfl⟩ | ⟨-, rfl | rfl | rfl⟩
      · rfl
      · rfl
      · rfl
      · exact owned_afterRenew ..
  -- ready
  · cases hnext
    exact .inl ⟨Keeps.refl _, .inl rfl, fun _ => rfl, fun _ => ⟨rfl, rfl⟩⟩
  -- uploading
  · cases hnext
    exact .inl ⟨Keeps.refl _, .inl rfl, nofun, nofun⟩
  · cases hnext
    exact .inl ⟨Keeps.refl _, .inl rfl, nofun, nofun⟩
  -- committing
  · left
    split at hnext <;> cases hnext <;>
      exact ⟨Keeps.refl _, .inl rfl, nofun, nofun⟩
  -- commitScript
  · left
    have howned : pc'.owned = none := by
      rcases send_cases (Option.some.inj hnext) with ⟨-, rfl⟩ | ⟨-, rfl | rfl | rfl⟩
      · rfl
      · rfl
      · rfl
      · exact owned_afterCommit ..
    refine ⟨?_, .inl howned, ?_, nofun⟩
    · rcases send_cases (Option.some.inj hnext) with ⟨rfl, -⟩ | ⟨rfl, -⟩
      · exact Keeps.refl _
      · exact keeps_commitPart _ _ _ _
    · rw [held_of_owned_eq_none howned]
      exact nofun
  -- releasing
  · left
    split at hnext <;> cases hnext
    · exact ⟨Keeps.refl _, .inr rfl, nofun, nofun⟩
    · exact ⟨Keeps.refl _, .inl rfl, nofun, nofun⟩
  -- releaseScript
  · rename_i reservation state now reply
    have hpc : pc'.held = none ∧ (pc'.owned = none ∨ pc' = .releaseScript reservation state) := by
      rcases send_cases (Option.some.inj hnext) with ⟨-, rfl⟩ | ⟨-, rfl | rfl | rfl⟩
      · exact ⟨rfl, .inl rfl⟩
      · exact ⟨rfl, .inr rfl⟩
      · exact ⟨rfl, .inl rfl⟩
      · exact ⟨rfl, .inl rfl⟩
    have hquiet : store' = store → Quiet store store' (.releaseScript reservation state) pc'
        (.script now reply) := by
      rintro rfl
      refine ⟨Keeps.refl _, ?_, ?_, nofun⟩
      · rcases hpc.2 with hnone | rfl
        · exact .inl hnone
        · exact .inr rfl
      · rw [hpc.1]
        exact nofun
    rcases send_cases (Option.some.inj hnext) with ⟨hstore, -⟩ | ⟨hstore, -⟩
    · exact .inl (hquiet hstore)
    rcases releases_or_eq part state.revision (controlMeta state .open_ (state.revision + 1))
        store with hsame | hreleases
    · exact .inl (hquiet (hstore.trans hsame))
    · rw [← hstore] at hreleases
      exact .inr (.inr ⟨by simp, hpc.1, hpc.2, hreleases, reservation, state, rfl⟩)
  · cases hnext

/-! ## The invariant -/

/-- A plaintext that was handed over for the part, or that a request holds a
reservation for and may still hand over. -/
def System.Bound (s : System) (partNumber : ℕ) (plaintext : Bytes) : Prop :=
  (partNumber, plaintext) ∈ s.sent ∨
    ∃ (index : ℕ) (r : Request), s.requests[index]? = some r ∧ r.pc.held.isSome ∧
      r.part.partNumber = partNumber ∧ r.plaintext = plaintext

structure Safe (config : Config) (s : System) : Prop where
  tokens : ∀ (i j : ℕ) (r r' : Request), s.requests[i]? = some r → s.requests[j]? = some r' →
    r.part.token = r'.part.token → i = j
  claims : ∀ (i : ℕ) (r : Request), s.requests[i]? = some r →
    config.claimOf r.part.partNumber r.plaintext = .ok r.part.claim
  agree : ∀ partNumber first second, s.Bound partNumber first → s.Bound partNumber second →
    first = second
  recorded : ∀ hash, s.store = some hash → ∀ partNumber plaintext,
    s.Bound partNumber plaintext → ∃ record claim, hash.parts partNumber = some record ∧
      record.claim = some claim ∧ config.claimOf partNumber plaintext = .ok claim
  alone : ∀ hash, s.store = some hash → ∀ (i : ℕ) (r : Request) reservation record,
    s.requests[i]? = some r → r.pc.owned = some reservation → reservation.reacquired = false →
    hash.parts r.part.partNumber = some record → record.token = some r.part.token →
      (∀ plaintext, (r.part.partNumber, plaintext) ∉ s.sent) ∧
      ∀ (j : ℕ) (r' : Request), s.requests[j]? = some r' → r'.pc.held.isSome →
        r'.part.partNumber = r.part.partNumber → j = i

theorem safe_created (config : Config) (state : UploadState) :
    Safe config (System.created state) := by
  have hnobody : ∀ partNumber plaintext, ¬ (System.created state).Bound partNumber plaintext := by
    rintro partNumber plaintext (hsent | ⟨index, r, hr, -⟩)
    · cases hsent
    · cases hr
  refine ⟨?_, ?_, ?_, ?_, ?_⟩
  · intro i j r r' hr
    cases hr
  · intro i r hr
    cases hr
  · intro p first second hfirst
    exact absurd hfirst (hnobody p first)
  · intro hash _ p plaintext hbound
    exact absurd hbound (hnobody p plaintext)
  · intro hash _ i r reservation record hr
    cases hr

section Step

variable {config : Config} {s s' : System}

variable {requests : List Request}

/-- Tokens and claims of some requests are right. -/
structure Identified (config : Config) (requests : List Request) : Prop where
  tokens : ∀ (i j : ℕ) (r r' : Request), requests[i]? = some r → requests[j]? = some r' →
    r.part.token = r'.part.token → i = j
  claims : ∀ (i : ℕ) (r : Request), requests[i]? = some r →
    config.claimOf r.part.partNumber r.plaintext = .ok r.part.claim

/-- They stay right as long as the requests stay. -/
theorem Safe.identified (hsafe : Safe config s)
    (hold : ∀ (i : ℕ) (r' : Request), requests[i]? = some r' →
      ∃ r : Request, s.requests[i]? = some r ∧ r'.part = r.part ∧ r'.plaintext = r.plaintext) :
    Identified config requests := by
  refine ⟨?_, ?_⟩
  · intro i j r₁ r₂ hr₁ hr₂ htoken
    obtain ⟨q₁, hq₁, hpart₁, -⟩ := hold i r₁ hr₁
    obtain ⟨q₂, hq₂, hpart₂, -⟩ := hold j r₂ hr₂
    rw [hpart₁, hpart₂] at htoken
    exact hsafe.tokens i j q₁ q₂ hq₁ hq₂ htoken
  · intro i r' hr'
    obtain ⟨r, hr, hpart, hplain⟩ := hold i r' hr'
    rw [hpart, hplain]
    exact hsafe.claims i r hr

/-- A step that keeps the claims, hands out no reservation, and sends only what a
holder had. -/
theorem Safe.of_quiet (hsafe : Safe config s) (hkeeps : Keeps s.store s'.store)
    (hidentified : Identified config s'.requests)
    (hrequests : ∀ (i : ℕ) (r' : Request), s'.requests[i]? = some r' → r'.pc.owned = none ∨
      ∃ r : Request, s.requests[i]? = some r ∧ r'.part = r.part ∧ r'.plaintext = r.plaintext ∧
        r'.pc.owned = r.pc.owned ∧ (r'.pc.held.isSome → r.pc.held.isSome))
    (hsent : ∀ partNumber plaintext, (partNumber, plaintext) ∈ s'.sent →
      (partNumber, plaintext) ∈ s.sent ∨ ∃ (j : ℕ) (r : Request), s.requests[j]? = some r ∧
        r.pc.held.isSome ∧ r.part.partNumber = partNumber ∧ r.plaintext = plaintext ∧
        ∀ r' : Request, s'.requests[j]? = some r' → r'.pc.owned = none) :
    Safe config s' := by
  -- a request that holds something held it before
  have hholder : ∀ (i : ℕ) (r' : Request), s'.requests[i]? = some r' → r'.pc.held.isSome →
      ∃ r : Request, s.requests[i]? = some r ∧ r.pc.held.isSome ∧ r'.part = r.part ∧
        r'.plaintext = r.plaintext := by
    intro i r' hr' hheld
    rcases hrequests i r' hr' with hnone | ⟨r, hr, hpart, hplain, -, hback⟩
    · rw [held_of_owned_eq_none hnone] at hheld
      cases hheld
    · exact ⟨r, hr, hback hheld, hpart, hplain⟩
  have hbound : ∀ partNumber plaintext, s'.Bound partNumber plaintext →
      s.Bound partNumber plaintext := by
    rintro partNumber plaintext (hmem | ⟨i, r', hr', hheld, rfl, rfl⟩)
    · rcases hsent _ _ hmem with hold | ⟨j, r, hr, hheld, hpart, hplain, -⟩
      · exact .inl hold
      · exact .inr ⟨j, r, hr, hheld, hpart, hplain⟩
    · obtain ⟨r, hr, hback, hpart, hplain⟩ := hholder i r' hr' hheld
      exact .inr ⟨i, r, hr, hback, by rw [hpart], hplain.symm⟩
  refine ⟨hidentified.tokens, hidentified.claims, ?_, ?_, ?_⟩
  · intro partNumber first second hfirst hsecond
    exact hsafe.agree partNumber first second (hbound _ _ hfirst) (hbound _ _ hsecond)
  · intro hash' hhash' partNumber plaintext hb
    obtain ⟨hash, hhash, hsame⟩ := hkeeps hash' hhash'
    obtain ⟨record, claim, hrecord, hclaim, hof⟩ :=
      hsafe.recorded hash hhash partNumber plaintext (hbound _ _ hb)
    have hfield := hsame partNumber
    rw [hrecord, Option.map_some] at hfield
    obtain ⟨record', hrecord', hkey⟩ := Option.map_eq_some_iff.mp hfield
    exact ⟨record', claim, hrecord', (congrArg Prod.fst hkey).trans hclaim, hof⟩
  · intro hash' hhash' i r' reservation record' hr' howned hfirst hrecord' htoken'
    obtain ⟨hash, hhash, hsame⟩ := hkeeps hash' hhash'
    rcases hrequests i r' hr' with hnone | ⟨r, hr, hpart, -, hown, -⟩
    · rw [hnone] at howned
      cases howned
    rw [hpart] at hrecord' htoken' ⊢
    have hfield := hsame r.part.partNumber
    rw [hrecord', Option.map_some] at hfield
    obtain ⟨record, hrecord, hkey⟩ := Option.map_eq_some_iff.mp hfield.symm
    have htoken : record.token = some r.part.token := (congrArg Prod.snd hkey).trans htoken'
    obtain ⟨hnone, hall⟩ := hsafe.alone hash hhash i r reservation record hr
      (hown.symm.trans howned) hfirst hrecord htoken
    refine ⟨?_, ?_⟩
    · intro plaintext hmem
      rcases hsent _ _ hmem with hold | ⟨j, q, hq, hheld, hqpart, -, hgone⟩
      · exact hnone plaintext hold
      -- the sender held a reservation, so it is the owner, which then has none left
      have hji := hall j q hq hheld hqpart
      subst hji
      rw [hgone r' hr'] at howned
      cases howned
    · intro j q' hq' hheld hqpart
      obtain ⟨q, hq, hback, hpartq, -⟩ := hholder j q' hq' hheld
      rw [hpartq] at hqpart
      exact hall j q hq hback hqpart

/-- A step of the store alone. -/
theorem Safe.of_keeps (hsafe : Safe config s) {store : Option UploadHash}
    (hkeeps : Keeps s.store store) : Safe config { s with store := store } :=
  hsafe.of_quiet hkeeps ⟨hsafe.tokens, hsafe.claims⟩
    (fun _ r hr => .inr ⟨r, hr, rfl, rfl, rfl, id⟩) fun _ _ hsent => .inl hsent

/-- The requests after one of them moved. -/
theorem request_of_set {index : ℕ} {r : Request} {pc : Pc} (hr : requests[index]? = some r) {i : ℕ}
    {r' : Request} (hr' : (requests.set index { r with pc := pc })[i]? = some r') :
    i = index ∧ r' = { r with pc := pc } ∨ i ≠ index ∧ requests[i]? = some r' := by
  by_cases hi : i = index
  · subst hi
    rw [List.getElem?_set_self (List.getElem?_eq_some_iff.mp hr).1] at hr'
    exact .inl ⟨rfl, (Option.some.inj hr').symm⟩
  · rw [List.getElem?_set_ne (Ne.symm hi)] at hr'
    exact .inr ⟨hi, hr'⟩

/-- What stays the same about the requests when one of them moves. -/
theorem part_of_set {index : ℕ} {r : Request} {pc : Pc} (hr : requests[index]? = some r) {i : ℕ}
    {r' : Request} (hr' : (requests.set index { r with pc := pc })[i]? = some r') :
    ∃ q : Request, requests[i]? = some q ∧ r'.part = q.part ∧ r'.plaintext = q.plaintext := by
  rcases request_of_set hr hr' with ⟨rfl, rfl⟩ | ⟨-, hold⟩
  · exact ⟨r, hr, rfl, rfl⟩
  · exact ⟨r', hold, rfl, rfl⟩

section Request

variable {index : ℕ} {r : Request} {pc : Pc} {store : Option UploadHash}

/-- A request that claims its part agrees with everything bound to it, as the field
is free only if nothing is. -/
theorem Safe.of_claims (hinj : Function.Injective (config.hmac config.dek))
    (hsafe : Safe config s) (hr : s.requests[index]? = some r)
    (hclaims : Claims r.part s.store store pc) :
    Safe config { s with store := store, requests := s.requests.set index { r with pc := pc } } := by
  obtain ⟨hash, hash', lease, hstore, rfl, hparts, hsame, hhow⟩ := hclaims
  -- what is bound to the part already has the plaintext of the request
  have hplain : ∀ plaintext, s.Bound r.part.partNumber plaintext → plaintext = r.plaintext := by
    intro plaintext hbound
    obtain ⟨record, claim, hrecord, hclaim, hof⟩ :=
      hsafe.recorded hash hstore r.part.partNumber plaintext hbound
    rw [hsame record hrecord] at hclaim
    cases hclaim
    exact computePartClaim_inj hinj hof (hsafe.claims index r hr)
  have hbound : ∀ partNumber plaintext,
      System.Bound { s with
        store := some hash'
        requests := s.requests.set index { r with pc := pc } } partNumber plaintext →
      s.Bound partNumber plaintext ∨ partNumber = r.part.partNumber ∧ plaintext = r.plaintext := by
    rintro partNumber plaintext (hsent | ⟨i, r', hr', hheld, rfl, rfl⟩)
    · exact .inl (.inl hsent)
    · rcases request_of_set hr hr' with ⟨-, rfl⟩ | ⟨-, hold⟩
      · exact .inr ⟨rfl, rfl⟩
      · exact .inl (.inr ⟨i, r', hold, hheld, rfl, rfl⟩)
  have hidentified : Identified config (s.requests.set index { r with pc := pc }) :=
    hsafe.identified fun i r' => part_of_set hr
  refine ⟨hidentified.tokens, hidentified.claims, ?_, ?_, ?_⟩
  · intro partNumber first second hfirst hsecond
    rcases hbound _ _ hfirst with hold₁ | ⟨rfl, rfl⟩
    · rcases hbound _ _ hsecond with hold₂ | ⟨rfl, rfl⟩
      · exact hsafe.agree _ _ _ hold₁ hold₂
      · exact hplain first hold₁
    · rcases hbound _ _ hsecond with hold₂ | ⟨-, rfl⟩
      · exact (hplain second hold₂).symm
      · rfl
  · intro hash'' hhash'' partNumber plaintext hb
    cases hhash''
    by_cases hpart : partNumber = r.part.partNumber
    · subst hpart
      have hof : config.claimOf r.part.partNumber plaintext = .ok r.part.claim := by
        rcases hbound _ _ hb with hold | ⟨-, rfl⟩
        · rw [hplain plaintext hold]
          exact hsafe.claims index r hr
        · exact hsafe.claims index r hr
      exact ⟨reservedRecord r.part lease, r.part.claim, by rw [hparts, Function.update_self], rfl,
        hof⟩
    · rcases hbound _ _ hb with hold | ⟨hsamePart, -⟩
      · obtain ⟨record, claim, hrecord, hrest⟩ := hsafe.recorded hash hstore _ _ hold
        exact ⟨record, claim, by rw [hparts, Function.update_of_ne hpart, hrecord], hrest⟩
      · exact absurd hsamePart hpart
  · intro hash'' hhash'' i r' reservation record hr' howned hfirst hrecord htoken
    cases hhash''
    rcases request_of_set hr hr' with ⟨rfl, rfl⟩ | ⟨hi, hold⟩
    · -- the request itself: its field was free, so nothing is bound to the part
      have hfree : hash.parts r.part.partNumber = none := by
        have := hhow reservation howned
        rw [hfirst] at this
        exact Option.not_isSome_iff_eq_none.mp (by rw [← this]; simp)
      have hnobody : ∀ plaintext, ¬ s.Bound r.part.partNumber plaintext := by
        intro plaintext hb
        obtain ⟨record', -, hrecord', -⟩ := hsafe.recorded hash hstore _ _ hb
        rw [hfree] at hrecord'
        cases hrecord'
      refine ⟨fun plaintext hsent => hnobody plaintext (.inl hsent), ?_⟩
      intro j q hq hheld hpart
      rcases request_of_set hr hq with ⟨hj, -⟩ | ⟨-, hold⟩
      · exact hj
      · exact absurd (.inr ⟨j, q, hold, hheld, hpart, rfl⟩) (hnobody q.plaintext)
    · by_cases hpart : r'.part.partNumber = r.part.partNumber
      · -- another request of the part: the field has the mover's token now
        rw [hparts, hpart, Function.update_self] at hrecord
        cases hrecord
        exact absurd (hsafe.tokens i index r' r hold hr (Option.some.inj htoken).symm) hi
      · rw [hparts, Function.update_of_ne hpart] at hrecord
        obtain ⟨hnone, hall⟩ := hsafe.alone hash hstore i r' reservation record hold howned hfirst
          hrecord htoken
        refine ⟨hnone, ?_⟩
        intro j q hq hheld hqpart
        rcases request_of_set hr hq with ⟨-, rfl⟩ | ⟨-, hqold⟩
        · exact absurd hqpart.symm hpart
        · exact hall j q hqold hheld hqpart

/-- A first-hand owner that releases its part leaves nothing bound to it. -/
theorem Safe.of_releases (hsafe : Safe config s) (hr : s.requests[index]? = some r)
    {reservation : Reservation} (howned : r.pc.owned = some reservation)
    (hfirst : reservation.reacquired = false) (hself : r.pc.held = none)
    (hheld : pc.held = none) (hpc : pc.owned = none ∨ pc = r.pc)
    (hreleases : Releases r.part s.store store) :
    Safe config { s with store := store, requests := s.requests.set index { r with pc := pc } } := by
  obtain ⟨hash, hash', record, hstore, rfl, hrecord, htoken, hparts⟩ := hreleases
  obtain ⟨hnone, hall⟩ := hsafe.alone hash hstore index r reservation record hr howned hfirst
    hrecord htoken
  have hnobody : ∀ plaintext, ¬ s.Bound r.part.partNumber plaintext := by
    rintro plaintext (hsent | ⟨j, q, hq, hqheld, hqpart, -⟩)
    · exact hnone plaintext hsent
    · have hj := hall j q hq hqheld hqpart
      subst hj
      rw [hr] at hq
      cases hq
      rw [hself] at hqheld
      cases hqheld
  -- apart from the emptied field, nothing happened
  have hquiet : Safe config
      { s with requests := s.requests.set index { r with pc := pc } } := by
    refine hsafe.of_quiet (Keeps.refl _) (hsafe.identified fun i r' => part_of_set hr) ?_
      fun _ _ hsent => .inl hsent
    intro i r' hr'
    rcases request_of_set hr hr' with ⟨rfl, rfl⟩ | ⟨-, hold⟩
    · refine hpc.imp_right fun heq => ⟨r, hr, rfl, rfl, by rw [heq], ?_⟩
      rw [hself, ← hheld]
      exact id
    · exact .inr ⟨r', hold, rfl, rfl, rfl, id⟩
  have hbound : ∀ partNumber plaintext,
      System.Bound { s with
        store := some hash'
        requests := s.requests.set index { r with pc := pc } } partNumber plaintext →
      s.Bound partNumber plaintext := by
    rintro partNumber plaintext (hsent | ⟨i, r', hr', hr'held, rfl, rfl⟩)
    · exact .inl hsent
    · rcases request_of_set hr hr' with ⟨rfl, rfl⟩ | ⟨-, hold⟩
      · cases (congrArg Option.isSome hheld).symm.trans hr'held
      · exact .inr ⟨i, r', hold, hr'held, rfl, rfl⟩
  refine ⟨hquiet.tokens, hquiet.claims, hquiet.agree, ?_, ?_⟩
  · intro hash'' hhash'' partNumber plaintext hb
    cases hhash''
    have hne : partNumber ≠ r.part.partNumber := by
      rintro rfl
      exact hnobody plaintext (hbound _ _ hb)
    rw [hparts, Function.update_of_ne hne]
    exact hsafe.recorded hash hstore partNumber plaintext (hbound _ _ hb)
  · intro hash'' hhash'' i r' reservation' record' hr' howned' hfirst' hrecord' htoken'
    cases hhash''
    have hne : r'.part.partNumber ≠ r.part.partNumber := by
      intro heq
      rw [hparts, heq, Function.update_self] at hrecord'
      cases hrecord'
    rw [hparts, Function.update_of_ne hne] at hrecord'
    exact hquiet.alone hash hstore i r' reservation' record' hr' howned' hfirst' hrecord' htoken'

end Request

/-- A new request has no reservation and a token of its own. -/
theorem Safe.append (hsafe : Safe config s) {new : Request}
    (hfresh : ∀ (i : ℕ) (r : Request), s.requests[i]? = some r → r.part.token ≠ new.part.token)
    (hclaim : config.claimOf new.part.partNumber new.plaintext = .ok new.part.claim)
    (hnone : new.pc.owned = none) : Safe config { s with requests := s.requests ++ [new] } := by
  have hcases : ∀ (i : ℕ) (r : Request), (s.requests ++ [new])[i]? = some r →
      s.requests[i]? = some r ∨ i = s.requests.length ∧ r = new := by
    intro i r hr
    by_cases hi : i < s.requests.length
    · rw [List.getElem?_append_left hi] at hr
      exact .inl hr
    · rw [List.getElem?_append_right (not_lt.mp hi), List.getElem?_singleton] at hr
      split at hr <;> cases hr
      exact .inr ⟨by omega, rfl⟩
  refine hsafe.of_quiet (Keeps.refl _) ⟨?_, ?_⟩ ?_ fun _ _ hsent => .inl hsent
  · intro i j r r' hr hr' htoken
    rcases hcases i r hr with hold | ⟨rfl, rfl⟩
    · rcases hcases j r' hr' with hold' | ⟨rfl, rfl⟩
      · exact hsafe.tokens i j r r' hold hold' htoken
      · exact absurd htoken (hfresh i r hold)
    · rcases hcases j r' hr' with hold' | ⟨rfl, -⟩
      · exact absurd htoken.symm (hfresh j r' hold')
      · rfl
  · intro i r hr
    rcases hcases i r hr with hold | ⟨-, rfl⟩
    · exact hsafe.claims i r hold
    · exact hclaim
  · intro i r hr
    rcases hcases i r hr with hold | ⟨-, rfl⟩
    · exact .inr ⟨r, hold, rfl, rfl, rfl, id⟩
    · exact .inl hnone

theorem Safe.arrive (hsafe : Safe config s) {partNumber : ℕ} {plaintext token : Bytes}
    (hstep : s.step config (.arrive partNumber plaintext token) = some s') : Safe config s' := by
  unfold System.step at hstep
  simp only at hstep
  split at hstep
  · cases hstep
  rename_i hnew
  split at hstep
  · cases hstep
  rename_i claim hclaim
  split at hstep <;> cases hstep
  refine hsafe.append ?_ hclaim rfl
  intro i r hr htoken
  apply hnew
  simp only [List.any_eq_true, decide_eq_true_eq]
  exact ⟨r, List.mem_of_getElem? hr, htoken⟩

theorem keeps_exec_of_parts {Answer : Type*} {script : UploadHash → Answer × Option UploadHash}
    (hmissing : (script .missing).2 = none)
    (hparts : ∀ hash written, (script hash).2 = some written → written.parts = hash.parts)
    (store : Option UploadHash) : Keeps store (exec script store).2 := by
  rw [exec_snd]
  cases store with
  | none =>
    rw [Option.getD_none, hmissing]
    exact Keeps.refl none
  | some hash =>
    rw [Option.getD_some]
    cases hwritten : (script hash).2 with
    | none => exact Keeps.refl _
    | some written =>
      intro hash' hhash'
      cases hhash'
      exact ⟨hash, rfl, fun partNumber => by rw [hparts hash written hwritten]⟩

/-- No request whose reservation was taken over from an earlier one runs the release
script. -/
def releasesFirstHand (s : System) : Action → Bool
  | .request index (.script _ _) =>
    match s.requests[index]? with
    | some ⟨_, _, .releaseScript reservation _⟩ => !reservation.reacquired
    | _ => true
  | _ => true

theorem Safe.request (hinj : Function.Injective (config.hmac config.dek)) (hsafe : Safe config s)
    {index : ℕ} {event : Event} (hfirst : releasesFirstHand s (.request index event) = true)
    (hstep : s.step config (.request index event) = some s') : Safe config s' := by
  simp only [System.step, Option.bind_eq_bind, Option.bind_eq_some_iff, Option.pure_def,
    Option.some.injEq, Prod.exists] at hstep
  obtain ⟨r, hr, pc, store, hnext, rfl⟩ := hstep
  rcases Pc.next_cases hnext with hquiet | ⟨hupload, hclaims⟩ |
    ⟨hupload, hheld, hpc, hreleases, reservation, state, hat⟩
  · refine hsafe.of_quiet hquiet.keeps (hsafe.identified fun i r' => part_of_set hr) ?_ ?_
    · intro i r' hr'
      rcases request_of_set hr hr' with ⟨rfl, rfl⟩ | ⟨-, hold⟩
      · exact hquiet.owned.imp_right fun howned => ⟨r, hr, rfl, rfl, howned, hquiet.held⟩
      · exact .inr ⟨r', hold, rfl, rfl, rfl, id⟩
    · intro partNumber plaintext hsent
      simp only at hsent
      split_ifs at hsent with hevent
      · rcases List.mem_append.mp hsent with hold | hnew
        · exact .inl hold
        obtain ⟨rfl, rfl⟩ := Prod.mk.inj (List.mem_singleton.mp hnew)
        obtain ⟨hheld, hnone⟩ := hquiet.upload hevent
        refine .inr ⟨index, r, hr, hheld, rfl, rfl, ?_⟩
        intro r' hr'
        rcases request_of_set hr hr' with ⟨-, rfl⟩ | ⟨hne, -⟩
        · exact hnone
        · exact absurd rfl hne
      · exact .inl hsent
  · rw [if_neg hupload]
    exact hsafe.of_claims hinj hr hclaims
  · rw [if_neg hupload]
    -- the condition speaks about this step, since only a script event fits the place
    have hhand : reservation.reacquired = false := by
      cases event with
      | script now reply =>
        obtain ⟨part, plaintext, pc₀⟩ := r
        subst hat
        simpa [releasesFirstHand, hr] using hfirst
      | get succeeds =>
        rw [hat] at hnext
        cases hnext
      | encrypt outcome =>
        rw [hat] at hnext
        cases hnext
      | upload => exact absurd rfl hupload
      | uploaded result =>
        rw [hat] at hnext
        cases hnext
    exact hsafe.of_releases hr (by rw [hat]; rfl) hhand (by rw [hat]; rfl) hheld hpc hreleases

theorem Safe.step (hinj : Function.Injective (config.hmac config.dek)) (hsafe : Safe config s)
    {action : Action} (hfirst : releasesFirstHand s action = true)
    (hstep : s.step config action = some s') : Safe config s' := by
  cases action with
  | arrive partNumber plaintext token => exact hsafe.arrive hstep
  | request index event => exact hsafe.request hinj hfirst hstep
  | lifecycle fromPhase revision toPhase newMeta allowLegacyAbort =>
    cases hstep
    exact hsafe.of_keeps (keeps_exec_of_parts rfl (fun _ _ => parts_of_atomicLifecycle) s.store)
  | complete revision selection newMeta =>
    cases hstep
    exact hsafe.of_keeps (keeps_exec_of_parts rfl (fun _ _ => parts_of_beginComplete) s.store)
  | expire =>
    cases hstep
    exact hsafe.of_keeps fun hash' hhash' => absurd hhash' nofun

end Step

/-- **Nonce safety.**  In every run of an upload in which only first-hand reservations
are released, all ciphertexts handed over for a part have one plaintext. -/
theorem nonceSafe_of_releasesFirstHand {config : Config} {state : UploadState}
    {actions : List Action} {s : System}
    (hinj : Function.Injective (config.hmac config.dek))
    (hmeets : Meets (System.step config) (fun s action => releasesFirstHand s action = true)
      (.created state) actions)
    (hrun : run (System.step config) (.created state) actions = some s) : s.NonceSafe := by
  have hsafe : Safe config s := run_invariant (System.step config)
    (fun _ _ _ hsafe hfirst hstep => hsafe.step hinj hfirst hstep) (safe_created config state)
    hmeets hrun
  exact fun partNumber first second hfirst hsecond =>
    hsafe.agree partNumber first second (.inl hfirst) (.inl hsecond)

/-! ## Runs of one upload -/

def sampleConfig : Config := ⟨fun key message => key ++ message, [1], 1000⟩

def sampleState : UploadState :=
  ⟨"upload", "bucket", "key", "", "dek", "iv", "AES256-GCM", 65536, ⟨true⟩, 0, none, 0⟩

/-- A request that reserves the part at time `now`. -/
def reserves (index now : ℕ) : List Action :=
  [.request index (.get true), .request index (.script now .delivered)]

/-- A request that encrypts and hands over, and whose backend call then fails. -/
def sends (index : ℕ) : List Action :=
  [.request index (.encrypt .quick), .request index .upload, .request index (.uploaded none)]

/-- A request that cannot encrypt and releases its reservation. -/
def gives (index now : ℕ) : List Action :=
  [.request index (.encrypt .failed), .request index (.get true),
    .request index (.script now .delivered)]

/-- The first request sends its ciphertext and gets no answer.  After its lease ran out
an identical retry takes the reservation over, fails to encrypt and releases it, and a
third request uploads something else. -/
def releaseAfterTakeOver : List Action :=
  .arrive 1 [7] [10] :: reserves 0 0 ++ sends 0 ++
    .arrive 1 [7] [11] :: reserves 1 2000 ++ gives 1 2001 ++
    .arrive 1 [8] [12] :: reserves 2 3000 ++ sends 2

/-- The same with a retry that sends its ciphertext too. -/
def sendAfterTakeOver : List Action :=
  .arrive 1 [7] [10] :: reserves 0 0 ++ sends 0 ++ .arrive 1 [7] [11] :: reserves 1 2000 ++ sends 1

theorem sampleConfig_injective : Function.Injective (sampleConfig.hmac sampleConfig.dek) :=
  fun _ _ h => List.append_cancel_left h

theorem nonceSafe_sendAfterTakeOver :
    ∃ s, run (System.step sampleConfig) (.created sampleState) sendAfterTakeOver = some s ∧
      s.sent = [(1, [7]), (1, [7])] ∧ s.NonceSafe := by
  have hsent : (run (System.step sampleConfig) (.created sampleState) sendAfterTakeOver).map
      System.sent = some [(1, [7]), (1, [7])] := by decide
  obtain ⟨s, hrun, hs⟩ := Option.map_eq_some_iff.mp hsent
  refine ⟨s, hrun, hs, ?_⟩
  exact nonceSafe_of_releasesFirstHand sampleConfig_injective (by decide) hrun

/-- A release of a taken-over reservation lets two plaintexts through. -/
theorem not_nonceSafe_releaseAfterTakeOver :
    ∃ s, run (System.step sampleConfig) (.created sampleState) releaseAfterTakeOver = some s ∧
      ¬ s.NonceSafe := by
  have hsent : (run (System.step sampleConfig) (.created sampleState) releaseAfterTakeOver).map
      System.sent = some [(1, [7]), (1, [8])] := by decide
  obtain ⟨s, hrun, hs⟩ := Option.map_eq_some_iff.mp hsent
  refine ⟨s, hrun, ?_⟩
  intro hsafe
  have heq : ([7] : Bytes) = [8] := by
    apply hsafe 1 [7] [8] <;> rw [hs] <;> simp
  cases heq

end S3EncryptionGateway.Mpu
