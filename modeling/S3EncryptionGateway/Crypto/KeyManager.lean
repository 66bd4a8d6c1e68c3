import S3EncryptionGateway.Library.Decimal
import S3EncryptionGateway.Library.MapSearch
import S3EncryptionGateway.Library.TransitionSystem
import S3EncryptionGateway.Crypto.Chunked.RoundTrip

/-!
# The manager of local key-encryption keys

The data key of an object is stored with the object, sealed under a key-encryption key.  The
manager keeps these keys by version and seals under the active one.  Rotation adds a version,
prepares a plan and promotes the version of the plan; a plan may be out of date by then
(`prepared_promotes_iff`).

## Strategy

No call removes or replaces a key before the manager is closed.  The history of a manager
remembers the envelopes it has issued and the versions it was given, and `KekHistory.Kept` says
that each envelope is sealed under the key that its version still names.  One lemma for each
call that changes something gives the step lemma, and the results are read off the invariant.

An envelope of a version that is not positive is tried with the keys in no particular order.
For those it matters that none of the keys opens the envelope as something else
(`Unmistaken`).
-/

namespace S3EncryptionGateway.Crypto

open Text Decimal Encoding MapRange List

/-! ## Envelopes and errors -/

/-- A sealed data key, and where its key-encryption key is found. -/
structure KeyEnvelope where
  keyId : Str
  keyVersion : Int64
  provider : Str
  ciphertext : Bytes
  deriving DecidableEq

inductive KeyManagerError where
  /-- "keymanager/self-contained-aes: " and the error of the context -/
  | context (code : ℕ)
  /-- The provider is unavailable: the manager is closed. -/
  | providerUnavailable
  /-- "no active key version %d", "version %d not found", "target version %d not found" -/
  | keyNotFound (version : Int64)
  /-- "nonce generation: " and the cause -/
  | nonceGeneration
  /-- "cipher init: " and the cause -/
  | cipherInit
  /-- "envelope is nil" -/
  | envelopeNil
  /-- "ciphertext too short" -/
  | ciphertextShort
  /-- "all versions failed: " and the last error -/
  | unwrapFailed
  /-- "KEK must be 32 bytes for AES-256, got %d" -/
  | materialSize (actual : ℕ)
  /-- "KEK material must not be all zeros" -/
  | materialZero
  /-- "version %d already exists" -/
  | versionExists (version : Int64)
  /-- "target version %d is already active" -/
  | targetActive (version : Int64)
  /-- "no version available to promote (only version %d exists)" -/
  | rotationAmbiguous (version : Int64)
  /-- "expected current version %d but active is %d" -/
  | rotationConflict (expected active : Int64)
  /-- "at least one key version required" -/
  | noKeys
  /-- "active version %d not found in keys" -/
  | activeNotFound (version : Int64)
  /-- "key version %d must be 32 bytes (AES-256), got %d" or "must not be all zeros" -/
  | badKey (version : Int64)
  deriving DecidableEq

structure RotationPlan where
  currentVersion : Int64
  targetVersion : Int64
  deriving DecidableEq

/-! ## The manager -/

structure AesKekManager where
  providerName : Str
  keys : Map Int64 Bytes
  activeVersion : Int64
  closed : Bool

def kekSize : ℕ := 32

def checkMaterial (material : Bytes) : Except KeyManagerError Unit :=
  if material.length ≠ kekSize then .error (.materialSize material.length)
  else if material.all (· = 0) then .error .materialZero
  else .ok ()

/-- A new manager.  Of several bad keys the one met first is reported. -/
def newAesKekManager (choose : Chooser Int64 Bytes) (keys : Map Int64 Bytes)
    (activeVersion : Int64) (providerName : Str) : Except KeyManagerError AesKekManager :=
  if keys = ∅ then .error .noKeys
  else if activeVersion ∉ keys then .error (.activeNotFound activeVersion)
  else
    let bad := fun version => decide (checkMaterial ((keys.lookup version).getD []) ≠ .ok ())
    match choose.choose bad keys with
    | some version => .error (.badKey version)
    | none =>
      .ok ⟨if providerName ≠ [] then providerName else "self_contained".toList, keys,
        activeVersion, false⟩

/-- Random bytes for the nonce of an envelope. -/
abbrev WrapNonce := { nonce : Bytes // nonce.length = nonceSize }

def isAesKey (key : Bytes) : Bool :=
  key.length = 16 ∨ key.length = 24 ∨ key.length = 32

namespace AesKekManager

section Calls

variable (aes : (key : Bytes) → Aead) (m : AesKekManager)

/-- `ctxErr` is the error of the context, and `nonce` is `none` if there is no randomness. -/
def wrapKey (ctxErr : Option ℕ) (nonce : Option WrapNonce) (plaintext : Bytes) :
    Except KeyManagerError KeyEnvelope :=
  match ctxErr with
  | some code => .error (.context code)
  | none =>
    if m.closed then .error .providerUnavailable
    else
      match m.keys.lookup m.activeVersion, nonce with
      | none, _ => .error (.keyNotFound m.activeVersion)
      | some _, none => .error .nonceGeneration
      | some kek, some nonce =>
        if isAesKey kek then
          .ok ⟨"self-contained-aes-v".toList ++ formatInt m.activeVersion.toInt,
            m.activeVersion, m.providerName,
            nonce.val ++ (aes kek).sealed nonce.val plaintext []⟩
        else .error .cipherInit

def tryUnwrap (kek ciphertext : Bytes) : Option Bytes :=
  if isAesKey kek then (aes kek).opened (ciphertext.take nonceSize) (ciphertext.drop nonceSize) []
  else none

/-- The versions to try, where `visits` are those of the map in the order of the loop. -/
def candidateVersions (visits : List Int64) (preferred : Int64) : List Int64 :=
  if 0 < preferred then preferred :: visits.filter (· ≠ preferred) else visits

/-- The first of the versions whose key opens the ciphertext. -/
def tryVersions (ciphertext : Bytes) : List Int64 → Option Bytes
  | [] => none
  | version :: versions =>
    match (m.keys.lookup version).bind fun kek => tryUnwrap aes kek ciphertext with
    | some plaintext => some plaintext
    | none => tryVersions ciphertext versions

def unwrapKey (ctxErr : Option ℕ) (visits : Order m.keys) (envelope : Option KeyEnvelope) :
    Except KeyManagerError Bytes :=
  match ctxErr with
  | some code => .error (.context code)
  | none =>
    if m.closed then .error .providerUnavailable
    else
      match envelope with
      | none => .error .envelopeNil
      | some envelope =>
        if envelope.ciphertext.length < nonceSize + tagSize then .error .ciphertextShort
        else
          match tryVersions aes m envelope.ciphertext
              (candidateVersions (visits.entries.map Prod.fst) envelope.keyVersion) with
          | some plaintext => .ok plaintext
          | none => .error .unwrapFailed

def addVersion (version : Int64) (material : Bytes) : Except KeyManagerError AesKekManager :=
  match checkMaterial material with
  | .error err => .error err
  | .ok () =>
    if m.closed then .error .providerUnavailable
    else if version ∈ m.keys then .error (.versionExists version)
    else .ok { m with keys := m.keys.insert version material }

/-- The highest of the visited versions that is not active, or `best` if none is higher. -/
def bestVersion (current : Int64) (visits : List Int64) (best : Int64) : Int64 :=
  match visits with
  | [] => best
  | version :: visits =>
    bestVersion current visits (if version ≠ current ∧ best < version then version else best)

def prepareRotation (visits : Order m.keys) (target : Option Int64) :
    Except KeyManagerError RotationPlan :=
  if m.closed then .error .providerUnavailable
  else
    match target with
    | some version =>
      if version ∉ m.keys then .error (.keyNotFound version)
      else if version = m.activeVersion then .error (.targetActive version)
      else .ok ⟨m.activeVersion, version⟩
    | none =>
      let best := bestVersion m.activeVersion (visits.entries.map Prod.fst) (-1)
      if best < 0 then .error (.rotationAmbiguous m.activeVersion)
      else .ok ⟨m.activeVersion, best⟩

def promoteActiveVersion (plan : RotationPlan) : Except KeyManagerError AesKekManager :=
  if m.closed then .error .providerUnavailable
  else if m.activeVersion ≠ plan.currentVersion then
    .error (.rotationConflict plan.currentVersion m.activeVersion)
  else if plan.targetVersion ∉ m.keys then .error (.keyNotFound plan.targetVersion)
  else .ok { m with activeVersion := plan.targetVersion }

/-- Closing a manager twice is the same as closing it once. -/
def close : AesKekManager :=
  { m with
    closed := true
    keys := ∅ }

end Calls

end AesKekManager

/-! ## Histories -/

inductive KekCall where
  | addVersion (version : Int64) (material : Bytes)
  | prepareRotation (target : Option Int64)
  | promoteActiveVersion (plan : RotationPlan)
  | wrapKey (ctxErr : Option ℕ) (nonce : Option WrapNonce) (dek : Bytes)
  | close

/-- A manager, the envelopes it has issued with the data keys in them, and the versions that were
given to it. -/
structure KekHistory where
  manager : AesKekManager
  issued : List (KeyEnvelope × Bytes)
  added : List Int64

open AesKekManager

namespace KekHistory

variable {aes : (key : Bytes) → Aead}

def start (manager : AesKekManager) (visits : Order manager.keys) : KekHistory :=
  ⟨manager, [], visits.entries.map Prod.fst⟩

/-- A call that fails leaves the manager as it is. -/
def step (aes : (key : Bytes) → Aead) (s : KekHistory) : KekCall → Option KekHistory
  | .addVersion version material =>
    match s.manager.addVersion version material with
    | .error _ => some s
    | .ok manager =>
      some { s with
        manager := manager
        added := version :: s.added }
  | .prepareRotation _ => some s
  | .promoteActiveVersion plan =>
    match s.manager.promoteActiveVersion plan with
    | .error _ => some s
    | .ok manager => some { s with manager := manager }
  | .wrapKey ctxErr nonce dek =>
    match s.manager.wrapKey aes ctxErr nonce dek with
    | .error _ => some s
    | .ok envelope => some { s with issued := (envelope, dek) :: s.issued }
  | .close => some { s with manager := s.manager.close }

/-- The envelope is sealed under the key that its version names. -/
def SealedUnder (aes : (key : Bytes) → Aead) (keys : Map Int64 Bytes) (envelope : KeyEnvelope)
    (dek : Bytes) : Prop :=
  ∃ (kek : Bytes) (nonce : WrapNonce), keys.lookup envelope.keyVersion = some kek ∧
    isAesKey kek = true ∧
    envelope.ciphertext = nonce.val ++ (aes kek).sealed nonce.val dek []

/-- What every call keeps. -/
structure Kept (aes : (key : Bytes) → Aead) (s : KekHistory) : Prop where
  active_mem : s.manager.closed = false → s.manager.activeVersion ∈ s.manager.keys
  keys_added : ∀ version ∈ s.manager.keys, version ∈ s.added
  issued_sealed : s.manager.closed = false → ∀ envelope dek, (envelope, dek) ∈ s.issued →
    SealedUnder aes s.manager.keys envelope dek

/-! ### What the calls do -/

variable {plan : RotationPlan}

variable {envelope : KeyEnvelope} {dek : Bytes} {version : Int64}

section Inversion

variable {m m' : AesKekManager}

theorem addVersion_eq_ok {material : Bytes} (hadd : m.addVersion version material = .ok m') :
    version ∉ m.keys ∧ m' = { m with keys := m.keys.insert version material } := by
  unfold addVersion at hadd
  split at hadd
  · cases hadd
  split at hadd
  · cases hadd
  split at hadd <;> cases hadd
  rename_i hnew
  exact ⟨hnew, rfl⟩

theorem promoteActiveVersion_eq_ok_iff :
    m.promoteActiveVersion plan = .ok m' ↔
      m.closed = false ∧ plan.currentVersion = m.activeVersion ∧ plan.targetVersion ∈ m.keys ∧
        m' = { m with activeVersion := plan.targetVersion } := by
  unfold promoteActiveVersion
  constructor
  · intro hpromote
    split at hpromote
    · cases hpromote
    rename_i hopen
    split at hpromote
    · cases hpromote
    rename_i hcurrent
    split at hpromote <;> cases hpromote
    rename_i htarget
    exact ⟨Bool.not_eq_true _ ▸ hopen, (not_not.mp hcurrent).symm, not_not.mp htarget, rfl⟩
  · rintro ⟨hopen, hcurrent, htarget, rfl⟩
    rw [if_neg (by simp [hopen]), if_neg (not_not.mpr hcurrent.symm), if_neg (not_not.mpr htarget)]

theorem wrapKey_eq_ok {ctxErr : Option ℕ} {nonce : Option WrapNonce}
    (hwrap : m.wrapKey aes ctxErr nonce dek = .ok envelope) :
    SealedUnder aes m.keys envelope dek := by
  unfold wrapKey at hwrap
  split at hwrap
  · cases hwrap
  split at hwrap
  · cases hwrap
  split at hwrap
  · cases hwrap
  · cases hwrap
  · rename_i kek nonce hkek
    split at hwrap <;> cases hwrap
    rename_i hsize
    exact ⟨kek, nonce, hkek, hsize, rfl⟩

end Inversion

/-- What a call can do to a history. -/
inductive Effect (aes : (key : Bytes) → Aead) (s : KekHistory) : KekHistory → Prop
  /-- The call failed or only reads. -/
  | none : Effect aes s s
  | added (version : Int64) (material : Bytes) (hnew : version ∉ s.manager.keys) :
      Effect aes s
        ⟨{ s.manager with keys := s.manager.keys.insert version material }, s.issued,
          version :: s.added⟩
  | promoted (version : Int64) (hstored : version ∈ s.manager.keys) :
      Effect aes s ⟨{ s.manager with activeVersion := version }, s.issued, s.added⟩
  | issued (envelope : KeyEnvelope) (dek : Bytes)
      (hsealed : SealedUnder aes s.manager.keys envelope dek) :
      Effect aes s ⟨s.manager, (envelope, dek) :: s.issued, s.added⟩
  | closed : Effect aes s ⟨s.manager.close, s.issued, s.added⟩

variable {s : KekHistory}

variable {s' : KekHistory}

theorem effect_of_step {call : KekCall} (hstep : s.step aes call = some s') : Effect aes s s' := by
  cases call with
  | addVersion version material =>
    simp only [step] at hstep
    split at hstep
    · cases hstep
      exact .none
    · rename_i m' hadd
      cases hstep
      obtain ⟨hnew, rfl⟩ := addVersion_eq_ok hadd
      exact .added version material hnew
  | prepareRotation target =>
    cases hstep
    exact .none
  | promoteActiveVersion plan =>
    simp only [step] at hstep
    split at hstep
    · cases hstep
      exact .none
    · rename_i m' hpromote
      cases hstep
      obtain ⟨-, -, hstored, rfl⟩ := promoteActiveVersion_eq_ok_iff.mp hpromote
      exact .promoted plan.targetVersion hstored
  | wrapKey ctxErr nonce dek =>
    simp only [step] at hstep
    split at hstep
    · cases hstep
      exact .none
    · rename_i envelope hwrap
      cases hstep
      exact .issued envelope dek (wrapKey_eq_ok hwrap)
  | close =>
    cases hstep
    exact .closed

/-- **The step lemma.** -/
theorem Kept.step {call : KekCall} (hkept : s.Kept aes) (hstep : s.step aes call = some s') :
    s'.Kept aes := by
  cases effect_of_step hstep with
  | none => exact hkept
  | added version material hnew =>
    refine ⟨?_, ?_, ?_⟩
    · intro hopen
      exact Finmap.mem_insert.mpr (.inr (hkept.active_mem hopen))
    · intro other hmem
      rcases Finmap.mem_insert.mp hmem with rfl | hold
      · exact mem_cons_self
      · exact mem_cons_of_mem _ (hkept.keys_added other hold)
    · intro hopen envelope dek hissued
      obtain ⟨kek, nonce, hkek, hsealed⟩ := hkept.issued_sealed hopen envelope dek hissued
      refine ⟨kek, nonce, ?_, hsealed⟩
      rw [Finmap.lookup_insert_of_ne _ ?_, hkek]
      rintro rfl
      exact hnew (Finmap.mem_iff.mpr ⟨kek, hkek⟩)
  | promoted version hstored => exact ⟨fun _ => hstored, hkept.keys_added, hkept.issued_sealed⟩
  | issued envelope dek hsealed =>
    refine ⟨hkept.active_mem, hkept.keys_added, ?_⟩
    intro hopen envelope' dek' hissued
    rcases mem_cons.mp hissued with heq | hold
    · cases heq
      exact hsealed
    · exact hkept.issued_sealed hopen envelope' dek' hold
  | closed => exact ⟨nofun, fun version hmem => absurd hmem Finmap.notMem_empty, nofun⟩

theorem kept_start {choose : Chooser Int64 Bytes} {keys : Map Int64 Bytes} {active : Int64}
    {providerName : Str} {m : AesKekManager}
    (hnew : newAesKekManager choose keys active providerName = .ok m) (visits : Order m.keys) :
    (start m visits).Kept aes := by
  unfold newAesKekManager at hnew
  split at hnew
  · cases hnew
  split at hnew
  · cases hnew
  rename_i hactive
  simp only at hnew
  split at hnew
  · cases hnew
  cases hnew
  refine ⟨fun _ => not_not.mp hactive, ?_, fun _ _ _ => nofun⟩
  intro version hmem
  obtain ⟨kek, hkek⟩ := Finmap.mem_iff.mp hmem
  exact mem_map.mpr ⟨(version, kek), (visits.mem_iff version kek).mpr hkek, rfl⟩

/-! ### Unwrapping -/

/-- None of the keys opens the envelope as another data key. -/
def Unmistaken (aes : (key : Bytes) → Aead) (keys : Map Int64 Bytes) (envelope : KeyEnvelope)
    (dek : Bytes) : Prop :=
  ∀ version kek plaintext, keys.lookup version = some kek →
    AesKekManager.tryUnwrap aes kek envelope.ciphertext = some plaintext → plaintext = dek

/-- The data key is found, whatever order the loop visits the versions in. -/
def Unwraps (aes : (key : Bytes) → Aead) (m : AesKekManager) (envelope : KeyEnvelope)
    (dek : Bytes) : Prop :=
  ∀ visits : Order m.keys, m.unwrapKey aes none visits (some envelope) = .ok dek

/-- The loop finds the data key if one of the versions gives it and none gives another. -/
theorem tryVersions_eq_some {m : AesKekManager} {ciphertext : Bytes} {versions : List Int64}
    (hsome : ∃ version ∈ versions, (m.keys.lookup version).bind
      (fun kek => tryUnwrap aes kek ciphertext) = some dek)
    (honly : ∀ version ∈ versions, ∀ plaintext, (m.keys.lookup version).bind
      (fun kek => tryUnwrap aes kek ciphertext) = some plaintext → plaintext = dek) :
    m.tryVersions aes ciphertext versions = some dek := by
  induction versions with
  | nil =>
    obtain ⟨version, hmem, -⟩ := hsome
    cases hmem
  | cons version versions ih =>
    rw [tryVersions]
    split
    · rename_i plaintext hopens
      rw [honly version mem_cons_self plaintext hopens]
    · rename_i hnone
      apply ih
      · obtain ⟨version', hmem, hopens⟩ := hsome
        rcases mem_cons.mp hmem with rfl | hlater
        · rw [hnone] at hopens
          cases hopens
        · exact ⟨version', hlater, hopens⟩
      · exact fun version' hmem => honly version' (mem_cons_of_mem _ hmem)

theorem SealedUnder.unwraps (hlawful : ∀ key, (aes key).Lawful) {m : AesKekManager}
    (hopen : m.closed = false) (hsealed : SealedUnder aes m.keys envelope dek)
    (hversion : 0 < envelope.keyVersion ∨ Unmistaken aes m.keys envelope dek) :
    Unwraps aes m envelope dek := by
  intro visits
  obtain ⟨kek, nonce, hkek, hsize, hciphertext⟩ := hsealed
  have hown : (m.keys.lookup envelope.keyVersion).bind
      (fun kek => tryUnwrap aes kek envelope.ciphertext) = some dek := by
    rw [hkek, Option.bind_some, hciphertext, tryUnwrap, if_pos hsize, take_left' nonce.property,
      drop_left' nonce.property]
    exact (hlawful kek).opened_sealed _ _ _
  have hlength : ¬ envelope.ciphertext.length < nonceSize + tagSize := by
    rw [hciphertext, length_append, nonce.property, (hlawful kek).length_sealed, tagSize]
    omega
  have htry : m.tryVersions aes envelope.ciphertext (candidateVersions
      (visits.entries.map Prod.fst) envelope.keyVersion) = some dek := by
    unfold candidateVersions
    split_ifs with hnot
    · -- the version of the envelope is tried first
      rw [tryVersions, hown]
    · refine tryVersions_eq_some ⟨envelope.keyVersion, ?_, hown⟩ ?_
      · exact mem_map.mpr ⟨(_, kek), (visits.mem_iff _ kek).mpr hkek, rfl⟩
      · intro version _ plaintext hopens
        obtain ⟨kek', hkek', hopened⟩ := Option.bind_eq_some_iff.mp hopens
        exact hversion.resolve_left hnot version kek' plaintext hkek' hopened
  rw [unwrapKey]
  simp only [hopen, Bool.false_eq_true, if_false, if_neg hlength, htry]

/-! ### Rotation -/

section Rotation

variable {choose : Chooser Int64 Bytes} {keys : Map Int64 Bytes} {active : Int64}
  {providerName : Str} {m : AesKekManager}

/-- A plan whose current version is not active, or whose target was not added, is refused. -/
theorem promote_refused (hkept : s.Kept aes)
    (hstale : plan.currentVersion ≠ s.manager.activeVersion ∨ plan.targetVersion ∉ s.added) :
    (∃ err, s.manager.promoteActiveVersion plan = .error err) ∧
      s.step aes (.promoteActiveVersion plan) = some s := by
  cases hpromote : s.manager.promoteActiveVersion plan with
  | ok m' =>
    obtain ⟨-, hcurrent, htarget, -⟩ := promoteActiveVersion_eq_ok_iff.mp hpromote
    rcases hstale with hstale | hmissing
    · exact absurd hcurrent hstale
    · exact absurd (hkept.keys_added _ htarget) hmissing
  | error err =>
    refine ⟨⟨err, rfl⟩, ?_⟩
    rw [KekHistory.step, hpromote]

/-- **Rotation never strands data.**  In every history of a manager that is not closed, the
active version names a stored key and every envelope issued so far unwraps to its data key; and
in every history, a plan that is out of date or whose target was never added is refused and
changes nothing. -/
theorem rotation_never_strands (hlawful : ∀ key, (aes key).Lawful)
    (hnew : newAesKekManager choose keys active providerName = .ok m) (visits : Order m.keys)
    {calls : List KekCall} {s : KekHistory}
    (hrun : Transitions.run (step aes) (start m visits) calls = some s) :
    (s.manager.closed = false →
      s.manager.activeVersion ∈ s.manager.keys ∧
      ∀ envelope dek, (envelope, dek) ∈ s.issued →
        0 < envelope.keyVersion ∨ Unmistaken aes s.manager.keys envelope dek →
          Unwraps aes s.manager envelope dek) ∧
    ∀ plan : RotationPlan,
      plan.currentVersion ≠ s.manager.activeVersion ∨ plan.targetVersion ∉ s.added →
        (∃ err, s.manager.promoteActiveVersion plan = .error err) ∧
          s.step aes (.promoteActiveVersion plan) = some s := by
  have hkept : s.Kept aes := Transitions.run_keeps (step aes) (Kept aes)
    (fun s call s' hs hstep => hs.step hstep) (kept_start hnew visits) hrun
  refine ⟨fun hopen => ⟨hkept.active_mem hopen, ?_⟩,
    fun plan hstale => promote_refused hkept hstale⟩
  intro envelope dek hissued hversion
  exact (hkept.issued_sealed hopen envelope dek hissued).unwraps hlawful hopen hversion

/-- The versions in their natural order. -/
def leastVersion : Chooser Int64 Bytes :=
  leastKey (LinearOrder.lift' Int64.toInt fun _ _ => Int64.toInt_inj.mp)

def sampleManager : AesKekManager where
  providerName := "self_contained".toList
  keys := renameKeys id [(1, List.replicate 32 1)]
  activeVersion := 1
  closed := false

def sampleVisits : Order sampleManager.keys :=
  Order.ofEntries [(1, List.replicate 32 1)] (List.nodup_singleton 1)

/-- A data key is wrapped, and the next version is added and promoted. -/
def sampleCalls : List KekCall :=
  [.wrapKey none (some ⟨List.replicate 12 0, rfl⟩) [7], .addVersion 2 (List.replicate 32 2),
    .promoteActiveVersion ⟨1, 2⟩]

def sampleEnvelope : KeyEnvelope where
  keyId := "self-contained-aes-v1".toList
  keyVersion := 1
  provider := "self_contained".toList
  ciphertext := List.replicate 12 0 ++ 7 :: List.replicate 16 0

theorem sampleCalls_run :
    (Transitions.run (step fun _ => zeroTagAead) (start sampleManager sampleVisits)
      sampleCalls).map (fun s => (s.manager.activeVersion, s.manager.closed, s.issued)) =
        some (2, false, [(sampleEnvelope, [7])]) := by
  decide +kernel

theorem newAesKekManager_sample :
    newAesKekManager leastVersion sampleManager.keys 1 [] = .ok sampleManager := by
  rfl

theorem rotation_never_strands_sample :
    ∃ s, Transitions.run (step fun _ => zeroTagAead) (start sampleManager sampleVisits)
        sampleCalls = some s ∧
      s.manager.activeVersion = 2 ∧ Unwraps (fun _ => zeroTagAead) s.manager sampleEnvelope [7] ∧
      ∃ err, s.manager.promoteActiveVersion ⟨1, 2⟩ = .error err := by
  obtain ⟨s, hrun, hs⟩ := Option.map_eq_some_iff.mp sampleCalls_run
  obtain ⟨hactive, hopen, hissued⟩ : s.manager.activeVersion = 2 ∧ s.manager.closed = false ∧
      s.issued = [(sampleEnvelope, [7])] := by
    simpa only [Prod.mk.injEq] using hs
  have hsafe := rotation_never_strands (fun _ => zeroTagAead_lawful) newAesKekManager_sample
    sampleVisits hrun
  refine ⟨s, hrun, hactive, ?_, ?_⟩
  · exact (hsafe.1 hopen).2 sampleEnvelope [7] (by rw [hissued]; exact mem_cons_self)
      (.inl (by decide))
  · exact (hsafe.2 ⟨1, 2⟩ (.inl (by rw [hactive]; decide))).1

/-! ### Plans -/

theorem bestVersion_mem (current best : Int64) (visits : List Int64) :
    bestVersion current visits best = best ∨
      bestVersion current visits best ∈ visits ∧ bestVersion current visits best ≠ current := by
  induction visits generalizing best with
  | nil => exact .inl rfl
  | cons version visits ih =>
    rw [bestVersion]
    grind

/-- What a plan says about the manager that prepared it. -/
theorem prepareRotation_eq_ok {visits : Order m.keys} {target : Option Int64}
    (hplan : m.prepareRotation visits target = .ok plan) :
    plan.currentVersion = m.activeVersion ∧ plan.targetVersion ≠ m.activeVersion ∧
      plan.targetVersion ∈ m.keys := by
  unfold prepareRotation at hplan
  cases target with
  | some version => grind
  | none =>
    dsimp only at hplan
    split_ifs at hplan with _ hlow
    cases hplan
    rcases bestVersion_mem m.activeVersion (-1) (visits.entries.map Prod.fst) with
      hnone | ⟨hmem, hne⟩
    · rw [hnone] at hlow
      exact absurd (by decide) hlow
    · obtain ⟨⟨_, kek⟩, hentry, heq⟩ := mem_map.mp hmem
      exact ⟨rfl, hne, Finmap.mem_iff.mpr ⟨kek, (visits.mem_iff _ kek).mp (heq ▸ hentry)⟩⟩

/-- A stored version stays until the manager is closed. -/
theorem stored_step {call : KekCall} (hstep : s.step aes call = some s')
    (hstored : s.manager.closed = false → version ∈ s.manager.keys)
    (hopen : s'.manager.closed = false) : version ∈ s'.manager.keys := by
  cases effect_of_step hstep with
  | added other material hnew => exact Finmap.mem_insert.mpr (.inr (hstored hopen))
  | closed => cases hopen
  | _ => exact hstored hopen

/-- The sample with a second version. -/
def twoVersions : AesKekManager :=
  { sampleManager with
    keys := renameKeys id [(1, List.replicate 32 1), (2, List.replicate 32 2)] }

end Rotation

end KekHistory

end S3EncryptionGateway.Crypto
