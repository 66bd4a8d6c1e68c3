import S3EncryptionGateway.Crypto.Kdf
import S3EncryptionGateway.Library.Text
import S3EncryptionGateway.Library.TransitionSystem

/-!
# The cache of policy engines

A bucket with a policy of its own is served by an engine built for that policy.  The
engines are cached by the name of the policy and live for a fixed time.  An engine that
leaves the cache is closed, which overwrites its password with zeros.

This file models the cache, the requests that fetch an engine from it and derive keys
through it, the sweeper and `Stop`, on a heap of engines.  A step is one critical section
of the cache's lock or one local step of a request:

* `Get` is a read under the read lock and, if the entry was expired, a second section
  under the write lock, which looks the entry up again;
* `GetOrStore` and a sweep are one section each;
* `Stop` closes the stop channel in a first section, waits for the sweeper to return, and
  closes the remaining engines in a second one.

The clock advances by any amount between two steps.
-/

namespace S3EncryptionGateway.Api

open Encoding Text Crypto

/-! ## Engines -/

/-- An engine of the heap.  `closes` and `stored` record what has happened to it: how often
it was closed, and whether it was passed to `GetOrStore`. -/
structure Engine where
  policy : Str
  password : Bytes
  closes : ℕ
  stored : Bool

/-- `Close` overwrites the password in place. -/
def Engine.close (engine : Engine) : Engine :=
  { engine with
    password := List.replicate engine.password.length 0
    closes := engine.closes + 1 }

/-- The engines closed one after the other. -/
def closeAll (ids : List ℕ) (engines : List Engine) : List Engine :=
  ids.foldl (fun engines id => engines.modify id Engine.close) engines

theorem getElem?_closeAll {ids : List ℕ} (hnodup : ids.Nodup) (engines : List Engine) (id : ℕ) :
    (closeAll ids engines)[id]? =
      if id ∈ ids then engines[id]?.map Engine.close else engines[id]? := by
  induction ids generalizing engines with
  | nil => simp [closeAll]
  | cons first ids ih =>
    obtain ⟨hfirst, hrest⟩ := List.nodup_cons.mp hnodup
    change (closeAll ids (engines.modify first Engine.close))[id]? = _
    rw [ih hrest, List.getElem?_modify]
    by_cases heq : first = id
    · subst heq
      simp [hfirst]
    · simp [heq, Ne.symm heq]

/-! ## The cache -/

structure CacheEntry where
  engine : ℕ
  expiresAt : ℕ

/-- The entries; a map that was not made yet is empty. -/
abbrev CacheEntries := AList fun _ : Str => CacheEntry

/-- The entries a sweep leaves. -/
def CacheEntries.unexpired (now : ℕ) (entries : CacheEntries) : CacheEntries where
  entries := entries.entries.filter fun entry => ¬entry.2.expiresAt < now
  nodupKeys := entries.nodupKeys.sublist List.filter_sublist

def CacheEntries.expired (now : ℕ) (entries : CacheEntries) : List (Σ _ : Str, CacheEntry) :=
  entries.entries.filter fun entry => entry.2.expiresAt < now

inductive EngineUse where
  /-- About to look the engine up. -/
  | fetching
  /-- Found an expired entry and will look again under the write lock. -/
  | expired
  /-- Found nothing and builds an engine. -/
  | building
  /-- Built an engine and will pass it to `GetOrStore`. -/
  | storing (engine : ℕ)
  /-- Has the engine and may derive keys through it. -/
  | holding (engine : ℕ)
  | finished
  deriving DecidableEq

structure EngineRequest where
  policy : Str
  use : EngineUse

/-- A key derivation that took place. -/
structure Derivation where
  policy : Str
  password : Bytes
  deriving DecidableEq

/-- An object as encrypted, with the policy of its bucket and the plaintext it came from. -/
structure EncryptedObject where
  policy : Str
  salt : Bytes
  params : KdfParams
  ciphertext : Bytes
  plaintext : Bytes

/-- What an engine does with the key it derived. -/
structure Cipher where
  encrypt : Bytes → Bytes → Bytes
  decrypt : Bytes → Bytes → Option Bytes
  decrypt_encrypt : ∀ key plaintext, decrypt key (encrypt key plaintext) = some plaintext

structure EngineConfig where
  ttl : ℕ
  /-- The password of each policy's effective configuration. -/
  passwordOf : Str → Bytes
  limits : KdfLimits
  kdf : KdfFunctions
  cipher : Cipher

/-- How far the call of `Stop` that closes the stop channel has come. -/
inductive StopPhase where
  | notCalled
  /-- The channel is closed and the sweeper is waited for. -/
  | waiting
  | returned
  deriving DecidableEq

structure EngineSystem where
  now : ℕ
  entries : CacheEntries
  started : Bool
  stop : StopPhase
  /-- The sweeper has returned. -/
  done : Bool
  /-- Some call of `Stop` has returned. -/
  stopped : Bool
  engines : List Engine
  requests : List EngineRequest
  derivations : List Derivation
  objects : List EncryptedObject

variable (config : EngineConfig) (s : EngineSystem)

namespace EngineSystem

/-- A new cache: no sweeper runs and no engine exists. -/
def initial : EngineSystem where
  now := 0
  entries := ∅
  started := false
  stop := .notCalled
  done := false
  stopped := false
  engines := []
  requests := []
  derivations := []
  objects := []

def setUse (index : ℕ) (use : EngineUse) : EngineSystem :=
  { s with requests := s.requests.modify index fun r => { r with use := use } }

variable (policy : Str)

/-- The first section of `Get`. -/
def get : EngineUse :=
  match s.entries.lookup policy with
  | none => .building
  | some entry => if s.now < entry.expiresAt then .holding entry.engine else .expired

/-- The second section of `Get`, after an expired entry was seen. -/
def getExpired : EngineSystem :=
  match s.entries.lookup policy with
  | none => s
  | some entry =>
    if entry.expiresAt < s.now then
      { s with
        entries := s.entries.erase policy
        engines := closeAll [entry.engine] s.engines }
    else s

/-- The engine a request has just built, with the password of its policy. -/
def build : EngineSystem :=
  { s with engines := s.engines ++ [⟨policy, config.passwordOf policy, 0, false⟩] }

def markStored (engine : ℕ) : EngineSystem :=
  { s with engines := s.engines.modify engine fun e => { e with stored := true } }

/-- `GetOrStore` when the cache has no unexpired entry.  An expired one is overwritten. -/
def storeNew (engine : ℕ) : EngineSystem :=
  { s with
    started := true
    entries := s.entries.insert policy ⟨engine, s.now + config.ttl⟩ }

/-- `GetOrStore`: the cache afterwards and the engine returned. -/
def getOrStore (engine : ℕ) : EngineSystem × ℕ :=
  match s.entries.lookup policy with
  | none => (storeNew config s policy engine, engine)
  | some old =>
    if s.now < old.expiresAt then
      ({ s with started := true, engines := closeAll [engine] s.engines }, old.engine)
    else (storeNew config s policy engine, engine)

def sweep : EngineSystem :=
  { s with
    entries := s.entries.unexpired s.now
    engines := closeAll ((s.entries.expired s.now).map (·.2.engine)) s.engines }

/-- The second section of `Stop`. -/
def closeRemaining : EngineSystem :=
  { s with
    entries := ∅
    engines := closeAll (s.entries.entries.map (·.2.engine)) s.engines
    stop := .returned
    stopped := true }

/-- A key derived through an engine: the engine's password as it is now is used. -/
def derive (engine : Engine) : EngineSystem :=
  { s with derivations := ⟨engine.policy, engine.password⟩ :: s.derivations }

/-- `Encrypt`: derives a key and, if that succeeds, makes an object of the request's policy. -/
def encrypt (engine : Engine) (salt : Bytes) (params : KdfParams) (plaintext : Bytes) :
    EngineSystem :=
  match deriveKeyWithParams config.kdf config.limits engine.password salt params with
  | .error _ => s.derive engine
  | .ok key =>
    { s.derive engine with
      objects := ⟨policy, salt, params, config.cipher.encrypt key plaintext, plaintext⟩ ::
        s.objects }

end EngineSystem

/-- `Decrypt` by an engine built anew for the object's policy. -/
def decryptFresh (object : EncryptedObject) : Option Bytes :=
  match deriveKeyWithParams config.kdf config.limits (config.passwordOf object.policy)
      object.salt object.params with
  | .error _ => none
  | .ok key => config.cipher.decrypt key object.ciphertext

/-! ## Steps -/

inductive EngineAction where
  | advance (time : ℕ)
  | arrive (policy : Str)
  /-- The next step of a request that fetches its engine. -/
  | fetch (request : ℕ)
  /-- Building an engine, or its key manager, can fail. -/
  | buildFails (request : ℕ)
  | encrypt (request : ℕ) (salt : Bytes) (params : KdfParams) (plaintext : Bytes)
  /-- `Decrypt` of some object, as far as its key derivation goes. -/
  | decrypt (request : ℕ)
  | finish (request : ℕ)
  | sweep
  | sweeperReturns
  /-- The first section of `Stop`. -/
  | stop
  /-- The second section of `Stop`. -/
  | stopReturns

namespace EngineSystem

/-- The next step of a request that fetches its engine. -/
def fetch (index : ℕ) (r : EngineRequest) : Option EngineSystem :=
  match r.use with
  | .fetching => some (s.setUse index (s.get r.policy))
  | .expired => some ((s.getExpired r.policy).setUse index .building)
  | .building => some ((s.build config r.policy).setUse index (.storing s.engines.length))
  | .storing engine =>
    let stored := (s.markStored engine).getOrStore config r.policy engine
    some (stored.1.setUse index (.holding stored.2))
  | .holding _ => none
  | .finished => none

/-- The engine a request may derive keys through. -/
def heldBy (r : EngineRequest) : Option Engine :=
  match r.use with
  | .holding engine => s.engines[engine]?
  | _ => none

def step : EngineAction → Option EngineSystem
  | .advance time => some { s with now := s.now + time }
  | .arrive policy => some { s with requests := s.requests ++ [⟨policy, .fetching⟩] }
  | .fetch index => do
      let r ← s.requests[index]?
      s.fetch config index r
  | .buildFails index => do
      let r ← s.requests[index]?
      if r.use = .building then some (s.setUse index .finished) else none
  | .encrypt index salt params plaintext => do
      let r ← s.requests[index]?
      let engine ← s.heldBy r
      some (s.encrypt config r.policy engine salt params plaintext)
  | .decrypt index => do
      let r ← s.requests[index]?
      let engine ← s.heldBy r
      some (s.derive engine)
  | .finish index => do
      let r ← s.requests[index]?
      let _ ← s.heldBy r
      some (s.setUse index .finished)
  | .sweep => if s.started && !s.done then some s.sweep else none
  | .sweeperReturns =>
    if s.stop = .waiting && !s.done then some { s with done := true } else none
  -- a cache that was not started has nothing to stop; closing the channel twice panics
  | .stop =>
    if !s.started then some { s with stopped := true }
    else if s.stop = .notCalled then some { s with stop := .waiting }
    else none
  | .stopReturns => if s.stop = .waiting && s.done then some s.closeRemaining else none

end EngineSystem

end S3EncryptionGateway.Api
