import S3EncryptionGateway.Mpu.StateMachine

/-!
# Requests on a foreign route

The state of an upload is found by the upload's id alone.  The handlers that write parts and the
one that completes an upload compare the bucket and the key of the request with those in the
state; the one that aborts it does not.  It closes the upload first, then asks the backend, which
does not know the id under that name, and opens the upload again.

`undisturbed_of_noAbort` is about any interleaving of the owner's calls with foreign requests
that do not abort: leaving those requests out gives the same upload and the same answers.
-/

namespace S3EncryptionGateway.Api.ForeignRoute

open S3EncryptionGateway.Mpu Transitions List
open S3EncryptionGateway.Mpu.StateMachine (Operation Place)

/-! ## The handlers -/

def validateMpuRouteIdentity (state : UploadState) (bucket key : String) : Bool :=
  state.bucket = bucket ∧ state.key = key

/-- The handlers of requests that name an upload. -/
inductive Handler where
  | uploadPart
  | uploadPartCopy
  | listParts
  | complete
  | abort

inductive Pc where
  /-- The state is to be looked up. -/
  | reading
  | beginAbort (call : CallPc)
  /-- The backend is to be asked, and then to be opened again what was closed. -/
  | asking (closed : Option ℕ)
  | reopen (revision : ℕ) (call : CallPc)
  /-- The request passes for one of the owner's; the rest of the handler may write anything. -/
  | admitted
  | finished

inductive RequestEvent where
  | store (event : Event)
  /-- The backend does not know the upload. -/
  | rejected
  | write (store : Option UploadHash)

def Handler.start : Handler → Pc
  | .listParts => .asking none
  | _ => .reading

def afterBeginAbort : CallPc → Pc
  | .done state => .asking (some (state.revision + 1))
  | .failed => .finished
  | call => .beginAbort call

def afterReopen (revision : ℕ) : CallPc → Pc
  | .done _ | .failed => .finished
  | call => .reopen revision call

/-- What becomes of a request once the state is known. -/
def Handler.checked (bucket key : String) (state : UploadState) : Handler → Pc
  | .abort => if state.encrypted then .beginAbort .reading else .admitted
  | _ =>
    if state.encrypted ∧ validateMpuRouteIdentity state bucket key = false then .finished
    else .admitted

/-- A step of a request to `bucket` and `key`. -/
def Handler.next (bucket key : String) (handler : Handler) (store : Option UploadHash) :
    Pc → RequestEvent → Option (Pc × Option UploadHash)
  | .reading, .store (.get succeeds) =>
    match readState succeeds store with
    | none => some (.finished, store)
    | some state => some (handler.checked bucket key state, store)
  | .beginAbort call, .store event =>
    (Call.beginAbort.next store call event).map (Prod.map afterBeginAbort id)
  | .asking (some revision), .rejected => some (.reopen revision .reading, store)
  | .asking none, .rejected => some (.finished, store)
  | .reopen revision call, .store event =>
    ((Call.reopen revision).next store call event).map (Prod.map (afterReopen revision) id)
  | .admitted, .write store' => some (.admitted, store')
  | _, _ => none

structure Request where
  bucket : String
  key : String
  handler : Handler
  pc : Pc

/-- The upload with the owner's calls on it, and foreign requests. -/
structure World where
  upload : StateMachine.System
  foreign : List Request

inductive Action where
  | owner (action : StateMachine.Action)
  | arrive (bucket key : String) (handler : Handler)
  | foreign (index : ℕ) (event : RequestEvent)

def World.step (leaseTime : ℕ) (w : World) : Action → Option World
  | .owner action => (w.upload.step leaseTime action).map fun upload => { w with upload := upload }
  | .arrive bucket key handler =>
    some { w with foreign := w.foreign ++ [⟨bucket, key, handler, handler.start⟩] }
  | .foreign index event => do
      let r ← w.foreign[index]?
      let (pc, store) ← r.handler.next r.bucket r.key w.upload.store r.pc event
      return ⟨{ w.upload with store := store }, w.foreign.set index { r with pc := pc }⟩

/-- The requests that arrive are on another route. -/
def Foreign (bucket key : String) : Action → Prop
  | .arrive bucket' key' _ => bucket' ≠ bucket ∨ key' ≠ key
  | _ => True

def Action.aborts : Action → Bool
  | .arrive _ _ .abort => true
  | _ => false

def ownerActions (actions : List Action) : List StateMachine.Action :=
  actions.filterMap fun
    | .owner action => some action
    | _ => none

/-- The upload, and what the owner's calls have been answered, is as if the foreign requests had
not been made.  Every moment of a run is the end of one. -/
def Undisturbed (leaseTime : ℕ) (start : World) (actions : List Action) : Prop :=
  ∀ w, run (World.step leaseTime) start actions = some w →
    run (StateMachine.System.step leaseTime) start.upload (ownerActions actions) = some w.upload

/-! ## What stays -/

section Owned

variable {property : UploadState → Prop} {leaseTime : ℕ} {s s' : StateMachine.System}

/-- The upload exists, and what is stored of it and has been read of it has the property. -/
structure Owned (property : UploadState → Prop) (s : StateMachine.System) : Prop where
  stored : s.store.isSome = true
  seals : Seals property s.store
  read : ∀ c ∈ s.clients, ∀ state, c.place.read = some state → property state

/-- What a script writes is what it read up to the control fields. -/
theorem exists_writesMeta {operation : StateMachine.Operation} {now : ℕ} {state : UploadState}
    {script : UploadHash → StateMachine.Verdict × Option UploadHash}
    (hscript : operation.script leaseTime now state = some script)
    (hfree : ControlFree property) (hstate : property state) :
    ∃ newMeta, property newMeta ∧ WritesMeta newMeta script := by
  cases operation with
  | create _ => cases hscript
  | reservePart part =>
    cases hscript
    exact ⟨_, hfree _ _ _ _ hstate, writesMeta_reservePart _ _ _ _ _⟩
  | renewPart partNumber token =>
    cases hscript
    exact ⟨_, hstate, writesMeta_renewPart _ _ _ _ _ _⟩
  | releasePart partNumber token =>
    cases hscript
    exact ⟨_, hfree _ _ _ _ hstate, writesMeta_releasePart _ _ _ _⟩
  | commitPart part =>
    cases hscript
    exact ⟨_, hfree _ _ _ _ hstate, writesMeta_commitPart _ _ _⟩
  | lifecycle call =>
    obtain ⟨inner, hinner, rfl⟩ := Option.map_eq_some_iff.mp hscript
    exact writesMeta_script hinner hfree hstate

theorem Owned.step (howned : Owned property s) (hfree : ControlFree property)
    {action : StateMachine.Action} (hstep : s.step leaseTime action = some s') :
    Owned property s' := by
  cases action with
  | arrive operation =>
    cases hstep
    refine ⟨howned.stored, howned.seals, ?_⟩
    intro c hc state hread
    rcases mem_append.mp hc with hold | hnew
    · exact howned.read c hold state hread
    · obtain rfl := mem_singleton.mp hnew
      rw [Operation.read_start] at hread
      cases hread
  | client index event =>
    obtain ⟨c, place, hc, hnext, hclients⟩ := StateMachine.System.step_client hstep
    have hmem := mem_of_getElem? hc
    have hstore : s'.store.isSome = true ∧ Seals property s'.store := by
      rcases Operation.next_cases hnext with ⟨hsame, -⟩ | ⟨_, _, _, hsame, -⟩ |
        ⟨state, _, _, -, -, hcreate, -⟩ |
        ⟨attempt, state, now, _, script, -, hplace, hscript, hexec, -⟩
      · exact hsame ▸ ⟨howned.stored, howned.seals⟩
      · exact hsame ▸ ⟨howned.stored, howned.seals⟩
      · rcases StateMachine.create_cases state s.store with hsame | ⟨hnone, -⟩
        · exact (hcreate.trans hsame) ▸ ⟨howned.stored, howned.seals⟩
        · exact absurd (hnone ▸ howned.stored) nofun
      · obtain ⟨newMeta, hnew, hwrites⟩ := exists_writesMeta hscript hfree
          (howned.read c hmem state (by rw [hplace]; rfl))
        rw [hexec]
        refine ⟨?_, howned.seals.exec hwrites hnew⟩
        rw [exec_snd, Option.isSome_or, howned.stored, Bool.or_true]
    refine ⟨hstore.1, hstore.2, ?_⟩
    intro c' hc' state hread
    rw [hclients] at hc'
    rcases mem_or_eq_of_mem_set hc' with hold | rfl
    · exact howned.read c' hold state hread
    · rcases Operation.read_next hnext hread with hbefore | ⟨succeeds, hfound⟩
      · exact howned.read c hmem state hbefore
      · exact howned.seals.of_readState hfound

end Owned

/-- An encrypted upload of a bucket and a key. -/
def IsOf (bucket key : String) (state : UploadState) : Prop :=
  state.encrypted = true ∧ validateMpuRouteIdentity state bucket key = true

section Quiet

variable {leaseTime : ℕ} {bucket key : String} {w w' : World}

/-- The places of a request that does not abort. -/
def Pc.Harmless : Pc → Prop
  | .reading | .asking none | .finished => True
  | _ => False

structure Quiet (bucket key : String) (w : World) : Prop where
  owned : Owned (IsOf bucket key) w.upload
  foreign : ∀ r ∈ w.foreign,
    (r.bucket ≠ bucket ∨ r.key ≠ key) ∧ r.handler ≠ .abort ∧ r.pc.Harmless

/-- A request that does not abort is turned away before it writes. -/
theorem next_harmless {bucket' key' : String} {handler : Handler}
    {store store' : Option UploadHash} {pc pc' : Pc} {event : RequestEvent}
    (hseals : Seals (IsOf bucket key) store) (hroute : bucket' ≠ bucket ∨ key' ≠ key)
    (hhandler : handler ≠ .abort) (hpc : pc.Harmless)
    (hnext : handler.next bucket' key' store pc event = some (pc', store')) :
    store' = store ∧ pc'.Harmless := by
  unfold Handler.next at hnext
  split at hnext
  · split at hnext
    · cases hnext
      exact ⟨rfl, trivial⟩
    · rename_i state hread
      cases hnext
      have hstate := hseals.of_readState hread
      refine ⟨rfl, ?_⟩
      suffices hfinished : handler.checked bucket' key' state = .finished by rw [hfinished]; trivial
      cases handler with
      | abort => exact absurd rfl hhandler
      | uploadPart | uploadPartCopy | listParts | complete =>
        refine if_pos ⟨hstate.1, decide_eq_false ?_⟩
        obtain ⟨hbucket, hkey⟩ := of_decide_eq_true hstate.2
        rintro ⟨rfl, rfl⟩
        exact hroute.elim (fun hne => hne hbucket) fun hne => hne hkey
  · exact hpc.elim
  · exact hpc.elim
  · cases hnext
    exact ⟨rfl, trivial⟩
  · exact hpc.elim
  · exact hpc.elim
  · cases hnext

/-- A step is one of the owner's, or leaves the upload alone. -/
theorem Quiet.step (hquiet : Quiet bucket key w) {action : Action}
    (hstep : w.step leaseTime action = some w') (hforeign : Foreign bucket key action)
    (haborts : action.aborts = false) :
    Quiet bucket key w' ∧
      run (StateMachine.System.step leaseTime) w.upload (ownerActions [action]) =
        some w'.upload := by
  cases action with
  | owner action =>
    obtain ⟨upload, hupload, rfl⟩ := Option.map_eq_some_iff.mp hstep
    refine ⟨⟨hquiet.owned.step (fun _ _ _ _ hstate => hstate) hupload, hquiet.foreign⟩, ?_⟩
    exact (run_cons_eq_some_iff _).mpr ⟨upload, hupload, rfl⟩
  | arrive bucket' key' handler =>
    cases hstep
    refine ⟨⟨hquiet.owned, ?_⟩, rfl⟩
    intro r hr
    rcases mem_append.mp hr with hold | hnew
    · exact hquiet.foreign r hold
    obtain rfl := mem_singleton.mp hnew
    refine ⟨hforeign, ?_⟩
    cases handler with
    | abort => cases haborts
    | uploadPart | uploadPartCopy | listParts | complete => exact ⟨nofun, trivial⟩
  | foreign index event =>
    simp only [World.step, Option.bind_eq_bind, Option.bind_eq_some_iff, Option.pure_def,
      Option.some.injEq, Prod.exists] at hstep
    obtain ⟨r, hr, pc, store, hnext, rfl⟩ := hstep
    obtain ⟨hroute, hhandler, hplace⟩ := hquiet.foreign r (mem_of_getElem? hr)
    obtain ⟨rfl, hpc⟩ := next_harmless hquiet.owned.seals hroute hhandler hplace hnext
    refine ⟨⟨hquiet.owned, ?_⟩, rfl⟩
    intro r' hmem
    rcases mem_or_eq_of_mem_set hmem with hold | rfl
    · exact hquiet.foreign r' hold
    · exact ⟨hroute, hhandler, hpc⟩

/-- **Foreign requests.**  Those that do not abort an upload leave it, and the owner's calls, alone
at every moment. -/
theorem undisturbed_of_noAbort {start : World} {actions : List Action}
    (howned : Owned (IsOf bucket key) start.upload) (hstart : start.foreign = [])
    (hforeign : ∀ action ∈ actions, Foreign bucket key action)
    (hnoAbort : ∀ action ∈ actions, action.aborts = false) :
    Undisturbed leaseTime start actions := by
  have hquiet : Quiet bucket key start := ⟨howned, by rw [hstart]; exact nofun⟩
  clear howned hstart
  intro w hrun
  induction actions generalizing start with
  | nil => exact congrArg (Option.map World.upload) hrun
  | cons action actions ih =>
    obtain ⟨next, hnext, hrest⟩ := (run_cons_eq_some_iff _).mp hrun
    obtain ⟨hroute, hroutes⟩ := forall_mem_cons.mp hforeign
    obtain ⟨haborts, hothers⟩ := forall_mem_cons.mp hnoAbort
    obtain ⟨hquiet', hone⟩ := hquiet.step hnext hroute haborts
    have hlater := ih hroutes hothers hquiet' hrest
    cases action with
    | owner owner =>
      obtain ⟨upload, hupload, hsame⟩ := (run_cons_eq_some_iff _).mp hone
      cases hsame
      exact (run_cons_eq_some_iff _).mpr ⟨_, hupload, hlater⟩
    | arrive _ _ _ | foreign _ _ =>
      rw [← Option.some.inj hone] at hlater
      exact hlater

end Quiet

/-! ## An abort -/

def freshUpload : World := ⟨⟨some (StateMachine.createdHash sampleState), []⟩, []⟩

theorem owned_freshUpload : Owned (IsOf "bucket" "key") freshUpload.upload := by
  refine ⟨rfl, ?_, nofun⟩
  rintro hash state hhash hstate
  cases hhash
  cases hstate
  exact ⟨rfl, by decide⟩

/-- The owner reserves a part while a foreign request is under way. -/
def reservedMeanwhile (handler : Handler) (before : List RequestEvent) : List Action :=
  .arrive "other" "key" handler :: before.map (.foreign 0) ++
    .owner (.arrive (.reservePart StateMachine.samplePart)) ::
    (StateMachine.calls 0 0).map .owner

theorem undisturbed_complete :
    Undisturbed 1000 freshUpload (reservedMeanwhile .complete [.store (.get true)]) := by
  apply undisturbed_of_noAbort owned_freshUpload rfl
  · simp [reservedMeanwhile, StateMachine.calls, Foreign]
  · simp [reservedMeanwhile, StateMachine.calls, Action.aborts]

/-- While a foreign request to abort is under way, the owner cannot reserve a part. -/
theorem abort_disturbs : ¬Undisturbed 1000 freshUpload (reservedMeanwhile .abort
    [.store (.get true), .store (.get true), .store (.script 0 .delivered)]) := by
  intro hundisturbed
  have hboth : (run (World.step 1000) freshUpload (reservedMeanwhile .abort
      [.store (.get true), .store (.get true), .store (.script 0 .delivered)])).map
        (fun w => w.upload.clients.map fun c => c.place) = some [.finished false] ∧
      (run (StateMachine.System.step 1000) freshUpload.upload
        (ownerActions (reservedMeanwhile .abort
          [.store (.get true), .store (.get true), .store (.script 0 .delivered)]))).map
        (fun s => s.clients.map fun c => c.place) = some [.finished true] := by decide
  obtain ⟨w, hrun, hplaces⟩ := Option.map_eq_some_iff.mp hboth.1
  have halone := hboth.2
  rw [hundisturbed w hrun, Option.map_some, hplaces] at halone
  exact absurd halone (by decide)

end S3EncryptionGateway.Api.ForeignRoute
