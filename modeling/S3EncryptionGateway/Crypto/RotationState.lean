import S3EncryptionGateway.Crypto.KeyManager

/-!
# Draining and cutting over

A rotation first drains: a background poller waits until no data key is being wrapped, or until
the grace deadline, and declares the rotation ready.  Then it is committed, which promotes the
new version.  The counter of wraps in flight is not under the lock of the state, and a poller
acts on a count that it has loaded before.

## Strategy

A `RotationWorld` is the state with what runs beside it: the clock, the wraps that are in flight,
and the pollers, each with the place it has come to.  Every action is one atomic step.

* `movesOn_of_step`: what a step does to the phase and the counter.
* `Counts.step`: the counter is the number of wraps in flight, in every interleaving.
* `sound_iff_allowed`: a step follows the phases, and cuts over only after the drain, exactly if
  it is `Allowed`.  The state takes a mark or a reset in any phase, and in the phase that says
  ready it does not look at the counter again.
-/

namespace S3EncryptionGateway.Crypto

open Text

/-! ## The state -/

inductive RotationPhase where
  | idle
  | draining
  | readyToCutover
  | committing
  | committed
  | aborted
  deriving DecidableEq

structure Rotation where
  rotationId : Str
  currentVersion : Int64
  targetVersion : Int64
  provider : Str
  plan : Option RotationPlan
  deriving DecidableEq

/-- What the state holds when there is no rotation. -/
def Rotation.empty : Rotation := ⟨[], 0, 0, [], none⟩

/-- A channel, by the number of channels made before it. -/
abbrev Channel := ℕ

/-- The state of the rotation.  Times are counted in nanoseconds, and the zero time is `none`.
Each wrap in flight is a running call, so that their counter does not overflow. -/
structure RotationState where
  phase : RotationPhase
  rotation : Rotation
  startedAt : Option ℤ
  completedAt : Option ℤ
  graceDeadline : Option ℤ
  lastError : Str
  inFlightWraps : ℤ
  drainDone : Option Channel
  stopDrain : Option Channel
  /-- The number of channels made, and those that are closed. -/
  channels : ℕ
  closed : Finset Channel
  deriving DecidableEq

inductive RotationError where
  /-- "cannot start drain from phase %s" -/
  | startFrom (phase : RotationPhase)
  /-- "cannot commit while in_flight_wraps > 0 (use force=true to override)" -/
  | commitInFlight
  /-- "cannot commit from phase %s" -/
  | commitFrom (phase : RotationPhase)
  /-- "cannot abort from phase %s" -/
  | abortFrom (phase : RotationPhase)

namespace RotationState

def new : RotationState where
  phase := .idle
  rotation := .empty
  startedAt := none
  completedAt := none
  graceDeadline := none
  lastError := []
  inFlightWraps := 0
  drainDone := none
  stopDrain := none
  channels := 0
  closed := ∅

variable (s : RotationState)

def beginWrap : RotationState :=
  { s with inFlightWraps := s.inFlightWraps + 1 }

def endWrap : RotationState :=
  { s with inFlightWraps := s.inFlightWraps - 1 }

/-- The drain starts at `now`.  Without a grace period the deadline stays as it is. -/
def startDrain (now : ℤ) (rotation : Rotation) (gracePeriod : ℤ) :
    Except RotationError RotationState :=
  if s.phase ≠ .idle then .error (.startFrom s.phase)
  else
    .ok { s with
      phase := .draining
      rotation := rotation
      startedAt := some now
      completedAt := none
      lastError := []
      graceDeadline := if 0 < gracePeriod then some (now + gracePeriod) else s.graceDeadline
      drainDone := some s.channels
      stopDrain := some (s.channels + 1)
      channels := s.channels + 2 }

/-- Tells the poller to stop.  A drain that has started has a channel for it. -/
def closeStopDrain : RotationState :=
  match s.stopDrain with
  | some stop => { s with closed := insert stop s.closed }
  | none => s

def commit (force : Bool) : Except RotationError RotationState :=
  match s.phase with
  | .readyToCutover => .ok { s with phase := .committing }
  | .draining =>
    if force ∨ s.inFlightWraps ≤ 0 then .ok { s.closeStopDrain with phase := .committing }
    else .error .commitInFlight
  | phase => .error (.commitFrom phase)

def markCommitted (now : ℤ) : RotationState :=
  { s with
    phase := .committed
    completedAt := some now }

def markFailed (now : ℤ) (err : Option Str) : RotationState :=
  { s with
    phase := .aborted
    completedAt := some now
    lastError := err.getD s.lastError }

def abort (now : ℤ) : Except RotationError RotationState :=
  if s.phase = .draining ∨ s.phase = .readyToCutover then
    .ok { s.closeStopDrain with
      phase := .aborted
      completedAt := some now }
  else .error (.abortFrom s.phase)

def reset : RotationState :=
  { s with
    phase := .idle
    rotation := .empty
    startedAt := none
    completedAt := none
    graceDeadline := none
    lastError := [] }

/-- There is a grace deadline and it lies in the past. -/
def deadlinePassed (now : ℤ) : Bool :=
  match s.graceDeadline with
  | some deadline => decide (deadline < now)
  | none => false

/-- A poller found the drain complete. -/
def declareReady : RotationState :=
  if s.phase = .draining then { s with phase := .readyToCutover } else s

end RotationState

/-! ## The pollers -/

/-- Where a poller is in its loop.  It keeps the channel that it closes at the end. -/
inductive DrainPoller where
  /-- launched, and not yet running -/
  | launched
  /-- at the head of the loop -/
  | looping (done : Option Channel)
  /-- waiting for the ticker or for the channel that the state had at the head of the loop -/
  | waiting (done stop : Option Channel)
  /-- the counter is loaded, and the lock not yet taken -/
  | loaded (done : Option Channel) (count : ℤ)
  | finished
  deriving DecidableEq

/-- The state, the clock, the number of wraps in flight and the pollers. -/
structure RotationWorld where
  state : RotationState
  now : ℤ
  wraps : ℕ
  pollers : List DrainPoller
  deriving DecidableEq

inductive RotationAction where
  | beginWrap
  | endWrap
  | startDrain (rotation : Rotation) (gracePeriod : ℤ)
  | commit (force : Bool)
  | markCommitted
  | markFailed (err : Option Str)
  | abort
  | reset
  /-- time passes -/
  | advance (duration : ℕ)
  /-- the poller of this number moves; `ticked` says what ended its wait -/
  | poll (poller : ℕ) (ticked : Bool)

open RotationWorld

namespace RotationWorld

def init (now : ℤ) : RotationWorld := ⟨.new, now, 0, []⟩

/-- The state after a call that may fail. -/
def attempt (w : RotationWorld) (result : Except RotationError RotationState) : RotationWorld :=
  match result with
  | .ok state => { w with state := state }
  | .error _ => w

/-- A poller returns and closes its channel; closing a channel twice ends the process. -/
def finish (state : RotationState) (done : Option Channel) :
    Option (RotationState × DrainPoller) :=
  match done with
  | some done =>
    if done ∈ state.closed then none
    else some ({ state with closed := insert done state.closed }, .finished)
  | none => none

def drainPoller (state : RotationState) (now : ℤ) (ticked : Bool) :
    DrainPoller → Option (RotationState × DrainPoller)
  | .launched => some (state, .looping state.drainDone)
  | .looping done => some (state, .waiting done state.stopDrain)
  | .waiting done stop =>
    if ticked then some (state, .loaded done state.inFlightWraps)
    else if ∃ channel ∈ state.closed, stop = some channel then finish state done
    else none
  | .loaded done count =>
    if count ≤ 0 then finish state.declareReady done
    else if state.deadlinePassed now then finish state.declareReady done
    else some (state, .looping done)
  | .finished => none

/-- An action that is not possible is `none`: a wrap ends where it has begun, and a poller moves
only if there is something for it to do. -/
def step (w : RotationWorld) : RotationAction → Option RotationWorld
  | .beginWrap =>
    some { w with
      state := w.state.beginWrap
      wraps := w.wraps + 1 }
  | .endWrap =>
    if w.wraps = 0 then none
    else
      some { w with
        state := w.state.endWrap
        wraps := w.wraps - 1 }
  | .startDrain rotation gracePeriod =>
    match w.state.startDrain w.now rotation gracePeriod with
    | .ok state =>
      some { w with
        state := state
        pollers := w.pollers ++ [.launched] }
    | .error _ => some w
  | .commit force => some (w.attempt (w.state.commit force))
  | .markCommitted => some { w with state := w.state.markCommitted w.now }
  | .markFailed err => some { w with state := w.state.markFailed w.now err }
  | .abort => some (w.attempt (w.state.abort w.now))
  | .reset => some { w with state := w.state.reset }
  | .advance duration => some { w with now := w.now + duration }
  | .poll i ticked => do
      let poller ← w.pollers[i]?
      let (state, poller) ← drainPoller w.state w.now ticked poller
      some { w with
        state := state
        pollers := w.pollers.set i poller }

/-! ## What a step does -/

/-- The phases that may follow each other. -/
def Follows : RotationPhase → RotationPhase → Prop
  | .idle, next => next = .draining
  | .draining, next => next = .readyToCutover ∨ next = .committing ∨ next = .aborted
  | .readyToCutover, next => next = .committing ∨ next = .aborted
  | .committing, next => next = .committed ∨ next = .aborted
  | .committed, next => next = .idle
  | .aborted, next => next = .idle

/-- The phase stays or moves on, and the counter stays. -/
structure MovesOn (state state' : RotationState) : Prop where
  phase : state'.phase = state.phase ∨ Follows state.phase state'.phase
  wraps : state'.inFlightWraps = state.inFlightWraps

variable {w w' : RotationWorld}

section Moves

variable {state state' : RotationState}

theorem MovesOn.refl (state : RotationState) : MovesOn state state := ⟨.inl rfl, rfl⟩

@[simp] theorem closeStopDrain_inFlightWraps :
    state.closeStopDrain.inFlightWraps = state.inFlightWraps := by
  unfold RotationState.closeStopDrain
  split <;> rfl

theorem movesOn_declareReady (state : RotationState) : MovesOn state state.declareReady := by
  unfold RotationState.declareReady
  split_ifs with hdraining
  · exact ⟨.inr (by rw [hdraining]; exact .inl rfl), rfl⟩
  · exact .refl state

/-- A commit takes a rotation that is ready, or that is draining with the counter at zero or by
force. -/
theorem commit_eq_ok_iff {force : Bool} :
    state.commit force = .ok state' ↔
      (state.phase = .readyToCutover ∧ state' = { state with phase := .committing }) ∨
      (state.phase = .draining ∧ (force = true ∨ state.inFlightWraps ≤ 0) ∧
        state' = { state.closeStopDrain with phase := .committing }) := by
  unfold RotationState.commit
  cases hphase : state.phase with
  | readyToCutover => simp [eq_comm]
  | draining =>
    by_cases htaken : force = true ∨ state.inFlightWraps ≤ 0
    · rw [if_pos htaken]
      simp [htaken, eq_comm]
    · rw [if_neg htaken]
      simp [htaken]
  | idle => simp
  | committing => simp
  | committed => simp
  | aborted => simp

theorem movesOn_commit {force : Bool} (hcommit : state.commit force = .ok state') :
    MovesOn state state' := by
  rcases commit_eq_ok_iff.mp hcommit with ⟨hready, rfl⟩ | ⟨hdraining, -, rfl⟩
  · exact ⟨.inr (by rw [hready]; exact .inl rfl), rfl⟩
  · exact ⟨.inr (by rw [hdraining]; exact .inr (.inl rfl)), closeStopDrain_inFlightWraps⟩

theorem movesOn_abort {now : ℤ} (habort : state.abort now = .ok state') : MovesOn state state' := by
  unfold RotationState.abort at habort
  split_ifs at habort with hphase
  cases habort
  refine ⟨.inr ?_, closeStopDrain_inFlightWraps⟩
  rcases hphase with hdraining | hready
  · rw [hdraining]
    exact .inr (.inr rfl)
  · rw [hready]
    exact .inr rfl

theorem finish_eq_some {done : Option Channel} {poller : DrainPoller}
    (hfinish : finish state done = some (state', poller)) :
    ∃ closed, state' = { state with closed := closed } := by
  unfold finish at hfinish
  split at hfinish
  · split at hfinish <;> cases hfinish
    exact ⟨_, rfl⟩
  · cases hfinish

/-- A poller leaves the state as it is for the others, or declares it ready. -/
theorem movesOn_drainPoller {now : ℤ} {ticked : Bool} {poller poller' : DrainPoller}
    (hpoll : drainPoller state now ticked poller = some (state', poller')) :
    MovesOn state state' := by
  have hready : ∀ done, finish state.declareReady done = some (state', poller') →
      MovesOn state state' := by
    intro done hfinish
    obtain ⟨closed, rfl⟩ := finish_eq_some hfinish
    exact ⟨(movesOn_declareReady state).phase, (movesOn_declareReady state).wraps⟩
  cases poller with
  | launched =>
    cases hpoll
    exact .refl state
  | looping done =>
    cases hpoll
    exact .refl state
  | waiting done stop =>
    rw [drainPoller] at hpoll
    split_ifs at hpoll
    · cases hpoll
      exact .refl state
    · obtain ⟨closed, rfl⟩ := finish_eq_some hpoll
      exact ⟨.inl rfl, rfl⟩
  | loaded done count =>
    rw [drainPoller] at hpoll
    split_ifs at hpoll
    · exact hready done hpoll
    · exact hready done hpoll
    · cases hpoll
      exact .refl state
  | finished => cases hpoll

theorem movesOn_attempt {result : Except RotationError RotationState}
    (hresult : ∀ state, result = .ok state → MovesOn w.state state) :
    MovesOn w.state (w.attempt result).state ∧ (w.attempt result).wraps = w.wraps := by
  cases result with
  | error err => exact ⟨.refl _, rfl⟩
  | ok state => exact ⟨hresult state rfl, rfl⟩

end Moves

variable {action : RotationAction}

/-- What a step does that is not a wrap, a mark or a reset. -/
theorem movesOn_of_step (hstep : w.step action = some w') :
    match action with
    | .beginWrap | .endWrap | .markCommitted | .markFailed _ | .reset => True
    | _ => MovesOn w.state w'.state ∧ w'.wraps = w.wraps := by
  cases action with
  | startDrain rotation gracePeriod =>
    simp only [step, RotationState.startDrain] at hstep
    split at hstep
    · rename_i state hstart
      split at hstart <;> cases hstart
      rename_i hidle
      cases hstep
      exact ⟨⟨.inr (by rw [not_not.mp hidle]; rfl), rfl⟩, rfl⟩
    · cases hstep
      exact ⟨.refl _, rfl⟩
  | commit force =>
    cases hstep
    exact movesOn_attempt fun _ => movesOn_commit
  | abort =>
    cases hstep
    exact movesOn_attempt fun _ => movesOn_abort
  | advance duration =>
    cases hstep
    exact ⟨.refl _, rfl⟩
  | poll i ticked =>
    obtain ⟨poller, -, hrest⟩ := Option.bind_eq_some_iff.mp hstep
    obtain ⟨⟨state, poller'⟩, hpoll, hw'⟩ := Option.bind_eq_some_iff.mp hrest
    cases hw'
    exact ⟨movesOn_drainPoller hpoll, rfl⟩
  | _ => trivial

/-- The counter says how many wraps are in flight. -/
def Counts (w : RotationWorld) : Prop := w.state.inFlightWraps = w.wraps

theorem Counts.step (hcounts : w.Counts) (hstep : w.step action = some w') : w'.Counts := by
  have hmoves := movesOn_of_step hstep
  unfold Counts at hcounts ⊢
  cases action with
  | beginWrap =>
    cases hstep
    show w.state.inFlightWraps + 1 = ((w.wraps + 1 : ℕ) : ℤ)
    rw [hcounts, Nat.cast_succ]
  | endWrap =>
    simp only [RotationWorld.step] at hstep
    split_ifs at hstep with hsome
    cases hstep
    show w.state.inFlightWraps - 1 = ((w.wraps - 1 : ℕ) : ℤ)
    omega
  | markCommitted =>
    cases hstep
    exact hcounts
  | markFailed err =>
    cases hstep
    exact hcounts
  | reset =>
    cases hstep
    exact hcounts
  | _ => rw [hmoves.1.wraps, hmoves.2, hcounts]

/-! ## Cut-over only after the drain -/

section Phases

variable {phase : RotationPhase}

theorem follows_committed_iff :
    .committed = phase ∨ Follows phase .committed ↔ phase = .committing ∨ phase = .committed := by
  cases phase <;> simp [Follows]

theorem follows_aborted_iff :
    .aborted = phase ∨ Follows phase .aborted ↔ phase ≠ .idle ∧ phase ≠ .committed := by
  cases phase <;> simp [Follows]

theorem follows_idle_iff :
    .idle = phase ∨ Follows phase .idle ↔
      phase = .idle ∨ phase = .committed ∨ phase = .aborted := by
  cases phase <;> simp [Follows]

end Phases

/-- No wrap is in flight, or the grace deadline has passed. -/
def Drained (w : RotationWorld) : Prop :=
  w.wraps = 0 ∨ w.state.deadlinePassed w.now = true

/-- The step keeps to the phases, and a commit without force succeeds only after the drain. -/
structure Sound (w : RotationWorld) (action : RotationAction) (w' : RotationWorld) : Prop where
  phase : w'.state.phase = w.state.phase ∨ Follows w.state.phase w'.state.phase
  cutover : action = .commit false → (∃ state, w.state.commit false = .ok state) → w.Drained

/-- What the state does not check itself. -/
def Allowed (w : RotationWorld) : RotationAction → Prop
  | .markCommitted => w.state.phase = .committing ∨ w.state.phase = .committed
  | .markFailed _ => w.state.phase ≠ .idle ∧ w.state.phase ≠ .committed
  | .reset => w.state.phase = .idle ∨ w.state.phase = .committed ∨ w.state.phase = .aborted
  | .commit false => w.state.phase = .readyToCutover → w.Drained
  | _ => True

/-- An action that is no commit without force is sound if its phases are. -/
theorem sound_of_phase (hother : action ≠ .commit false)
    (hphase : w'.state.phase = w.state.phase ∨ Follows w.state.phase w'.state.phase) :
    Sound w action w' :=
  ⟨hphase, fun heq => absurd heq hother⟩

/-- In the phase that drains, the counter is looked at. -/
theorem cutover_iff (hcounts : w.Counts) :
    ((∃ state, w.state.commit false = .ok state) → w.Drained) ↔
      (w.state.phase = .readyToCutover → w.Drained) := by
  constructor
  · intro hcut hready
    exact hcut ⟨_, commit_eq_ok_iff.mpr (.inl ⟨hready, rfl⟩)⟩
  · rintro hready ⟨state, hcommit⟩
    rcases commit_eq_ok_iff.mp hcommit with ⟨hphase, -⟩ | ⟨-, hforce | hzero, -⟩
    · exact hready hphase
    · cases hforce
    · refine .inl ?_
      unfold Counts at hcounts
      omega

/-- **Cut-over only after the drain.**  In every interleaving, a step keeps to the phases and
cuts over only after the drain if and only if it is allowed: the marks and the reset are taken
in whatever phase the rotation is, and a rotation that is ready is committed without another
look at the wraps in flight. -/
theorem sound_iff_allowed {now : ℤ} {actions : List RotationAction} {w w' : RotationWorld}
    {action : RotationAction} (hrun : Transitions.run step (init now) actions = some w)
    (hstep : w.step action = some w') : Sound w action w' ↔ Allowed w action := by
  have hcounts : w.Counts := Transitions.run_keeps step Counts
    (fun _ _ _ hcounts hstep => hcounts.step hstep) (show (init now).Counts from rfl) hrun
  have hmoves := movesOn_of_step hstep
  cases action with
  | commit force =>
    cases force with
    | false =>
      refine Iff.trans ?_ (cutover_iff hcounts)
      exact ⟨fun hsound => hsound.cutover rfl, fun hcut => ⟨hmoves.1.phase, fun _ => hcut⟩⟩
    | true => exact iff_of_true (sound_of_phase nofun hmoves.1.phase) trivial
  | markCommitted =>
    cases hstep
    refine ⟨fun hsound => follows_committed_iff.mp hsound.phase, fun hallowed => ?_⟩
    exact sound_of_phase nofun (follows_committed_iff.mpr hallowed)
  | markFailed err =>
    cases hstep
    refine ⟨fun hsound => follows_aborted_iff.mp hsound.phase, fun hallowed => ?_⟩
    exact sound_of_phase nofun (follows_aborted_iff.mpr hallowed)
  | reset =>
    cases hstep
    refine ⟨fun hsound => follows_idle_iff.mp hsound.phase, fun hallowed => ?_⟩
    exact sound_of_phase nofun (follows_idle_iff.mpr hallowed)
  | beginWrap =>
    cases hstep
    exact iff_of_true (sound_of_phase nofun (.inl rfl)) trivial
  | endWrap =>
    simp only [step] at hstep
    split_ifs at hstep
    cases hstep
    exact iff_of_true (sound_of_phase nofun (.inl rfl)) trivial
  | _ => exact iff_of_true (sound_of_phase nofun hmoves.1.phase) trivial

/-- A rotation with half a minute of grace whose poller finds no wrap in flight. -/
def drainedRun : List RotationAction :=
  [.startDrain ⟨"rot-1".toList, 1, 2, "memory".toList, none⟩ 30000000000, .poll 0 true,
    .poll 0 true, .advance 100000000, .poll 0 true, .poll 0 true]

/-- The rotation is ready, with this many wraps in flight since. -/
def readyWorld (wraps : ℕ) : RotationWorld where
  state :=
    { phase := .readyToCutover
      rotation := ⟨"rot-1".toList, 1, 2, "memory".toList, none⟩
      startedAt := some 0
      completedAt := none
      graceDeadline := some 30000000000
      lastError := []
      inFlightWraps := wraps
      drainDone := some 0
      stopDrain := some 1
      channels := 2
      closed := {0} }
  now := 100000000
  wraps := wraps
  pollers := [.finished]

theorem run_drainedRun : Transitions.run step (init 0) drainedRun = some (readyWorld 0) := by
  decide +kernel

theorem sound_commit_drained :
    ∃ w', Transitions.run step (init 0) drainedRun = some (readyWorld 0) ∧
      (readyWorld 0).step (.commit false) = some w' ∧ Sound (readyWorld 0) (.commit false) w' :=
  ⟨_, run_drainedRun, rfl, (sound_iff_allowed run_drainedRun rfl).mpr fun _ => .inl rfl⟩

/-- A wrap that begins after the poller has looked is in flight when the rotation is committed
without force, long before the grace deadline. -/
theorem commit_with_wrap_in_flight :
    ∃ w', Transitions.run step (init 0) (drainedRun ++ [.beginWrap]) = some (readyWorld 1) ∧
      (readyWorld 1).step (.commit false) = some w' ∧ w'.state.phase = .committing ∧
      ¬ Sound (readyWorld 1) (.commit false) w' := by
  refine ⟨_, by decide +kernel, rfl, rfl, fun hsound => ?_⟩
  have hdrained := hsound.cutover rfl ⟨_, rfl⟩
  exact absurd hdrained (by unfold Drained; decide)

end RotationWorld

end S3EncryptionGateway.Crypto
