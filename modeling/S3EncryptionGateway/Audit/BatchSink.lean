import S3EncryptionGateway.Library.TransitionSystem

/-!
# The batching audit sink

`BatchSink` collects audit events in a buffer and hands them to a wrapped writer, which may
fail.  Two things are shown:

* `writeWithRetry` keeps its error from one attempt to the next.  A writer of batches
  overwrites it, a writer of single events only ever sets it: after a failed first attempt all
  later ones count as failed, and events that were written are written again.
* every event is in one place at a time: in the buffer, in a flush that runs, in a batch that
  was refused and is still to be counted, with the writer, or among those counted as dropped.
  But a flush that fails counts nothing, and `Close` waits for the loop only.
-/

namespace S3EncryptionGateway.Audit

open List Transitions

/-! ## Writing a batch -/

/-- The wrapped writer, by its answers to one call: to each attempt, or to each event of each
attempt if it writes events one by one. -/
inductive EventWriter (ε : Type) where
  | batch (answer : ℕ → Option ε)
  | serial (answer : ℕ → ℕ → Option ε)

structure BatchSink where
  bufferSize : ℕ
  retryCount : ℤ
  maxConcurrentFlushes : ℕ

def newBatchSink (size retryCount maxConcurrentFlushes : ℤ) : BatchSink where
  bufferSize := if size ≤ 0 then 100 else size.toNat
  retryCount := retryCount
  maxConcurrentFlushes := if maxConcurrentFlushes ≤ 0 then 4 else maxConcurrentFlushes.toNat

variable {ε α : Type}

namespace EventWriter

/-- What attempt `i` says about event `j`. -/
def answer : EventWriter ε → ℕ → ℕ → Option ε
  | batch answer, i, _ => answer i
  | serial answer, i, j => answer i j

/-- The error variable after attempt `i` at `count` events. -/
def attempt (w : EventWriter ε) (count i : ℕ) (err : Option ε) : Option ε :=
  match w with
  | batch answer => answer i
  | serial answer => (range count).foldl (fun err j => (answer i j).or err) err

/-- The loop from attempt `i` on, with `turns` turns left: its error and the number of attempts
that were made. -/
def retry (w : EventWriter ε) (count : ℕ) : ℕ → ℕ → Option ε → Option ε × ℕ
  | 0, i, err => (err, i)
  | turns + 1, i, err =>
    match w.attempt count i err with
    | none => (none, i + 1)
    | some err => w.retry count turns (i + 1) (some err)

/-- Attempt `i` wrote the whole batch. -/
def Completes (w : EventWriter ε) (count i : ℕ) : Prop :=
  ∀ j < count, w.answer i j = none

/-- Attempt `i` is taken for a success if it is made. -/
def Settles (w : EventWriter ε) (count i : ℕ) : Prop :=
  match w with
  | batch answer => answer i = none
  | serial _ => i = 0 ∧ w.Completes count i

end EventWriter

/-- The result and the number of attempts. -/
def BatchSink.writeWithRetry (sink : BatchSink) (w : EventWriter ε) (events : List α) :
    Option ε × ℕ :=
  if events.length = 0 then (none, 0)
  else w.retry events.length (sink.retryCount + 1).toNat 0 none

/-- What is expected of a call for `count` events: its result and the number of attempts. -/
structure RetryContract (sink : BatchSink) (w : EventWriter ε) (count : ℕ)
    (outcome : Option ε × ℕ) : Prop where
  result : outcome.1 = none ↔ ∃ i < outcome.2, w.Completes count i
  stops : ∀ i < outcome.2, w.Completes count i → outcome.2 = i + 1
  bounded : (outcome.2 : ℤ) ≤ sink.retryCount + 1
  once : ∀ answer, w = .serial answer → ∀ i j, i + 1 < outcome.2 → j < count → answer i j ≠ none

/-- When it holds: there is something to write and an attempt to make, and a writer of single
events takes all of them at once, or none of them before the last attempt and not all then. -/
def Retriable (sink : BatchSink) (w : EventWriter ε) (events : List α) : Prop :=
  events ≠ [] ∧ 0 ≤ sink.retryCount ∧
    match w with
    | .batch _ => True
    | .serial answer => (∀ j < events.length, answer 0 j = none) ∨
        (∀ i < sink.retryCount.toNat, ∀ j < events.length, answer i j ≠ none) ∧
          ∃ j < events.length, answer sink.retryCount.toNat j ≠ none

namespace EventWriter

variable {w : EventWriter ε} {count i : ℕ} {err : Option ε}

theorem foldl_or_eq_none_iff (answer : ℕ → Option ε) (js : List ℕ) :
    js.foldl (fun err j => (answer j).or err) err = none ↔
      err = none ∧ ∀ j ∈ js, answer j = none := by
  induction js generalizing err with
  | nil => simp
  | cons j js ih =>
    rw [foldl_cons, ih, Option.or_eq_none_iff, forall_mem_cons]
    tauto

theorem attempt_eq_none_iff (hfirst : err = none ↔ i = 0) :
    w.attempt count i err = none ↔ w.Settles count i := by
  cases w with
  | batch answer => exact Iff.rfl
  | serial answer =>
    rw [attempt, foldl_or_eq_none_iff, hfirst]
    simp only [Settles, Completes, EventWriter.answer, mem_range]

/-- The loop ends at the first attempt that settles, or after its last turn. -/
theorem retry_cases (turns : ℕ) (hfirst : err = none ↔ i = 0) :
    (∃ k, i ≤ k ∧ k < i + turns ∧ w.Settles count k ∧ (∀ l, i ≤ l → l < k → ¬ w.Settles count l) ∧
        w.retry count turns i err = (none, k + 1)) ∨
      (∀ k, i ≤ k → k < i + turns → ¬ w.Settles count k) ∧
        (w.retry count turns i err).2 = i + turns ∧
        (i + turns ≠ 0 → (w.retry count turns i err).1 ≠ none) := by
  induction turns generalizing i err with
  | zero => exact .inr ⟨fun k hle hlt => by omega, rfl, fun hne herr => hne (hfirst.mp herr)⟩
  | succ turns ih =>
    cases hattempt : w.attempt count i err with
    | none =>
      refine .inl ⟨i, le_rfl, by omega, (attempt_eq_none_iff hfirst).mp hattempt,
        fun l hle hlt => by omega, ?_⟩
      rw [retry, hattempt]
    | some err' =>
      have hnot : ¬ w.Settles count i := by
        rw [← attempt_eq_none_iff hfirst, hattempt]
        nofun
      have hbefore : ∀ {l k : ℕ}, (∀ l, i + 1 ≤ l → l < k → ¬ w.Settles count l) → i ≤ l →
          l < k → ¬ w.Settles count l := by
        intro l k hlater hle hlt
        rcases hle.eq_or_lt with rfl | hle
        · exact hnot
        · exact hlater l hle hlt
      have hstep : w.retry count (turns + 1) i err = w.retry count turns (i + 1) (some err') := by
        rw [retry, hattempt]
      rw [hstep]
      have hlater : some err' = none ↔ i + 1 = 0 := by simp
      rcases ih hlater with
        ⟨k, hle, hlt, hsettles, hfirst', hretry⟩ | ⟨hnone, hcount, herr⟩
      · exact .inl ⟨k, by omega, by omega, hsettles, fun l => hbefore hfirst', hretry⟩
      · rw [Nat.add_right_comm, Nat.add_assoc] at hnone hcount herr
        exact .inr ⟨fun k => hbefore hnone, hcount, herr⟩

end EventWriter

namespace BatchSink

variable (sink : BatchSink) (w : EventWriter ε) (events : List α)

/-- **The retry contract.**  It holds for writers of batches; a writer of single events must
succeed at once, or fail throughout. -/
theorem retryContract_iff :
    RetryContract sink w events.length (sink.writeWithRetry w events) ↔
      Retriable sink w events := by
  by_cases hdone : events ≠ [] ∧ 0 ≤ sink.retryCount
  swap
  · -- no attempt is made
    have hnothing : sink.writeWithRetry w events = (none, 0) := by
      rcases not_and_or.mp hdone with hempty | hneg
      · rw [not_not.mp hempty]
        rfl
      · rw [writeWithRetry, show (sink.retryCount + 1).toNat = 0 by omega]
        split <;> rfl
    refine iff_of_false (fun hcontract => ?_) fun hretriable => hdone ⟨hretriable.1, hretriable.2.1⟩
    rw [hnothing] at hcontract
    obtain ⟨i, hi, -⟩ := hcontract.result.mp rfl
    exact absurd hi (Nat.not_lt_zero i)
  obtain ⟨hne, hretries⟩ := hdone
  have hpos : 0 < events.length := length_pos_iff.mpr hne
  rw [writeWithRetry, if_neg hpos.ne']
  have hstart : (none : Option ε) = none ↔ 0 = 0 := by simp
  rcases EventWriter.retry_cases (sink.retryCount + 1).toNat hstart with
    ⟨k, -, hlt, hsettles, hfirst, hretry⟩ | ⟨hnone, hcount, herr⟩
  · -- the attempt that ended the loop is the first one that wrote everything
    rw [hretry]
    cases w with
    | batch answer =>
      refine iff_of_true ⟨iff_of_true rfl ⟨k, k.lt_succ_self, fun _ _ => hsettles⟩, ?_, ?_, nofun⟩
        ⟨hne, hretries, trivial⟩
      · intro i hi hall
        have hnot : ¬ i < k := fun hlt => hfirst i i.zero_le hlt (hall 0 hpos)
        show k + 1 = i + 1
        omega
      · show ((k + 1 : ℕ) : ℤ) ≤ _
        omega
    | serial answer =>
      obtain ⟨rfl, hall⟩ := hsettles
      refine iff_of_true ⟨iff_of_true rfl ⟨0, Nat.one_pos, hall⟩, ?_, ?_, ?_⟩
        ⟨hne, hretries, .inl hall⟩
      · exact fun i hi _ => by rw [Nat.lt_one_iff.mp hi]
      · show (1 : ℤ) ≤ _
        omega
      · exact fun _ _ i j hi => absurd hi (by omega)
  · -- all attempts were made, and the call fails: then none of them may be complete
    rw [Nat.zero_add] at hnone hcount herr
    replace herr := herr (by omega)
    have hiff : RetryContract sink w events.length
          (w.retry events.length (sink.retryCount + 1).toNat 0 none) ↔
        (∀ i < (sink.retryCount + 1).toNat, ¬ w.Completes events.length i) ∧
          ∀ answer, w = .serial answer → ∀ i j, i < sink.retryCount.toNat → j < events.length →
            answer i j ≠ none := by
      constructor
      · intro hcontract
        refine ⟨fun i hi hall => herr (hcontract.result.mpr ⟨i, by omega, hall⟩), ?_⟩
        exact fun answer hw i j hi => hcontract.once answer hw i j (by omega)
      · rintro ⟨hno, honce⟩
        refine ⟨iff_of_false herr ?_, ?_, by omega, ?_⟩
        · exact fun ⟨i, hi, hall⟩ => hno i (by omega) hall
        · exact fun i hi hall => absurd hall (hno i (by omega))
        · exact fun answer hw i j hi => honce answer hw i j (by omega)
    rw [hiff]
    cases w with
    | batch answer =>
      exact iff_of_true ⟨fun i hi hall => hnone i i.zero_le hi (hall 0 hpos), nofun⟩
        ⟨hne, hretries, trivial⟩
    | serial answer =>
      constructor
      · rintro ⟨hno, honce⟩
        refine ⟨hne, hretries, .inr ⟨fun i hi j => honce answer rfl i j hi, ?_⟩⟩
        by_contra hall
        push Not at hall
        exact hno _ (by omega) hall
      · rintro ⟨-, -, hall | ⟨hbefore, j, hj, hlast⟩⟩
        · exact absurd ⟨rfl, hall⟩ (hnone 0 le_rfl (by omega))
        refine ⟨fun i hi hall => ?_, fun _ heq i j hi => ?_⟩
        · rcases (show i ≤ sink.retryCount.toNat by omega).lt_or_eq with hlt | rfl
          · exact hbefore i hlt 0 hpos (hall 0 hpos)
          · exact hlast (hall j hj)
        · cases heq
          exact hbefore i hi j

/-- The second event is refused once.  The second attempt writes both, and is reported as
failed. -/
def onceRefused : EventWriter Unit :=
  .serial fun i j => if i = 0 ∧ j = 1 then some () else none

theorem second_attempt_lost :
    writeWithRetry ⟨100, 1, 4⟩ onceRefused [7, 8] = (some (), 2) ∧ onceRefused.Completes 2 1 ∧
      onceRefused.answer 0 0 = none ∧ ¬ RetryContract ⟨100, 1, 4⟩ onceRefused 2
        (writeWithRetry ⟨100, 1, 4⟩ onceRefused [7, 8]) := by
  have hcompletes : onceRefused.Completes 2 1 := fun j _ => rfl
  refine ⟨rfl, hcompletes, rfl, fun hcontract => ?_⟩
  exact absurd (hcontract.result.mpr ⟨1, by decide, hcompletes⟩) nofun

end BatchSink

/-! ## The sink under concurrent calls -/

/-- What a call of `writeWithRetry` has written. -/
def BatchSink.delivered (sink : BatchSink) (w : EventWriter ε) (events : List α) : List α :=
  (events.zipIdx.filter fun entry => (range (sink.writeWithRetry w events).2).any fun i =>
    (w.answer i entry.2).isNone).map Prod.fst

/-- The goroutine of `run`. -/
inductive Runner where
  | waiting
  | flushing (events : List ℕ)
  | draining (events : List ℕ)
  | stopped
deriving DecidableEq

def Runner.events : Runner → List ℕ
  | flushing events | draining events => events
  | _ => []

def Runner.isFinal : Runner → Bool
  | draining _ | stopped => true
  | _ => false

/-- Events are numbered by the calls of `WriteEvent` that bring them.  `flushes` are the batches
whose goroutines hold a slot of the semaphore; `refused` are the calls that found none free and
have still to count their batch.  `closing` has the events of the calls that had returned when
`Close` was called. -/
structure SinkState where
  buffer : List ℕ
  flushes : List (List ℕ)
  refused : List (ℕ × List ℕ)
  runner : Runner
  closing : Option (List ℕ)
  closed : Bool
  written : List ℕ
  dropped : List ℕ
  calls : ℕ

def SinkState.initial : SinkState := ⟨[], [], [], .waiting, none, false, [], [], 0⟩

inductive SinkAction (ε : Type) where
  | writeEvent
  | countDropped (i : ℕ)
  | flushed (i : ℕ) (w : EventWriter ε)
  | tick
  | wrote (w : EventWriter ε)
  | close
  | stop
  | closeReturns

namespace SinkState

variable (sink : BatchSink) (s : SinkState)

def step : SinkAction ε → Option SinkState
  | .writeEvent =>
    let events := s.buffer ++ [s.calls]
    if events.length < sink.bufferSize then
      some { s with buffer := events, calls := s.calls + 1 }
    else if s.flushes.length < sink.maxConcurrentFlushes then
      some { s with buffer := [], flushes := s.flushes ++ [events], calls := s.calls + 1 }
    else
      some { s with buffer := [], refused := s.refused ++ [(s.calls, events)], calls := s.calls + 1 }
  | .countDropped i =>
    s.refused[i]?.map fun call =>
      { s with refused := s.refused.eraseIdx i, dropped := s.dropped ++ call.2 }
  | .flushed i w =>
    s.flushes[i]?.map fun events =>
      { s with flushes := s.flushes.eraseIdx i, written := s.written ++ sink.delivered w events }
  | .tick =>
    if s.runner = .waiting then
      some { s with
        buffer := []
        runner := if s.buffer = [] then .waiting else .flushing s.buffer }
    else none
  | .wrote w =>
    match s.runner with
    | .flushing events =>
      some { s with runner := .waiting, written := s.written ++ sink.delivered w events }
    | .draining events =>
      some { s with runner := .stopped, written := s.written ++ sink.delivered w events }
    | _ => none
  | .close =>
    if s.closing = none then
      some { s with closing := some ((range s.calls).filter (· ∉ s.refused.map Prod.fst)) }
    else none
  | .stop =>
    if s.runner = .waiting ∧ s.closing ≠ none then
      some { s with
        buffer := []
        runner := if s.buffer = [] then .stopped else .draining s.buffer }
    else none
  | .closeReturns => if s.runner = .stopped then some { s with closed := true } else none

/-- Once `Close` has returned, the events of the earlier calls have been written or counted. -/
def Accounts : Prop :=
  s.closed = true → ∀ early ∈ s.closing, ∀ event ∈ early,
    Xor (event ∈ s.written) (s.dropped.count event = 1)

/-- What a step has to respect: a flush delivers all its events, and `Close` returns when no
flush and no refused call is left. -/
def settles : SinkAction ε → Prop
  | .flushed i w => ∀ events ∈ s.flushes[i]?, sink.delivered w events = events
  | .wrote w => sink.delivered w s.runner.events = s.runner.events
  | .closeReturns => s.flushes = [] ∧ s.refused = []
  | _ => True

/-! ## Every event is in one place -/

def held : List ℕ :=
  s.buffer ++ s.flushes.flatten ++ (s.refused.map Prod.snd).flatten ++ s.runner.events

def places (event : ℕ) : ℕ :=
  s.held.count event + s.written.count event + s.dropped.count event

structure Conserves : Prop where
  places_eq : ∀ event, s.places event = if event < s.calls then 1 else 0
  early : ∀ early ∈ s.closing, ∀ event ∈ early, event < s.calls
  final : s.runner.isFinal = true →
    s.closing ≠ none ∧ ∀ early ∈ s.closing, ∀ event ∈ early, event ∉ s.buffer
  closed : s.closed = true → s.runner = .stopped ∧
    ∀ early ∈ s.closing, ∀ event ∈ early, event ∉ s.held

variable {sink s} {s' : SinkState} {event : ℕ}

theorem count_flatten_eraseIdx {batches : List (List ℕ)} {i : ℕ} {events : List ℕ}
    (hget : batches[i]? = some events) (event : ℕ) :
    (batches.eraseIdx i).flatten.count event + events.count event =
      batches.flatten.count event := by
  obtain ⟨hlt, rfl⟩ := List.getElem?_eq_some_iff.mp hget
  rw [← (getElem_cons_eraseIdx_perm hlt).flatten.count_eq, flatten_cons, count_append,
    Nat.add_comm]

/-- Events move from place to place, and new calls bring new ones. -/
theorem Conserves.of_moved (hs : s.Conserves) (hcalls : s.calls ≤ s'.calls)
    (hplaces : ∀ event, s'.places event =
      s.places event + if s.calls ≤ event ∧ event < s'.calls then 1 else 0)
    (hheld : ∀ event < s.calls, s'.held.count event ≤ s.held.count event)
    (hbuffer : ∀ event < s.calls, event ∈ s'.buffer → event ∈ s.buffer)
    (hfinal : s'.runner.isFinal = s.runner.isFinal)
    (hstopped : s.runner = .stopped → s'.runner = .stopped) (hclosing : s'.closing = s.closing)
    (hclosed : s'.closed = s.closed) : s'.Conserves where
  places_eq event := by
    rw [hplaces, hs.places_eq]
    split_ifs <;> omega
  early early hearly event hevent :=
    (hs.early early (hclosing ▸ hearly) event hevent).trans_le hcalls
  final hrunner := by
    obtain ⟨hcalled, hall⟩ := hs.final (hfinal ▸ hrunner)
    rw [hclosing]
    exact ⟨hcalled, fun early hearly event hevent hmem => hall early hearly event hevent
      (hbuffer event (hs.early early hearly event hevent) hmem)⟩
  closed h := by
    obtain ⟨hrunner, hall⟩ := hs.closed (hclosed ▸ h)
    refine ⟨hstopped hrunner, fun early hearly event hevent hmem => ?_⟩
    rw [hclosing] at hearly
    have hless := hheld event (hs.early early hearly event hevent)
    exact hall early hearly event hevent
      (count_pos_iff.mp ((count_pos_iff.mpr hmem).trans_le hless))

theorem Conserves.step (hs : s.Conserves) {action : SinkAction ε} (hsettles : s.settles sink action)
    (hstep : s.step sink action = some s') : s'.Conserves := by
  cases action with
  | writeEvent =>
    simp only [SinkState.step] at hstep
    split_ifs at hstep <;> cases hstep
    all_goals
      refine hs.of_moved (Nat.le_succ _) (fun event => ?_) (fun event hlt => ?_)
        (fun event hlt hmem => ?_) rfl id rfl rfl
    all_goals simp only [places, held] at *
    all_goals grind
  | countDropped i =>
    obtain ⟨call, hget, rfl⟩ := Option.map_eq_some_iff.mp hstep
    have hbatch : (s.refused.map Prod.snd)[i]? = some call.2 := by
      rw [getElem?_map, hget]
      rfl
    have hcount := count_flatten_eraseIdx hbatch
    rw [eraseIdx_map] at hcount
    refine hs.of_moved le_rfl (fun event => ?_) (fun event _ => ?_) (fun _ _ hmem => hmem)
      rfl id rfl rfl
    all_goals
      simp only [places, held, count_append, ← hcount]
      grind
  | flushed i w =>
    obtain ⟨events, hget, rfl⟩ := Option.map_eq_some_iff.mp hstep
    have hcount := count_flatten_eraseIdx hget
    rw [hsettles events hget]
    refine hs.of_moved le_rfl (fun event => ?_) (fun event _ => ?_) (fun _ _ hmem => hmem)
      rfl id rfl rfl
    all_goals
      simp only [places, held, count_append, ← hcount]
      grind
  | tick =>
    simp only [SinkState.step] at hstep
    split_ifs at hstep with hwaiting hempty <;> cases hstep
    all_goals
      refine hs.of_moved le_rfl (fun event => ?_) (fun event _ => ?_) (fun _ _ hmem => ?_)
        ?_ ?_ rfl rfl
    all_goals grind [places, held, Runner.events, Runner.isFinal]
  | wrote w =>
    simp only [SinkState.step] at hstep
    simp only [settles] at hsettles
    split at hstep <;> cases hstep
    all_goals
      rename_i events hrunner
      rw [hrunner] at hsettles
      rw [show sink.delivered w events = events from hsettles]
      refine hs.of_moved le_rfl (fun event => ?_) (fun event _ => ?_) (fun _ _ hmem => hmem)
        ?_ ?_ rfl rfl
    all_goals grind [places, held, Runner.events, Runner.isFinal]
  | close =>
    simp only [SinkState.step] at hstep
    split_ifs at hstep with hnone
    cases hstep
    refine ⟨hs.places_eq, ?_, fun hfinal => absurd hnone (hs.final hfinal).1, fun hclosed => ?_⟩
    · rintro _ ⟨⟩ event hevent
      exact mem_range.mp (mem_filter.mp hevent).1
    · have hrunner := (hs.closed hclosed).1
      exact absurd hnone (hs.final (by rw [hrunner]; rfl)).1
  | stop =>
    simp only [SinkState.step] at hstep
    split_ifs at hstep with hready hempty <;> cases hstep
    all_goals
      refine ⟨fun event => ?_, hs.early, fun _ => ⟨hready.2, fun _ _ _ _ => not_mem_nil⟩,
        fun hclosed => absurd ((hs.closed hclosed).1.symm.trans hready.1) nofun⟩
      rw [← hs.places_eq]
      grind [places, held, Runner.events]
  | closeReturns =>
    obtain ⟨hflushes, hrefused⟩ := hsettles
    simp only [SinkState.step] at hstep
    split_ifs at hstep with hstopped
    cases hstep
    refine ⟨hs.places_eq, hs.early, hs.final, fun _ => ⟨hstopped, ?_⟩⟩
    -- nothing is left on its way but the buffer
    have hheld : s.held = s.buffer := by simp [held, hflushes, hrefused, hstopped, Runner.events]
    show ∀ early ∈ s.closing, ∀ event ∈ early, event ∉ s.held
    rw [hheld]
    exact (hs.final (by rw [hstopped]; rfl)).2

end SinkState

open SinkState

/-- **Every event is accounted for.**  In every run fewer flushes than slots are running.  If
all flushes deliver their events and `Close` waits for them and for the counting, every event of
the calls that returned before it was written or counted once. -/
theorem accounts_of_run (sink : BatchSink) {actions : List (SinkAction ε)} {s : SinkState}
    (hrun : run (step sink) initial actions = some s) :
    s.flushes.length ≤ sink.maxConcurrentFlushes ∧
      (Meets (step sink) (settles sink) initial actions → s.Accounts) := by
  constructor
  · refine run_keeps (step sink) (fun s => s.flushes.length ≤ sink.maxConcurrentFlushes) ?_
      (Nat.zero_le _) hrun
    intro s action s' hs hstep
    cases action <;> simp only [step] at hstep <;> grind
  · intro hmeets hclosed early hearly event hevent
    have hs : s.Conserves := run_invariant (step sink)
      (fun _ _ _ hs hsettles hstep => hs.step hsettles hstep)
      (by constructor <;> simp [places, held, initial, Runner.events, Runner.isFinal]) hmeets hrun
    have hplaces := hs.places_eq event
    rw [if_pos (hs.early early hearly event hevent), places,
      count_eq_zero.mpr ((hs.closed hclosed).2 early hearly event hevent)] at hplaces
    by_cases hmem : event ∈ s.written
    · have hpos := count_pos_iff.mpr hmem
      exact .inl ⟨hmem, by omega⟩
    · rw [count_eq_zero.mpr hmem] at hplaces
      exact .inr ⟨by omega, hmem⟩

theorem accounts_of_run_flushed :
    ∃ s, run (step ⟨1, 0, 1⟩) initial [.writeEvent,
        .flushed 0 (.batch fun _ => (none : Option Unit)), .close, .stop, .closeReturns] = some s ∧
      s.closed = true ∧ s.Accounts := by
  obtain ⟨s, hrun, hclosed⟩ : ∃ s, run (step ⟨1, 0, 1⟩) initial [.writeEvent,
      .flushed 0 (.batch fun _ => (none : Option Unit)), .close, .stop, .closeReturns] = some s ∧
        s.closed = true := ⟨_, rfl, rfl⟩
  refine ⟨s, hrun, hclosed, ?_⟩
  refine (accounts_of_run ⟨1, 0, 1⟩ hrun).2 ?_
  exact ⟨trivial, by rintro _ ⟨⟩; rfl, trivial, trivial, ⟨rfl, rfl⟩, trivial⟩

/-- `Close` returns while the flush of an event is still running, which then fails. -/
theorem lost_at_close :
    ∃ s, run (step ⟨1, 0, 1⟩) initial
        [.writeEvent, .close, .stop, .closeReturns, .flushed 0 (.batch fun _ => some ())] = some s ∧
      ¬ s.Accounts := by
  refine ⟨⟨[], [], [], .stopped, some [0], true, [], [], 1⟩, rfl, fun haccounts => ?_⟩
  rcases haccounts rfl [0] rfl 0 (mem_singleton_self 0) with hwritten | hdropped
  · exact absurd hwritten.1 not_mem_nil
  · exact absurd hdropped.1 nofun

end S3EncryptionGateway.Audit
