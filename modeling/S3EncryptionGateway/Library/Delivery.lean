import S3EncryptionGateway.Library.PullReader

/-!
# What a drained reader delivers

A caller of a streaming reader only sees what comes out of it when it is read to
the end.  `Delivers` reduces that to two facts about single reads: a read that
goes on takes a piece off the front of what is left, and a read that ends hands
out the rest.  `Delivers.drain` is the induction over the reads, made once.

## Serving one piece at a time

Besides the copy loop of `Puller.loop`, which fills the caller's buffer, readers
often refill only until something is pending and then copy from it once.  That is
`Puller.serve`, and `readServing` is the `Read` built on it; `delivers_readServing`
says that it delivers the flow of its state.
-/

namespace Streams

open List

set_option linter.unusedVariables false

variable {σ β ε : Type*}

/-- In a state that meets `inv` the reader still has `out` to give and then reports
`ending`. -/
structure Delivers (read : ℕ → σ → ReadResult β ε × σ) (inv : σ → Prop) (out : σ → List β)
    (ending : σ → ReadError ε) : Prop where
  running : ∀ {room s data s'}, inv s → read room s = (⟨data, none⟩, s') →
    inv s' ∧ out s = data ++ out s' ∧ ending s' = ending s ∧ (0 < room → data ≠ [])
  ended : ∀ {room s data err s'}, inv s → read room s = (⟨data, some err⟩, s') →
    data = out s ∧ err = ending s

/-- Every read that goes on takes a piece off the front of what is left. -/
def Advances {γ : Type*} (read : ℕ → σ → ReadResult β ε × σ) (inv : σ → Prop) (out : σ → List β)
    (ending : σ → γ) : Prop :=
  ∀ room s data s', inv s → read room s = (⟨data, none⟩, s') →
    inv s' ∧ out s = data ++ out s' ∧ ending s' = ending s ∧ (0 < room → data ≠ [])

variable {s' : σ}

namespace Advances

variable {γ : Type*} {read : ℕ → σ → ReadResult β ε × σ} {inv : σ → Prop} {out : σ → List β}
  {ending : σ → γ} {sizes : ℕ → ℕ} {s : σ}

/-- The state of a drain that still runs. -/
theorem drain_running (hadvances : Advances read inv out ending) (hinv : inv s) {fuel : ℕ}
    {got : List β} (hdrain : drain read sizes fuel s = (got, none, s')) :
    inv s' ∧ out s = got ++ out s' ∧ ending s' = ending s := by
  induction fuel generalizing got s' with
  | zero =>
    cases hdrain
    exact ⟨hinv, rfl, rfl⟩
  | succ fuel ih =>
    obtain ⟨before, s₀, hbefore⟩ := exists_running_of_le hdrain (Nat.le_succ fuel)
    obtain ⟨hinv₀, hout₀, hending₀⟩ := ih hbefore
    rcases hread : read (sizes fuel) s₀ with ⟨⟨data, err⟩, s₁⟩
    rw [drain_succ_of_none hbefore, hread] at hdrain
    cases hdrain
    obtain ⟨hinv₁, hout₁, hending₁, -⟩ := hadvances _ _ _ _ hinv₀ hread
    refine ⟨hinv₁, ?_, hending₁.trans hending₀⟩
    rw [hout₀, hout₁, append_assoc]

/-- A caller whose buffers keep offering room comes to an end. -/
theorem drain_ends (hadvances : Advances read inv out ending) (hinv : inv s)
    (hkeeps : KeepsReading sizes) :
    ∃ fuel got err s', drain read sizes fuel s = (got, some err, s') := by
  refine Streams.drain_ends hkeeps (out s).length ?_ ?_
  · intro fuel got s' hdrain
    obtain ⟨-, hout, -⟩ := hadvances.drain_running hinv hdrain
    rw [hout, length_append]
    exact Nat.le_add_right _ _
  · intro fuel got s₀ hdrain hroom hnone
    obtain ⟨hinv₀, -, -⟩ := hadvances.drain_running hinv hdrain
    rcases hread : read (sizes fuel) s₀ with ⟨⟨data, err⟩, s₁⟩
    rw [hread] at hnone
    cases hnone
    obtain ⟨-, -, -, hdata⟩ := hadvances _ _ _ _ hinv₀ hread
    exact hdata hroom

end Advances

namespace Delivers

variable {read : ℕ → σ → ReadResult β ε × σ} {inv : σ → Prop} {out : σ → List β}
  {ending : σ → ReadError ε} {sizes : ℕ → ℕ} {s : σ}

/-- A reader delivers if each read hands out the rest and the ending, or goes on. -/
theorem of_cases
    (hread : ∀ room s, inv s →
      (∃ s', read room s = (⟨out s, some (ending s)⟩, s')) ∨
        ∃ data s', read room s = (⟨data, none⟩, s') ∧ inv s' ∧ out s = data ++ out s' ∧
          ending s' = ending s ∧ (0 < room → data ≠ [])) :
    Delivers read inv out ending where
  running := by
    intro room s data s' hinv hnone
    rcases hread room s hinv with ⟨s₁, hends⟩ | ⟨data₁, s₁, hmore, hrest⟩
    · cases hends.symm.trans hnone
    · cases hmore.symm.trans hnone
      exact hrest
  ended := by
    intro room s data err s' hinv hsome
    rcases hread room s hinv with ⟨s₁, hends⟩ | ⟨data₁, s₁, hmore, -⟩
    · cases hends.symm.trans hsome
      exact ⟨rfl, rfl⟩
    · cases hmore.symm.trans hsome

theorem advances (hdelivers : Delivers read inv out ending) : Advances read inv out ending :=
  fun _ _ _ _ => hdelivers.running

/-- Only reads in states that meet the invariant matter. -/
theorem congr {read' : ℕ → σ → ReadResult β ε × σ} (hdelivers : Delivers read inv out ending)
    (hsame : ∀ room s, inv s → read' room s = read room s) : Delivers read' inv out ending where
  running hinv hread := hdelivers.running hinv ((hsame _ _ hinv).symm.trans hread)
  ended hinv hread := hdelivers.ended hinv ((hsame _ _ hinv).symm.trans hread)

theorem drain_ended (hdelivers : Delivers read inv out ending) (hinv : inv s) {fuel : ℕ}
    {got : List β} {err : ReadError ε} (hdrain : drain read sizes fuel s = (got, some err, s')) :
    got = out s ∧ err = ending s := by
  obtain ⟨n, before, s₀, -, hbefore, hread, rfl⟩ := exists_last_read hdrain
  obtain ⟨hinv₀, hout₀, hending₀⟩ := hdelivers.advances.drain_running hinv hbefore
  obtain ⟨hdata, herr⟩ := hdelivers.ended hinv₀ hread
  exact ⟨by rw [hout₀, ← hdata], herr.trans hending₀⟩

/-- **Draining delivers.**  Callers whose buffers keep offering room get everything and
then the ending. -/
theorem drain (hdelivers : Delivers read inv out ending) (hinv : inv s)
    (hkeeps : KeepsReading sizes) :
    ∃ fuel s', Streams.drain read sizes fuel s = (out s, some (ending s), s') := by
  obtain ⟨fuel, got, err, s', hdrain⟩ := hdelivers.advances.drain_ends hinv hkeeps
  obtain ⟨rfl, rfl⟩ := hdelivers.drain_ended hinv hdrain
  exact ⟨fuel, s', hdrain⟩

end Delivers

/-! ## Serving one piece at a time -/

namespace Puller

variable (m : Puller σ β ε)

/-- Refill until something is pending and hand out at most `room` items of it. -/
def serve (room : ℕ) (s : σ) : List β × Option ε × σ :=
  if 0 < (m.pending s).length then
    ((m.pending s).take room, none, m.setPending ((m.pending s).drop room) s)
  else if hdone : m.done s then ([], none, s)
  else
    match hfill : m.fill s with
    | (some err, s') => ([], some err, s')
    | (none, s') => serve room s'
termination_by m.rank s
decreasing_by exact m.rank_fill s _ (by simpa using hdone) hfill

variable {m}

variable {room : ℕ}

/-- A piece served without an error is the front of the flow. -/
theorem flow_of_serve {s : σ} {data : List β} (hserve : m.serve room s = (data, none, s')) :
    m.flow s = (data ++ (m.flow s').1, (m.flow s').2) := by
  fun_induction m.serve room s with
  | case1 s hpending =>
    cases hserve
    exact flow_drop_pending s room
  | case2 s hpending hdone =>
    cases hserve
    rfl
  | case3 s hpending hdone err s₀ hfill => cases hserve
  | case4 s hpending hdone s₀ hfill ih =>
    have hnil : m.pending s = [] := by simpa using hpending
    rw [flow_of_pending_eq_nil hnil, refills_of_fill (by simpa using hdone) hfill, ih hserve]

/-- Nothing is served, with room for it, only at the end. -/
theorem flow_of_serve_nil {s : σ} (hroom : 0 < room) (hserve : m.serve room s = ([], none, s')) :
    m.flow s = ([], none, s') := by
  fun_induction m.serve room s with
  | case1 s hpending =>
    obtain ⟨htake, -⟩ := Prod.mk.injEq .. ▸ hserve
    have hlen := congrArg List.length htake
    rw [length_take, length_nil] at hlen
    omega
  | case2 s hpending hdone =>
    have hnil : m.pending s = [] := by simpa using hpending
    cases hserve
    rw [flow_of_pending_eq_nil hnil, refills_of_done hdone]
  | case3 s hpending hdone err s₀ hfill => cases hserve
  | case4 s hpending hdone s₀ hfill ih =>
    have hnil : m.pending s = [] := by simpa using hpending
    rw [flow_of_pending_eq_nil hnil, refills_of_fill (by simpa using hdone) hfill, ih hserve]

theorem flow_of_serve_error {s : σ} {data : List β} {err : ε}
    (hserve : m.serve room s = (data, some err, s')) :
    data = [] ∧ m.flow s = ([], some err, s') := by
  fun_induction m.serve room s with
  | case1 s hpending => cases hserve
  | case2 s hpending hdone => cases hserve
  | case3 s hpending hdone err₀ s₀ hfill =>
    have hnil : m.pending s = [] := by simpa using hpending
    cases hserve
    exact ⟨rfl, by rw [flow_of_pending_eq_nil hnil, refills_of_error (by simpa using hdone) hfill]⟩
  | case4 s hpending hdone s₀ hfill ih =>
    have hnil : m.pending s = [] := by simpa using hpending
    obtain ⟨hdata, hflow⟩ := ih hserve
    refine ⟨hdata, ?_⟩
    rw [flow_of_pending_eq_nil hnil, refills_of_fill (by simpa using hdone) hfill, hflow]

/-- What every successful refill preserves, serving preserves. -/
theorem serve_invariant (inv : σ → Prop) (hset : ∀ items s, inv s → inv (m.setPending items s))
    (hfill : ∀ s s', m.done s = false → inv s → m.fill s = (none, s') → inv s') {s : σ}
    {data : List β} (hinv : inv s) (hserve : m.serve room s = (data, none, s')) : inv s' := by
  fun_induction m.serve room s with
  | case1 s hpending =>
    cases hserve
    exact hset _ _ hinv
  | case2 s hpending hdone =>
    cases hserve
    exact hinv
  | case3 s hpending hdone err s₀ hstep => cases hserve
  | case4 s hpending hdone s₀ hstep ih =>
    exact ih (hfill s s₀ (by simpa using hdone) hinv hstep) hserve

/-- If the refill that sets `done` leaves nothing pending, a run of the loop that ends done
has handed out everything. -/
theorem pending_of_loop_done
    (hlast : ∀ s s', m.done s = false → m.pending s = [] → m.fill s = (none, s') →
      m.done s' = true → m.pending s' = []) {s : σ} (hopen : m.done s = false ∨ m.pending s = [])
    (hok : (m.loop room s).2.1 = none) (hdone : m.done (m.loop room s).2.2 = true) :
    m.pending (m.loop room s).2.2 = [] := by
  fun_induction m.loop room s with
  | case1 s => exact hopen.resolve_left (by simpa using hdone)
  | case2 room s hroom hpending count later ih =>
    have hrunning := hopen.resolve_right (length_pos_iff.mp hpending)
    exact ih (.inl (by simpa using hrunning)) hok hdone
  | case3 room s hroom hpending hend => simpa using hpending
  | case4 room s hroom hpending hend err s' hfill => cases hok
  | case5 room s hroom hpending hend s' hfill ih =>
    refine ih ?_ hok hdone
    cases hended : m.done s' with
    | false => exact .inl rfl
    | true => exact .inr (hlast s s' (by simpa using hend) (by simpa using hpending) hfill hended)

end Puller

/-- How a flow ends for a caller that is told `report err` of an error. -/
def ReadError.ofEndWith {ε' : Type*} (report : ε → ReadError ε') : Option ε → ReadError ε'
  | none => .eof
  | some err => report err

/-- `Read` into a buffer of length `room`, one piece at a time. -/
def readServing {ε' : Type*} (m : Puller σ β ε) (report : ε → ReadError ε') (room : ℕ) (s : σ) :
    ReadResult β ε' × σ :=
  if room = 0 then (⟨[], none⟩, s)
  else
    match m.serve room s with
    | (_, some err, s') => (⟨[], some (report err)⟩, s')
    | ([], none, s') => (⟨[], some .eof⟩, s')
    | (data, none, s') => (⟨data, none⟩, s')

theorem delivers_readServing {ε' : Type*} (m : Puller σ β ε) (report : ε → ReadError ε')
    (inv : σ → Prop) (hset : ∀ items s, inv s → inv (m.setPending items s))
    (hfill : ∀ s s', m.done s = false → inv s → m.fill s = (none, s') → inv s') :
    Delivers (readServing m report) inv (fun s => (m.flow s).1)
      (fun s => .ofEndWith report (m.flow s).2.1) := by
  refine .of_cases fun room s hinv => ?_
  rw [readServing]
  split
  · rename_i hroom
    exact .inr ⟨[], s, rfl, hinv, rfl, rfl, fun hpos => absurd hroom hpos.ne'⟩
  rename_i hroom
  split
  · rename_i hserve
    obtain ⟨-, hflow⟩ := Puller.flow_of_serve_error hserve
    rw [hflow]
    exact .inl ⟨_, rfl⟩
  · rename_i hserve
    rw [Puller.flow_of_serve_nil (Nat.pos_of_ne_zero hroom) hserve]
    exact .inl ⟨_, rfl⟩
  · rename_i data s₀ hne hserve
    rw [Puller.flow_of_serve hserve]
    refine .inr ⟨data, s₀, rfl, Puller.serve_invariant inv hset hfill hinv hserve, rfl, rfl,
      fun _ => hne⟩

end Streams
