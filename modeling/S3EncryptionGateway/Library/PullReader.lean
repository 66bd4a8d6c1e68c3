import S3EncryptionGateway.Library.Source

/-!
# Readers that refill a pending buffer

Many streaming transformers share one loop: copy what is pending into the
caller's buffer, stop when the transformer is done, otherwise compute the next
pending piece (`fill`) and go on.  `Puller` is that pattern over an arbitrary
state, `Puller.loop` is the copy loop of one `Read` call, and `drain` is a
caller that reads until it is given an error.

## Strategy

What the callers see should not depend on the sizes of their buffers.  So a
state is given a meaning that does not mention buffers at all: `flow s` is
everything that will still come out of `s`, how it ends, and the state left
behind.  `loop_flow` says that one run of the loop takes a piece off the front
of the flow and `loop_fills` that it takes as much as it was asked for.

The one thing a flow does not show is how early the transformer decides that it
is done.  `doneAfter s` counts the items delivered before the last refill, and
`loop_done` says when the loop passes that point.
-/

namespace Streams

open List

set_option linter.unusedVariables false

variable {σ β ε : Type*}

/-- A transformer with a pending buffer.  `rank` bounds the number of refills
left. -/
structure Puller (σ β ε : Type*) where
  pending : σ → List β
  setPending : List β → σ → σ
  done : σ → Bool
  fill : σ → Option ε × σ
  rank : σ → ℕ
  pending_setPending : ∀ items s, pending (setPending items s) = items := by intros; rfl
  setPending_setPending : ∀ items others s,
    setPending items (setPending others s) = setPending items s := by intros; rfl
  setPending_pending : ∀ s, setPending (pending s) s = s := by intros; rfl
  done_setPending : ∀ items s, done (setPending items s) = done s := by intros; rfl
  rank_setPending : ∀ items s, rank (setPending items s) = rank s := by intros; rfl
  rank_fill : ∀ s s', done s = false → fill s = (none, s') → rank s' < rank s

variable {s s' : σ}

namespace Puller

attribute [simp] pending_setPending setPending_setPending setPending_pending done_setPending
  rank_setPending

variable (m : Puller σ β ε)

/-- The copy loop of one `Read` with `room` places left in the buffer. -/
def loop (room : ℕ) (s : σ) : List β × Option ε × σ :=
  if room = 0 then ([], none, s)
  else if 0 < (m.pending s).length then
    let count := min room (m.pending s).length
    let later := loop (room - count) (m.setPending ((m.pending s).drop count) s)
    ((m.pending s).take count ++ later.1, later.2)
  else if hdone : m.done s then ([], none, s)
  else
    match hfill : m.fill s with
    | (some err, s') => ([], some err, s')
    | (none, s') => loop room s'
termination_by (m.rank s, room)
decreasing_by
  · rw [m.rank_setPending]
    exact Prod.Lex.right _ (by omega)
  · exact Prod.Lex.left _ _ (m.rank_fill s _ (by simpa using hdone) hfill)

/-- Everything the refills of `s` produce, how they end, and the state left. -/
def refills (s : σ) : List β × Option ε × σ :=
  if hdone : m.done s then ([], none, s)
  else
    match hfill : m.fill s with
    | (some err, s') => ([], some err, s')
    | (none, s') =>
      let later := refills (m.setPending [] s')
      (m.pending s' ++ later.1, later.2)
termination_by m.rank s
decreasing_by
  rw [m.rank_setPending]
  exact m.rank_fill s _ (by simpa using hdone) hfill

/-- Everything that will come out of `s`, how it ends, and the state left. -/
def flow (s : σ) : List β × Option ε × σ :=
  (m.pending s ++ (m.refills (m.setPending [] s)).1, (m.refills (m.setPending [] s)).2)

/-- The number of items the refills of `s` produce before the one that sets
`done`. -/
def leadOfRefills (s : σ) : ℕ :=
  if hdone : m.done s then 0
  else
    match hfill : m.fill s with
    | (some _, _) => 0
    | (none, s') =>
      if m.done s' then 0
      else (m.pending s').length + leadOfRefills (m.setPending [] s')
termination_by m.rank s
decreasing_by
  rw [m.rank_setPending]
  exact m.rank_fill s _ (by simpa using hdone) hfill

/-- The number of items `s` delivers before the refill that sets `done`. -/
def doneAfter (s : σ) : ℕ :=
  (m.pending s).length + m.leadOfRefills (m.setPending [] s)

/-! ## One unfolding of each -/

variable {m}

theorem refills_of_done (hdone : m.done s = true) : m.refills s = ([], none, s) := by
  rw [refills, dif_pos hdone]

theorem refills_of_error {err : ε} (hdone : m.done s = false) (hfill : m.fill s = (some err, s')) :
    m.refills s = ([], some err, s') := by
  rw [refills, dif_neg (by simp [hdone])]
  split <;> simp_all

theorem refills_of_fill (hdone : m.done s = false) (hfill : m.fill s = (none, s')) :
    m.refills s = m.flow s' := by
  rw [refills, dif_neg (by simp [hdone]), flow]
  split <;> simp_all

theorem leadOfRefills_of_fill (hdone : m.done s = false) (hfill : m.fill s = (none, s')) :
    m.leadOfRefills s = if m.done s' then 0 else m.doneAfter s' := by
  rw [leadOfRefills, dif_neg (by simp [hdone]), doneAfter]
  split <;> simp_all

theorem flow_of_pending_eq_nil (hpending : m.pending s = []) : m.flow s = m.refills s := by
  have hs : m.setPending [] s = s := by
    rw [← hpending, m.setPending_pending]
  rw [flow, hs, hpending, nil_append]

theorem doneAfter_of_pending_eq_nil (hpending : m.pending s = []) :
    m.doneAfter s = m.leadOfRefills s := by
  have hs : m.setPending [] s = s := by
    rw [← hpending, m.setPending_pending]
  rw [doneAfter, hs, hpending, length_nil, Nat.zero_add]

/-- Taking items off the pending buffer takes them off the flow. -/
theorem flow_drop_pending (s : σ) (count : ℕ) :
    m.flow s =
      ((m.pending s).take count ++ (m.flow (m.setPending ((m.pending s).drop count) s)).1,
        (m.flow (m.setPending ((m.pending s).drop count) s)).2) := by
  simp [flow, ← append_assoc]

theorem flow_of_done (hdone : m.done s = true) :
    m.flow s = (m.pending s, none, m.setPending [] s) := by
  rw [flow, refills_of_done (by simpa using hdone), append_nil]

/-- What is pending comes first, whatever the next refill is. -/
theorem flow_of_fill (hdone : m.done s = false) (hfill : m.fill (m.setPending [] s) = (none, s')) :
    m.flow s = (m.pending s ++ (m.flow s').1, (m.flow s').2) := by
  rw [flow, refills_of_fill (by rw [done_setPending, hdone]) hfill]

theorem flow_of_fill_error {err : ε} (hdone : m.done s = false)
    (hfill : m.fill (m.setPending [] s) = (some err, s')) :
    m.flow s = (m.pending s, some err, s') := by
  rw [flow, refills_of_error (by rw [done_setPending, hdone]) hfill, append_nil]

/-- What holds in the state the refills leave: `inv` is kept by every refill that
goes on, and `post` holds when they end. -/
theorem refills_rule (inv post : σ → Prop) (hset : ∀ items s, inv s → inv (m.setPending items s))
    (hdone : ∀ s, m.done s = true → inv s → post s)
    (hmore : ∀ s s', m.done s = false → inv s → m.fill s = (none, s') → inv s')
    (hfail : ∀ s s' err, m.done s = false → inv s → m.fill s = (some err, s') → post s')
    (s : σ) (hinv : inv s) : post (m.refills s).2.2 := by
  fun_induction m.refills s with
  | case1 s hend => exact hdone s hend hinv
  | case2 s hend err s' hfill => exact hfail s s' err (by simpa using hend) hinv hfill
  | case3 s hend s' hfill later ih =>
    exact ih (hset _ _ (hmore s s' (by simpa using hend) hinv hfill))

/-! ## What one run of the loop does -/

/-- One run of the loop takes a piece off the front of the flow; a failing run
takes all of it. -/
theorem loop_flow (room : ℕ) (s : σ) :
    m.flow s =
      match (m.loop room s).2.1 with
      | some _ => m.loop room s
      | none =>
        ((m.loop room s).1 ++ (m.flow (m.loop room s).2.2).1,
          (m.flow (m.loop room s).2.2).2) := by
  fun_induction m.loop room s with
  | case1 s => rfl
  | case2 room s hroom hpending count later ih =>
    rw [flow_drop_pending s count, ih]
    simp only [later]
    split <;> simp
  | case3 room s hroom hpending hdone => rfl
  | case4 room s hroom hpending hdone err s' hfill =>
    have hnil : m.pending s = [] := by simpa using hpending
    rw [flow_of_pending_eq_nil hnil, refills_of_error (by simpa using hdone) hfill]
  | case5 room s hroom hpending hdone s' hfill ih =>
    have hnil : m.pending s = [] := by simpa using hpending
    rw [flow_of_pending_eq_nil hnil, refills_of_fill (by simpa using hdone) hfill, ih]

/-- A run of the loop that does not fail fills the buffer unless the transformer
has nothing left. -/
theorem loop_fills (room : ℕ) (s : σ) (hok : (m.loop room s).2.1 = none) :
    (m.loop room s).1.length = room ∨
      m.done (m.loop room s).2.2 = true ∧ m.pending (m.loop room s).2.2 = [] := by
  fun_induction m.loop room s with
  | case1 s => exact .inl rfl
  | case2 room s hroom hpending count later ih =>
    rcases ih hok with hlen | hend
    · refine .inl ?_
      simp only [length_append, length_take, later, hlen]
      omega
    · exact .inr hend
  | case3 room s hroom hpending hdone => exact .inr ⟨hdone, by simpa using hpending⟩
  | case4 room s hroom hpending hdone err s' hfill => cases hok
  | case5 room s hroom hpending hdone s' hfill ih => exact ih hok

theorem loop_length_le (room : ℕ) (s : σ) : (m.loop room s).1.length ≤ room := by
  fun_induction m.loop room s with
  | case1 s => exact le_rfl
  | case2 room s hroom hpending count later ih =>
    simp only [length_append, length_take, later] at ih ⊢
    omega
  | case3 room s hroom hpending hdone => exact Nat.zero_le _
  | case4 room s hroom hpending hdone err s' hfill => exact Nat.zero_le _
  | case5 room s hroom hpending hdone s' hfill ih => exact ih

/-- A run of the loop that fails had room left. -/
theorem loop_length_lt_of_error {room : ℕ} {err : ε} (herr : (m.loop room s).2.1 = some err) :
    (m.loop room s).1.length < room := by
  fun_induction m.loop room s with
  | case1 s => cases herr
  | case2 room s hroom hpending count later ih =>
    have hlater := ih herr
    simp only [length_append, length_take, later] at hlater ⊢
    omega
  | case3 room s hroom hpending hdone => cases herr
  | case4 room s hroom hpending hdone err s' hfill => exact Nat.pos_of_ne_zero hroom
  | case5 room s hroom hpending hdone s' hfill ih => exact ih herr

theorem loop_of_done {room : ℕ} (hdone : m.done s = true) : m.done (m.loop room s).2.2 = true := by
  fun_induction m.loop room s with
  | case1 s => exact hdone
  | case2 room s hroom hpending count later ih => exact ih (by simpa using hdone)
  | case3 room s hroom hpending hdone' => exact hdone
  | case4 room s hroom hpending hdone' err s' hfill => exact absurd hdone hdone'
  | case5 room s hroom hpending hdone' s' hfill ih => exact absurd hdone hdone'

/-- A run of the loop that does not fail takes the next `room` items. -/
theorem loop_take (room : ℕ) (s : σ) (hok : (m.loop room s).2.1 = none) :
    (m.loop room s).1 = (m.flow s).1.take room ∧
      (m.flow (m.loop room s).2.2).1 = (m.flow s).1.drop room := by
  have hflow := m.loop_flow room s
  rw [hok] at hflow
  rw [hflow]
  rcases loop_fills room s hok with hlen | ⟨hdone, hpending⟩
  · exact ⟨(take_left' hlen).symm, (drop_left' hlen).symm⟩
  have hle := m.loop_length_le room s
  rw [flow_of_done hdone, hpending, append_nil, take_of_length_le hle,
    drop_eq_nil_of_le hle]
  exact ⟨rfl, rfl⟩

/-- What every successful refill preserves, a successful run of the loop
preserves. -/
theorem loop_invariant (inv : σ → Prop) (hset : ∀ items s, inv s → inv (m.setPending items s))
    (hfill : ∀ s s', m.done s = false → inv s → m.fill s = (none, s') → inv s') (room : ℕ) (s : σ)
    (hinv : inv s) (hok : (m.loop room s).2.1 = none) : inv (m.loop room s).2.2 := by
  fun_induction m.loop room s with
  | case1 s => exact hinv
  | case2 room s hroom hpending count later ih => exact ih (hset _ _ hinv) hok
  | case3 room s hroom hpending hdone => exact hinv
  | case4 room s hroom hpending hdone err s' hstep => cases hok
  | case5 room s hroom hpending hdone s' hstep ih =>
    exact ih (hfill s s' (by simpa using hdone) hinv hstep) hok

/-- The loop sets `done` exactly when it is asked for more than `doneAfter`. -/
theorem loop_done (room : ℕ) (s : σ) (hok : (m.loop room s).2.1 = none)
    (hopen : m.done s = false) :
    if room ≤ m.doneAfter s then
      m.done (m.loop room s).2.2 = false ∧
        m.doneAfter (m.loop room s).2.2 + room = m.doneAfter s
    else m.done (m.loop room s).2.2 = true := by
  fun_induction m.loop room s with
  | case1 s => simp [hopen]
  | case2 room s hroom hpending count later ih =>
    have hafter : m.doneAfter (m.setPending ((m.pending s).drop count) s) + count =
        m.doneAfter s := by
      simp only [doneAfter, m.pending_setPending, m.setPending_setPending, length_drop]
      omega
    have hlater := ih hok (by simpa using hopen)
    by_cases hle : room ≤ m.doneAfter s
    · rw [if_pos hle]
      rw [if_pos (by omega)] at hlater
      refine ⟨hlater.1, ?_⟩
      have hleft : m.doneAfter later.2.2 + (room - count) = _ := hlater.2
      show m.doneAfter later.2.2 + room = _
      omega
    · rw [if_neg hle]
      rwa [if_neg (by omega)] at hlater
  | case3 room s hroom hpending hdone => simp [hopen] at hdone
  | case4 room s hroom hpending hdone err s' hfill => cases hok
  | case5 room s hroom hpending hdone s' hfill ih =>
    have hnil : m.pending s = [] := by simpa using hpending
    rw [doneAfter_of_pending_eq_nil hnil, leadOfRefills_of_fill hopen hfill]
    cases hlast : m.done s' with
    | true =>
      rw [if_pos rfl, if_neg (by omega)]
      exact loop_of_done hlast
    | false => simpa using ih hok hlast

end Puller

/-! ## Draining -/

/-- The error by which a caller learns how a flow ended. -/
def ReadError.ofEnd : Option ε → ReadError ε
  | none => .eof
  | some err => .other err

/-- A caller that reads with buffers of the given sizes until it is given an
error, or at most `fuel` times: what it got, the error, and the reader left. -/
def drain (read : ℕ → σ → ReadResult β ε × σ) (sizes : ℕ → ℕ) :
    ℕ → σ → List β × Option (ReadError ε) × σ
  | 0, s => ([], none, s)
  | fuel + 1, s =>
    match drain read sizes fuel s with
    | (got, some err, s') => (got, some err, s')
    | (got, none, s') =>
      let result := read (sizes fuel) s'
      (got ++ result.1.data, result.1.err, result.2)

/-- The number of items the first `n` reads ask for. -/
def asked (sizes : ℕ → ℕ) : ℕ → ℕ
  | 0 => 0
  | n + 1 => asked sizes n + sizes n

theorem asked_mono (sizes : ℕ → ℕ) {n k : ℕ} (hle : n ≤ k) : asked sizes n ≤ asked sizes k := by
  induction hle with
  | refl => exact le_rfl
  | step _ ih => exact ih.trans (Nat.le_add_right _ _)

/-- The sizes offer room again and again. -/
def KeepsReading (sizes : ℕ → ℕ) : Prop :=
  ∀ n, ∃ i, n ≤ i ∧ 0 < sizes i

variable {fuel : ℕ}

theorem drain_succ_of_none {read : ℕ → σ → ReadResult β ε × σ} {sizes : ℕ → ℕ} {got : List β}
    (hdrain : drain read sizes fuel s = (got, none, s')) :
    drain read sizes (fuel + 1) s =
      (got ++ (read (sizes fuel) s').1.data, (read (sizes fuel) s').1.err,
        (read (sizes fuel) s').2) := by
  rw [drain, hdrain]

/-- Once a drain has ended, more fuel changes nothing. -/
theorem drain_of_le {read : ℕ → σ → ReadResult β ε × σ} {sizes : ℕ → ℕ} {larger : ℕ} {got : List β}
    {err : ReadError ε} (hdrain : drain read sizes fuel s = (got, some err, s'))
    (hle : fuel ≤ larger) : drain read sizes larger s = (got, some err, s') := by
  induction hle with
  | refl => exact hdrain
  | step _ ih => rw [drain, ih]

/-- Reading on only adds to what was got. -/
theorem isPrefix_drain (read : ℕ → σ → ReadResult β ε × σ) (sizes : ℕ → ℕ) (s : σ) {larger : ℕ}
    (hle : fuel ≤ larger) : (drain read sizes fuel s).1 <+: (drain read sizes larger s).1 := by
  induction hle with
  | refl => exact prefix_rfl
  | step _ ih =>
    refine ih.trans ?_
    rw [drain]
    split
    · rename_i hdrain
      rw [hdrain]
    · rename_i hdrain
      rw [hdrain]
      exact prefix_append ..

section Drain

variable {read : ℕ → σ → ReadResult β ε × σ} {sizes : ℕ → ℕ} {s : σ}

/-- A drain that has ended was ended by one of its reads. -/
theorem exists_last_read {got : List β} {err : ReadError ε}
    (hdrain : drain read sizes fuel s = (got, some err, s')) :
    ∃ n before s₀, n < fuel ∧ drain read sizes n s = (before, none, s₀) ∧
      read (sizes n) s₀ = (⟨(read (sizes n) s₀).1.data, some err⟩, s') ∧
      got = before ++ (read (sizes n) s₀).1.data := by
  induction fuel with
  | zero => cases hdrain
  | succ fuel ih =>
    rcases hbefore : drain read sizes fuel s with ⟨before, ended, s₀⟩
    cases ended with
    | some err' =>
      rw [drain, hbefore] at hdrain
      obtain ⟨n, before', s₁, hn, hrest⟩ := ih (hbefore.trans hdrain)
      exact ⟨n, before', s₁, Nat.lt_succ_of_lt hn, hrest⟩
    | none =>
      rw [drain_succ_of_none hbefore] at hdrain
      simp only [Prod.mk.injEq] at hdrain
      obtain ⟨hgot, herr, hs⟩ := hdrain
      refine ⟨fuel, before, s₀, Nat.lt_succ_self _, hbefore, ?_, hgot.symm⟩
      rw [← hs, ← herr]

/-- A drain that is still running was running before. -/
theorem exists_running_of_le {n : ℕ} {got : List β}
    (hdrain : drain read sizes fuel s = (got, none, s')) (hle : n ≤ fuel) :
    ∃ before s₀, drain read sizes n s = (before, none, s₀) := by
  rcases hbefore : drain read sizes n s with ⟨before, ended, s₀⟩
  cases ended with
  | none => exact ⟨before, s₀, rfl⟩
  | some err =>
    rw [drain_of_le hbefore hle] at hdrain
    cases hdrain

theorem drain_ends (hkeeps : KeepsReading sizes) (bound : ℕ)
    (hbound : ∀ fuel got s', drain read sizes fuel s = (got, none, s') → got.length ≤ bound)
    (hprogress : ∀ fuel got s', drain read sizes fuel s = (got, none, s') → 0 < sizes fuel →
      (read (sizes fuel) s').1.err = none → (read (sizes fuel) s').1.data ≠ []) :
    ∃ fuel got err s', drain read sizes fuel s = (got, some err, s') := by
  by_contra hnever
  have hrunning : ∀ fuel, ∃ got s', drain read sizes fuel s = (got, none, s') := by
    intro fuel
    rcases hdrain : drain read sizes fuel s with ⟨got, ended, s'⟩
    cases ended with
    | none => exact ⟨got, s', rfl⟩
    | some err => exact absurd ⟨fuel, got, err, s', hdrain⟩ hnever
  -- the output grows without bound, one item per read with room
  have hgrow : ∀ k, ∃ fuel got s', drain read sizes fuel s = (got, none, s') ∧ k ≤ got.length := by
    intro k
    induction k with
    | zero => exact ⟨0, [], s, rfl, le_rfl⟩
    | succ k ih =>
      obtain ⟨fuel, got, s', hdrain, hk⟩ := ih
      obtain ⟨i, hi, hroom⟩ := hkeeps fuel
      obtain ⟨mid, s₁, hmid⟩ := hrunning i
      obtain ⟨last, s₂, hlast⟩ := hrunning (i + 1)
      have hmono : got.length ≤ mid.length := by
        have hinit := isPrefix_drain read sizes s hi
        rw [hdrain, hmid] at hinit
        exact hinit.length_le
      refine ⟨i + 1, last, s₂, hlast, ?_⟩
      rw [drain_succ_of_none hmid] at hlast
      simp only [Prod.mk.injEq] at hlast
      obtain ⟨hgot, herr, -⟩ := hlast
      have hpos := length_pos_iff.mpr (hprogress i mid s₁ hmid hroom herr)
      rw [← hgot, length_append]
      omega
  obtain ⟨fuel, got, s', hdrain, hk⟩ := hgrow (bound + 1)
  have := hbound fuel got s' hdrain
  omega

end Drain

end Streams
