import S3EncryptionGateway.Library.Delivery

/-!
# Reading everything, up to a limit

`readAll` reads to the end and gives the data, `limitRead` is a reader that ends after a
number of items, and `listRead` a reader over items in memory.  Callers that refuse inputs
above some size combine them: they read one item more than they accept.  `Script.readToEnd` is
the same for a source given by its script, where the buffers do not matter.

`Delivers.limit` says what comes through a limit, and `Delivers.readAll_eq` and
`Delivers.exists_readAll` that reading to the end gives all of it, whatever the buffers.
-/

namespace Streams

open List

variable {σ β ε : Type*} (read : ℕ → σ → ReadResult β ε × σ)

/-- Read at most `s.1` items in all. -/
def limitRead (room : ℕ) (s : ℕ × σ) : ReadResult β ε × (ℕ × σ) :=
  if s.1 = 0 then (⟨[], some .eof⟩, s)
  else
    let (result, s') := read (min room s.1) s.2
    (result, (s.1 - result.data.length, s'))

/-- Read items that are in memory. -/
def listRead (room : ℕ) : List β → ReadResult β ε × List β
  | [] => (⟨[], some .eof⟩, [])
  | item :: items => (⟨(item :: items).take room, none⟩, (item :: items).drop room)

/-- Read to the end with buffers of the given sizes; `none` while that is not reached. -/
def readAll (sizes : ℕ → ℕ) (fuel : ℕ) (s : σ) : Option (Except (ReadError ε) (List β)) :=
  match drain read sizes fuel s with
  | (_, none, _) => none
  | (data, some .eof, _) => some (.ok data)
  | (_, some err, _) => some (.error err)

/-- No read gives more than there is room for. -/
def InRoom (inv : σ → Prop) : Prop :=
  ∀ room s, inv s → (read room s).1.data.length ≤ room

theorem delivers_listRead : Delivers (listRead (β := β) (ε := ε)) (fun _ => True) id
    (fun _ => .eof) := by
  refine .of_cases ?_
  rintro room (_ | ⟨item, items⟩) -
  · exact .inl ⟨[], rfl⟩
  · refine .inr ⟨_, _, rfl, trivial, (take_append_drop room _).symm, rfl, ?_⟩
    intro hroom hnil
    have hlen := congrArg List.length hnil
    rw [length_take, length_cons, length_nil] at hlen
    omega

theorem inRoom_listRead : InRoom (listRead (β := β) (ε := ε)) fun _ => True := by
  rintro room (_ | ⟨item, items⟩) -
  · exact Nat.zero_le _
  · exact length_take_le _ _

theorem inRoom_readServing {ε' : Type*} (m : Puller σ β ε) (report : ε → ReadError ε')
    (inv : σ → Prop) : InRoom (readServing m report) inv := by
  rintro room s -
  have hserved : (m.serve room s).1.length ≤ room := by
    fun_induction m.serve room s with
    | case1 s hpending => exact length_take_le _ _
    | case2 s hpending hdone => exact Nat.zero_le _
    | case3 s hpending hdone err s' hfill => exact Nat.zero_le _
    | case4 s hpending hdone s' hfill ih => exact ih
  rw [readServing]
  split
  · exact Nat.zero_le _
  rcases hserve : m.serve room s with ⟨_ | ⟨item, items⟩, _ | err, s'⟩
  · exact Nat.zero_le _
  · exact Nat.zero_le _
  · rw [hserve] at hserved
    exact hserved
  · exact Nat.zero_le _

namespace Delivers

variable {read : ℕ → σ → ReadResult β ε × σ} {inv : σ → Prop} {out : σ → List β}
  {ending : σ → ReadError ε} {sizes : ℕ → ℕ} {s : σ}

/-- **Through a limit** comes what is within it. -/
theorem limit (hdelivers : Delivers read inv out ending) (hroom : InRoom read inv) :
    Delivers (limitRead read) (fun s => inv s.2 ∧ ending s.2 = .eof)
      (fun s => (out s.2).take s.1) (fun _ => .eof) := by
  refine .of_cases ?_
  rintro room ⟨left, s⟩ ⟨hinv, hend⟩
  rw [limitRead]
  split
  · rename_i hnone
    rw [show left = 0 from hnone]
    exact .inl ⟨_, rfl⟩
  rename_i hleft
  rcases hinner : read (min room left) s with ⟨⟨data, err⟩, s₀⟩
  have hfits := hroom (min room left) s hinv
  simp only [hinner] at hfits ⊢
  cases err with
  | none =>
    obtain ⟨hinv', hout, hending, hne⟩ := hdelivers.running hinv hinner
    refine .inr ⟨data, _, rfl, ⟨hinv', hending.trans hend⟩, ?_, trivial,
      fun hsome => hne (by omega)⟩
    rw [hout, take_append, take_of_length_le (by omega)]
  | some err =>
    obtain ⟨rfl, rfl⟩ := hdelivers.ended hinv hinner
    have hall : (out s).length ≤ left := hfits.trans (min_le_right _ _)
    rw [take_of_length_le hall, hend]
    exact .inl ⟨_, rfl⟩

variable (hdelivers : Delivers read inv out ending) (hinv : inv s) (hend : ending s = .eof)

include hdelivers hinv hend

theorem readAll_eq {fuel : ℕ} {result : Except (ReadError ε) (List β)}
    (hread : readAll read sizes fuel s = some result) : result = .ok (out s) := by
  rw [readAll] at hread
  split at hread <;> cases hread
  rename_i hdrain
  rw [(hdelivers.drain_ended hinv hdrain).1]
  · rename_i err _ hne hdrain
    exact absurd ((hdelivers.drain_ended hinv hdrain).2.trans hend) hne

theorem exists_readAll (hkeeps : KeepsReading sizes) :
    ∃ fuel, readAll read sizes fuel s = some (.ok (out s)) := by
  obtain ⟨fuel, s', hdrain⟩ := hdelivers.drain hinv hkeeps
  exact ⟨fuel, by rw [readAll, hdrain, hend]⟩

end Delivers

end Streams
