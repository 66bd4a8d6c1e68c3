import S3EncryptionGateway.Library.Source

/-!
# Sources of a declared length

`EndsAfter n script` says that the first results of a source are `n` items and an
end.  An exact-length read drops an error that comes with the last item it wants, so
it follows a source only if that error comes again at the next read: `Repeats`.  For
such sources a read that fails shows another length, and one that succeeds leaves
the rest of the length to the rest of the source (`endsAfter_readFullLoop`).
-/

namespace Streams.Script

open List

variable {β ε : Type*}

/-- The source gives `n` items and then ends. -/
def EndsAfter : ℕ → Script β ε → Prop
  | n, [] => n = 0
  | n, ⟨data, none⟩ :: rest => data.length ≤ n ∧ EndsAfter (n - data.length) rest
  | n, ⟨data, some err⟩ :: _ => data.length = n ∧ err = .eof

/-- An error that comes with data is the next result as well. -/
def Repeats : Script β ε → Prop
  | [] => True
  | ⟨_, none⟩ :: rest => Repeats rest
  | ⟨data, some err⟩ :: rest => data = [] ∨ rest.headD ⟨[], some .eof⟩ = ⟨[], some err⟩

/-- A clean source ends after its data. -/
theorem Clean.endsAfter {script : Script β ε} (hclean : Clean script) :
    Repeats script ∧ EndsAfter (bytes script).length script := by
  induction script with
  | nil => exact ⟨trivial, rfl⟩
  | cons result rest ih =>
    obtain ⟨data, err⟩ := result
    rw [bytes_cons, length_append]
    cases err with
    | none =>
      obtain ⟨hrepeats, hends⟩ := ih hclean
      exact ⟨hrepeats, Nat.le_add_right _ _, by rwa [Nat.add_sub_cancel_left]⟩
    | some err =>
      cases err with
      | eof =>
        rw [bytes_of_forall_eof hclean]
        refine ⟨.inr ?_, rfl, rfl⟩
        cases rest with
        | nil => rfl
        | cons later rest => exact hclean later (mem_cons_self ..)
      | unexpectedEof => exact hclean.elim
      | other err => exact hclean.elim

/-- A source that has to repeat its error ends if the error is an end. -/
private theorem repeated {n : ℕ} {err : ReadError ε} {rest : Script β ε}
    (hnext : rest.headD ⟨[], some .eof⟩ = ⟨[], some err⟩) :
    Repeats rest ∧ (EndsAfter n rest ↔ n = 0 ∧ err = .eof) := by
  cases rest with
  | nil =>
    cases hnext
    simp [Repeats, EndsAfter]
  | cons result rest =>
    rw [headD_cons] at hnext
    subst hnext
    simp [Repeats, EndsAfter, eq_comm]

/-- What an exact-length read says about a source that should still give `n` items. -/
theorem endsAfter_readFullLoop {want n : ℕ} {script : Script β ε} {got : List β}
    (hgot : got.length ≤ want) (hle : want ≤ got.length + n) (hrepeats : Repeats script) :
    match readFullLoop want script got with
    | (_, some _, _) => ¬EndsAfter n script
    | (_, none, rest) =>
      Repeats rest ∧ (EndsAfter n script ↔ EndsAfter (got.length + n - want) rest) := by
  induction script generalizing got n with
  | nil =>
    by_cases hfull : want ≤ got.length
    · simp only [readFullLoop, outcome, if_pos hfull, EndsAfter]
      exact ⟨trivial, by omega⟩
    · simp only [readFullLoop, outcome, if_neg hfull, EndsAfter]
      omega
  | cons result rest ih =>
    obtain ⟨data, err⟩ := result
    by_cases hfull : want ≤ got.length
    · simp only [readFullLoop, if_pos hfull, show got.length + n - want = n by omega]
      exact ⟨hrepeats, trivial⟩
    by_cases hlong : want < (got ++ data).length
    · -- the result is longer than what is wanted, and the rest of it stays
      simp only [readFullLoop, if_neg hfull, if_pos hlong]
      rw [length_append] at hlong
      cases err with
      | none =>
        refine ⟨hrepeats, ?_⟩
        simp only [EndsAfter, length_drop]
        rw [show got.length + n - want - (data.length - (want - got.length)) = n - data.length by
          omega]
        exact and_congr_left fun _ => by omega
      | some err =>
        refine ⟨.inr (hrepeats.resolve_left (ne_nil_of_length_pos (by omega))), ?_⟩
        simp only [EndsAfter, length_drop]
        exact and_congr_left fun _ => by omega
    simp only [readFullLoop, if_neg hfull, if_neg hlong]
    rw [length_append] at hlong
    cases err with
    | none =>
      have hnext := @ih (n - data.length) (got ++ data) (by rw [length_append]; omega)
        (by rw [length_append]; omega) hrepeats
      rw [length_append, show got.length + data.length + (n - data.length) = got.length + n by
        omega] at hnext
      simp only [EndsAfter, show data.length ≤ n by omega, true_and]
      exact hnext
    | some err =>
      by_cases hwanted : want ≤ (got ++ data).length
      · simp only [outcome, if_pos hwanted]
        rw [length_append] at hwanted
        obtain ⟨hrest, hends⟩ := @repeated _ _ (got.length + n - want) _ _
          (hrepeats.resolve_left (ne_nil_of_length_pos (by omega)))
        refine ⟨hrest, ?_⟩
        rw [hends, EndsAfter]
        exact and_congr_left fun _ => by omega
      · simp only [outcome, if_neg hwanted]
        rw [length_append] at hwanted
        rintro ⟨hlen, -⟩
        omega

/-- A read of one more item finds the end exactly if the source is at its end. -/
theorem readFull_one_iff {script : Script β ε} :
    (readFull 1 script).1 = [] ∧ (readFull 1 script).2.1 = some .eof ↔ EndsAfter 0 script := by
  rw [readFull]
  induction script with
  | nil => simp [readFullLoop, outcome, stopError, EndsAfter]
  | cons result rest ih =>
    obtain ⟨data, err⟩ := result
    rcases data with _ | ⟨item, _ | ⟨item', data⟩⟩
    · cases err with
      | none => simpa [readFullLoop, EndsAfter] using ih
      | some err => cases err <;> simp [readFullLoop, outcome, stopError, EndsAfter]
    · cases err <;> cases rest <;> simp [readFullLoop, EndsAfter]
    · cases err <;> simp [readFullLoop, EndsAfter]

end Streams.Script
