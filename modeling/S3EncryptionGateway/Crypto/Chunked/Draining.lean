import S3EncryptionGateway.Library.Delivery
import S3EncryptionGateway.Crypto.Chunked.Encrypt
import S3EncryptionGateway.Crypto.Chunked.Decrypt

/-!
# Draining the chunked readers

What a caller gets who reads to the end, in terms of the reader's `flow`.

* **The decrypting reader** delivers its flow and then its end, whatever the
  sizes of the buffers (`ChunkedDecryptReader.delivers_read`).
* **The encrypting reader** does so too, with one exception: it answers an
  *empty* buffer with end-of-file as soon as it is done, even when part of the
  terminal record has not been delivered yet.  `drain_eof` therefore only says
  that the writer is done and that the rest of the flow is still pending, and
  `drain_position` says where in the flow that can happen.
-/

namespace S3EncryptionGateway.Crypto

open Encoding Streams List

variable {room : ℕ}

open Puller

namespace ChunkedDecryptReader

variable {hkdf : Hkdf} {r : ChunkedDecryptReader}

/-- What one `Read` does: it hands out the rest of the flow and how it ends, or goes on. -/
theorem read_cases (hkdf : Hkdf) (room : ℕ) (r : ChunkedDecryptReader) (herr : r.err = none) :
    (∃ r', r.read hkdf room =
        (⟨((puller hkdf).flow r).1, some (.ofEnd ((puller hkdf).flow r).2.1)⟩, r')) ∨
      ∃ data r', r.read hkdf room = (⟨data, none⟩, r') ∧ r'.err = none ∧
        ((puller hkdf).flow r).1 = data ++ ((puller hkdf).flow r').1 ∧
        ReadError.ofEnd ((puller hkdf).flow r').2.1 = .ofEnd ((puller hkdf).flow r).2.1 ∧
        (0 < room → data ≠ []) := by
  have hflow := loop_flow (m := puller hkdf) room r
  rcases hloop : (puller hkdf).loop room r with ⟨written, failed, r₁⟩
  rw [hloop] at hflow
  simp only [read, herr, hloop]
  by_cases hroom : room = 0
  · rw [if_pos hroom]
    exact .inr ⟨_, _, rfl, herr, rfl, rfl, fun hpos => by omega⟩
  · rw [if_neg hroom]
    cases failed with
    | some err =>
      rw [hflow]
      exact .inl ⟨_, rfl⟩
    | none =>
      have hok := loop_invariant (m := puller hkdf) (fun s => s.err = none) (fun _ _ h => h)
        (fun s s' _ h hfill => (frame_of_fill hfill).1.trans h) room r herr (by rw [hloop])
      have hend := loop_fills (m := puller hkdf) room r (by rw [hloop])
      rw [hloop] at hok hend
      rw [hflow]
      dsimp only
      split_ifs with hwritten
      · exact .inr ⟨_, _, rfl, hok, rfl, rfl, fun _ => hwritten⟩
      · have hnil : written = [] := not_not.mp hwritten
        rcases hend with hlen | ⟨hdone, hpending⟩
        · rw [hnil] at hlen
          exact absurd hlen.symm hroom
        · rw [flow_of_done hdone, hnil, hpending]
          exact .inl ⟨_, rfl⟩

/-- **A reader delivers its flow and then its end.** -/
theorem delivers_read (hkdf : Hkdf) :
    Delivers (read hkdf) (fun r => r.err = none) (fun r => ((puller hkdf).flow r).1)
      (fun r => .ofEnd ((puller hkdf).flow r).2.1) :=
  .of_cases (read_cases hkdf)

end ChunkedDecryptReader

namespace ChunkedEncryptReader

variable {hkdf : Hkdf} {r : ChunkedEncryptReader}

theorem err_of_fill (hfill : r.fill hkdf = (none, r')) : r'.err = r.err := by
  obtain ⟨-, -, -, -, -, -, -, -, -, herr, -⟩ := fill_cases hfill
  exact herr

theorem loop_of_read_running (herr : r.err = none) {data : Bytes}
    (hread : r.read hkdf room = (⟨data, none⟩, r')) :
    (puller hkdf).loop room r = (data, none, r') ∧ (0 < room → data ≠ []) := by
  rw [read, herr] at hread
  simp only at hread
  split at hread
  · cases hread
  rename_i hnot
  split at hread
  · cases hread
  rename_i written r₁ hloop
  split at hread
  · rename_i hwritten
    cases hread
    exact ⟨hloop, fun _ => hwritten⟩
  · rename_i hwritten
    have hnil : written = [] := not_not.mp hwritten
    split at hread <;> cases hread
    rename_i hopen
    refine ⟨by rw [hloop, hnil], fun hroom => ?_⟩
    have hfills := loop_fills (m := puller hkdf) room r (by rw [hloop])
    rw [hloop, hnil] at hfills
    rcases hfills with hlen | ⟨hdone, -⟩
    · simp only [length_nil] at hlen
      omega
    · exact absurd hdone hopen

theorem advances_read (hkdf : Hkdf) :
    Advances (read hkdf) (fun r => r.err = none) (fun r => ((puller hkdf).flow r).1)
      (fun r => ((puller hkdf).flow r).2) := by
  intro room r data r' herr hread
  obtain ⟨hloop, hdata⟩ := loop_of_read_running herr hread
  have hok := loop_invariant (m := puller hkdf) (fun s => s.err = none) (fun _ _ h => h)
    (fun s s' _ h hfill => (err_of_fill hfill).trans h) room r herr (by rw [hloop])
  have hflow := loop_flow (m := puller hkdf) room r
  rw [hloop] at hok hflow
  exact ⟨hok, congrArg Prod.fst hflow, (congrArg Prod.snd hflow).symm, hdata⟩

/-- A read that fails has delivered the whole flow. -/
theorem read_failed (herr : r.err = none) {data : Bytes} {err : ReadError CryptoError}
    (hread : r.read hkdf room = (⟨data, some err⟩, r')) (hne : err ≠ .eof) :
    ∃ e, err = .other e ∧ (puller hkdf).flow r = (data, some e, r') := by
  rw [read, herr] at hread
  simp only at hread
  split at hread
  · cases hread
    exact absurd rfl hne
  · split at hread
    · rename_i hloop
      cases hread
      have hflow := loop_flow (m := puller hkdf) room r
      rw [hloop] at hflow
      exact ⟨_, rfl, hflow⟩
    · split at hread
      · cases hread
      split at hread <;> cases hread
      exact absurd rfl hne

theorem loop_zero : (puller hkdf).loop 0 r = ([], none, r) := by
  rw [loop, if_pos rfl]

/-- A read that reports end-of-file delivers nothing and leaves a writer that is
done; unless the buffer was empty, nothing is pending either. -/
theorem read_eof (herr : r.err = none) {data : Bytes}
    (hread : r.read hkdf room = (⟨data, some .eof⟩, r')) :
    data = [] ∧ r'.done = true ∧ (puller hkdf).flow r = (puller hkdf).flow r' ∧
      (0 < room → r'.pending = []) ∧ (room = 0 → r' = r) := by
  rw [read, herr] at hread
  simp only at hread
  split_ifs at hread with hend
  · cases hread
    exact ⟨rfl, hend.1, rfl, fun _ => hend.2, fun _ => rfl⟩
  · split at hread
    · cases hread
    rename_i written r₁ hloop
    split at hread
    · cases hread
    rename_i hwritten
    have hnil : written = [] := not_not.mp hwritten
    split_ifs at hread with hdone
    · cases hread
      have hflow := loop_flow (m := puller hkdf) room r
      have hfills := loop_fills (m := puller hkdf) room r (by rw [hloop])
      rw [hloop, hnil] at hflow hfills
      refine ⟨rfl, hdone, hflow, fun hroom => ?_, ?_⟩
      · rcases hfills with hlen | ⟨-, hpending⟩
        · simp only [length_nil] at hlen
          omega
        · exact hpending
      · rintro rfl
        rw [loop_zero] at hloop
        cases hloop
        rfl
    · cases hread

variable {sizes : ℕ → ℕ} {fuel : ℕ} {got : Bytes} {r' : ChunkedEncryptReader}

theorem drain_running (herr : r.err = none)
    (hdrain : drain (read hkdf) sizes fuel r = (got, none, r')) :
    r'.err = none ∧
      (puller hkdf).flow r = (got ++ ((puller hkdf).flow r').1, ((puller hkdf).flow r').2) := by
  obtain ⟨herr', hout, hend⟩ := (advances_read hkdf).drain_running herr hdrain
  exact ⟨herr', Prod.ext hout hend.symm⟩

/-- A drain that ends in an error has got the whole flow, which ends in it. -/
theorem drain_failed (herr : r.err = none) {err : ReadError CryptoError}
    (hdrain : drain (read hkdf) sizes fuel r = (got, some err, r')) (hne : err ≠ .eof) :
    ∃ e, err = .other e ∧ (puller hkdf).flow r = (got, some e, r') := by
  obtain ⟨n, before, r₀, -, hbefore, hread, rfl⟩ := exists_last_read hdrain
  obtain ⟨herr₀, hflow₀⟩ := drain_running herr hbefore
  obtain ⟨e, he, hflow⟩ := read_failed herr₀ hread hne
  exact ⟨e, he, by rw [hflow₀, hflow]⟩

/-- A drain that ends in end-of-file leaves a writer that is done, with what it
has not delivered still pending. -/
theorem drain_eof (herr : r.err = none)
    (hdrain : drain (read hkdf) sizes fuel r = (got, some .eof, r')) :
    r'.done = true ∧
      (puller hkdf).flow r = (got ++ r'.pending, none, { r' with pending := [] }) := by
  obtain ⟨n, before, r₀, -, hbefore, hread, rfl⟩ := exists_last_read hdrain
  obtain ⟨herr₀, hflow₀⟩ := drain_running herr hbefore
  obtain ⟨hdata, hdone, hflow, -, -⟩ := read_eof herr₀ hread
  refine ⟨hdone, ?_⟩
  rw [hflow₀, hflow, flow_of_done hdone, hdata, append_nil]
  rfl

section Position

variable {out : Bytes} {final : ChunkedEncryptReader} (herr : r.err = none)
  (hopen : r.done = false) (hflow : (puller hkdf).flow r = (out, none, final))

include herr hopen hflow

/-- Where a drain stands that is still running: it has got what it asked for, and
the writer is done exactly when more than the data records were asked for. -/
theorem drain_position (hdrain : drain (read hkdf) sizes fuel r = (got, none, r')) :
    got = out.take (asked sizes fuel) ∧
      ((puller hkdf).flow r').1 = out.drop (asked sizes fuel) ∧
      if asked sizes fuel ≤ (puller hkdf).doneAfter r then
        r'.done = false ∧
          (puller hkdf).doneAfter r' + asked sizes fuel = (puller hkdf).doneAfter r
      else r'.done = true := by
  induction fuel generalizing got r' with
  | zero =>
    cases hdrain
    simp [asked, hflow, hopen]
  | succ fuel ih =>
    obtain ⟨before, r₀, hbefore⟩ := exists_running_of_le hdrain (Nat.le_succ fuel)
    obtain ⟨hgot₀, hrest₀, hdone₀⟩ := ih hbefore
    obtain ⟨herr₀, -⟩ := drain_running herr hbefore
    rw [drain_succ_of_none hbefore] at hdrain
    rcases hread : r₀.read hkdf (sizes fuel) with ⟨⟨data, err⟩, r₁⟩
    rw [hread] at hdrain
    simp only [Prod.mk.injEq] at hdrain
    obtain ⟨rfl, rfl, rfl⟩ := hdrain
    obtain ⟨hloop, -⟩ := loop_of_read_running herr₀ hread
    have hok : ((puller hkdf).loop (sizes fuel) r₀).2.1 = none := by rw [hloop]
    obtain ⟨htake, hdrop⟩ := loop_take (sizes fuel) r₀ hok
    rw [hloop, hrest₀] at htake hdrop
    refine ⟨?_, ?_, ?_⟩
    · rw [hgot₀, show data = _ from htake, asked, take_add]
    · rw [show ((puller hkdf).flow r₁).1 = _ from hdrop, asked, drop_drop]
    · rw [asked]
      by_cases hbefore_le : asked sizes fuel ≤ (puller hkdf).doneAfter r
      · rw [if_pos hbefore_le] at hdone₀
        have hstep := loop_done (sizes fuel) r₀ hok hdone₀.1
        have hsum := hdone₀.2
        rw [hloop] at hstep
        by_cases hle : sizes fuel ≤ (puller hkdf).doneAfter r₀
        · rw [if_pos hle] at hstep
          rw [if_pos (by omega)]
          have hleft : (puller hkdf).doneAfter r₁ + sizes fuel = _ := hstep.2
          exact ⟨hstep.1, by omega⟩
        · rw [if_neg hle] at hstep
          rw [if_neg (by omega)]
          exact hstep
      · rw [if_neg hbefore_le] at hdone₀
        have hstill := @Puller.loop_of_done _ _ _ r₀ (puller hkdf) (sizes fuel) hdone₀
        rw [hloop] at hstill
        rw [if_neg (by omega)]
        exact hstill

variable (hterminal : (puller hkdf).doneAfter r < out.length)

include hterminal

/-- A drain ends either with everything, or at an empty buffer that it offered
inside the terminal record. -/
theorem drain_end_position (hdrain : drain (read hkdf) sizes fuel r = (got, some .eof, r')) :
    ∃ n, (∃ before r₀, drain (read hkdf) sizes n r = (before, none, r₀)) ∧
      got = out.take (asked sizes n) ∧ (puller hkdf).doneAfter r < asked sizes n ∧
      (out.length ≤ asked sizes n ∨ sizes n = 0) := by
  obtain ⟨n, before, r₀, -, hbefore, hread, rfl⟩ := exists_last_read hdrain
  obtain ⟨herr₀, -⟩ := drain_running herr hbefore
  obtain ⟨hgot, hrest, hdone₀⟩ := drain_position herr hopen hflow hbefore
  obtain ⟨hdata, hdone, hsame, hpending, hzero⟩ := read_eof herr₀ hread
  have hall : 0 < sizes n → out.length ≤ asked sizes n := by
    intro hroom
    rw [hsame, flow_of_done hdone] at hrest
    exact drop_eq_nil_iff.mp (hrest.symm.trans (hpending hroom))
  have hlead : (puller hkdf).doneAfter r < asked sizes n := by
    by_contra hle
    rw [if_pos (not_lt.mp hle)] at hdone₀
    rcases Nat.eq_zero_or_pos (sizes n) with hsize | hsize
    · rw [hzero hsize, hdone₀.1] at hdone
      cases hdone
    · have := hall hsize
      omega
  refine ⟨n, ⟨before, r₀, hbefore⟩, ?_, hlead, ?_⟩
  · rw [hdata, append_nil, hgot]
  · rcases Nat.eq_zero_or_pos (sizes n) with hsize | hsize
    · exact .inr hsize
    · exact .inl (hall hsize)

/-- **When a drained writer delivers everything.**  Exactly when no empty buffer
is offered strictly inside the terminal record. -/
theorem drain_full_iff (hkeeps : KeepsReading sizes) :
    (∃ fuel r', drain (read hkdf) sizes fuel r = (out, some .eof, r')) ↔
      ∀ n, sizes n = 0 →
        ¬ ((puller hkdf).doneAfter r < asked sizes n ∧ asked sizes n < out.length) := by
  constructor
  · rintro ⟨fuel, r', hdrain⟩ n hzero ⟨hlead, hlen⟩
    obtain ⟨last, ⟨before, r₀, hbefore⟩, hgot, -, -⟩ :=
      drain_end_position herr hopen hflow hterminal hdrain
    have hall : out.length ≤ asked sizes last := by
      have := congrArg List.length hgot
      rw [length_take] at this
      omega
    -- so the empty buffer came before the last read, and would have ended the drain
    have hlt : n < last := by
      by_contra hge
      have := asked_mono sizes (not_lt.mp hge)
      omega
    obtain ⟨mid, r₁, hmid⟩ := exists_running_of_le hbefore hlt
    obtain ⟨start, r₂, hstart⟩ := exists_running_of_le hbefore (Nat.le_of_lt hlt)
    obtain ⟨-, -, hdone⟩ := drain_position herr hopen hflow hstart
    obtain ⟨herr₂, -⟩ := drain_running herr hstart
    rw [if_neg (by omega)] at hdone
    rw [drain_succ_of_none hstart, hzero, read, herr₂] at hmid
    simp only [loop_zero, hdone, ne_eq, not_true_eq_false, if_true, if_false, ite_self] at hmid
    cases hmid
  · intro hnone
    obtain ⟨fuel, got, err, r', hdrain⟩ := (advances_read hkdf).drain_ends herr hkeeps
    have heof : err = .eof := by
      by_contra hne
      obtain ⟨e, -, hfail⟩ := drain_failed herr hdrain hne
      rw [hflow] at hfail
      cases hfail
    subst heof
    obtain ⟨n, -, hgot, hlead, hend⟩ := drain_end_position herr hopen hflow hterminal hdrain
    have hall : out.length ≤ asked sizes n := by
      rcases hend with hall | hzero
      · exact hall
      · by_contra hlt
        exact hnone n hzero ⟨hlead, not_le.mp hlt⟩
    rw [take_of_length_le hall] at hgot
    exact ⟨fuel, r', by rw [hdrain, hgot]⟩

end Position

end ChunkedEncryptReader

end S3EncryptionGateway.Crypto
