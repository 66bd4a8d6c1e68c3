import S3EncryptionGateway.Crypto.Chunked.RoundTrip

/-!
# Which uploads are sealed as complete

A writer should seal the terminal record only if its source ended with
end-of-file.  It learns about its source through an exact-length read, whose
`unexpectedEof` means either a short last chunk or an error of the source of
that very value, and it does not look at an error that came with data at all.

## Strategy

`Script.settle` names the error that ends the reading and those that were passed
over on the way, and `Script.readChunks_settle` ties it to what the writer reads.
What the writer does is then a case analysis on the decisive error
(`drained_failed`, `drained_sealed`), and `rejectsTruncation_iff` reads off the
sources for which that is right: the writer is only ever wrong about a source
that ends the reading with end-of-file or `unexpectedEof` and has returned
another error by then.
-/

namespace S3EncryptionGateway.Crypto

open Encoding Streams List

/-- The authenticated terminal record has been sealed. -/
def ChunkedEncryptReader.TerminalSealed (writer : ChunkedEncryptReader) : Prop :=
  ∃ call ∈ writer.seals, call.role = .terminal

/-- A drained bound writer over `source` reports end-of-file or seals the terminal
only if the first error of the source was end-of-file, and if the source
returned any other error it reports an error and does not seal the terminal. -/
def RejectsTruncation (hkdf : Hkdf) (binding : Binding) (source : Script UInt8 CryptoError)
    (sizes : ℕ → ℕ) : Prop :=
  ∃ writer manifest fuel out ended writer',
    binding.newWriter .background source = .ok (writer, manifest) ∧
    drain (ChunkedEncryptReader.read hkdf) sizes fuel writer = (out, some ended, writer') ∧
    (ended = .eof ∨ writer'.TerminalSealed →
      (Script.returned source writer'.source).headD .eof = .eof) ∧
    ((∃ err ∈ Script.returned source writer'.source, err ≠ .eof) →
      ended ≠ .eof ∧ ¬ writer'.TerminalSealed)

/-- The sources the writer judges rightly: it never gets to the end of them, or
they end the reading with an error that is no end of data, or all their errors
up to then are end-of-file. -/
def JudgedRightly (chunkSize : ℕ) (source : Script UInt8 CryptoError) : Prop :=
  maxUint64 < (Script.settle chunkSize 0 source).delivered ∨
    (∃ e, (Script.settle chunkSize 0 source).decisive = .other e) ∨
    (Script.settle chunkSize 0 source).decisive = .eof ∧
      ∀ err ∈ (Script.settle chunkSize 0 source).passed, err = .eof

open Script

open ChunkedEncryptReader

section Truncation

variable {hkdf : Hkdf} {binding : Binding} {source : Script UInt8 CryptoError} {sizes : ℕ → ℕ}
  {fuel : ℕ} {out : Bytes} {ended : ReadError CryptoError} {writer' : ChunkedEncryptReader}

theorem running_writer (hvalid : binding.Valid) (source : Script UInt8 CryptoError) :
    ChunkedEncryptReader.Running binding.terminalAead (binding.writer .background source) :=
  ⟨⟨hvalid.format_bound, rfl, hvalid.chunkSize_pos⟩, rfl, rfl, rfl, le_rfl⟩

/-- A writer whose refills fail without having sealed the terminal reports the
failure. -/
theorem drained_failed
    (hdrain : drain (read hkdf) sizes fuel
      (binding.writer .background source) = (out, some ended, writer'))
    {e : CryptoError}
    (hfail : ((puller hkdf).refills
      (binding.writer .background source)).2.1 = some e)
    (hseals : ∀ call ∈ ((puller hkdf).refills
      (binding.writer .background source)).2.2.seals, call.role = .data) :
    ended ≠ .eof ∧ ¬ writer'.TerminalSealed := by
  have hflow : (puller hkdf).flow (binding.writer .background source) = _ :=
    Puller.flow_of_pending_eq_nil rfl
  have hne : ended ≠ .eof := by
    rintro rfl
    have heof := (drain_eof rfl hdrain).2
    rw [hflow] at heof
    rw [heof] at hfail
    cases hfail
  refine ⟨hne, ?_⟩
  rintro ⟨call, hcall, hrole⟩
  obtain ⟨e', -, hend⟩ := drain_failed rfl hdrain hne
  rw [hflow] at hend
  rw [hend] at hseals
  rw [hseals call hcall] at hrole
  cases hrole

/-- A writer whose source settles on an end of data seals the terminal and reports
end-of-file. -/
theorem drained_sealed (hvalid : binding.Valid)
    (hdrain : drain (read hkdf) sizes fuel
      (binding.writer .background source) = (out, some ended, writer'))
    (hfits : (settle binding.chunkSize 0 source).delivered ≤ maxUint64)
    (hdata : ∀ e, (settle binding.chunkSize 0 source).decisive ≠ .other e) :
    ended = .eof ∧ writer'.TerminalSealed ∧
      writer'.source = (readChunks binding.chunkSize source).2.2 := by
  obtain ⟨hdecisive, hdelivered, -⟩ := readChunks_settle hvalid.chunkSize_pos source
  have hfinish := @ChunkedEncryptReader.refills_of_fits _ hkdf _ _ _ _
    (running_writer hvalid source) rfl (by
      simp only [Binding.writer, Nat.zero_add]
      rw [hdelivered]
      exact hfits)
  rw [finishes_iff_of_not_other (by
    intro e he
    exact hdata e (Option.some.inj (hdecisive.symm.trans he)))] at hfinish
  obtain ⟨hsource, -, hnone, hseals, -⟩ := hfinish
  have hflow : (puller hkdf).flow (binding.writer .background source) = _ :=
    Puller.flow_of_pending_eq_nil rfl
  have heof : ended = .eof := by
    by_contra hne
    obtain ⟨e, -, hend⟩ := drain_failed rfl hdrain hne
    rw [hflow] at hend
    rw [hend] at hnone
    cases hnone
  subst heof
  have hend := (drain_eof rfl hdrain).2
  rw [hflow] at hend
  rw [hend] at hsource hseals
  have hlog : writer'.seals = _ := hseals
  refine ⟨rfl, ?_, hsource⟩
  rw [ChunkedEncryptReader.TerminalSealed, hlog]
  exact ⟨_, mem_append_right _ (mem_singleton_self _), rfl⟩

/-- A writer whose source settles on an error reports it. -/
theorem drained_rejected (hvalid : binding.Valid)
    (hdrain : drain (read hkdf) sizes fuel
      (binding.writer .background source) = (out, some ended, writer'))
    (hbad : maxUint64 < (settle binding.chunkSize 0 source).delivered ∨
      ∃ e, (settle binding.chunkSize 0 source).decisive = .other e) :
    ended ≠ .eof ∧ ¬ writer'.TerminalSealed := by
  have hrun := running_writer hvalid source
  obtain ⟨hdecisive, hdelivered, -⟩ := readChunks_settle hvalid.chunkSize_pos source
  rcases hread : readChunks binding.chunkSize source with ⟨chunks, err, rest⟩
  rw [hread] at hdecisive hdelivered
  rcases Nat.lt_or_ge maxUint64 (settle binding.chunkSize 0 source).delivered
    with hover | hfits
  · obtain ⟨hfail, hseals⟩ := @ChunkedEncryptReader.refills_of_overflow _ hkdf _ _ hrun _ hread
      (by simpa [Binding.writer, hdelivered] using hover) (by simp [Binding.writer])
      (Nat.zero_le _)
    exact drained_failed hdrain hfail hseals
  · obtain ⟨e, hother⟩ := hbad.resolve_left (not_lt.mpr hfits)
    rw [hother] at hdecisive
    have hfinish := @ChunkedEncryptReader.refills_of_fits _ hkdf _ _ _ _ hrun hread
      (by simpa [Binding.writer, hdelivered] using hfits)
    rw [show err = _ from hdecisive] at hfinish
    obtain ⟨-, -, hfail, hseals⟩ := hfinish
    refine drained_failed hdrain hfail ?_
    rw [hseals]
    intro call hcall
    exact role_of_mem_dataCalls (by simpa [Binding.writer] using hcall)

/-- All errors returned by the end of the chunks are end-of-file exactly when those
passed over and the decisive one are. -/
theorem returned_eof_iff (hvalid : binding.Valid) :
    (∀ err ∈ returned source (readChunks binding.chunkSize source).2.2,
        err = .eof) ↔
      (settle binding.chunkSize 0 source).decisive = .eof ∧
        ∀ err ∈ (settle binding.chunkSize 0 source).passed, err = .eof := by
  obtain ⟨-, -, hreturned | ⟨heof, hreturned⟩⟩ := readChunks_settle hvalid.chunkSize_pos source
  · rw [hreturned]
    simp only [mem_append, mem_singleton]
    constructor
    · intro hall
      exact ⟨hall _ (.inr rfl), fun err herr => hall err (.inl herr)⟩
    · rintro ⟨heof, hpassed⟩ err (herr | rfl)
      · exact hpassed err herr
      · exact heof
  · rw [hreturned]
    exact ⟨fun hall => ⟨heof, hall⟩, fun hall => hall.2⟩

theorem headD_of_forall_eof {errs : List (ReadError CryptoError)}
    (hall : ∀ err ∈ errs, err = .eof) : errs.headD .eof = .eof := by
  cases errs with
  | nil => rfl
  | cons err errs => exact hall err (mem_cons_self ..)

/-- On a source it judges rightly the writer does as it should. -/
theorem rejectsTruncation_of_judgedRightly (hvalid : binding.Valid)
    (hkeeps : KeepsReading sizes) (hright : JudgedRightly binding.chunkSize source) :
    RejectsTruncation hkdf binding source sizes := by
  obtain ⟨fuel, out, ended, writer', hdrain⟩ :=
    (advances_read hkdf).drain_ends
      (s := binding.writer .background source) rfl hkeeps
  refine ⟨_, _, fuel, out, ended, writer', Binding.newWriter_of_valid hvalid _ _, hdrain, ?_⟩
  by_cases hbad : maxUint64 < (settle binding.chunkSize 0 source).delivered ∨
      ∃ e, (settle binding.chunkSize 0 source).decisive = .other e
  · -- a writer that reports an error and seals no terminal has nothing to answer for
    obtain ⟨hne, hnot⟩ := drained_rejected hvalid hdrain hbad
    exact ⟨fun hor => (hor.elim hne hnot).elim, fun _ => ⟨hne, hnot⟩⟩
  · rw [not_or] at hbad
    have hclean : (settle binding.chunkSize 0 source).decisive = .eof ∧
        ∀ err ∈ (settle binding.chunkSize 0 source).passed, err = .eof := by
      rcases hright with hover | hother | hclean
      · exact absurd hover hbad.1
      · exact absurd hother hbad.2
      · exact hclean
    obtain ⟨-, -, hsource⟩ := drained_sealed hvalid hdrain (not_lt.mp hbad.1)
      fun e he => hbad.2 ⟨e, he⟩
    have hall := (returned_eof_iff hvalid).mpr hclean
    rw [← hsource] at hall
    refine ⟨fun _ => headD_of_forall_eof hall, ?_⟩
    rintro ⟨err, herr, hne⟩
    exact absurd (hall err herr) hne

/-- A source it does not judge rightly is sealed as complete. -/
theorem RejectsTruncation.judgedRightly (hvalid : binding.Valid)
    (hrejects : RejectsTruncation hkdf binding source sizes) :
    JudgedRightly binding.chunkSize source := by
  obtain ⟨writer, manifest, fuel, out, ended, writer', hnew, hdrain, -, hother⟩ := hrejects
  rw [Binding.newWriter_of_valid hvalid] at hnew
  cases hnew
  by_cases hbad : maxUint64 < (settle binding.chunkSize 0 source).delivered ∨
      ∃ e, (settle binding.chunkSize 0 source).decisive = .other e
  · exact hbad.elim Or.inl fun h => .inr (.inl h)
  rw [not_or] at hbad
  obtain ⟨heof, -, hsource⟩ := drained_sealed hvalid hdrain (not_lt.mp hbad.1)
    fun e he => hbad.2 ⟨e, he⟩
  refine .inr (.inr ((returned_eof_iff hvalid).mp ?_))
  rw [← hsource]
  intro err herr
  by_contra hne
  exact (hother ⟨err, herr, hne⟩).1 heof

/-- **Truncated uploads.**  The writer keeps a truncated upload from being sealed
as complete exactly for the sources it judges rightly. -/
theorem rejectsTruncation_iff (hvalid : binding.Valid) (hkeeps : KeepsReading sizes) :
    RejectsTruncation hkdf binding source sizes ↔ JudgedRightly binding.chunkSize source :=
  ⟨RejectsTruncation.judgedRightly hvalid, rejectsTruncation_of_judgedRightly hvalid hkeeps⟩

end Truncation

/-- A connection reset that the source keeps reporting is reported, and the upload
is not sealed. -/
theorem rejectsTruncation_reset :
    RejectsTruncation zeroHkdf sampleBinding
      [⟨[7], none⟩, ⟨[], some (.other (.external 104))⟩, ⟨[], some (.other (.external 104))⟩]
      (fun _ => 1) :=
  (rejectsTruncation_iff sampleBinding_valid keepsReading_one).mpr
    (.inr (.inl ⟨.external 104, by decide⟩))

/-- A client that disconnects at a chunk boundary: the body reports `unexpectedEof`
without data, and the writer seals what it has as the complete object. -/
theorem not_rejectsTruncation_disconnect :
    ¬ RejectsTruncation zeroHkdf sampleBinding [⟨[], some .unexpectedEof⟩] (fun _ => 1) := by
  intro hrejects
  have hright := RejectsTruncation.judgedRightly sampleBinding_valid hrejects
  revert hright
  simp [JudgedRightly, settle, maxUint64]

end S3EncryptionGateway.Crypto
