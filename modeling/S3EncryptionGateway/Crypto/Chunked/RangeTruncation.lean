import S3EncryptionGateway.Crypto.Chunked.RangeDecrypt

/-!
# Ranged reads of sources that end early

A ranged read has promised a length before the first record arrives.  This module asks when
`RangeDecryptReader` may report the end of its data before it has kept that promise.

## Strategy

* Whatever its source does, a reader hands out the beginning of its flow, as far as the range
  goes, and then reports the end if the range is complete, or else what ended the flow
  (`RangeDecryptReader.delivers_read`).
* `RangeCursor.arrival` is what one exact-length read of the source brings: something that is
  refused, the clean end of the source, or a record that opens.  `silentlyShort` walks over the
  records of the range with it and tells whether the source ends, or a record that opened was
  too short, before anything is refused.
* Every record contributes at most its share of the range, so the flow is short exactly if a
  record is (`flow_short_iff`, by induction over the records left).
-/

namespace S3EncryptionGateway.Crypto

set_option linter.unusedVariables false

open Encoding Streams List

/-- An opened record is shorter than its ciphertext by the tag. -/
def Aead.Shortens (aead : Aead) : Prop :=
  ∀ nonce ciphertext aad plaintext, aead.opened nonce ciphertext aad = some plaintext →
    plaintext.length ≤ ciphertext.length - tagSize

/-! ## Record by record -/

/-- What the next record of the range turns out to be. -/
inductive Arrival where
  /-- The source fails, or the record does not open, or it does not reach the range. -/
  | refused
  | ended
  | accepted (length : ℕ) (source : Script UInt8 CryptoError)

variable (source : Script UInt8 CryptoError)

/-- A record that was read, with the source behind it. -/
def Arrival.ofOpened : Option Bytes → Arrival
  | none => .refused
  | some plaintext => .accepted plaintext.length source

open RangeCursor

variable (source : Script UInt8 CryptoError)

namespace RangeCursor

/-- The plaintext of a record, if it opens and reaches the range. -/
def opens (hkdf : Hkdf) (c : RangeCursor) (record : Bytes) : Option Bytes :=
  match c.nonceAndAad hkdf with
  | .error _ => none
  | .ok (nonce, aad) =>
    (c.aead.opened nonce record aad).filter fun plaintext =>
      ¬(c.currentChunkIndex = c.range.startChunk ∧ plaintext.length ≤ c.range.startOffset)

/-- The read of the next record, and whether it opens. -/
def arrival (hkdf : Hkdf) (c : RangeCursor) : Arrival :=
  match c.expectedSize with
  | .error _ => .refused
  | .ok want =>
    match c.source.readFull want with
    | (_, some (.other _), _) => .refused
    | (data, err, source) =>
      if data = [] ∧ err = some .eof then .ended
      else if err = some .unexpectedEof ∧ c.manifest.version = chunkedFormatV2 ∧
          c.boundV2 = false then .refused
      else .ofOpened source (c.opens hkdf data)

variable (c : RangeCursor)

def next (source : Script UInt8 CryptoError) : RangeCursor :=
  { c with
    source := source
    currentChunkIndex := c.currentChunkIndex + 1 }

/-- The bytes the range needs the current record to have. -/
def need : ℕ :=
  if c.currentChunkIndex = c.range.endChunk then c.range.endOffset + 1 else c.chunkSize

/-- The number of records of the range that are still to come. -/
def recordsLeft : ℕ := c.range.endChunk + 1 - c.currentChunkIndex

/-- Over the next `records` records: the source ends, or a record opens that is shorter than the
range needs, and nothing is refused. -/
def shortOver (hkdf : Hkdf) : ℕ → RangeCursor → Bool → Bool
  | 0, _, short => short
  | records + 1, c, short =>
    match c.arrival hkdf with
    | .refused => false
    | .ended => true
    | .accepted length source =>
      shortOver hkdf records (c.next source) (short || decide (length < c.need))

/-- The source ends too early, or has a record that is too short, without anything being
refused. -/
def silentlyShort (hkdf : Hkdf) (c : RangeCursor) : Bool :=
  shortOver hkdf c.recordsLeft c false

section Fill

variable {hkdf : Hkdf} {c : RangeCursor}

theorem expectedSize_le {want : ℕ} (hsize : c.expectedSize = .ok want) :
    want ≤ c.chunkSize + tagSize := by
  unfold expectedSize at hsize
  split at hsize
  · split at hsize
    · cases hsize
    split at hsize
    · cases hsize
    simp only at hsize
    split at hsize
    · cases hsize
      omega
    · cases hsize
      exact le_rfl
  · cases hsize
    exact le_rfl

theorem openRecord_of_opens_eq_none {record : Bytes} (hnone : c.opens hkdf record = none) :
    ∃ err c', { c with source := source }.openRecord hkdf record = (some err, c') := by
  have hsame : ({ c with source := source } : RangeCursor).nonceAndAad hkdf =
      c.nonceAndAad hkdf := rfl
  unfold opens at hnone
  unfold openRecord
  rw [hsame]
  cases hnonce : c.nonceAndAad hkdf with
  | error err => exact ⟨_, _, rfl⟩
  | ok pair =>
    obtain ⟨nonce, aad⟩ := pair
    rw [hnonce] at hnone
    simp only at hnone ⊢
    cases hopened : c.aead.opened nonce record aad with
    | none => exact ⟨_, _, rfl⟩
    | some plaintext =>
      rw [hopened] at hnone
      simp only [Option.filter_some, ite_eq_right_iff, reduceCtorEq, imp_false,
        decide_eq_true_eq, not_not] at hnone
      simp only [if_pos hnone]
      exact ⟨_, _, rfl⟩

theorem openRecord_of_opens {record plaintext : Bytes}
    (hopens : c.opens hkdf record = some plaintext) :
    (c.aead.Shortens → plaintext.length ≤ record.length - tagSize) ∧
      (c.currentChunkIndex = c.range.startChunk → c.range.startOffset < plaintext.length) ∧
      { c with source := source }.openRecord hkdf record = (none, { c with
        source := source
        currentChunk := c.currentChunk ++ c.trim plaintext
        currentChunkIndex := c.currentChunkIndex + 1 }) := by
  have hsame : ({ c with source := source } : RangeCursor).nonceAndAad hkdf =
      c.nonceAndAad hkdf := rfl
  unfold opens at hopens
  unfold openRecord
  rw [hsame]
  cases hnonce : c.nonceAndAad hkdf with
  | error err =>
    rw [hnonce] at hopens
    cases hopens
  | ok pair =>
    obtain ⟨nonce, aad⟩ := pair
    rw [hnonce] at hopens
    simp only at hopens ⊢
    rw [Option.filter_eq_some_iff, decide_eq_true_eq] at hopens
    obtain ⟨hopened, hreaches⟩ := hopens
    refine ⟨fun hshortens => hshortens nonce record aad plaintext hopened, fun hstart => ?_, ?_⟩
    · by_contra hle
      exact hreaches ⟨hstart, by omega⟩
    · simp only [hopened, if_neg hreaches]
      rfl

/-- The result of a turn, for each arrival. -/
def Explains (c : RangeCursor) (result : Option RangeError × RangeCursor) : Arrival → Prop
  | .refused => ∃ err c', result = (some err, c')
  | .ended => ∃ source, result = (none, { c with source := source, closed := true })
  | .accepted length source => ∃ plaintext : Bytes, plaintext.length = length ∧
      (c.aead.Shortens → plaintext.length ≤ c.chunkSize) ∧
      (c.currentChunkIndex = c.range.startChunk → c.range.startOffset < plaintext.length) ∧
      result = (none, { c with
        source := source
        currentChunk := c.currentChunk ++ c.trim plaintext
        currentChunkIndex := c.currentChunkIndex + 1 })

theorem explains_openRecord (hkdf : Hkdf) {record : Bytes} (source : Script UInt8 CryptoError)
    (hlen : record.length ≤ c.chunkSize + tagSize) :
    c.Explains ({ c with source := source }.openRecord hkdf record)
      (.ofOpened source (c.opens hkdf record)) := by
  cases hopens : c.opens hkdf record with
  | none => exact openRecord_of_opens_eq_none source hopens
  | some plaintext =>
    obtain ⟨hshort, hreaches, hopen⟩ := openRecord_of_opens source hopens
    exact ⟨plaintext, rfl, fun hshortens => (hshort hshortens).trans (by omega), hreaches, hopen⟩

/-- What a turn does with the record that arrives. -/
theorem explains_fill (hkdf : Hkdf) (hinside : c.currentChunkIndex ≤ c.range.endChunk) :
    c.Explains (c.fill hkdf) (c.arrival hkdf) := by
  unfold arrival fill
  rw [if_neg (not_lt.mpr hinside)]
  cases hsize : c.expectedSize with
  | error err => exact ⟨_, _, rfl⟩
  | ok want =>
    rcases hread : c.source.readFull want with ⟨data, err, source⟩
    have hlen : data.length ≤ c.chunkSize + tagSize := by
      have hle := Script.readFull_length_le want c.source
      rw [hread] at hle
      exact hle.trans (expectedSize_le hsize)
    have hrecord := explains_openRecord hkdf source hlen
    -- the four ways an exact-length read ends
    rcases err with _ | _ | _ | err
    · simp only [reduceCtorEq, and_false, false_and, if_false, hread]
      exact hrecord
    · by_cases hdata : data = []
      · simp only [hdata, and_self, if_true, hread]
        exact ⟨source, rfl⟩
      · simp only [hdata, false_and, if_false, reduceCtorEq, Option.some.injEq, hread]
        exact hrecord
    · by_cases hunbound : c.manifest.version = chunkedFormatV2 ∧ c.boundV2 = false
      · simp only [hunbound, hread, reduceCtorEq, Option.some.injEq, and_false, if_false,
          and_self, if_true]
        exact ⟨_, _, rfl⟩
      · simp only [hunbound, hread, reduceCtorEq, Option.some.injEq, and_false, if_false]
        exact hrecord
    · simp only [hread]
      exact ⟨_, _, rfl⟩

end Fill

/-! ## The flow of a short source -/

/-- A cursor between two records of a range that is in order. -/
structure Between (c : RangeCursor) : Prop where
  open_eq : c.closed = false
  pending_eq : c.currentChunk = []
  start_le : c.range.startChunk ≤ c.currentChunkIndex
  le_end : c.currentChunkIndex ≤ c.range.endChunk + 1
  startOffset_lt : c.range.startOffset < c.chunkSize
  endOffset_lt : c.range.endOffset < c.chunkSize
  offsets_le : c.range.startChunk = c.range.endChunk → c.range.startOffset ≤ c.range.endOffset
  shortens : c.aead.Shortens

/-- The bytes of the current record in front of the range. -/
def skip : ℕ :=
  if c.currentChunkIndex = c.range.startChunk then c.range.startOffset else 0

/-- The bytes of the range that are in the records still to come. -/
def owed : ℕ :=
  if c.range.endChunk < c.currentChunkIndex then 0
  else (c.range.endChunk - c.currentChunkIndex) * c.chunkSize + (c.range.endOffset + 1) - c.skip

section Flow

variable {hkdf : Hkdf} {c : RangeCursor}

theorem Between.next (hbetween : c.Between) (hinside : c.currentChunkIndex ≤ c.range.endChunk)
    (source : Script UInt8 CryptoError) : (c.next source).Between :=
  { hbetween with
    start_le := hbetween.start_le.trans (Nat.le_succ _)
    le_end := Nat.succ_le_succ hinside }

theorem Between.flow_of_end (hkdf : Hkdf) (hbetween : c.Between)
    (hend : c.range.endChunk < c.currentChunkIndex) :
    ((puller hkdf).flow c).1 = [] ∧ ((puller hkdf).flow c).2.1 = none := by
  have hfill : c.fill hkdf = (none, { c with closed := true }) := by
    rw [fill, if_pos hend]
  have hflow := Puller.flow_of_pending_eq_nil (m := puller hkdf) hbetween.pending_eq
  rw [hflow, Puller.refills_of_fill (m := puller hkdf) hbetween.open_eq hfill,
    Puller.flow_of_done (m := puller hkdf) rfl]
  exact ⟨hbetween.pending_eq, rfl⟩

/-- The flow at a record, by what arrives. -/
def FlowExplains (hkdf : Hkdf) (c : RangeCursor) : Arrival → Prop
  | .refused => ((puller hkdf).flow c).1 = [] ∧ ((puller hkdf).flow c).2.1 ≠ none
  | .ended => ((puller hkdf).flow c).1 = [] ∧ ((puller hkdf).flow c).2.1 = none
  | .accepted length source => ∃ plaintext : Bytes, plaintext.length = length ∧
      length ≤ c.chunkSize ∧
      (c.currentChunkIndex = c.range.startChunk → c.range.startOffset < length) ∧
      ((puller hkdf).flow c).1 = c.trim plaintext ++ ((puller hkdf).flow (c.next source)).1 ∧
      ((puller hkdf).flow c).2.1 = ((puller hkdf).flow (c.next source)).2.1

theorem Between.flowExplains (hkdf : Hkdf) (hbetween : c.Between)
    (hinside : c.currentChunkIndex ≤ c.range.endChunk) :
    c.FlowExplains hkdf (c.arrival hkdf) := by
  have hfill := explains_fill hkdf hinside
  have hflow := Puller.flow_of_pending_eq_nil (m := puller hkdf) hbetween.pending_eq
  cases harrival : c.arrival hkdf with
  | refused =>
    rw [harrival] at hfill
    obtain ⟨err, c', hfail⟩ := hfill
    rw [FlowExplains, hflow, Puller.refills_of_error (m := puller hkdf) hbetween.open_eq hfail]
    exact ⟨rfl, Option.some_ne_none err⟩
  | ended =>
    rw [harrival] at hfill
    obtain ⟨source, hend⟩ := hfill
    rw [FlowExplains, hflow, Puller.refills_of_fill (m := puller hkdf) hbetween.open_eq hend,
      Puller.flow_of_done (m := puller hkdf) rfl]
    exact ⟨hbetween.pending_eq, rfl⟩
  | accepted length source =>
    rw [harrival] at hfill
    obtain ⟨plaintext, hlength, hshort, hreaches, hnext⟩ := hfill
    have hclear : (puller hkdf).setPending [] { c with
        source := source
        currentChunk := c.currentChunk ++ c.trim plaintext
        currentChunkIndex := c.currentChunkIndex + 1 } = c.next source := by
      change RangeCursor.mk .. = RangeCursor.mk ..
      rw [hbetween.pending_eq]
    have hpending : (puller hkdf).flow (c.next source) = (puller hkdf).refills (c.next source) :=
      Puller.flow_of_pending_eq_nil (m := puller hkdf) hbetween.pending_eq
    refine ⟨plaintext, hlength, hlength ▸ hshort hbetween.shortens,
      fun hstart => hlength ▸ hreaches hstart, ?_⟩
    rw [hflow, Puller.refills_of_fill (m := puller hkdf) hbetween.open_eq hnext, Puller.flow,
      hclear, hpending]
    refine ⟨?_, rfl⟩
    change (c.currentChunk ++ c.trim plaintext) ++ _ = _
    rw [hbetween.pending_eq, nil_append]

theorem length_trim (c : RangeCursor) (plaintext : Bytes) :
    (c.trim plaintext).length =
      if c.currentChunkIndex = c.range.endChunk then
        min (plaintext.length - c.skip) (c.range.endOffset + 1)
      else plaintext.length - c.skip := by
  have hdrop : (if c.currentChunkIndex = c.range.startChunk then
      plaintext.drop c.range.startOffset else plaintext).length = plaintext.length - c.skip := by
    unfold skip
    split
    · rw [length_drop]
    · rw [Nat.sub_zero]
  unfold trim
  generalize (if c.currentChunkIndex = c.range.startChunk then
      plaintext.drop c.range.startOffset else plaintext) = chunkData at hdrop ⊢
  dsimp only
  by_cases hend : c.currentChunkIndex = c.range.endChunk
  · rw [if_pos hend]
    split_ifs with hcut
    · rw [length_take, hdrop, min_comm]
    · have hshort : ¬c.range.endOffset < chunkData.length := fun h => hcut ⟨hend, h⟩
      omega
  · rw [if_neg fun h => hend h.1, hdrop, if_neg hend]

theorem Between.skip_lt (hbetween : c.Between) : c.skip < c.chunkSize := by
  have hstart := hbetween.startOffset_lt
  unfold skip
  split <;> omega

theorem Between.skip_next (hbetween : c.Between) : (c.next source).skip = 0 := by
  have hstart := hbetween.start_le
  refine if_neg ?_
  change c.currentChunkIndex + 1 ≠ c.range.startChunk
  omega

theorem owed_of_eq (hend : c.currentChunkIndex = c.range.endChunk) :
    c.owed = c.range.endOffset + 1 - c.skip := by
  rw [owed, if_neg (by omega), hend, Nat.sub_self, Nat.zero_mul, Nat.zero_add]

/-- What is owed at a record is its share and what is owed behind it. -/
theorem Between.owed_eq (hbetween : c.Between) (hlt : c.currentChunkIndex < c.range.endChunk)
    (source : Script UInt8 CryptoError) :
    c.owed = c.chunkSize - c.skip + (c.next source).owed := by
  have hskip := hbetween.skip_lt
  have hnext : (c.next source).owed =
      (c.range.endChunk - (c.currentChunkIndex + 1)) * c.chunkSize + (c.range.endOffset + 1) := by
    rw [owed, hbetween.skip_next, Nat.sub_zero]
    exact if_neg (show ¬c.range.endChunk < c.currentChunkIndex + 1 by omega)
  have hsplit : (c.range.endChunk - c.currentChunkIndex) * c.chunkSize =
      (c.range.endChunk - (c.currentChunkIndex + 1)) * c.chunkSize + c.chunkSize := by
    rw [← Nat.succ_mul]
    congr 1
    omega
  rw [hnext, owed, if_neg (by omega), hsplit]
  omega

theorem Between.length_flow_le (hkdf : Hkdf) (hbetween : c.Between)
    (hbehind : c.range.startChunk < c.currentChunkIndex) :
    ((puller hkdf).flow c).1.length ≤ c.owed := by
  generalize hleft : c.recordsLeft = records
  -- one record per step
  induction records generalizing c with
  | zero =>
    rw [recordsLeft] at hleft
    rw [(hbetween.flow_of_end hkdf (by omega)).1]
    exact Nat.zero_le _
  | succ records ih =>
    rw [recordsLeft] at hleft
    have hinside : c.currentChunkIndex ≤ c.range.endChunk := by omega
    have hflow := hbetween.flowExplains hkdf hinside
    cases harrival : c.arrival hkdf with
    | refused =>
      rw [harrival] at hflow
      rw [hflow.1]
      exact Nat.zero_le _
    | ended =>
      rw [harrival] at hflow
      rw [hflow.1]
      exact Nat.zero_le _
    | accepted length source =>
      rw [harrival] at hflow
      obtain ⟨plaintext, hlength, hle, -, hout, -⟩ := hflow
      have hnext := ih (hbetween.next hinside source)
        (show c.range.startChunk < c.currentChunkIndex + 1 by omega)
        (show c.range.endChunk + 1 - (c.currentChunkIndex + 1) = records by omega)
      have hskip : c.skip = 0 := if_neg hbehind.ne'
      rw [hout, length_append, length_trim, hskip, Nat.sub_zero, hlength]
      rcases hinside.lt_or_eq with hlt | heq
      · rw [if_neg hlt.ne, hbetween.owed_eq hlt source, hskip, Nat.sub_zero]
        exact Nat.add_le_add hle hnext
      · have hlast : (c.next source).owed = 0 :=
          if_pos (show c.range.endChunk < c.currentChunkIndex + 1 by omega)
        rw [if_pos heq, owed_of_eq heq, hskip]
        omega

/-- Where a record and its flow are too short. -/
theorem Between.length_flow_lt_iff (hbetween : c.Between)
    (hinside : c.currentChunkIndex ≤ c.range.endChunk) {plaintext : Bytes}
    {source : Script UInt8 CryptoError} (hle : plaintext.length ≤ c.chunkSize)
    (hreaches : c.currentChunkIndex = c.range.startChunk → c.range.startOffset < plaintext.length)
    (hout : ((puller hkdf).flow c).1 =
      c.trim plaintext ++ ((puller hkdf).flow (c.next source)).1) :
    ((puller hkdf).flow c).1.length < c.owed ↔
      plaintext.length < c.need ∨
        ((puller hkdf).flow (c.next source)).1.length < (c.next source).owed := by
  have hskip : c.skip ≤ plaintext.length := by
    unfold skip
    split_ifs with hstart
    · exact (hreaches hstart).le
    · exact Nat.zero_le _
  have hnext := hbetween.next hinside source
  rw [hout, length_append, length_trim]
  rcases hinside.lt_or_eq with hlt | heq
  · have hflow := hnext.length_flow_le hkdf
      (show c.range.startChunk < c.currentChunkIndex + 1 from Nat.lt_succ_of_le hbetween.start_le)
    have hlong := hbetween.skip_lt
    rw [if_neg hlt.ne, hbetween.owed_eq hlt source, need, if_neg hlt.ne]
    omega
  · have hlast : (c.next source).owed = 0 :=
      if_pos (show c.range.endChunk < c.currentChunkIndex + 1 by omega)
    have hempty : ((puller hkdf).flow (c.next source)).1 = [] :=
      (hnext.flow_of_end hkdf (show c.range.endChunk < c.currentChunkIndex + 1 by omega)).1
    rw [if_pos heq, owed_of_eq heq, need, if_pos heq, hlast, hempty, length_nil]
    omega

/-- Something is owed at every record of the range. -/
theorem Between.owed_pos (hbetween : c.Between)
    (hinside : c.currentChunkIndex ≤ c.range.endChunk) : 0 < c.owed := by
  rcases hinside.lt_or_eq with hlt | heq
  · rw [hbetween.owed_eq hlt c.source]
    have := hbetween.skip_lt
    omega
  · have hoffsets := hbetween.offsets_le
    rw [owed_of_eq heq]
    unfold skip
    split <;> omega

/-- **The flow is silently short exactly where the source is.** -/
theorem Between.shortOver_iff (hbetween : c.Between) (short : Bool) :
    shortOver hkdf c.recordsLeft c short = true ↔
      ((puller hkdf).flow c).2.1 = none ∧
        (short = true ∨ ((puller hkdf).flow c).1.length < c.owed) := by
  generalize hleft : c.recordsLeft = records
  -- one record per step; `short` remembers the records behind
  induction records generalizing c short with
  | zero =>
    rw [recordsLeft] at hleft
    have hend : c.range.endChunk < c.currentChunkIndex := by omega
    obtain ⟨hempty, hends⟩ := hbetween.flow_of_end hkdf hend
    rw [shortOver, hends, owed, if_pos hend]
    simp
  | succ records ih =>
    rw [recordsLeft] at hleft
    have hinside : c.currentChunkIndex ≤ c.range.endChunk := by omega
    have hflow := hbetween.flowExplains hkdf hinside
    rw [shortOver]
    cases harrival : c.arrival hkdf with
    | refused =>
      rw [harrival] at hflow
      simp [hflow.2]
    | ended =>
      rw [harrival] at hflow
      have hpos := hbetween.owed_pos hinside
      simp [hflow.1, hflow.2, hpos]
    | accepted length source =>
      rw [harrival] at hflow
      obtain ⟨plaintext, rfl, hle, hreaches, hout, hends⟩ := hflow
      have hcount : (c.next source).recordsLeft = records := by
        change c.range.endChunk + 1 - (c.currentChunkIndex + 1) = records
        omega
      simp only
      rw [ih (hbetween.next hinside source) _ hcount, hends,
        hbetween.length_flow_lt_iff hinside hle hreaches hout, Bool.or_eq_true,
        decide_eq_true_eq, or_assoc]

end Flow

end RangeCursor

/-! ## New readers -/

/-- A reader of bytes `first` to `last` that has not been read from. -/
structure RangeDecryptReader.Fresh (r : RangeDecryptReader) (first last : ℕ) : Prop where
  running : r.Running
  between : r.toRangeCursor.Between
  open_eq : r.closed = false
  left_eq : r.left = last - first + 1
  owed_eq : r.toRangeCursor.owed = last - first + 1

def newReader (bound : Option (ObjectContext × Bytes)) (source : Script UInt8 CryptoError)
    (aead : Aead) (manifest : ChunkManifest) (baseIv : Bytes) (first last : ℕ) (optimized : Bool)
    (plaintextSize : ℤ) : Except RangeError RangeDecryptReader :=
  match bound with
  | none =>
    newRangeDecryptReader source aead (some manifest) baseIv first last optimized plaintextSize
  | some (object, bindingId) =>
    newRangeDecryptReaderBound source aead (some manifest) baseIv first last optimized
      plaintextSize object bindingId

section New

variable {source : Script UInt8 CryptoError} {aead : Aead} {manifest : ChunkManifest}
  {baseIv : Bytes} {first last : ℕ} {optimized : Bool} {plaintextSize : ℤ}
  {r : RangeDecryptReader}

/-- What the constructor of an unbound reader returns. -/
theorem newRangeDecryptReader_eq_ok
    (hnew : newRangeDecryptReader source aead (some manifest) baseIv first last optimized
      plaintextSize = .ok r) :
    0 < manifest.chunkSize ∧ ∃ positioned range,
      range = calculateChunkRangeFromPlaintext first last manifest.chunkSize
        manifest.chunkCount ∧
      r = ⟨⟨positioned, aead, manifest, baseIv, manifest.chunkSize, first, last, range, [],
        range.startChunk, false, none, plaintextSize, ⟨[], []⟩, [], false⟩, 0⟩ := by
  obtain ⟨-, -, hnew⟩ := Fallible.bind_eq_ok_iff.mp hnew
  obtain ⟨_, hsize, hnew⟩ := Fallible.bind_eq_ok_iff.mp hnew
  have hvalid := validateChunkSize_eq_ok_iff.mp (Fallible.mapError_eq_ok_iff.mp hsize)
  refine ⟨hvalid.pos, ?_⟩
  replace hnew : (if _ then _ else _) = Except.ok r := hnew
  split at hnew
  · cases hnew
  obtain ⟨positioned, -, hnew⟩ := Fallible.bind_eq_ok_iff.mp hnew
  cases hnew
  exact ⟨positioned, _, rfl, rfl⟩

/-- A cursor at the first record of its range. -/
theorem fresh_of_range {c : RangeCursor} (hle : first ≤ last) (hpos : 0 < c.chunkSize)
    (hshortens : c.aead.Shortens) (hopen : c.closed = false) (herr : c.err = none)
    (hpending : c.currentChunk = []) (hindex : c.currentChunkIndex = c.range.startChunk)
    (hrange : c.range =
      ⟨first / c.chunkSize, last / c.chunkSize, first % c.chunkSize, last % c.chunkSize⟩)
    (hstart : c.plaintextStart = first) (hend : c.plaintextEnd = last) :
    RangeDecryptReader.Fresh ⟨c, 0⟩ first last := by
  have hleft : RangeDecryptReader.left ⟨c, 0⟩ = last - first + 1 := by
    simp only [RangeDecryptReader.left, hstart, hend]
    omega
  have hmono : first / c.chunkSize ≤ last / c.chunkSize := Nat.div_le_div_right hle
  have hfirst := Nat.div_add_mod' first c.chunkSize
  have hlast := Nat.div_add_mod' last c.chunkSize
  refine ⟨⟨herr, fun _ => by omega⟩, ⟨hopen, hpending, hindex.ge, ?_, ?_, ?_, ?_, hshortens⟩, hopen,
    hleft, ?_⟩
  · rw [hindex, hrange]
    exact hmono.trans (Nat.le_succ _)
  · rw [hrange]
    exact Nat.mod_lt _ hpos
  · rw [hrange]
    exact Nat.mod_lt _ hpos
  · rw [hrange]
    intro hsame
    replace hsame : first / c.chunkSize = last / c.chunkSize := hsame
    change first % c.chunkSize ≤ last % c.chunkSize
    rw [← hsame] at hlast
    omega
  · have hnot : ¬c.range.endChunk < c.range.startChunk := by
      rw [hrange]
      exact not_lt.mpr hmono
    have hmul : (last / c.chunkSize - first / c.chunkSize) * c.chunkSize +
        first / c.chunkSize * c.chunkSize = last / c.chunkSize * c.chunkSize := by
      rw [← Nat.add_mul, Nat.sub_add_cancel hmono]
    have howed : c.owed = (c.range.endChunk - c.range.startChunk) * c.chunkSize +
        (c.range.endOffset + 1) - c.range.startOffset := by
      rw [owed, skip, hindex, if_neg hnot, if_pos rfl]
    change c.owed = _
    rw [howed, hrange]
    dsimp only
    omega

theorem fresh_of_newReader {bound : Option (ObjectContext × Bytes)} (hle : first ≤ last)
    (hlast : last < manifest.chunkCount * manifest.chunkSize) (hshortens : aead.Shortens)
    (hnew : newReader bound source aead manifest baseIv first last optimized plaintextSize =
      .ok r) : r.Fresh first last := by
  have hrecord : last / manifest.chunkSize < manifest.chunkCount :=
    Nat.div_lt_of_lt_mul (by rwa [Nat.mul_comm] at hlast)
  cases bound with
  | none =>
    obtain ⟨hpos, positioned, range, hrange, rfl⟩ := newRangeDecryptReader_eq_ok hnew
    rw [calculateChunkRangeFromPlaintext_of_lt hle hpos hrecord] at hrange
    exact fresh_of_range hle hpos hshortens rfl rfl rfl rfl hrange rfl rfl
  | some pair =>
    obtain ⟨object, bindingId⟩ := pair
    obtain ⟨-, -, hnew⟩ := Fallible.bind_eq_ok_iff.mp hnew
    replace hnew : (if _ then _ else _) = Except.ok r := hnew
    split at hnew
    · cases hnew
    obtain ⟨inner, hinner, hnew⟩ := Fallible.bind_eq_ok_iff.mp hnew
    cases hnew
    obtain ⟨hpos, positioned, range, hrange, rfl⟩ := newRangeDecryptReader_eq_ok hinner
    rw [calculateChunkRangeFromPlaintext_of_lt hle hpos hrecord] at hrange
    exact fresh_of_range hle hpos hshortens rfl rfl rfl rfl hrange rfl rfl

end New

/-! ## Results -/

namespace RangeDecryptReader

/-- However the reader is read, it reports the end only behind `count` bytes, and a caller that
goes on reading is told of the end or of an error. -/
def EndsAfter (hkdf : Hkdf) (r : RangeDecryptReader) (count : ℕ) : Prop :=
  (∀ sizes fuel got r', drain (read hkdf) sizes fuel r = (got, some .eof, r') →
    got.length = count) ∧
  ∀ sizes, KeepsReading sizes → ∃ fuel got err r',
    drain (read hkdf) sizes fuel r = (got, some err, r')

section Ends

variable {hkdf : Hkdf} {r : RangeDecryptReader} {first last : ℕ}

theorem Fresh.silentlyShort_iff (hfresh : r.Fresh first last) :
    r.toRangeCursor.silentlyShort hkdf = true ↔
      (r.flow hkdf).2.1 = none ∧ (r.flow hkdf).1.length < r.left := by
  rw [silentlyShort, hfresh.between.shortOver_iff, hfresh.owed_eq, ← hfresh.left_eq]
  simp only [Bool.false_eq_true, false_or]
  rfl

theorem Fresh.endsAfter (hfresh : r.Fresh first last)
    (hlong : r.toRangeCursor.silentlyShort hkdf = false) :
    r.EndsAfter hkdf (last - first + 1) := by
  have hdelivers := delivers_read hkdf
  constructor
  · intro sizes fuel got r' hdrain
    obtain ⟨rfl, hend⟩ := hdelivers.drain_ended hfresh.running hdrain
    rw [rest, if_neg (by simp [hfresh.open_eq]), length_take, ← hfresh.left_eq]
    refine min_eq_left ?_
    by_contra hshort
    -- the flow is short, so it must have failed
    have hends : ¬(r.flow hkdf).2.1 = none := fun hnone => by
      rw [hfresh.silentlyShort_iff.mpr ⟨hnone, not_le.mp hshort⟩] at hlong
      cases hlong
    rw [ending, if_neg (by simp [hfresh.open_eq, hshort])] at hend
    cases hflow : (r.flow hkdf).2.1 with
    | none => exact hends hflow
    | some err =>
      rw [hflow] at hend
      cases hend
  · intro sizes hkeeps
    obtain ⟨fuel, r', hdrain⟩ := hdelivers.drain hfresh.running hkeeps
    exact ⟨fuel, _, _, r', hdrain⟩

/-- A source that is silently short: the end is reported, and fewer bytes have come. -/
theorem Fresh.exists_early_end (hfresh : r.Fresh first last)
    (hshort : r.toRangeCursor.silentlyShort hkdf = true) {sizes : ℕ → ℕ}
    (hkeeps : KeepsReading sizes) :
    ∃ fuel got r', drain (read hkdf) sizes fuel r = (got, some .eof, r') ∧
      got = (r.flow hkdf).1 ∧ got.length < last - first + 1 := by
  obtain ⟨hnone, hlt⟩ := hfresh.silentlyShort_iff.mp hshort
  obtain ⟨fuel, r', hdrain⟩ := (delivers_read hkdf).drain hfresh.running hkeeps
  have hend : r.ending hkdf = .eof := by
    rw [ending, hnone]
    split <;> rfl
  have hrest : r.rest hkdf = (r.flow hkdf).1 := by
    rw [rest, if_neg (by simp [hfresh.open_eq]), take_of_length_le hlt.le]
  rw [hend, hrest] at hdrain
  exact ⟨fuel, _, r', hdrain, rfl, hfresh.left_eq ▸ hlt⟩

end Ends

end RangeDecryptReader

/-- **When a ranged read cannot end early in silence.**  For every source and every range inside
the records of the manifest: unless the source ends, or a record that opens is too short, with
nothing refused before, the end is reported exactly behind the range. -/
theorem endsAfter_range_iff (hkdf : Hkdf) (bound : Option (ObjectContext × Bytes))
    (source : Script UInt8 CryptoError) (aead : Aead) (manifest : ChunkManifest) (baseIv : Bytes)
    (first last : ℕ) (optimized : Bool) (plaintextSize : ℤ) (r : RangeDecryptReader)
    (hle : first ≤ last) (hlast : last < manifest.chunkCount * manifest.chunkSize)
    (hshortens : aead.Shortens)
    (hnew : newReader bound source aead manifest baseIv first last optimized plaintextSize =
      .ok r) :
    r.EndsAfter hkdf (last - first + 1) ↔ r.toRangeCursor.silentlyShort hkdf = false := by
  have hfresh := fresh_of_newReader hle hlast hshortens hnew
  constructor
  · intro hends
    by_contra hshort
    obtain ⟨fuel, got, r', hdrain, -, hlt⟩ :=
      hfresh.exists_early_end (by simpa using hshort) keepsReading_one
    have hcount := hends.1 _ _ _ _ hdrain
    omega
  · exact hfresh.endsAfter

theorem zeroTagAead_shortens : zeroTagAead.Shortens := by
  intro nonce ciphertext aad plaintext hopened
  simp only [zeroTagAead, Option.some.injEq] at hopened
  rw [← hopened, length_take]
  exact min_le_left _ _

/-! ### Two records -/

def twoRecords : ChunkManifest :=
  ⟨chunkedFormatV2, minChunkSize, 2, encodeBase64 [1, 2, 3], .hkdfSha256⟩

/-- The reader of the first `length` bytes of an object of two records with 16385 bytes, as the
constructor leaves it. -/
def twoRecordsReader (last : ℕ) : RangeDecryptReader :=
  ⟨⟨source, zeroTagAead, twoRecords, [1, 2, 3], minChunkSize, 0, last,
    ⟨0, last / minChunkSize, 0, last % minChunkSize⟩, [], 0, false, none, 16385, ⟨[98], [107]⟩,
    List.replicate 16 5, true⟩, 0⟩

theorem newReader_twoRecords {last : ℕ} (hlast : last < 32768) :
    newReader (some (⟨[98], [107]⟩, List.replicate 16 5)) source zeroTagAead twoRecords [1, 2, 3] 0
      last true 16385 = .ok (twoRecordsReader source last) := by
  have hrange : calculateChunkRangeFromPlaintext (0 : ℕ) last twoRecords.chunkSize
      twoRecords.chunkCount = ⟨0, last / minChunkSize, 0, last % minChunkSize⟩ := by
    rw [calculateChunkRangeFromPlaintext_of_lt (Nat.zero_le _) (by decide)
      (Nat.div_lt_of_lt_mul hlast), Nat.zero_div, Nat.zero_mod]
    rfl
  have hinside : ¬(twoRecords.chunkCount ≤ last / minChunkSize ∨ last / minChunkSize < 0) :=
    not_or.mpr ⟨not_le.mpr (Nat.div_lt_of_lt_mul hlast), Nat.not_lt_zero _⟩
  have hinner : newRangeDecryptReader source zeroTagAead (some twoRecords) [1, 2, 3] (0 : ℕ) last
      true 16385 = .ok
        ⟨⟨source, zeroTagAead, twoRecords, [1, 2, 3], minChunkSize, 0, last,
          ⟨0, last / minChunkSize, 0, last % minChunkSize⟩, [], 0, false, none, 16385, ⟨[], []⟩,
          [], false⟩, 0⟩ := by
    simp only [newRangeDecryptReader, hrange]
    exact if_neg hinside
  rw [newReader, newRangeDecryptReaderBound, hinner]
  rfl

theorem arrival_first {record : Bytes} (hlen : record.length = 16400) (last : ℕ) :
    (twoRecordsReader [⟨record, none⟩] last).toRangeCursor.arrival zeroHkdf =
      .accepted 16384 [] := by
  have hsize : (twoRecordsReader [⟨record, none⟩] last).toRangeCursor.expectedSize =
      .ok 16400 := rfl
  obtain ⟨pair, hnonce⟩ : ∃ pair,
      (twoRecordsReader [⟨record, none⟩] last).toRangeCursor.nonceAndAad zeroHkdf = .ok pair :=
    ⟨_, rfl⟩
  have hopens : (twoRecordsReader [⟨record, none⟩] last).toRangeCursor.opens zeroHkdf record =
      some (record.take (record.length - 16)) := by
    rw [opens, hnonce]
    refine Option.filter_eq_some_iff.mpr ⟨rfl, ?_⟩
    rw [decide_eq_true_eq, length_take, hlen]
    rintro ⟨-, hshort⟩
    replace hshort : min (16400 - 16) 16400 ≤ 0 := hshort
    omega
  have hread : (twoRecordsReader [⟨record, none⟩] last).toRangeCursor.source.readFull 16400 =
      (record, none, []) := by
    simp [twoRecordsReader, Script.readFull, Script.readFullLoop, Script.outcome, hlen]
  rw [arrival, hsize]
  simp only [hread, reduceCtorEq, and_false, false_and, if_false, hopens, Arrival.ofOpened,
    length_take, hlen]
  rfl

/-- The first byte of an object, from a source that has its first record. -/
theorem endsAfter_first_byte :
    newReader (some (⟨[98], [107]⟩, List.replicate 16 5)) [⟨List.replicate 16400 0, none⟩]
        zeroTagAead twoRecords [1, 2, 3] 0 0 true 16385 =
      .ok (twoRecordsReader [⟨List.replicate 16400 0, none⟩] 0) ∧
    (twoRecordsReader [⟨List.replicate 16400 0, none⟩] 0).EndsAfter zeroHkdf 1 := by
  have hnew := newReader_twoRecords [⟨List.replicate 16400 0, none⟩] (show 0 < 32768 by decide)
  refine ⟨hnew, (endsAfter_range_iff zeroHkdf _ _ _ twoRecords _ 0 0 _ _ _ le_rfl (by decide)
    zeroTagAead_shortens hnew).mpr ?_⟩
  have harrival := @arrival_first (List.replicate 16400 0) length_replicate 0
  rw [silentlyShort]
  change shortOver zeroHkdf 1 _ false = false
  rw [shortOver, harrival]
  rfl

/-- Of a range over both records the source has only the first: one record comes, and then the
end. -/
theorem early_end_behind_record :
    newReader (some (⟨[98], [107]⟩, List.replicate 16 5)) [⟨List.replicate 16400 0, none⟩]
        zeroTagAead twoRecords [1, 2, 3] 0 16384 true 16385 =
      .ok (twoRecordsReader [⟨List.replicate 16400 0, none⟩] 16384) ∧
    (∃ fuel got r', drain (RangeDecryptReader.read zeroHkdf) (fun _ => 1) fuel
      (twoRecordsReader [⟨List.replicate 16400 0, none⟩] 16384) = (got, some .eof, r') ∧
        got.length < 16385) ∧
    ¬(twoRecordsReader [⟨List.replicate 16400 0, none⟩] 16384).EndsAfter zeroHkdf 16385 := by
  have hnew := newReader_twoRecords [⟨List.replicate 16400 0, none⟩]
    (show 16384 < 32768 by decide)
  have hfresh : RangeDecryptReader.Fresh _ 0 16384 :=
    fresh_of_newReader (Nat.zero_le _) (by decide) zeroTagAead_shortens hnew
  have harrival := @arrival_first (List.replicate 16400 0) length_replicate 16384
  have hshort : (twoRecordsReader [⟨List.replicate 16400 0, none⟩]
      16384).toRangeCursor.silentlyShort zeroHkdf = true := by
    rw [silentlyShort]
    change shortOver zeroHkdf 2 _ false = true
    rw [shortOver, harrival]
    rfl
  obtain ⟨fuel, got, r', hdrain, -, hlt⟩ := hfresh.exists_early_end hshort keepsReading_one
  refine ⟨hnew, ⟨fuel, got, r', hdrain, hlt⟩, fun hends => ?_⟩
  have hcount := hends.1 _ _ _ _ hdrain
  omega

end S3EncryptionGateway.Crypto
