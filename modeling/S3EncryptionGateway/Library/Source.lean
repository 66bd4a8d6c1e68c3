import Mathlib

/-!
# Scripted sources and exact-length reads

A byte source is given by its future: the list of results its `Read` calls will
report, each some data and possibly an error.  Any finite behaviour of a reader
is such a list, whatever buffers it is read with, because a result that does
not fit the buffer is handed out in pieces.  After the last result the source
reports the end of its data forever.

`readFull want` is the exact-length read on top of it: it keeps reading until
`want` items have arrived or an error stops it, drops the error if it came with
the last item wanted, and reports a clean end in the middle as `unexpectedEof`.

## Clean sources

`Clean script` says that the only error of a source is a final `eof`.  On such
a source `readFull` is a plain `take` and `drop` of `bytes script`
(`readFull_of_clean`).

## Chunks

`readChunks want` repeats the exact-length read until one delivers nothing.  On a
clean source it cuts the data into pieces of `want` (`readChunks_of_clean`).
What it does on any other source is described by `settle`, which walks the
script once and says which of its errors are passed over, which one ends the
reading, and how much data came before it (`readChunks_settle`).
-/

namespace Streams

open List

set_option linter.unusedVariables false

variable {β ε : Type*}

/-- The errors a read can report: the two distinguished ends of data and
everything else. -/
inductive ReadError (ε : Type*) where
  | eof
  | unexpectedEof
  | other (e : ε)
  deriving DecidableEq

/-- One result of a `Read` call. -/
structure ReadResult (β ε : Type*) where
  data : List β
  err : Option (ReadError ε)

/-- The future of a source. -/
abbrev Script (β ε : Type*) := List (ReadResult β ε)

namespace Script

/-- All data a source still has. -/
def bytes (script : Script β ε) : List β :=
  script.flatMap ReadResult.data

/-- Bytes and results left: what every effective read decreases. -/
def size (script : Script β ε) : ℕ :=
  (script.map fun result => result.data.length + 1).sum

/-- The error an exact-length read reports when `err` stopped it after `got`. -/
def stopError (got : List β) : ReadError ε → ReadError ε
  | .eof => if got.isEmpty then .eof else .unexpectedEof
  | err => err

/-- What an exact-length read of `want` items reports once `err` has ended its
loop with `got` in the buffer. -/
def outcome (want : ℕ) (got : List β) : Option (ReadError ε) → Option (ReadError ε)
  | none => none
  | some err => if want ≤ got.length then none else some (stopError got err)

/-- Fill a buffer of length `want`, of which `got` has already arrived. -/
def readFullLoop (want : ℕ) :
    Script β ε → List β → List β × Option (ReadError ε) × Script β ε
  | [], got => (got, outcome want got (some .eof), [])
  | result :: rest, got =>
    if want ≤ got.length then (got, none, result :: rest)
    else if want < (got ++ result.data).length then
      (got ++ result.data.take (want - got.length), none,
        ⟨result.data.drop (want - got.length), result.err⟩ :: rest)
    else
      match result.err with
      | none => readFullLoop want rest (got ++ result.data)
      | some err =>
        (got ++ result.data, outcome want (got ++ result.data) (some err), rest)

/-- Read exactly `want` items. -/
def readFull (want : ℕ) (script : Script β ε) :
    List β × Option (ReadError ε) × Script β ε :=
  readFullLoop want script []

/-- The errors a source will report. -/
def errors (script : Script β ε) : List (ReadError ε) :=
  script.filterMap ReadResult.err

/-- The errors a source has reported on its way from `script` to `rest`: those
that are no longer to come. -/
def returned (script rest : Script β ε) : List (ReadError ε) :=
  (errors script).take ((errors script).length - (errors rest).length)

/-! ## Data and measure -/

@[simp] theorem bytes_nil : bytes ([] : Script β ε) = [] := rfl

variable (rest : Script β ε)

@[simp] theorem bytes_cons (result : ReadResult β ε) :
    bytes (result :: rest) = result.data ++ bytes rest := rfl

@[simp] theorem size_nil : size ([] : Script β ε) = 0 := rfl

@[simp] theorem size_cons (result : ReadResult β ε) :
    size (result :: rest) = result.data.length + 1 + size rest := by
  simp [size]

theorem readFullLoop_length_le (want : ℕ) (script : Script β ε) (got : List β)
    (hgot : got.length ≤ want) : (readFullLoop want script got).1.length ≤ want := by
  induction script generalizing got with
  | nil => simpa [readFullLoop] using hgot
  | cons result rest ih =>
    obtain ⟨data, err⟩ := result
    simp only [readFullLoop]
    split
    · exact hgot
    split_ifs with hfit
    · simp only [length_append, length_take]
      omega
    · cases err with
      | none => exact ih _ (not_lt.mp hfit)
      | some err => exact not_lt.mp hfit

theorem readFull_length_le (want : ℕ) (script : Script β ε) :
    (readFull want script).1.length ≤ want :=
  readFullLoop_length_le want script [] (Nat.zero_le _)

variable {script : Script β ε} {want : ℕ}

/-- An exact-length read without an error is complete. -/
theorem readFullLoop_length_of_none {want : ℕ} {script : Script β ε} {got : List β}
    (hok : (readFullLoop want script got).2.1 = none) :
    want ≤ (readFullLoop want script got).1.length := by
  have hfull : ∀ {got : List β} {err : ReadError ε},
      outcome want got (some err) = none → want ≤ got.length := by
    intro got err hnone
    by_contra hshort
    simp [outcome, hshort] at hnone
  induction script generalizing got with
  | nil => exact hfull hok
  | cons result rest ih =>
    obtain ⟨data, err⟩ := result
    rw [readFullLoop] at hok ⊢
    split
    · assumption
    rename_i hopen
    rw [if_neg hopen] at hok
    split
    · rename_i hlong
      simp only [length_append, length_take] at hlong ⊢
      omega
    · rename_i hfit
      rw [if_neg hfit] at hok
      cases err with
      | none => exact ih hok
      | some err => exact hfull hok

/-- Nothing is lost between what was read and what is left. -/
theorem readFullLoop_append_bytes (want : ℕ) (script : Script β ε) (got : List β) :
    (readFullLoop want script got).1 ++ bytes (readFullLoop want script got).2.2 =
      got ++ bytes script := by
  induction script generalizing got with
  | nil => rfl
  | cons result rest ih =>
    obtain ⟨data, err⟩ := result
    simp only [readFullLoop]
    split
    · rfl
    split
    · rw [bytes_cons, bytes_cons, append_assoc, ← append_assoc (data.take _), take_append_drop]
    · cases err with
      | none => simpa using ih (got ++ data)
      | some err => simp

/-- So it has taken the next `want` items. -/
theorem readFull_of_none {data : List β} {rest : Script β ε}
    (hread : readFull want script = (data, none, rest)) :
    data.length = want ∧ data = (bytes script).take want ∧
      bytes rest = (bytes script).drop want := by
  have hle := readFull_length_le want script
  have hge := @readFullLoop_length_of_none _ _ want script [] (congrArg (·.2.1) hread)
  have hall := readFullLoop_append_bytes want script []
  rw [← readFull] at hge hall
  rw [hread] at hle hge hall
  have hlen : data.length = want := le_antisymm hle hge
  rw [← nil_append (bytes script), ← hall]
  exact ⟨hlen, (take_left' hlen).symm, (drop_left' hlen).symm⟩

theorem readFullLoop_size_le (want : ℕ) (script : Script β ε) (got : List β) :
    size (readFullLoop want script got).2.2 ≤ size script := by
  induction script generalizing got with
  | nil => simp [readFullLoop]
  | cons result rest ih =>
    obtain ⟨data, err⟩ := result
    simp only [readFullLoop]
    split
    · exact le_rfl
    split
    · simp only [size_cons, length_drop]
      omega
    · cases err with
      | none =>
        have := ih (got ++ data)
        simp only [size_cons]
        omega
      | some err =>
        simp only [size_cons]
        omega

/-- An exact-length read that delivered something left a smaller source. -/
theorem readFull_size_lt {want : ℕ} {script : Script β ε}
    (hdata : (readFull want script).1 ≠ []) :
    size (readFull want script).2.2 < size script := by
  cases script with
  | nil => simp [readFull, readFullLoop] at hdata
  | cons result rest =>
    obtain ⟨data, err⟩ := result
    have hloop := readFullLoop_size_le want rest data
    revert hdata
    simp only [readFull, readFullLoop, length_nil, nil_append, Nat.sub_zero]
    split
    · simp
    rename_i hpos
    split
    · intro _
      simp only [size_cons, length_drop]
      omega
    · cases err with
      | none =>
        intro _
        simp only [size_cons]
        omega
      | some err =>
        intro _
        simp only [size_cons]
        omega

/-! ## Clean sources -/

/-- The source delivers its data without an error and then ends; an `eof` that
comes with the last data is allowed and nothing but `eof` follows it. -/
def Clean : Script β ε → Prop
  | [] => True
  | result :: rest =>
    match result.err with
    | none => Clean rest
    | some .eof => ∀ later ∈ rest, later = ⟨[], some .eof⟩
    | some _ => False

theorem bytes_of_forall_eof (hend : ∀ later ∈ script, later = ⟨[], some .eof⟩) :
    bytes script = [] := by
  induction script with
  | nil => rfl
  | cons result rest ih =>
    rw [bytes_cons, hend result (mem_cons_self ..),
      ih fun later hlater => hend later (mem_cons_of_mem _ hlater)]
    rfl

theorem clean_of_forall_eof (hend : ∀ later ∈ script, later = ⟨[], some .eof⟩) : Clean script := by
  cases script with
  | nil => trivial
  | cons result rest =>
    rw [hend result (mem_cons_self ..)]
    exact fun later hlater => hend later (mem_cons_of_mem _ hlater)

/-- A source that delivers one piece and then ends is clean. -/
theorem clean_singleton (data : List β) : Clean [(⟨data, none⟩ : ReadResult β ε)] := trivial

private theorem readFullLoop_of_clean (want : ℕ) (script : Script β ε) (got : List β)
    (hclean : Clean script) (hgot : got.length ≤ want) :
    ∃ rest, readFullLoop want script got =
        ((got ++ bytes script).take want,
          outcome want (got ++ bytes script) (some .eof), rest) ∧ Clean rest := by
  induction script generalizing got with
  | nil => exact ⟨[], by simp [readFullLoop, take_of_length_le hgot], trivial⟩
  | cons result rest ih =>
    obtain ⟨data, err⟩ := result
    by_cases hfull : want ≤ got.length
    · have hlen : got.length = want := le_antisymm hgot hfull
      exact ⟨⟨data, err⟩ :: rest, by simp [readFullLoop, outcome, ← hlen], hclean⟩
    by_cases hfit : want < (got ++ data).length
    · have hlong : want ≤ (got ++ (data ++ bytes rest)).length := by
        simp only [length_append] at hfit ⊢
        omega
      have hroom : want - got.length ≤ data.length := by
        simp only [length_append] at hfit
        omega
      refine ⟨⟨data.drop (want - got.length), err⟩ :: rest, ?_, hclean⟩
      rw [bytes_cons, take_append, take_of_length_le hgot,
        take_append_of_le_length hroom, outcome, if_pos hlong]
      simp only [readFullLoop, if_neg hfull, if_pos hfit]
    have hshort : (got ++ data).length ≤ want := not_lt.mp hfit
    simp only [readFullLoop, if_neg hfull, if_neg hfit, bytes_cons, ← append_assoc]
    cases err with
    | none => exact ih (got ++ data) hclean hshort
    | some err =>
      cases err with
      | eof =>
        rw [bytes_of_forall_eof hclean, append_nil, take_of_length_le hshort]
        exact ⟨rest, rfl, clean_of_forall_eof hclean⟩
      | unexpectedEof => exact hclean.elim
      | other err => exact hclean.elim

/-- On a clean source an exact-length read takes the next `want` items. -/
theorem readFull_of_clean (want : ℕ) (hclean : Clean script) :
    ∃ rest, readFull want script =
        ((bytes script).take want, outcome want (bytes script) (some .eof), rest) ∧
      Clean rest ∧ bytes rest = (bytes script).drop want := by
  obtain ⟨rest, hread, hrest⟩ := readFullLoop_of_clean want script [] hclean (Nat.zero_le _)
  have hall := readFullLoop_append_bytes want script []
  rw [hread, nil_append] at hall
  exact ⟨rest, hread, hrest, append_cancel_left (hall.trans (take_append_drop want _).symm)⟩

theorem readFull_of_clean_of_le {want : ℕ} {script : Script β ε} (hclean : Clean script)
    (hle : want ≤ (bytes script).length) :
    ∃ rest, readFull want script = ((bytes script).take want, none, rest) ∧
      Clean rest ∧ bytes rest = (bytes script).drop want := by
  obtain ⟨rest, hread, hrest⟩ := readFull_of_clean want hclean
  refine ⟨rest, ?_, hrest⟩
  rw [hread, outcome, if_pos hle]

/-! ## Chunks -/

/-- Repeat the exact-length read until one delivers nothing: the chunks read,
the error of the last read, and the source left. -/
def readChunks (want : ℕ) (script : Script β ε) :
    List (List β) × Option (ReadError ε) × Script β ε :=
  if hdata : (readFull want script).1 = [] then ([], (readFull want script).2)
  else
    let later := readChunks want (readFull want script).2.2
    ((readFull want script).1 :: later.1, later.2)
termination_by script.size
decreasing_by exact readFull_size_lt hdata

/-- Cut a list into pieces of length `want`, the last one possibly shorter. -/
def chunksOf (want : ℕ) (items : List β) : List (List β) :=
  if hend : want = 0 ∨ items = [] then []
  else items.take want :: chunksOf want (items.drop want)
termination_by items.length
decreasing_by
  have : items.length ≠ 0 := fun hlen => hend (.inr (List.length_eq_zero_iff.mp hlen))
  simp only [List.length_drop]
  omega

variable {err : Option (ReadError ε)} {rest : Script β ε}

theorem readFull_of_readChunks_nil (hread : readChunks want script = ([], err, rest)) :
    readFull want script = ([], err, rest) := by
  rw [readChunks] at hread
  split_ifs at hread with hdata
  · exact Prod.ext hdata (congrArg (fun read => read.2) hread)
  · cases hread

theorem readFull_of_readChunks_cons {chunk : List β} {chunks : List (List β)}
    (hread : readChunks want script = (chunk :: chunks, err, rest)) :
    ∃ first next, readFull want script = (chunk, first, next) ∧ chunk ≠ [] ∧
      readChunks want next = (chunks, err, rest) := by
  rw [readChunks] at hread
  split at hread
  · cases hread
  rename_i hdata
  simp only [Prod.mk.injEq, List.cons.injEq] at hread
  obtain ⟨⟨rfl, rfl⟩, hrest⟩ := hread
  exact ⟨_, _, rfl, hdata, by rw [← hrest]; rfl⟩

@[simp] theorem chunksOf_nil (want : ℕ) : chunksOf want ([] : List β) = [] := by
  rw [chunksOf, dif_pos (.inr rfl)]

theorem chunksOf_of_ne_nil {items : List β} (hwant : 0 < want) (hitems : items ≠ []) :
    chunksOf want items = items.take want :: chunksOf want (items.drop want) := by
  rw [chunksOf, dif_neg]
  rintro (hzero | hnil)
  · omega
  · exact hitems hnil

theorem chunksOf_append (hwant : 0 < want) {front back : List β} (hfront : front ≠ [])
    (hle : front.length ≤ want) (hback : front.length = want ∨ back = []) :
    chunksOf want (front ++ back) = front :: chunksOf want back := by
  rw [chunksOf_of_ne_nil hwant (append_ne_nil_of_left_ne_nil hfront back)]
  rcases hback with rfl | rfl
  · rw [take_left, drop_left]
  · rw [append_nil, take_of_length_le hle, drop_eq_nil_of_le hle]

theorem take_succ_mul_append {front back : List β} (hle : front.length ≤ want)
    (hback : front.length = want ∨ back = []) (count : ℕ) :
    (front ++ back).take ((count + 1) * want) = front ++ back.take (count * want) := by
  rw [Nat.succ_mul, take_append, take_of_length_le (by omega)]
  rcases hback with hfull | rfl
  · rw [hfull, Nat.add_sub_cancel]
  · rw [take_nil, take_nil]

theorem flatten_chunksOf (hwant : 0 < want) (items : List β) :
    (chunksOf want items).flatten = items := by
  fun_induction chunksOf want items with
  | case1 items hend =>
    rcases hend with hzero | hnil
    · omega
    · simp [hnil]
  | case2 items hend ih => rw [flatten_cons, ih, take_append_drop]

theorem length_chunksOf (hwant : 0 < want) (items : List β) :
    (chunksOf want items).length =
      if items.length = 0 then 0 else (items.length - 1) / want + 1 := by
  fun_induction chunksOf want items with
  | case1 items hend =>
    rcases hend with hzero | hnil
    · omega
    · simp [hnil]
  | case2 items hend ih =>
    have hpos : items.length ≠ 0 := fun hlen => hend (.inr (length_eq_zero_iff.mp hlen))
    rw [length_cons, ih, if_neg hpos, length_drop]
    by_cases hshort : items.length - want = 0
    · rw [if_pos hshort, Nat.div_eq_of_lt (by omega)]
    · have hstep : items.length - 1 = (items.length - want - 1) + want := by omega
      rw [if_neg hshort, hstep, Nat.add_div_right _ hwant]

/-- On a clean source the chunks are the pieces of its data. -/
theorem readChunks_of_clean (hwant : 0 < want) (hclean : Clean script) :
    ∃ rest, readChunks want script = (chunksOf want (bytes script), some .eof, rest) := by
  generalize hlen : (bytes script).length = len
  induction len using Nat.strong_induction_on generalizing script with
  | _ len ih =>
    obtain ⟨rest, hread, hrest, hbytes⟩ := readFull_of_clean want hclean
    by_cases hnil : bytes script = []
    · refine ⟨rest, ?_⟩
      rw [hnil] at hread
      rw [take_nil] at hread
      rw [readChunks, dif_pos (by rw [hread]), hread, hnil, chunksOf_nil, outcome,
        if_neg (by simp; omega)]
      rfl
    · have hpos : (bytes script).length ≠ 0 := fun h => hnil (length_eq_zero_iff.mp h)
      obtain ⟨last, hlater⟩ := ih (bytes rest).length
        (by rw [hbytes, length_drop]; omega) hrest rfl
      refine ⟨last, ?_⟩
      have hdata : (bytes script).take want ≠ [] := by
        simp only [ne_eq, take_eq_nil_iff, not_or]
        exact ⟨by omega, hnil⟩
      rw [readChunks, dif_neg (by rw [hread]; exact hdata), hread, hlater, chunksOf_of_ne_nil hwant hnil, hbytes]

/-! ## Which error ends the chunks -/

/-- How a source ends when it is read in chunks. -/
structure Settlement (ε : Type*) where
  /-- the errors that did not end the reading -/
  passed : List (ReadError ε)
  /-- the error that did -/
  decisive : ReadError ε
  /-- the number of items delivered before it -/
  delivered : ℕ

/-- Walk the script with `filled` items in the current chunk.  An error ends the
reading only if it comes without data and with an empty chunk; any other error
just ends the chunk it falls into. -/
def settle (want : ℕ) : ℕ → Script β ε → Settlement ε
  | _, [] => ⟨[], .eof, 0⟩
  | filled, result :: rest =>
    match result.err with
    | none =>
      let later := settle want ((filled + result.data.length) % want) rest
      { later with delivered := result.data.length + later.delivered }
    | some err =>
      if filled = 0 ∧ result.data = [] then ⟨[], err, 0⟩
      else
        let later := settle want 0 rest
        ⟨err :: later.passed, later.decisive, result.data.length + later.delivered⟩

@[simp] theorem errors_nil : errors ([] : Script β ε) = [] := rfl

@[simp] theorem errors_cons_none (data : List β) :
    errors (⟨data, none⟩ :: rest) = errors rest := rfl

@[simp] theorem errors_cons_some (data : List β) (err : ReadError ε) :
    errors (⟨data, some err⟩ :: rest) = err :: errors rest := rfl

theorem readFullLoop_of_full {got : List β} (hfull : want ≤ got.length) (script : Script β ε) :
    readFullLoop want script got = (got, none, script) := by
  cases script with
  | nil => simp [readFullLoop, outcome, hfull]
  | cons result rest => rw [readFullLoop, if_pos hfull]

theorem isPrefix_readFullLoop (want : ℕ) (script : Script β ε) (got : List β) :
    got <+: (readFullLoop want script got).1 := by
  induction script generalizing got with
  | nil => exact prefix_rfl
  | cons result rest ih =>
    obtain ⟨data, err⟩ := result
    simp only [readFullLoop]
    split
    · exact prefix_rfl
    split
    · exact prefix_append ..
    · cases err with
      | none => exact (prefix_append ..).trans (ih _)
      | some err => exact prefix_append ..

/-- An exact-length read that delivers nothing has met the decisive error. -/
private theorem readFull_settle_nil (hwant : 0 < want)
    (hnil : (readFullLoop want script []).1 = []) : 
    (readFullLoop want script []).2.1 = some (settle want 0 script).decisive ∧
      (settle want 0 script).passed = [] ∧ (settle want 0 script).delivered = 0 ∧
      (errors script =
          (settle want 0 script).decisive :: errors (readFullLoop want script []).2.2 ∨
        (settle want 0 script).decisive = .eof ∧
          errors script = errors (readFullLoop want script []).2.2) := by
  have hopen : ¬ want ≤ ([] : List β).length := not_le.mpr hwant
  induction script with
  | nil => simp [readFullLoop, settle, outcome, stopError, hwant.ne']
  | cons result rest ih =>
    obtain ⟨data, err⟩ := result
    have hdata : data = [] := by
      rw [readFullLoop, if_neg hopen] at hnil
      split_ifs at hnil with hlong
      · have := congrArg List.length hnil
        simp only [nil_append, length_take, length_nil] at this hlong
        omega
      · cases err with
        | none =>
          have := isPrefix_readFullLoop want rest ([] ++ data)
          rw [hnil] at this
          simpa using this
        | some err => simpa using hnil
    subst hdata
    cases err with
    | none =>
      have hstep : readFullLoop want (⟨[], none⟩ :: rest) [] = readFullLoop want rest [] := by
        simp [readFullLoop, hwant.ne']
      have hsettle : settle want 0 (⟨[], none⟩ :: rest) = settle want 0 rest := by
        simp [settle]
      rw [hstep] at hnil ⊢
      rw [hsettle]
      exact ih hnil
    | some err => cases err <;> simp [readFullLoop, settle, outcome, stopError, hwant.ne']

/-- An exact-length read that delivers something has only passed errors over. -/
private theorem readFullLoop_settle_cons {want : ℕ} {script : Script β ε} {got : List β}
    (hroom : got.length < want) (hdata : (readFullLoop want script got).1 ≠ []) :
    (settle want got.length script).decisive =
        (settle want 0 (readFullLoop want script got).2.2).decisive ∧
      got.length + (settle want got.length script).delivered =
        (readFullLoop want script got).1.length +
          (settle want 0 (readFullLoop want script got).2.2).delivered ∧
      ∃ skipped, (settle want got.length script).passed =
          skipped ++ (settle want 0 (readFullLoop want script got).2.2).passed ∧
        errors script = skipped ++ errors (readFullLoop want script got).2.2 := by
  induction script generalizing got with
  | nil => exact ⟨rfl, rfl, [], rfl, rfl⟩
  | cons result rest ih =>
    obtain ⟨data, err⟩ := result
    have hopen : ¬ want ≤ got.length := not_le.mpr hroom
    by_cases hfit : want < got.length + data.length
    · -- the result is larger than the room left: its rest stays in the source
      have hstep : readFullLoop want (⟨data, err⟩ :: rest) got =
          (got ++ data.take (want - got.length), none,
            ⟨data.drop (want - got.length), err⟩ :: rest) := by
        simp [readFullLoop, hopen, hfit]
      have hne : data ≠ [] := by
        rintro rfl
        simp only [length_nil] at hfit
        omega
      have hdrop : data.drop (want - got.length) ≠ [] := by
        simp only [ne_eq, drop_eq_nil_iff, not_le]
        omega
      rw [hstep]
      cases err with
      | none =>
        have hmod : (0 + (data.length - (want - got.length))) % want =
            (got.length + data.length) % want := by
          rw [show got.length + data.length =
            0 + (data.length - (want - got.length)) + want by omega, Nat.add_mod_right]
        simp only [settle, length_drop, hmod, errors_cons_none, length_append, length_take]
        exact ⟨trivial, by omega, [], rfl, rfl⟩
      | some err =>
        simp only [settle, hne, hdrop, and_false, if_false, length_drop,
          errors_cons_some, length_append, length_take]
        exact ⟨trivial, by omega, [], rfl, rfl⟩
    · have hlong : ¬ want < (got ++ data).length := by simpa using hfit
      cases err with
      | none =>
        have hstep : readFullLoop want (⟨data, none⟩ :: rest) got =
            readFullLoop want rest (got ++ data) := by
          simp only [readFullLoop, if_neg hopen, if_neg hlong]
        rw [hstep] at hdata ⊢
        simp only [settle, errors_cons_none]
        rcases Nat.lt_or_ge (got ++ data).length want with hlt | hge
        · obtain ⟨hdec, hdel, skipped, hpassed, herrors⟩ := ih hlt hdata
          rw [length_append] at hlt hdec hdel hpassed
          rw [Nat.mod_eq_of_lt hlt]
          exact ⟨hdec, by omega, skipped, hpassed, herrors⟩
        · -- the buffer is exactly full, so the next chunk starts at this result's end
          rw [readFullLoop_of_full hge]
          rw [length_append] at hge
          have hmod : (got.length + data.length) % want = 0 := by
            rw [show got.length + data.length = want by omega, Nat.mod_self]
          rw [hmod]
          refine ⟨rfl, ?_, [], rfl, rfl⟩
          simp only [length_append]
          omega
      | some err =>
        have hstep : readFullLoop want (⟨data, some err⟩ :: rest) got =
            (got ++ data, outcome want (got ++ data) (some err), rest) := by
          simp only [readFullLoop, if_neg hopen, if_neg hlong]
        rw [hstep] at hdata ⊢
        have hnot : ¬ (got.length = 0 ∧ data = []) := by
          rintro ⟨hgot, rfl⟩
          exact hdata (by simpa using hgot)
        simp only [settle, if_neg hnot, errors_cons_some, length_append]
        exact ⟨trivial, by omega, [err], rfl, rfl⟩

/-- **Chunks and their end.**  The last exact-length read reports the decisive
error, the chunks hold what was delivered before it, and the errors returned are
those passed over and, unless the source just ran out, the decisive one. -/
theorem readChunks_settle (hwant : 0 < want) (script : Script β ε) :
    (readChunks want script).2.1 = some (settle want 0 script).decisive ∧
    (readChunks want script).1.flatten.length = (settle want 0 script).delivered ∧
    (returned script (readChunks want script).2.2 =
        (settle want 0 script).passed ++ [(settle want 0 script).decisive] ∨
      (settle want 0 script).decisive = .eof ∧
        returned script (readChunks want script).2.2 = (settle want 0 script).passed) := by
  suffices hgen : (readChunks want script).2.1 = some (settle want 0 script).decisive ∧
      (readChunks want script).1.flatten.length = (settle want 0 script).delivered ∧
      (errors script = (settle want 0 script).passed ++
          (settle want 0 script).decisive :: errors (readChunks want script).2.2 ∨
        (settle want 0 script).decisive = .eof ∧
          errors script =
            (settle want 0 script).passed ++ errors (readChunks want script).2.2) by
    refine ⟨hgen.1, hgen.2.1, ?_⟩
    rcases hgen.2.2 with herrors | ⟨heof, herrors⟩
    · refine .inl ?_
      rw [returned, herrors, append_cons, length_append, Nat.add_sub_cancel, take_left]
    · refine .inr ⟨heof, ?_⟩
      rw [returned, herrors, length_append, Nat.add_sub_cancel, take_left]
  fun_induction readChunks want script with
  | case1 script hdata =>
    obtain ⟨herr, hpassed, hdelivered, herrors⟩ := readFull_settle_nil hwant hdata
    refine ⟨herr, hdelivered.symm, ?_⟩
    rw [hpassed]
    exact herrors
  | case2 script hdata later ih =>
    obtain ⟨hdec, hdel, skipped, hpassed, herrors⟩ :=
      @readFullLoop_settle_cons _ _ want script [] hwant hdata
    obtain ⟨ihErr, ihLen, ihErrors⟩ := ih
    simp only [length_nil, Nat.zero_add] at hdec hdel hpassed
    refine ⟨ihErr.trans (congrArg some hdec.symm), ?_, ?_⟩
    · rw [hdel, flatten_cons, length_append, ihLen]
      rfl
    · rw [herrors, hpassed, hdec]
      rcases ihErrors with hlater | ⟨heof, hlater⟩
      · refine .inl ?_
        rw [append_assoc]
        exact congrArg (skipped ++ ·) hlater
      · refine .inr ⟨heof, ?_⟩
        rw [append_assoc]
        exact congrArg (skipped ++ ·) hlater

end Script

end Streams
