import S3EncryptionGateway.Library.Slice
import S3EncryptionGateway.Crypto.RangeHeader

/-!
# The two readers of a range request

A ranged read of an encrypted object is planned with `parseObjectRange` and, where the
plaintext has been buffered, served with `applyRangeRequest`.  Each parses the header on its
own, so what is announced and what is sent agree only as far as the two parsers do.

## Strategy

* `rangeForm` is what both parsers see in a header: a suffix, two ends, or a start alone.
* Of each parser one lemma says how it resolves such a form against the size
  (`toOption_parseObjectRange`, `toOption_applyRangeRequest`).  For an object that is not
  empty both come down to `RangeForm.select`.
* What is left are three exceptions: a header that ends behind `bytes=`, an empty object, for
  which the planner takes the size to be unknown, and a suffix so far below zero that the
  subtraction wraps.
-/

namespace S3EncryptionGateway.Api.RangeRequest

open Text Slices Crypto List

/-! ## The code -/

/-- What `applyRangeRequest` ends with. -/
inductive RangeOutcome (β : Type*) where
  /-- The panic of an index that is out of range. -/
  | panic
  | failed (err : RangeHeaderError)
  | served (data : List β)

section Code

variable {β : Type*}

/-- The checks at the end of `applyRangeRequest`, and the bytes. -/
def serveRange (data : List β) (start stop : ℤ) : RangeOutcome β :=
  if start < 0 ∨ (data.length : ℤ) ≤ start then
    .failed (.notSatisfiable start stop data.length)
  else
    -- an end behind the object is moved to its last byte
    let last := if (data.length : ℤ) ≤ stop then (data.length : ℤ) - 1 else stop
    if last < start then .failed (.notSatisfiable start last data.length)
    else .served (slice data start.toNat (last.toNat + 1))

/-- `first-last` or `first-`. -/
def applyRangeSpec (data : List β) (rangeSpec : Str) : RangeOutcome β :=
  if '-' ∈ rangeSpec then
    match rangeSpec.splitOn '-' with
    | [first, last] =>
      match Decimal.parseInt first with
      | none => .failed .invalidStart
      | some start =>
        if last = [] then serveRange data start (data.length - 1)
        else
          match Decimal.parseInt last with
          | none => .failed .invalidEnd
          | some stop => serveRange data start stop
    | _ => .failed .rangeFormat
  else .failed .rangeFormat

def applyRangeRequest (data : List β) (rangeHeader : Str) : RangeOutcome β :=
  if rangeHeader.take 6 = "bytes=".toList then
    match rangeHeader.drop 6 with
    | [] => .panic
    | c :: rest =>
      if c = '-' then
        match Decimal.parseInt rest with
        | none => .failed .invalidSuffix
        | some suffix =>
          serveRange data (max 0 (toInt64 (data.length - suffix))) (data.length - 1)
      else applyRangeSpec data (c :: rest)
  else .failed .headerFormat

/-- The header with an end behind the object moved to its last byte. -/
def clampRangeHeader (rangeHeader : Str) (totalSize : ℤ) : Str :=
  if 0 < totalSize ∧ rangeHeader.take 6 = "bytes=".toList then
    if (rangeHeader.drop 6).head? = some '-' then rangeHeader
    else
      match (rangeHeader.drop 6).splitOn '-' with
      | [first, last] =>
        if last = [] then rangeHeader
        else
          match Decimal.parseInt last with
          | none => rangeHeader
          | some stop =>
            if totalSize ≤ stop then
              "bytes=".toList ++ (first ++ '-' :: Decimal.formatInt (totalSize - 1))
            else rangeHeader
      | _ => rangeHeader
  else rangeHeader

def parseObjectRange (rangeHeader : Str) (totalSize : ℤ) : Except RangeHeaderError (ℤ × ℤ) :=
  parseHttpRangeHeader (clampRangeHeader rangeHeader totalSize) totalSize

end Code

/-! ## The forms of a range -/

inductive RangeForm where
  | suffix (count : ℤ)
  | startOnly (start : ℤ)
  | both (start stop : ℤ)

/-- The form behind `bytes=` of a text that does not begin with a minus sign. -/
def specForm (rangeSpec : Str) : Option RangeForm :=
  match rangeSpec.splitOn '-' with
  | [first, last] =>
    (Decimal.parseInt first).bind fun start =>
      if last = [] then some (.startOnly start)
      else (Decimal.parseInt last).map (.both start)
  | _ => none

/-- The range a header states, if both parsers can read it. -/
def rangeForm (rangeHeader : Str) : Option RangeForm :=
  if rangeHeader.take 6 = "bytes=".toList then
    match rangeHeader.drop 6 with
    | [] => none
    | c :: rest =>
      if c = '-' then (Decimal.parseInt rest).map .suffix else specForm (c :: rest)
  else none

/-- A form as `ParseHTTPRangeHeader` resolves it. -/
def RangeForm.resolve (total : ℤ) : RangeForm → Option (ℤ × ℤ)
  | .suffix count =>
    if total ≤ 0 then none
    else (checkRange (max 0 (toInt64 (total - count))) (total - 1) total).toOption
  | .startOnly start =>
    if total ≤ 0 then none else (checkRange start (total - 1) total).toOption
  | .both start stop => (checkRange start stop total).toOption

/-- A form with its end moved to the last byte. -/
def RangeForm.clamp (total : ℤ) : RangeForm → RangeForm
  | .both start stop => .both start (if total ≤ stop then total - 1 else stop)
  | form => form

/-- The bytes a form selects from an object of `size` bytes. -/
def RangeForm.select (size : ℤ) : RangeForm → Option (ℤ × ℤ)
  | .suffix count =>
    let start := max 0 (toInt64 (size - count))
    if start < size then some (start, size - 1) else none
  | .startOnly start => if 0 ≤ start ∧ start < size then some (start, size - 1) else none
  | .both start stop =>
    if 0 ≤ start ∧ start < size ∧ start ≤ stop then some (start, min stop (size - 1)) else none

/-! ## The planner's parser -/

open Decimal

open RangeForm

variable (rangeHeader : Str)

section Planner

variable {rangeHeader : Str} {total : ℤ}

theorem toOption_parseRangeSpec (rangeSpec : Str) (total : ℤ) :
    (parseRangeSpec rangeSpec total).toOption =
      (specForm rangeSpec).bind (resolve total) := by
  unfold parseRangeSpec specForm
  rcases rangeSpec.splitOn '-' with _ | ⟨first, _ | ⟨last, _ | ⟨third, more⟩⟩⟩
  · rfl
  · rfl
  · simp only
    cases parseInt first with
    | none => rfl
    | some start =>
      by_cases hlast : last = []
      · simp only [if_pos hlast, Option.bind_some, resolve]
        split <;> rfl
      · simp only [if_neg hlast, Option.bind_some]
        cases parseInt last <;> rfl
  · rfl

theorem toOption_parseHttpRangeHeader (total : ℤ) :
    (parseHttpRangeHeader rangeHeader total).toOption =
      (rangeForm rangeHeader).bind (resolve total) := by
  unfold parseHttpRangeHeader rangeForm
  split
  · cases rangeHeader.drop 6 with
    | nil => rfl
    | cons c rest =>
      by_cases hc : c = '-'
      · simp only [if_pos hc]
        by_cases htotal : total ≤ 0
        · rw [if_pos htotal]
          cases parseInt rest with
          | none => rfl
          | some count => simp [resolve, htotal, Except.toOption]
        · rw [if_neg htotal]
          cases parseInt rest with
          | none => rfl
          | some count => simp [resolve, htotal]
      · simp only [if_neg hc]
        exact toOption_parseRangeSpec ..
  · rfl

variable {first : Str}

/-- A text that splits in two is the two pieces, and the first has no minus sign. -/
theorem eq_of_splitOn {text last : Str} (hsplit : text.splitOn '-' = [first, last]) :
    text = first ++ '-' :: last ∧ '-' ∉ first := by
  by_cases hmem : '-' ∈ text
  · obtain ⟨front, back, rfl, hfront⟩ := eq_append_cons_of_mem hmem
    rw [List.splitOn, splitOnP_append_cons _ _ (by decide), ← List.splitOn, ← List.splitOn,
      splitOn_eq_singleton hfront] at hsplit
    obtain ⟨rfl, hback⟩ := List.cons.inj hsplit
    replace hback : back.splitOn '-' = [last] := hback
    have hjoin : back = last := by
      have hback' : [('-' : Char)].intercalate (back.splitOn '-') = back :=
        intercalate_splitOn '-'
      rw [hback] at hback'
      simpa using hback'.symm
    exact ⟨by rw [hjoin], hfront⟩
  · rw [splitOn_eq_singleton hmem] at hsplit
    simp at hsplit

theorem rangeForm_of_spec {c : Char} {rest : Str} (hbytes : rangeHeader.take 6 = "bytes=".toList)
    (hdrop : rangeHeader.drop 6 = c :: rest) (hc : c ≠ '-') :
    rangeForm rangeHeader = specForm (c :: rest) := by
  simp only [rangeForm, if_pos hbytes, hdrop, if_neg hc]

theorem specForm_append_minus {last : Str} (hfirst : '-' ∉ first) (hlast : '-' ∉ last)
    (hne : last ≠ []) :
    specForm (first ++ '-' :: last) = (parseInt first).bind fun start =>
      (parseInt last).map (.both start) := by
  have hsplit : (first ++ '-' :: last).splitOn '-' = [first, last] := by
    rw [List.splitOn, splitOnP_append_cons _ _ (by decide), ← List.splitOn, ← List.splitOn,
      splitOn_eq_singleton hfirst, splitOn_eq_singleton hlast]
    rfl
  simp only [specForm, hsplit, if_neg hne]

/-- The form of a header whose end has been replaced by the last byte. -/
theorem rangeForm_replaceEnd {c : Char} {rest : Str} (hpos : 0 < total) (hmax : total ≤ maxInt64)
    (hfirst : '-' ∉ first) (hcons : first = c :: rest) :
    rangeForm ("bytes=".toList ++ (first ++ '-' :: formatInt (total - 1))) =
      (parseInt first).map fun start => .both start (total - 1) := by
  obtain ⟨n, hn⟩ : ∃ n : ℕ, total - 1 = n := ⟨(total - 1).toNat, by omega⟩
  have hformat : formatInt n = formatNat n := rfl
  have hfits : n ≤ 9223372036854775807 := by
    simp only [maxInt64] at hmax
    omega
  obtain ⟨digit, digits, -, hdigits⟩ := exists_formatNat_eq_cons n
  have hc : c ≠ '-' := by
    rintro rfl
    exact hfirst (by simp [hcons])
  have hdrop : ("bytes=".toList ++ (first ++ '-' :: formatNat n)).drop 6 =
      c :: (rest ++ '-' :: formatNat n) := by
    rw [drop_left' (by decide), hcons, cons_append]
  rw [hn, hformat, rangeForm_of_spec (take_left' (by decide)) hdrop hc, ← cons_append,
    ← hcons, specForm_append_minus hfirst (minus_notMem_formatNat n) (by simp [hdigits]),
    parseInt_formatNat hfits]
  cases parseInt first <;> rfl

/-- The match inside `clampRangeHeader`, on a text that does not begin with a minus sign. -/
theorem rangeForm_clampSpec {c : Char} {rest : Str} (hpos : 0 < total) (hmax : total ≤ maxInt64)
    (hbytes : rangeHeader.take 6 = "bytes=".toList) (hdrop : rangeHeader.drop 6 = c :: rest)
    (hc : c ≠ '-') :
    rangeForm (clampRangeHeader rangeHeader total) =
      (rangeForm rangeHeader).map (clamp total) := by
  rw [clampRangeHeader, if_pos ⟨hpos, hbytes⟩, hdrop, if_neg (by simpa using hc)]
  have hform := rangeForm_of_spec hbytes hdrop hc
  rcases hsplit : (c :: rest).splitOn '-' with _ | ⟨first, _ | ⟨last, _ | ⟨third, more⟩⟩⟩
  · simp [hform, specForm, hsplit]
  · simp [hform, specForm, hsplit]
  · obtain ⟨hspec, hfirst⟩ := eq_of_splitOn hsplit
    -- the first piece is not empty, since the text does not begin with a minus sign
    obtain ⟨rest', hcons⟩ : ∃ rest', first = c :: rest' := by
      cases first with
      | nil =>
        rw [nil_append] at hspec
        exact absurd (List.cons.inj hspec).1 hc
      | cons c' rest' =>
        rw [cons_append] at hspec
        exact ⟨rest', by rw [(List.cons.inj hspec).1]⟩
    simp only
    by_cases hlast : last = []
    · rw [if_pos hlast, hform, specForm, hsplit]
      cases hparse : parseInt first <;> simp [hparse, hlast, clamp]
    · rw [if_neg hlast]
      cases hstop : parseInt last with
      | none => cases hstart : parseInt first <;>
          simp [hform, specForm, hsplit, hlast, hstop, hstart]
      | some stop =>
        have hold : rangeForm rangeHeader =
            (parseInt first).map fun start => .both start stop := by
          rw [hform, specForm, hsplit]
          simp only [if_neg hlast, hstop]
          cases parseInt first <;> rfl
        by_cases hle : total ≤ stop
        · simp only [if_pos hle]
          rw [rangeForm_replaceEnd hpos hmax hfirst hcons, hold]
          cases parseInt first <;> simp [clamp, hle]
        · simp only [if_neg hle]
          rw [hold]
          cases parseInt first <;> simp [clamp, hle]
  · simp [hform, specForm, hsplit]

/-- Clamping the text clamps the form. -/
theorem rangeForm_clampRangeHeader (hpos : 0 < total) (hmax : total ≤ maxInt64) :
    rangeForm (clampRangeHeader rangeHeader total) =
      (rangeForm rangeHeader).map (clamp total) := by
  by_cases hbytes : rangeHeader.take 6 = "bytes=".toList
  · rcases hdrop : rangeHeader.drop 6 with _ | ⟨c, rest⟩
    · have hnone : rangeForm rangeHeader = none := by
        simp only [rangeForm, if_pos hbytes, hdrop]
      have hsame : clampRangeHeader rangeHeader total = rangeHeader := by
        simp [clampRangeHeader, hdrop]
      rw [hsame, hnone]
      rfl
    · by_cases hc : c = '-'
      · have hform : rangeForm rangeHeader = (parseInt rest).map .suffix := by
          simp only [rangeForm, if_pos hbytes, hdrop, if_pos hc]
        have hsame : clampRangeHeader rangeHeader total = rangeHeader := by
          simp [clampRangeHeader, hdrop, hc]
        rw [hsame, hform]
        cases parseInt rest <;> rfl
      · exact rangeForm_clampSpec hpos hmax hbytes hdrop hc
  · have hsame : clampRangeHeader rangeHeader total = rangeHeader := if_neg fun h => hbytes h.2
    have hnone : rangeForm rangeHeader = none := if_neg hbytes
    rw [hsame, hnone]
    rfl

theorem toOption_checkRange (start stop total : ℤ) :
    (checkRange start stop total).toOption =
      if 0 ≤ start ∧ start ≤ stop ∧ (0 < total → stop < total) then some (start, stop)
      else none := by
  unfold checkRange
  split
  · rw [if_neg (by omega)]
    rfl
  · split
    · rw [if_neg (by omega)]
      rfl
    · split
      · rw [if_neg (by omega)]
        rfl
      · rw [if_pos (by omega)]
        rfl

/-- What a clamped form resolves to is what it selects. -/
theorem resolve_clamp (hpos : 0 < total) (form : RangeForm) :
    (form.clamp total).resolve total = form.select total := by
  cases form with
  | suffix count =>
    simp only [clamp, resolve, select, if_neg (not_le.mpr hpos), toOption_checkRange]
    congr 1
    simp only [eq_iff_iff]
    omega
  | startOnly start =>
    simp only [clamp, resolve, select, if_neg (not_le.mpr hpos), toOption_checkRange]
    congr 1
    simp only [eq_iff_iff]
    omega
  | both start stop =>
    simp only [clamp, resolve, select, toOption_checkRange]
    by_cases hle : total ≤ stop
    · rw [if_pos hle, min_eq_right (by omega)]
      congr 1
      simp only [eq_iff_iff]
      omega
    · rw [if_neg hle, min_eq_left (by omega)]
      congr 1
      simp only [eq_iff_iff]
      omega

/-- **The planner's parser.**  For an object that is not empty it returns what the form
selects. -/
theorem toOption_parseObjectRange (hpos : 0 < total) (hmax : total ≤ maxInt64) :
    (parseObjectRange rangeHeader total).toOption =
      (rangeForm rangeHeader).bind (select total) := by
  rw [parseObjectRange, toOption_parseHttpRangeHeader, rangeForm_clampRangeHeader hpos hmax,
    Option.bind_map]
  congr 1
  funext form
  exact resolve_clamp hpos form

/-- Of an empty object the size is taken to be unknown, and a range with both ends is accepted
wherever it lies. -/
theorem toOption_parseObjectRange_zero (rangeHeader : Str) :
    (parseObjectRange rangeHeader 0).toOption =
      (rangeForm rangeHeader).bind (resolve 0) := by
  have hsame : clampRangeHeader rangeHeader 0 = rangeHeader := if_neg fun h => h.1.ne rfl
  rw [parseObjectRange, hsame, toOption_parseHttpRangeHeader]

end Planner

/-! ## The parser of the body -/

section Body

variable {β : Type*} {data : List β} {rangeHeader : Str}

def RangeOutcome.toOption : RangeOutcome β → Option (List β)
  | .panic => none
  | .failed _ => none
  | .served out => some out

/-- The bytes of a range, both ends included. -/
def bytesOf (data : List β) (range : ℤ × ℤ) : List β :=
  slice data range.1.toNat (range.2.toNat + 1)

theorem toOption_serveRange (data : List β) (start stop : ℤ) :
    (serveRange data start stop).toOption =
      if 0 ≤ start ∧ start < data.length ∧ start ≤ stop then
        some (bytesOf data (start, min stop (data.length - 1)))
      else none := by
  unfold serveRange
  split
  · rw [if_neg (by omega)]
    rfl
  · have hlast : (if (data.length : ℤ) ≤ stop then (data.length : ℤ) - 1 else stop) =
        min stop (data.length - 1) := by omega
    simp only [hlast]
    split
    · rw [if_neg (by omega)]
      rfl
    · rw [if_pos (by omega)]
      rfl

theorem serveRange_ne_panic (data : List β) (start stop : ℤ) :
    serveRange data start stop ≠ .panic := by
  unfold serveRange
  split
  · exact nofun
  · generalize (if (data.length : ℤ) ≤ stop then (data.length : ℤ) - 1 else stop) = last
    dsimp only
    split <;> exact nofun

/-- The bytes a form selects, if any. -/
def RangeForm.serve (data : List β) (form : RangeForm) : Option (List β) :=
  (form.select data.length).map (bytesOf data)

theorem toOption_serveRange_suffix (data : List β) (count : ℤ) :
    (serveRange data (max 0 (toInt64 (data.length - count))) (data.length - 1)).toOption =
      (suffix count).serve data := by
  rw [toOption_serveRange, min_self, serve, select]
  split
  · rw [if_pos (by omega)]
    rfl
  · rw [if_neg (by omega)]
    rfl

theorem toOption_serveRange_startOnly (data : List β) (start : ℤ) :
    (serveRange data start (data.length - 1)).toOption =
      (startOnly start).serve data := by
  rw [toOption_serveRange, min_self, serve, select]
  split
  · rw [if_pos (by omega)]
    rfl
  · rw [if_neg (by omega)]
    rfl

theorem toOption_applyRangeSpec (data : List β) (rangeSpec : Str) :
    (applyRangeSpec data rangeSpec).toOption =
      (specForm rangeSpec).bind (serve data) := by
  by_cases hminus : '-' ∈ rangeSpec
  · rw [applyRangeSpec, if_pos hminus, specForm]
    rcases rangeSpec.splitOn '-' with _ | ⟨first, _ | ⟨last, _ | ⟨third, more⟩⟩⟩
    · rfl
    · rfl
    · simp only
      cases parseInt first with
      | none => rfl
      | some start =>
        by_cases hlast : last = []
        · simp only [if_pos hlast, Option.bind_some]
          exact toOption_serveRange_startOnly data start
        · simp only [if_neg hlast, Option.bind_some]
          cases parseInt last with
          | none => rfl
          | some stop =>
            refine (toOption_serveRange ..).trans ?_
            rw [Option.map_some, Option.bind_some, serve, select]
            split <;> rfl
    · rfl
  · -- without a minus sign there is one piece
    rw [applyRangeSpec, if_neg hminus, specForm, splitOn_eq_singleton hminus]
    rfl

theorem applyRangeSpec_ne_panic (data : List β) (rangeSpec : Str) :
    applyRangeSpec data rangeSpec ≠ .panic := by
  unfold applyRangeSpec
  split
  · split
    · split
      · exact nofun
      split
      · exact serveRange_ne_panic _ _ _
      · split
        · exact nofun
        · exact serveRange_ne_panic _ _ _
    · exact nofun
  · exact nofun

/-- **The parser of the body.**  It serves the bytes the form selects. -/
theorem toOption_applyRangeRequest (data : List β) (rangeHeader : Str) :
    (applyRangeRequest data rangeHeader).toOption =
      (rangeForm rangeHeader).bind (serve data) := by
  unfold applyRangeRequest rangeForm
  split
  · cases rangeHeader.drop 6 with
    | nil => rfl
    | cons c rest =>
      by_cases hc : c = '-'
      · simp only [if_pos hc]
        cases parseInt rest with
        | none => rfl
        | some count => exact toOption_serveRange_suffix data count
      · simp only [if_neg hc]
        exact toOption_applyRangeSpec ..
  · rfl

/-- It panics on one header only. -/
theorem applyRangeRequest_eq_panic_iff (data : List β) :
    applyRangeRequest data rangeHeader = .panic ↔ rangeHeader = "bytes=".toList := by
  constructor
  · intro hpanic
    unfold applyRangeRequest at hpanic
    split at hpanic
    · rename_i hbytes
      split at hpanic
      · rename_i hdrop
        rw [← take_append_drop 6 rangeHeader, hbytes, hdrop, append_nil]
      · split at hpanic
        · split at hpanic
          · cases hpanic
          · exact absurd hpanic (serveRange_ne_panic _ _ _)
        · exact absurd hpanic (applyRangeSpec_ne_panic _ _)
    · cases hpanic
  · rintro rfl
    rfl

end Body

/-! ## Agreement -/

section Agreement

variable {β : Type*}

/-- The two parsers agree on a header and an object. -/
structure RangesAgree (data : List β) (rangeHeader : Str) : Prop where
  no_panic : applyRangeRequest data rangeHeader ≠ .panic
  served_iff : ∀ out, applyRangeRequest data rangeHeader = .served out ↔
    ∃ start stop, parseObjectRange rangeHeader data.length = .ok (start, stop) ∧
      out = slice data start.toNat (stop.toNat + 1)
  failed_iff : (∃ err, applyRangeRequest data rangeHeader = .failed err) ↔
    ∃ err, parseObjectRange rangeHeader data.length = .error err
  bounds : ∀ start stop, parseObjectRange rangeHeader data.length = .ok (start, stop) →
    0 ≤ start ∧ start ≤ stop ∧ stop < data.length
  suffix_pos : ∀ text range, rangeHeader = "bytes=-".toList ++ text →
    parseObjectRange rangeHeader data.length = .ok range →
    ∃ count, Decimal.parseInt text = some count ∧ 0 < count

/-- A form both parsers treat alike, at an object of `size` bytes. -/
def RangeForm.regular (size : ℕ) : RangeForm → Bool
  | .suffix count => decide (0 < count ∨ size = 0 ∨ size - count ≤ maxInt64)
  | .startOnly _ => true
  | .both start stop => decide (size ≠ 0 ∨ start < 0 ∨ stop < start)

/-- The headers the parsers agree on: not `bytes=` alone; for an empty object no two ends in
order; and a suffix that is not positive does not take the subtraction past 64 bits. -/
def regularHeader (size : ℕ) (rangeHeader : Str) : Bool :=
  rangeHeader ≠ "bytes=".toList && (rangeForm rangeHeader).all (RangeForm.regular size)

/-! ### Forms and sizes -/

variable {form : RangeForm}

theorem bounds_of_select {size start stop : ℤ} (hselect : form.select size = some (start, stop)) :
    0 ≤ start ∧ start ≤ stop ∧ stop < size := by
  cases form with
  | suffix count =>
    simp only [select, Option.ite_none_right_eq_some, Option.some.injEq, Prod.mk.injEq] at hselect
    omega
  | startOnly first =>
    simp only [select, Option.ite_none_right_eq_some, Option.some.injEq, Prod.mk.injEq] at hselect
    omega
  | both first last =>
    simp only [select, Option.ite_none_right_eq_some, Option.some.injEq, Prod.mk.injEq] at hselect
    omega

theorem select_zero (form : RangeForm) : form.select 0 = none := by
  by_contra hne
  obtain ⟨⟨start, stop⟩, hselect⟩ := Option.ne_none_iff_exists'.mp hne
  have := bounds_of_select hselect
  omega

/-- Against an unknown size a regular form resolves to nothing. -/
theorem resolve_zero (hregular : form.regular 0 = true) : form.resolve 0 = none := by
  cases form with
  | suffix count => rfl
  | startOnly start => rfl
  | both start stop =>
    simp only [regular, decide_eq_true_eq] at hregular
    rw [resolve, toOption_checkRange, if_neg (by omega)]

variable {count : ℤ}

/-- A regular suffix that is accepted is positive. -/
theorem pos_of_regular_suffix {size : ℕ} {range : ℤ × ℤ} (hpos : 0 < size)
    (hregular : (suffix count).regular size = true)
    (hselect : (suffix count).select size = some range) : 0 < count := by
  simp only [regular, decide_eq_true_eq] at hregular
  by_contra hneg
  -- without wrapping the start lies behind the object
  have hexact : toInt64 (size - count) = size - count := toInt64_of_fits (by omega) (by omega)
  rw [select, hexact, if_neg (by omega)] at hselect
  cases hselect

/-- A suffix that is not regular wraps to a start below zero and selects the whole object. -/
theorem select_of_not_regular_suffix {size : ℕ} (hmin : -9223372036854775808 ≤ count)
    (hsize : size ≤ maxInt64) (hregular : ¬(suffix count).regular size = true) :
    count ≤ 0 ∧ 0 < size ∧
      (suffix count).select size = some (0, (size : ℤ) - 1) := by
  rw [regular, decide_eq_true_eq] at hregular
  simp only [maxInt64] at hregular hsize
  have hwrap : toInt64 (size - count) < 0 := by
    simp only [toInt64]
    omega
  refine ⟨by omega, by omega, ?_⟩
  rw [select, max_eq_left hwrap.le, if_pos (by omega)]

theorem rangeForm_suffix {text : Str} :
    rangeForm ("bytes=-".toList ++ text) = (parseInt text).map .suffix := rfl

theorem specForm_ne_suffix {rangeSpec : Str} : specForm rangeSpec ≠ some (.suffix count) := by
  unfold specForm
  split
  · cases parseInt _ with
    | none => exact nofun
    | some start =>
      rw [Option.bind_some]
      split
      · exact nofun
      · cases parseInt _ <;> exact nofun
  · exact nofun

variable {rangeHeader : Str}

/-- Only a header with a suffix has that form. -/
theorem eq_of_rangeForm_suffix (hform : rangeForm rangeHeader = some (.suffix count)) :
    ∃ text, rangeHeader = "bytes=-".toList ++ text ∧ parseInt text = some count := by
  unfold rangeForm at hform
  split at hform
  · rename_i hbytes
    split at hform
    · cases hform
    rename_i c rest hdrop
    split at hform
    · rename_i hc
      obtain ⟨value, hparse, hvalue⟩ := Option.map_eq_some_iff.mp hform
      cases hvalue
      refine ⟨rest, ?_, hparse⟩
      rw [← take_append_drop 6 rangeHeader, hbytes, hdrop, hc]
      rfl
    · exact absurd hform specForm_ne_suffix
  · cases hform

/-! ### Results -/

theorem toOption_eq_none_iff {outcome : RangeOutcome β} (hpanic : outcome ≠ .panic) :
    outcome.toOption = none ↔ ∃ err, outcome = .failed err := by
  cases outcome with
  | panic => exact absurd rfl hpanic
  | failed err => simp [RangeOutcome.toOption]
  | served out => simp [RangeOutcome.toOption]

theorem toOption_eq_some_iff {outcome : RangeOutcome β} {out : List β} :
    outcome.toOption = some out ↔ outcome = .served out := by
  cases outcome <;> simp [RangeOutcome.toOption]

theorem eq_ok_of_toOption {ε α : Type*} {result : Except ε α} {value : α}
    (hsome : result.toOption = some value) : result = .ok value := by
  cases result with
  | error err => cases hsome
  | ok found =>
    cases hsome
    rfl

/-- Both parsers come down to `ranges`, which has bounds and no suffix that is not positive. -/
theorem rangesAgree_of_toOption {data : List β} {rangeHeader : Str} {ranges : Option (ℤ × ℤ)}
    (hpanic : applyRangeRequest data rangeHeader ≠ .panic)
    (hparse : (parseObjectRange rangeHeader data.length).toOption = ranges)
    (happly : (applyRangeRequest data rangeHeader).toOption = ranges.map (bytesOf data))
    (hbounds : ∀ start stop, ranges = some (start, stop) →
      0 ≤ start ∧ start ≤ stop ∧ stop < data.length)
    (hsuffix : ∀ count range, rangeForm rangeHeader = some (.suffix count) →
      ranges = some range → 0 < count) : RangesAgree data rangeHeader := by
  have hok : ∀ range, parseObjectRange rangeHeader data.length = .ok range ↔
      ranges = some range := by
    intro range
    rw [← hparse]
    cases parseObjectRange rangeHeader data.length <;> simp [Except.toOption]
  refine ⟨hpanic, ?_, ?_, fun start stop h => hbounds start stop ((hok _).mp h), ?_⟩
  · intro out
    rw [← toOption_eq_some_iff, happly, Option.map_eq_some_iff]
    constructor
    · rintro ⟨⟨start, stop⟩, hrange, rfl⟩
      exact ⟨start, stop, (hok _).mpr hrange, rfl⟩
    · rintro ⟨start, stop, hrange, rfl⟩
      exact ⟨(start, stop), (hok _).mp hrange, rfl⟩
  · rw [← toOption_eq_none_iff hpanic, happly, Option.map_eq_none_iff, ← hparse]
    cases parseObjectRange rangeHeader data.length <;> simp [Except.toOption]
  · rintro text range rfl hrange
    rw [rangeForm_suffix] at hsuffix
    cases hcount : parseInt text with
    | none =>
      rw [hok, ← hparse] at hrange
      have hserve := toOption_applyRangeRequest data ("bytes=-".toList ++ text)
      rw [rangeForm_suffix, hcount, happly, ← hparse, hrange] at hserve
      cases hserve
    | some count =>
      have hform : Option.map suffix (parseInt text) = some (.suffix count) := by
        rw [hcount]
        rfl
      exact ⟨count, rfl, hsuffix count range hform ((hok _).mp hrange)⟩

theorem regularHeader_iff (size : ℕ) :
    regularHeader size rangeHeader = true ↔ rangeHeader ≠ "bytes=".toList ∧
      ∀ form, rangeForm rangeHeader = some form → form.regular size = true := by
  rw [regularHeader, Bool.and_eq_true, decide_eq_true_eq, Option.all_eq_true]

theorem rangesAgree_of_regularHeader {data : List β} (hlen : data.length ≤ maxInt64)
    (hregular : regularHeader data.length rangeHeader = true) : RangesAgree data rangeHeader := by
  obtain ⟨hbytes, hform⟩ := (regularHeader_iff ..).mp hregular
  have hpanic : applyRangeRequest data rangeHeader ≠ .panic := fun h =>
    hbytes ((applyRangeRequest_eq_panic_iff ..).mp h)
  have happly := toOption_applyRangeRequest data rangeHeader
  rcases Nat.eq_zero_or_pos data.length with hzero | hpos
  · -- an empty object: both parsers refuse
    refine @rangesAgree_of_toOption β data rangeHeader none hpanic ?_ ?_ nofun nofun
    · rw [hzero, Nat.cast_zero, toOption_parseObjectRange_zero, Option.bind_eq_none_iff]
      intro form hsome
      exact resolve_zero (hzero ▸ hform form hsome)
    · rw [happly, Option.map_none, Option.bind_eq_none_iff]
      intro form _
      rw [serve, hzero, Nat.cast_zero, select_zero, Option.map_none]
  · refine rangesAgree_of_toOption hpanic
      (toOption_parseObjectRange (by omega) (by exact_mod_cast hlen)) ?_ ?_ ?_
    · rw [happly, Option.map_bind]
      rfl
    · intro start stop hsome
      obtain ⟨form, -, hselect⟩ := Option.bind_eq_some_iff.mp hsome
      exact bounds_of_select hselect
    · intro count range hcount hsome
      rw [hcount, Option.bind_some] at hsome
      exact pos_of_regular_suffix hpos (hform _ hcount) hsome

theorem regular_of_rangesAgree {data : List β} (hlen : data.length ≤ maxInt64)
    (hagree : RangesAgree data rangeHeader) (hform : rangeForm rangeHeader = some form) :
    form.regular data.length = true := by
  by_contra hregular
  cases form with
  | suffix count =>
    obtain ⟨text, rfl, hcount⟩ := eq_of_rangeForm_suffix hform
    obtain ⟨hneg, hpos, hselect⟩ :=
      select_of_not_regular_suffix (le_parseInt hcount) hlen hregular
    have hparse := @toOption_parseObjectRange ("bytes=-".toList ++ text) data.length (by omega)
      (by exact_mod_cast hlen)
    rw [hform, Option.bind_some, hselect] at hparse
    obtain ⟨count', hcount', hpos'⟩ := hagree.suffix_pos text _ rfl (eq_ok_of_toOption hparse)
    rw [hcount] at hcount'
    cases hcount'
    omega
  | startOnly start => exact hregular rfl
  | both start stop =>
    rw [regular, decide_eq_true_eq] at hregular
    have hzero : data.length = 0 := by omega
    have hparse := toOption_parseObjectRange_zero rangeHeader
    rw [hform, Option.bind_some, resolve, toOption_checkRange, if_pos (by omega)] at hparse
    have hbounds := hagree.bounds start stop
      (by rw [hzero]; exact eq_ok_of_toOption hparse)
    omega

/-- **Where the range parsers agree.** -/
theorem rangesAgree_iff (data : List β) (rangeHeader : Str) (hlen : data.length ≤ maxInt64) :
    RangesAgree data rangeHeader ↔ regularHeader data.length rangeHeader = true := by
  constructor
  · intro hagree
    refine (regularHeader_iff ..).mpr ⟨?_, fun form => regular_of_rangesAgree hlen hagree⟩
    intro hbytes
    exact hagree.no_panic ((applyRangeRequest_eq_panic_iff ..).mpr hbytes)
  · exact rangesAgree_of_regularHeader hlen

/-- An end behind the object is moved to its last byte by both. -/
theorem rangesAgree_clamped : RangesAgree [1, 2, 3] "bytes=1-9".toList :=
  (rangesAgree_iff [1, 2, 3] "bytes=1-9".toList (by decide)).mpr (by decide)

/-- A header that ends behind `bytes=` is a panic for one parser and an error for the other. -/
theorem not_rangesAgree_empty_spec :
    applyRangeRequest [1, 2, 3] "bytes=".toList = .panic ∧
      parseObjectRange "bytes=".toList 3 = .error .rangeFormat ∧
      ¬RangesAgree [1, 2, 3] "bytes=".toList := by
  have hpanic : applyRangeRequest [1, 2, 3] "bytes=".toList = .panic :=
    (applyRangeRequest_eq_panic_iff ..).mpr rfl
  exact ⟨hpanic, by decide, fun hagree => hagree.no_panic hpanic⟩

end Agreement

end S3EncryptionGateway.Api.RangeRequest
