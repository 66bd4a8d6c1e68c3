import S3EncryptionGateway.Library.Decimal
import S3EncryptionGateway.Crypto.Chunked.Format

/-!
# Range headers

`ParseHTTPRangeHeader` reads `bytes=first-last`, `bytes=first-` and `bytes=-count`.  The last
two need the size of the object; without one, only a range with both ends is accepted, and
nothing is said about how it lies to the object.

`bounds_of_parse` are the bounds of an accepted range, and `parse_formatRange` says that a
formatted range is read back and then checked.
-/

namespace S3EncryptionGateway.Crypto

open Text List

inductive RangeHeaderError where
  /-- "invalid range header format" -/
  | headerFormat
  /-- "invalid range format" -/
  | rangeFormat
  /-- "suffix range requires known total size" -/
  | suffixNeedsSize
  /-- "invalid suffix range: " and the error of the number -/
  | invalidSuffix
  /-- "invalid start: " and the error of the number -/
  | invalidStart
  /-- "open-ended range requires known total size" -/
  | openNeedsSize
  /-- "invalid end: " and the error of the number -/
  | invalidEnd
  /-- "invalid range: start must be non-negative" -/
  | negativeStart
  /-- "invalid range: end must be >= start" -/
  | endBeforeStart
  /-- "range not satisfiable: %d-%d (size: %d)" -/
  | notSatisfiable (first last size : ℤ)
  deriving DecidableEq

/-- The result of an `int64` operation whose exact value is `n`. -/
def toInt64 (n : ℤ) : ℤ := (n + 9223372036854775808) % 18446744073709551616 - 9223372036854775808

theorem toInt64_of_fits {n : ℤ} (hmin : -9223372036854775808 ≤ n) (hmax : n ≤ maxInt64) :
    toInt64 n = n := by
  simp only [toInt64, maxInt64] at hmax ⊢
  omega

/-- The checks at the end: order, and the size if it is known. -/
def checkRange (start stop totalSizeHint : ℤ) : Except RangeHeaderError (ℤ × ℤ) :=
  if start < 0 then .error .negativeStart
  else if stop < start then .error .endBeforeStart
  else if 0 < totalSizeHint ∧ (totalSizeHint ≤ start ∨ totalSizeHint ≤ stop) then
    .error (.notSatisfiable start stop totalSizeHint)
  else .ok (start, stop)

/-- `first-last` or `first-`. -/
def parseRangeSpec (rangeSpec : Str) (totalSizeHint : ℤ) : Except RangeHeaderError (ℤ × ℤ) :=
  match rangeSpec.splitOn '-' with
  | [first, last] =>
    match Decimal.parseInt first with
    | none => .error .invalidStart
    | some start =>
      if last = [] then
        if totalSizeHint ≤ 0 then .error .openNeedsSize
        else checkRange start (totalSizeHint - 1) totalSizeHint
      else
        match Decimal.parseInt last with
        | none => .error .invalidEnd
        | some stop => checkRange start stop totalSizeHint
  | _ => .error .rangeFormat

def parseHttpRangeHeader (rangeHeader : Str) (totalSizeHint : ℤ) :
    Except RangeHeaderError (ℤ × ℤ) :=
  if rangeHeader.take 6 = "bytes=".toList then
    match rangeHeader.drop 6 with
    | [] => .error .rangeFormat
    | c :: rangeSpec =>
      if c = '-' then
        if totalSizeHint ≤ 0 then .error .suffixNeedsSize
        else
          match Decimal.parseInt rangeSpec with
          | none => .error .invalidSuffix
          | some count =>
            checkRange (max 0 (toInt64 (totalSizeHint - count))) (totalSizeHint - 1)
              totalSizeHint
      else parseRangeSpec (c :: rangeSpec) totalSizeHint
  else .error .headerFormat

open Decimal

section Bounds

variable {start stop total : ℤ} {range : ℤ × ℤ}

theorem checkRange_eq_ok (hcheck : checkRange start stop total = .ok range) :
    range = (start, stop) ∧ 0 ≤ start ∧ start ≤ stop := by
  rw [checkRange] at hcheck
  split at hcheck
  · cases hcheck
  split at hcheck
  · cases hcheck
  split at hcheck <;> cases hcheck
  exact ⟨rfl, by omega, by omega⟩

/-- **Accepted without a size.**  Both ends are there and in order. -/
theorem bounds_of_parse {rangeHeader : Str}
    (hparse : parseHttpRangeHeader rangeHeader (-1) = .ok range) :
    0 ≤ range.1 ∧ range.1 ≤ range.2 ∧ range.2 ≤ maxInt64 := by
  rw [parseHttpRangeHeader] at hparse
  split at hparse
  · split at hparse
    · cases hparse
    split at hparse
    · -- a suffix
      rw [if_pos (by decide)] at hparse
      cases hparse
    · rw [parseRangeSpec] at hparse
      split at hparse
      · split at hparse
        · cases hparse
        split at hparse
        · rw [if_pos (by decide)] at hparse
          cases hparse
        split at hparse
        · cases hparse
        · rename_i hlast
          obtain ⟨rfl, hstart, hstop⟩ := checkRange_eq_ok hparse
          exact ⟨hstart, hstop, parseInt_le hlast⟩
      · cases hparse
  · cases hparse

end Bounds

/-- A range with both ends, as the gateway formats it. -/
def formatRange (first last : ℤ) : Str :=
  "bytes=".toList ++ (Decimal.formatInt first ++ '-' :: Decimal.formatInt last)

theorem parse_formatRange {first last : ℕ} (hfirst : first ≤ maxInt64) (hlast : last ≤ maxInt64)
    (total : ℤ) :
    parseHttpRangeHeader (formatRange first last) total = checkRange first last total := by
  have hspec : parseRangeSpec (formatNat first ++ '-' :: formatNat last) total =
      checkRange first last total := by
    have hsplit : (formatNat first ++ '-' :: formatNat last).splitOn '-' =
        [formatNat first, formatNat last] := by
      rw [List.splitOn, splitOnP_append_cons _ _ (by decide), ← List.splitOn, ← List.splitOn,
        splitOn_eq_singleton (minus_notMem_formatNat first),
        splitOn_eq_singleton (minus_notMem_formatNat last)]
      rfl
    obtain ⟨digit, rest, -, hcons⟩ := exists_formatNat_eq_cons last
    simp only [parseRangeSpec, hsplit, parseInt_formatNat hfirst, parseInt_formatNat hlast]
    rw [if_neg (by simp [hcons])]
  obtain ⟨digit, rest, hdigit, hcons⟩ := exists_formatNat_eq_cons first
  have hminus : digitChar digit ≠ '-' := fun heq =>
    minus_notMem_formatNat first (by rw [hcons, ← heq]; exact mem_cons_self ..)
  have hint : ∀ n : ℕ, formatInt n = formatNat n := fun _ => rfl
  rw [parseHttpRangeHeader, formatRange, hint, hint,
    if_pos (take_left' (by decide)), drop_left' (by decide), hcons, cons_append]
  simp only [if_neg hminus]
  rw [← cons_append, ← hcons, hspec]

end S3EncryptionGateway.Crypto
