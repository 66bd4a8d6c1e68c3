import S3EncryptionGateway.Library.Text

/-!
# Decimal numbers as text

Formatting of integers and the two ways of reading them back: signed numbers that fit
64 bits, with an optional sign, and unsigned ones without.  Whatever is formatted and
fits is read back (`parseInt_formatNat`).
-/

namespace Decimal

open Text List

def digitChar (digit : ℕ) : Char := Char.ofNat (48 + digit)

def digitValue (c : Char) : Option ℕ :=
  if 48 ≤ c.toNat ∧ c.toNat ≤ 57 then some (c.toNat - 48) else none

def formatNat (n : ℕ) : Str :=
  if n < 10 then [digitChar n] else formatNat (n / 10) ++ [digitChar (n % 10)]

def formatInt : ℤ → Str
  | .ofNat n => formatNat n
  | .negSucc n => '-' :: formatNat (n + 1)

/-- The value of a text of digits in front of which `acc` was read. -/
def digitsValue : ℕ → Str → Option ℕ
  | acc, [] => some acc
  | acc, c :: rest => (digitValue c).bind fun digit => digitsValue (10 * acc + digit) rest

/-- An unsigned number of at most `limit`. -/
def parseNat (limit : ℕ) (text : Str) : Option ℕ :=
  if text = [] then none
  else (digitsValue 0 text).bind fun n => if n ≤ limit then some n else none

/-- A `uint64`. -/
def parseUint (text : Str) : Option ℕ := parseNat 18446744073709551615 text

/-- An `int64` with an optional sign. -/
def parseInt : Str → Option ℤ
  | '-' :: digits => (parseNat 9223372036854775808 digits).map fun n : ℕ => -(n : ℤ)
  | '+' :: digits => (parseNat 9223372036854775807 digits).map fun n : ℕ => (n : ℤ)
  | digits => (parseNat 9223372036854775807 digits).map fun n : ℕ => (n : ℤ)

theorem toNat_digitChar {digit : ℕ} (hdigit : digit < 10) :
    (digitChar digit).toNat = 48 + digit := by
  interval_cases digit <;> rfl

theorem digitValue_digitChar {digit : ℕ} (hdigit : digit < 10) :
    digitValue (digitChar digit) = some digit := by
  rw [digitValue, toNat_digitChar hdigit, if_pos (by omega), Nat.add_sub_cancel_left]

theorem digitsValue_append (acc : ℕ) (text text' : Str) :
    digitsValue acc (text ++ text') =
      (digitsValue acc text).bind fun value => digitsValue value text' := by
  induction text generalizing acc with
  | nil => rfl
  | cons c rest ih =>
    rw [cons_append, digitsValue, digitsValue]
    cases digitValue c with
    | none => rfl
    | some digit => exact ih _

theorem digitsValue_formatNat (n : ℕ) : digitsValue 0 (formatNat n) = some n := by
  induction n using Nat.strong_induction_on with
  | _ n ih =>
    rw [formatNat]
    split_ifs with hsmall
    · rw [digitsValue, digitValue_digitChar hsmall, Option.bind_some, digitsValue, Nat.mul_zero,
        Nat.zero_add]
    · rw [digitsValue_append, ih (n / 10) (by omega), Option.bind_some, digitsValue,
        digitValue_digitChar (Nat.mod_lt n (by decide)), Option.bind_some, digitsValue,
        Nat.div_add_mod]

/-- A formatted number begins with a digit. -/
theorem exists_formatNat_eq_cons (n : ℕ) :
    ∃ digit rest, digit < 10 ∧ formatNat n = digitChar digit :: rest := by
  induction n using Nat.strong_induction_on with
  | _ n ih =>
    rw [formatNat]
    split_ifs with hsmall
    · exact ⟨n, [], hsmall, rfl⟩
    · obtain ⟨digit, rest, hdigit, hrest⟩ := ih (n / 10) (by omega)
      exact ⟨digit, rest ++ [digitChar (n % 10)], hdigit, by rw [hrest, cons_append]⟩

/-- A formatted number has only digits. -/
theorem exists_of_mem_formatNat {n : ℕ} {c : Char} (hc : c ∈ formatNat n) :
    ∃ digit < 10, c = digitChar digit := by
  induction n using Nat.strong_induction_on with
  | _ n ih =>
    rw [formatNat] at hc
    split_ifs at hc with hsmall
    · exact ⟨n, hsmall, mem_singleton.mp hc⟩
    · rcases mem_append.mp hc with hfront | hlast
      · exact ih (n / 10) (by omega) hfront
      · exact ⟨n % 10, Nat.mod_lt n (by decide), mem_singleton.mp hlast⟩

theorem minus_notMem_formatNat (n : ℕ) : '-' ∉ formatNat n := by
  intro hminus
  obtain ⟨digit, hdigit, heq⟩ := exists_of_mem_formatNat hminus
  have hchar := toNat_digitChar hdigit
  rw [← heq] at hchar
  exact absurd hchar (by simp; omega)

theorem parseNat_le {limit n : ℕ} {text : Str} (hparse : parseNat limit text = some n) :
    n ≤ limit := by
  rw [parseNat] at hparse
  split at hparse
  · cases hparse
  obtain ⟨value, -, hvalue⟩ := Option.bind_eq_some_iff.mp hparse
  split at hvalue <;> cases hvalue
  assumption

/-- A number that is read fits an `int64`. -/
theorem parseInt_le {text : Str} {n : ℤ} (hparse : parseInt text = some n) :
    n ≤ 9223372036854775807 := by
  rw [parseInt.eq_def] at hparse
  split at hparse
  all_goals
    obtain ⟨value, hvalue, rfl⟩ := Option.map_eq_some_iff.mp hparse
    have := parseNat_le hvalue
    omega

theorem le_parseInt {text : Str} {n : ℤ} (hparse : parseInt text = some n) :
    -9223372036854775808 ≤ n := by
  rw [parseInt.eq_def] at hparse
  split at hparse
  all_goals
    obtain ⟨value, hvalue, rfl⟩ := Option.map_eq_some_iff.mp hparse
    have := parseNat_le hvalue
    omega

theorem parseNat_formatNat {limit n : ℕ} (hle : n ≤ limit) :
    parseNat limit (formatNat n) = some n := by
  obtain ⟨digit, rest, -, hcons⟩ := exists_formatNat_eq_cons n
  rw [parseNat, if_neg (by simp [hcons]), digitsValue_formatNat, Option.bind_some, if_pos hle]

theorem parseInt_formatNat {n : ℕ} (hle : n ≤ 9223372036854775807) :
    parseInt (formatNat n) = some (n : ℤ) := by
  obtain ⟨digit, rest, hdigit, hcons⟩ := exists_formatNat_eq_cons n
  have hchar := toNat_digitChar hdigit
  have hminus : digitChar digit ≠ '-' := fun heq => by
    rw [heq] at hchar
    exact absurd hchar (by simp; omega)
  have hplus : digitChar digit ≠ '+' := fun heq => by
    rw [heq] at hchar
    exact absurd hchar (by simp; omega)
  have hparse := parseNat_formatNat hle
  rw [hcons] at hparse ⊢
  rw [parseInt, hparse]
  · rfl
  · intro digits heq
    exact hminus (List.cons.inj heq).1
  · intro digits heq
    exact hplus (List.cons.inj heq).1

end Decimal
