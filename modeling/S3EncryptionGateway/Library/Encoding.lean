import Mathlib

/-!
# Byte encodings

Fixed-width big-endian numbers, length-prefixed byte strings and sequences of
fixed-width numbers.  What a concatenation of such pieces is for is that it can
be taken apart again, so each encoding comes with a cancellation lemma of the
shape `encode a ++ x = encode b ++ y → a = b ∧ x = y`; the injectivity of a
whole record is then a chain of them.
-/

namespace Encoding

open List

abbrev Bytes := List UInt8

/-- The last `width` base-256 digits of `n`, most significant first. -/
def bigEndian : ℕ → ℕ → Bytes
  | 0, _ => []
  | width + 1, n => bigEndian width (n / 256) ++ [UInt8.ofNat n]

/-- The number a big-endian byte string denotes. -/
def ofBigEndian (bytes : Bytes) : ℕ :=
  bytes.foldl (fun acc byte => acc * 256 + byte.toNat) 0

/-- A byte string behind its length as a `width`-byte number. -/
def lengthPrefixed (width : ℕ) (value : Bytes) : Bytes :=
  bigEndian width value.length ++ value

/-- A sequence of `width`-byte numbers. -/
def fixedFields (width : ℕ) (fields : List ℕ) : Bytes :=
  fields.flatMap (bigEndian width)

/-- A sequence of length-prefixed byte strings. -/
def lengthPrefixedFields (width : ℕ) (fields : List Bytes) : Bytes :=
  fields.flatMap (lengthPrefixed width)

@[simp] theorem length_bigEndian (width n : ℕ) : (bigEndian width n).length = width := by
  induction width generalizing n with
  | zero => rfl
  | succ width ih => simp [bigEndian, ih]

theorem ofBigEndian_bigEndian (width n : ℕ) :
    ofBigEndian (bigEndian width n) = n % 256 ^ width := by
  induction width generalizing n with
  | zero => simp [bigEndian, ofBigEndian, Nat.mod_one]
  | succ width ih =>
    have hdigit : (UInt8.ofNat n).toNat = n % 256 := by simp
    have hsplit : n % (256 * 256 ^ width) = n % 256 + 256 * (n / 256 % 256 ^ width) := Nat.mod_mul
    simp only [ofBigEndian] at ih
    simp only [ofBigEndian, bigEndian, foldl_append, foldl_cons, foldl_nil, ih, hdigit, pow_succ']
    omega

theorem ofBigEndian_bigEndian_of_lt {width n : ℕ} (hn : n < 256 ^ width) :
    ofBigEndian (bigEndian width n) = n := by
  rw [ofBigEndian_bigEndian, Nat.mod_eq_of_lt hn]

theorem bigEndian_append_cancel {width a b : ℕ} {x y : Bytes} (ha : a < 256 ^ width)
    (hb : b < 256 ^ width) (heq : bigEndian width a ++ x = bigEndian width b ++ y) :
    a = b ∧ x = y := by
  obtain ⟨hnum, hrest⟩ := append_inj heq (by simp)
  exact ⟨by rw [← ofBigEndian_bigEndian_of_lt ha, hnum, ofBigEndian_bigEndian_of_lt hb], hrest⟩

theorem lengthPrefixed_append_cancel {width : ℕ} {a b x y : Bytes}
    (ha : a.length < 256 ^ width) (hb : b.length < 256 ^ width)
    (heq : lengthPrefixed width a ++ x = lengthPrefixed width b ++ y) : a = b ∧ x = y := by
  simp only [lengthPrefixed, append_assoc] at heq
  obtain ⟨hlen, hrest⟩ := bigEndian_append_cancel ha hb heq
  exact append_inj hrest hlen

theorem fixedFields_inj {width : ℕ} {a b : List ℕ} (ha : ∀ n ∈ a, n < 256 ^ width)
    (hb : ∀ n ∈ b, n < 256 ^ width) (hlen : a.length = b.length)
    (heq : fixedFields width a = fixedFields width b) : a = b := by
  induction a generalizing b with
  | nil => exact (length_eq_zero_iff.mp hlen.symm).symm
  | cons n a ih =>
    cases b with
    | nil => simp at hlen
    | cons k b =>
      simp only [fixedFields, flatMap_cons] at heq
      obtain ⟨hnk, hrest⟩ := bigEndian_append_cancel (ha n (mem_cons_self ..))
        (hb k (mem_cons_self ..)) heq
      rw [hnk, ih (fun i hi => ha i (mem_cons_of_mem _ hi))
        (fun i hi => hb i (mem_cons_of_mem _ hi)) (by simpa using hlen) hrest]

theorem lengthPrefixedFields_inj {width : ℕ} {a b : List Bytes}
    (ha : ∀ field ∈ a, field.length < 256 ^ width) (hb : ∀ field ∈ b, field.length < 256 ^ width)
    (hlen : a.length = b.length)
    (heq : lengthPrefixedFields width a = lengthPrefixedFields width b) : a = b := by
  induction a generalizing b with
  | nil => exact (length_eq_zero_iff.mp hlen.symm).symm
  | cons field a ih =>
    cases b with
    | nil => simp at hlen
    | cons field' b =>
      simp only [lengthPrefixedFields, flatMap_cons] at heq
      obtain ⟨hfield, hrest⟩ := lengthPrefixed_append_cancel
        (ha field (mem_cons_self ..)) (hb field' (mem_cons_self ..)) heq
      rw [hfield, ih (fun f hf => ha f (mem_cons_of_mem _ hf))
        (fun f hf => hb f (mem_cons_of_mem _ hf)) (by simpa using hlen) hrest]

end Encoding
