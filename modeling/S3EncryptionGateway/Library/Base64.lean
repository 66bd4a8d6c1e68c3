import S3EncryptionGateway.Library.Encoding

/-!
# Padded base64

The standard alphabet with mandatory padding, as a pair of functions between
byte strings and character lists.  The decoder ignores line breaks and does not
insist that the unused bits of the last digit are zero.

The encoder works on three bytes at a time; each group is a 24-bit number whose
four base-64 digits are written out, so the round trip `decode_encode` is an
arithmetic fact about one group carried along the list.
-/

namespace Encoding.Base64

/-- The alphabet, in the order of the digits' values. -/
def alphabet : List Char :=
  ['A', 'B', 'C', 'D', 'E', 'F', 'G', 'H', 'I', 'J', 'K', 'L', 'M', 'N', 'O', 'P', 'Q', 'R', 'S',
   'T', 'U', 'V', 'W', 'X', 'Y', 'Z', 'a', 'b', 'c', 'd', 'e', 'f', 'g', 'h', 'i', 'j', 'k', 'l',
   'm', 'n', 'o', 'p', 'q', 'r', 's', 't', 'u', 'v', 'w', 'x', 'y', 'z', '0', '1', '2', '3', '4',
   '5', '6', '7', '8', '9', '+', '/']

def padChar : Char := '='

/-- The digit with value `n % 64`. -/
def digit (n : ℕ) : Char :=
  alphabet.getD (n % 64) 'A'

def valueOf (c : Char) : Option ℕ :=
  alphabet.idxOf? c

def encode : Bytes → List Char
  | [] => []
  | [a] =>
    let n := a.toNat * 65536
    [digit (n / 262144), digit (n / 4096), padChar, padChar]
  | [a, b] =>
    let n := a.toNat * 65536 + b.toNat * 256
    [digit (n / 262144), digit (n / 4096), digit (n / 64), padChar]
  | a :: b :: c :: rest =>
    let n := a.toNat * 65536 + b.toNat * 256 + c.toNat
    digit (n / 262144) :: digit (n / 4096) :: digit (n / 64) :: digit n :: encode rest

/-- Decode groups of four digits; only the last group may be padded. -/
def decodeGroups : List Char → Option Bytes
  | [] => some []
  | c₀ :: c₁ :: c₂ :: c₃ :: rest => do
      let v₀ ← valueOf c₀
      let v₁ ← valueOf c₁
      if c₂ = padChar then
        if c₃ = padChar ∧ rest = [] then
          return [UInt8.ofNat ((v₀ * 262144 + v₁ * 4096) / 65536)]
        else none
      else
        let v₂ ← valueOf c₂
        if c₃ = padChar then
          if rest = [] then
            let n := v₀ * 262144 + v₁ * 4096 + v₂ * 64
            return [UInt8.ofNat (n / 65536), UInt8.ofNat (n / 256)]
          else none
        else
          let v₃ ← valueOf c₃
          let n := v₀ * 262144 + v₁ * 4096 + v₂ * 64 + v₃
          let more ← decodeGroups rest
          return UInt8.ofNat (n / 65536) :: UInt8.ofNat (n / 256) :: UInt8.ofNat n :: more
  | _ => none

def decode (text : List Char) : Option Bytes :=
  decodeGroups (text.filter fun c => c ≠ '\n' ∧ c ≠ '\r')

/-- The unpadded form over the alphabet that has `-` and `_` for the last two
digits. -/
def encodeRawUrl (bytes : Bytes) : List Char :=
  ((encode bytes).filter (· ≠ padChar)).map fun c =>
    if c = '+' then '-' else if c = '/' then '_' else c

def decodeRawUrl (text : List Char) : Option Bytes :=
  let kept := text.filter fun c => c ≠ '\n' ∧ c ≠ '\r'
  if kept.any (fun c => c = '+' ∨ c = '/' ∨ c = padChar) ∨ kept.length % 4 = 1 then none
  else
    let digits := kept.map fun c => if c = '-' then '+' else if c = '_' then '/' else c
    decodeGroups (digits ++ List.replicate ((4 - kept.length % 4) % 4) padChar)

private theorem digit_facts : ∀ n < 64,
    valueOf (digit n) = some n ∧ digit n ≠ padChar ∧ digit n ≠ '\n' ∧ digit n ≠ '\r' := by
  decide

theorem digit_mod (n : ℕ) : digit n = digit (n % 64) := by
  simp [digit]

@[simp] theorem valueOf_digit (n : ℕ) : valueOf (digit n) = some (n % 64) := by
  rw [digit_mod]
  exact (digit_facts _ (Nat.mod_lt _ (by decide))).1

@[simp] theorem digit_ne_padChar (n : ℕ) : digit n ≠ padChar := by
  rw [digit_mod]
  exact (digit_facts _ (Nat.mod_lt _ (by decide))).2.1

theorem digit_ne_lineBreak (n : ℕ) : digit n ≠ '\n' ∧ digit n ≠ '\r' := by
  rw [digit_mod]
  exact (digit_facts _ (Nat.mod_lt _ (by decide))).2.2

private theorem ofNat_eq_of_toNat {byte : UInt8} {n : ℕ} (h : n % 256 = byte.toNat) :
    UInt8.ofNat n = byte := by
  apply UInt8.toNat_inj.mp
  simpa using h

/-- No digit is a line break, so the decoder's filter keeps every encoding. -/
theorem filter_encode (bytes : Bytes) :
    (encode bytes).filter (fun c => c ≠ '\n' ∧ c ≠ '\r') = encode bytes := by
  rw [List.filter_eq_self]
  fun_induction encode bytes with
  | case1 => simp
  | case2 a n => simp [digit_ne_lineBreak, padChar]
  | case3 a b n => simp [digit_ne_lineBreak, padChar]
  | case4 a b c rest n ih =>
    simp only [List.mem_cons]
    rintro d (rfl | rfl | rfl | rfl | hd)
    · simpa using digit_ne_lineBreak _
    · simpa using digit_ne_lineBreak _
    · simpa using digit_ne_lineBreak _
    · simpa using digit_ne_lineBreak _
    · exact ih d hd

theorem decodeGroups_encode (bytes : Bytes) : decodeGroups (encode bytes) = some bytes := by
  fun_induction encode bytes with
  | case1 => rfl
  | case2 a n =>
    have ha := a.toNat_lt
    simp only [decodeGroups, valueOf_digit, Option.bind_eq_bind, Option.bind_some, n]
    simp only [and_self, if_true, Option.pure_def, Option.some.injEq, List.cons.injEq, and_true]
    exact ofNat_eq_of_toNat (by omega)
  | case3 a b n =>
    have ha := a.toNat_lt
    have hb := b.toNat_lt
    simp only [decodeGroups, valueOf_digit, Option.bind_eq_bind, Option.bind_some, n]
    simp only [digit_ne_padChar, if_true, if_false, Option.pure_def, Option.some.injEq,
      List.cons.injEq, and_true]
    exact ⟨ofNat_eq_of_toNat (by omega), ofNat_eq_of_toNat (by omega)⟩
  | case4 a b c rest n ih =>
    have ha := a.toNat_lt
    have hb := b.toNat_lt
    have hc := c.toNat_lt
    simp only [decodeGroups, valueOf_digit, Option.bind_eq_bind, Option.bind_some, ih, n]
    simp only [digit_ne_padChar, if_false, Option.pure_def, Option.some.injEq,
      List.cons.injEq, and_true]
    exact ⟨ofNat_eq_of_toNat (by omega), ofNat_eq_of_toNat (by omega),
      ofNat_eq_of_toNat (by omega)⟩

/-- **Round trip.**  Decoding an encoding gives the bytes back. -/
theorem decode_encode (bytes : Bytes) : decode (encode bytes) = some bytes := by
  rw [decode, filter_encode, decodeGroups_encode]

end Encoding.Base64
