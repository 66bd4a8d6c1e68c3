import S3EncryptionGateway.Library.Text

/-!
# Texts coerced to UTF-8

Texts are sequences of bytes.  An encoder that only writes well-formed UTF-8 replaces every byte
that is not part of a well-formed sequence by the three bytes of the replacement character.  A
text of ASCII characters is left as it is, and no other text becomes one of ASCII characters.
-/

namespace Text

/-! ## Well-formed sequences -/

/-- The least and the greatest second byte, and the number of bytes that follow the first, of the
sequences of several bytes that begin with `lead`. -/
def leadByte (lead : ℕ) : Option (ℕ × ℕ × ℕ) :=
  if lead < 0xC2 then none
  else if lead ≤ 0xDF then some (0x80, 0xBF, 1)
  else if lead = 0xE0 then some (0xA0, 0xBF, 2)
  else if lead = 0xED then some (0x80, 0x9F, 2)
  else if lead ≤ 0xEF then some (0x80, 0xBF, 2)
  else if lead = 0xF0 then some (0x90, 0xBF, 3)
  else if lead ≤ 0xF3 then some (0x80, 0xBF, 3)
  else if lead = 0xF4 then some (0x80, 0x8F, 3)
  else none

def isTailByte (c : Char) : Bool := 0x80 ≤ c.toNat ∧ c.toNat ≤ 0xBF

/-- How many bytes of `rest` belong to the sequence that begins with `c`, if it is one. -/
def tailLength (c : Char) (rest : Str) : Option ℕ :=
  if c.toNat < 0x80 then some 0
  else
    match leadByte c.toNat, rest with
    | some (low, high, more), second :: others =>
      if low ≤ second.toNat ∧ second.toNat ≤ high ∧ more ≤ others.length + 1 ∧
          (others.take (more - 1)).all isTailByte then some more
      else none
    | _, _ => none

def replacement : Str := [Char.ofNat 0xEF, Char.ofNat 0xBF, Char.ofNat 0xBD]

/-- The first `pending` bytes belong to a sequence that has been checked. -/
def coerceFrom : ℕ → Str → Str
  | _, [] => []
  | pending + 1, c :: rest => c :: coerceFrom pending rest
  | 0, c :: rest =>
    match tailLength c rest with
    | some more => c :: coerceFrom more rest
    | none => replacement ++ coerceFrom 0 rest

/-- The text with a replacement character for every byte that is not well-formed. -/
def toValidUtf8 (text : Str) : Str := coerceFrom 0 text

/-! ## ASCII -/

instance (text : Str) : Decidable (IsAscii text) :=
  List.decidableBAll (fun c : Char => c.toNat < 128) text

end Text
