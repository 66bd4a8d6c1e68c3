import Mathlib
import S3EncryptionGateway.Library.Text

/-!
# Percent-encoding

A text is a sequence of bytes, each as the character of its value.  The escape of a query
component keeps letters, digits and four marks, writes a space as a plus sign and everything else
as a percent sign and two digits.

The escaped text has none of the characters that separate components (`mem_percentEncode`), and
`pathUnescape` and `queryUnescape` read it back.
-/

namespace Text

open List

/-- Every character is a byte. -/
def IsBytes (text : Str) : Prop := ∀ c ∈ text, c.toNat < 256

instance (text : Str) : Decidable (IsBytes text) := List.decidableBAll _ text

def hexDigit (n : ℕ) : Char := Char.ofNat (if n < 10 then 48 + n else 55 + n)

theorem hexValue_hexDigit : ∀ n < 16, hexValue (hexDigit n) = some n := by
  decide

def isUnreserved (c : Char) : Bool :=
  ('a' ≤ c ∧ c ≤ 'z') ∨ ('A' ≤ c ∧ c ≤ 'Z') ∨ ('0' ≤ c ∧ c ≤ '9') ∨
    c = '-' ∨ c = '_' ∨ c = '.' ∨ c = '~'

/-- A byte as a percent sign and two digits. -/
def percentByte (c : Char) : Str := ['%', hexDigit (c.toNat / 16), hexDigit (c.toNat % 16)]

def queryEscape (text : Str) : Str :=
  text.flatMap fun c =>
    if isUnreserved c then [c] else if c = ' ' then ['+'] else percentByte c

/-- The text of an escaped path.  A plus sign stands for itself. -/
def pathUnescape : Str → Option Str
  | [] => some []
  | '%' :: hi :: lo :: rest => do
      let h ← hexValue hi
      let l ← hexValue lo
      let decoded ← pathUnescape rest
      return Char.ofNat (16 * h + l) :: decoded
  | '%' :: _ => none
  | c :: rest => (pathUnescape rest).map (c :: ·)

theorem pathUnescape_cons_ne (c : Char) (rest : Str) : pathUnescape (c :: rest) ≠ some [] := by
  intro heq
  unfold pathUnescape at heq
  split at heq
  · contradiction
  · obtain ⟨h, -, heq⟩ := Option.bind_eq_some_iff.mp heq
    obtain ⟨l, -, heq⟩ := Option.bind_eq_some_iff.mp heq
    obtain ⟨decoded, -, heq⟩ := Option.bind_eq_some_iff.mp heq
    cases heq
  · cases heq
  · obtain ⟨decoded, -, heq⟩ := Option.map_eq_some_iff.mp heq
    cases heq

/-- Every occurrence of a character replaced by a text. -/
def replaceAll (old : Char) (new text : Str) : Str :=
  text.flatMap fun c => if c = old then new else [c]

/-- The escape that writes a space like any other byte. -/
def percentEncode (text : Str) : Str :=
  text.flatMap fun c => if isUnreserved c then [c] else percentByte c

/-! ## What an escape is made of -/

variable {c : Char} {text : Str}

theorem isUnreserved_hexDigit : ∀ n < 16, isUnreserved (hexDigit n) = true := by
  decide

theorem ne_of_isUnreserved {d : Char} (hc : isUnreserved c = true) (hd : isUnreserved d = false) :
    c ≠ d := by
  rintro rfl
  cases hd.symm.trans hc

theorem mem_percentEncode (hbytes : IsBytes text) (hmem : c ∈ percentEncode text) :
    isUnreserved c = true ∨ c = '%' := by
  obtain ⟨d, hd, hc⟩ := mem_flatMap.mp hmem
  have hbyte := hbytes d hd
  split_ifs at hc with hunreserved
  · cases mem_singleton.mp hc
    exact .inl hunreserved
  · simp only [percentByte, mem_cons, not_mem_nil, or_false] at hc
    rcases hc with rfl | rfl | rfl
    · exact .inr rfl
    · exact .inl (isUnreserved_hexDigit _ (by omega))
    · exact .inl (isUnreserved_hexDigit _ (by omega))

/-- The escape has none of the separators. -/
theorem separator_notMem_percentEncode
    (hsep : c = '&' ∨ c = '=' ∨ c = '/' ∨ c = '\n' ∨ c = '+' ∨ c = '?') (hbytes : IsBytes text) :
    c ∉ percentEncode text := by
  intro hmem
  have hc := mem_percentEncode hbytes hmem
  rcases hsep with rfl | rfl | rfl | rfl | rfl | rfl <;> exact absurd hc (by decide)

/-- Writing spaces as plus signs and then the plus signs out is writing out the spaces. -/
theorem replaceAll_queryEscape (hbytes : IsBytes text) :
    replaceAll '+' "%20".toList (queryEscape text) = percentEncode text := by
  rw [replaceAll, queryEscape, flatMap_assoc, percentEncode]
  refine flatMap_congr fun c hc => ?_
  have hbyte := hbytes c hc
  split_ifs with hunreserved hspace
  · rw [flatMap_singleton, if_neg (ne_of_isUnreserved hunreserved (by decide))]
  · rw [hspace]
    decide
  · have hdigit : ∀ n < 16, hexDigit n ≠ '+' := fun n hn =>
      ne_of_isUnreserved (isUnreserved_hexDigit n hn) (by decide)
    simp only [percentByte, flatMap_cons, flatMap_nil, if_neg (hdigit (c.toNat / 16) (by omega)),
      if_neg (hdigit (c.toNat % 16) (by omega)), if_neg (show '%' ≠ '+' by decide), append_nil,
      singleton_append]

/-! ## Reading it back -/

theorem pathUnescape_percentByte (hc : c.toNat < 256) (rest : Str) :
    pathUnescape (percentByte c ++ rest) = (pathUnescape rest).map (c :: ·) := by
  have hsum : 16 * (c.toNat / 16) + c.toNat % 16 = c.toNat := by omega
  show pathUnescape ('%' :: _ :: _ :: rest) = _
  rw [pathUnescape, hexValue_hexDigit _ (by omega), hexValue_hexDigit _ (by omega)]
  show (do
    let decoded ← pathUnescape rest
    return Char.ofNat (16 * (c.toNat / 16) + c.toNat % 16) :: decoded) = _
  rw [hsum, Char.ofNat_toNat]
  cases pathUnescape rest <;> rfl

theorem pathUnescape_percentEncode_append (hbytes : IsBytes text) (rest : Str) :
    pathUnescape (percentEncode text ++ rest) = (pathUnescape rest).map (text ++ ·) := by
  induction text with
  | nil => simp [percentEncode]
  | cons c text ih =>
    have hrest := ih fun c' hc' => hbytes c' (mem_cons_of_mem _ hc')
    have hmap : ((pathUnescape rest).map (text ++ ·)).map (c :: ·) =
        (pathUnescape rest).map (c :: text ++ ·) := Option.map_map ..
    rw [percentEncode, flatMap_cons, ← percentEncode, append_assoc]
    split_ifs with hc
    · have hpercent := ne_of_isUnreserved (d := '%') hc (by decide)
      rw [singleton_append, pathUnescape.eq_4 _ _ (fun _ _ _ h => absurd h hpercent)
        (fun h => absurd h hpercent), hrest, hmap]
    · rw [pathUnescape_percentByte (hbytes c mem_cons_self), hrest, hmap]

/-- **The escape is read back.** -/
theorem pathUnescape_percentEncode (hbytes : IsBytes text) :
    pathUnescape (percentEncode text) = some text := by
  have hread := pathUnescape_percentEncode_append hbytes []
  rwa [append_nil, pathUnescape, Option.map_some, append_nil] at hread

/-- A query is a path with plus signs for spaces. -/
theorem queryUnescape_eq (text : Str) :
    queryUnescape text = pathUnescape (text.map fun c => if c = '+' then ' ' else c) := by
  have hhex : ∀ c : Char, hexValue (if c = '+' then ' ' else c) = hexValue c := by
    intro c
    split_ifs with hc
    · rw [hc]
      rfl
    · rfl
  induction text using queryUnescape.induct with
  | case1 => rfl
  | case2 hi lo rest ih =>
    rw [queryUnescape, ih]
    simp only [map_cons, if_neg (show '%' ≠ '+' by decide), pathUnescape, hhex]
  | case3 rest hshort =>
    rw [queryUnescape.eq_3 _ hshort]
    rcases rest with - | ⟨hi, - | ⟨lo, rest⟩⟩
    · rfl
    · rfl
    · exact absurd rfl (hshort hi lo rest)
  | case4 c rest hlong hpercent ih =>
    have hne : (if c = '+' then ' ' else c) ≠ '%' := by
      split
      · decide
      · exact hpercent
    rw [queryUnescape.eq_4 _ _ hlong hpercent, ih, map_cons, pathUnescape.eq_4 _ _
      (fun _ _ _ h => absurd h hne) (fun h => absurd h hne)]
    cases pathUnescape _ <;> rfl

theorem queryUnescape_percentEncode (hbytes : IsBytes text) :
    queryUnescape (percentEncode text) = some text := by
  have hplus : (percentEncode text).map (fun c => if c = '+' then ' ' else c) =
      percentEncode text := by
    refine (map_congr_left fun c hc => if_neg ?_).trans (map_id _)
    rintro rfl
    exact separator_notMem_percentEncode (by simp) hbytes hc
  rw [queryUnescape_eq, hplus, pathUnescape_percentEncode hbytes]

/-! ## What is read is bytes -/

theorem toNat_le_of_le {d : Char} (hle : c ≤ d) : c.toNat ≤ d.toNat :=
  UInt32.le_iff_toNat_le.mp (Char.le_def.mp hle)

theorem hexValue_lt {n : ℕ} (hvalue : hexValue c = some n) : n < 16 := by
  unfold hexValue at hvalue
  split at hvalue
  · rename_i hc
    have hle : c.toNat ≤ 57 := toNat_le_of_le hc.2
    cases hvalue
    omega
  · split at hvalue
    · rename_i hc
      have hle : c.toNat ≤ 102 := toNat_le_of_le hc.2
      cases hvalue
      omega
    · split at hvalue
      · rename_i hc
        have hle : c.toNat ≤ 70 := toNat_le_of_le hc.2
        cases hvalue
        omega
      · cases hvalue

theorem isBytes_pathUnescape {decoded : Str} (hbytes : IsBytes text)
    (hdecoded : pathUnescape text = some decoded) : IsBytes decoded := by
  induction text using pathUnescape.induct generalizing decoded with
  | case1 =>
    cases hdecoded
    exact fun _ hc => absurd hc not_mem_nil
  | case2 hi lo rest ih =>
    rw [pathUnescape] at hdecoded
    obtain ⟨h, hhi, hdecoded⟩ := Option.bind_eq_some_iff.mp hdecoded
    obtain ⟨l, hlo, hdecoded⟩ := Option.bind_eq_some_iff.mp hdecoded
    obtain ⟨decoded', hrest, hdecoded⟩ := Option.bind_eq_some_iff.mp hdecoded
    cases hdecoded
    refine forall_mem_cons.mpr ⟨?_, ih (fun c hc => hbytes c ?_) hrest⟩
    · have hhigh := hexValue_lt hhi
      have hlow := hexValue_lt hlo
      rw [Char.toNat_ofNat, if_pos (.inl (by omega))]
      omega
    · exact mem_cons_of_mem _ (mem_cons_of_mem _ (mem_cons_of_mem _ hc))
  | case3 rest hshort =>
    rw [pathUnescape.eq_3 _ hshort] at hdecoded
    cases hdecoded
  | case4 c rest hlong hpercent ih =>
    rw [pathUnescape.eq_4 _ _ hlong hpercent] at hdecoded
    obtain ⟨decoded', hrest, rfl⟩ := Option.map_eq_some_iff.mp hdecoded
    exact forall_mem_cons.mpr ⟨hbytes c mem_cons_self,
      ih (fun c' hc' => hbytes c' (mem_cons_of_mem _ hc')) hrest⟩

theorem isBytes_queryUnescape {decoded : Str} (hbytes : IsBytes text)
    (hdecoded : queryUnescape text = some decoded) : IsBytes decoded := by
  rw [queryUnescape_eq] at hdecoded
  refine isBytes_pathUnescape (forall_mem_map.mpr fun c hc => ?_) hdecoded
  split
  · decide
  · exact hbytes c hc

end Text
