import Mathlib

/-!
# Byte strings as text

A string is a list of characters, one per byte, so that operations on encoded text
and on arbitrary bytes are the same.  Letters are compared without regard to case
through `toLower`; outside ASCII only the two letters matter whose lower case is in
ASCII, since the results are compared with ASCII names.

The query of a URL is parsed as pairs; a pair that is not well formed is left out.
-/

namespace Text

open List

abbrev Str := List Char

instance : LawfulBEq Str := inferInstance

/-! ## Case -/

variable (c : Char)

def lowerChar : Char :=
  if 'A' ≤ c ∧ c ≤ 'Z' then Char.ofNat (c.toNat + 32) else c

/-- Lower case.  The capital I with a dot and the Kelvin sign become `i` and `k`. -/
def toLower : Str → Str
  | '\u00c4' :: '\u00b0' :: rest => 'i' :: toLower rest
  | '\u00e2' :: '\u0084' :: '\u00aa' :: rest => 'k' :: toLower rest
  | c :: rest => lowerChar c :: toLower rest
  | [] => []

/-- Lower case of text in ASCII, such as the name of a header. -/
def lowerAscii (text : Str) : Str :=
  text.map lowerChar

def equalFold (text text' : Str) : Bool :=
  lowerAscii text = lowerAscii text'

@[simp]
theorem lowerAscii_append (text text' : Str) :
    lowerAscii (text ++ text') = lowerAscii text ++ lowerAscii text' :=
  List.map_append

@[simp]
theorem lowerChar_lowerChar : lowerChar (lowerChar c) = lowerChar c := by
  by_cases hc : 'A' ≤ c ∧ c ≤ 'Z'
  · -- 26 letters
    have hlow : 65 ≤ c.toNat := hc.1
    have hhigh : c.toNat ≤ 90 := hc.2
    rw [← Char.ofNat_toNat c]
    interval_cases c.toNat <;> decide
  · have hsame : lowerChar c = c := if_neg hc
    rw [hsame, hsame]

@[simp]
theorem lowerAscii_lowerAscii (text : Str) : lowerAscii (lowerAscii text) = lowerAscii text := by
  simp [lowerAscii]

/-- Lower case brings in small letters only. -/
theorem lowerChar_eq_or : lowerChar c = c ∨ 97 ≤ (lowerChar c).toNat := by
  by_cases hc : 'A' ≤ c ∧ c ≤ 'Z'
  · right
    have hlow : 65 ≤ c.toNat := hc.1
    have hhigh : c.toNat ≤ 90 := hc.2
    rw [lowerChar, if_pos hc, Char.toNat_ofNat, if_pos (.inl (by omega))]
    omega
  · exact .inl (if_neg hc)

theorem mem_of_mem_toLower {text : Str} {c : Char} (hsmall : c.toNat < 97)
    (hmem : c ∈ toLower text) : c ∈ text := by
  induction text using toLower.induct with
  | case1 rest ih =>
    rw [toLower] at hmem
    rcases mem_cons.mp hmem with rfl | hmem
    · exact absurd hsmall (by decide)
    · exact mem_cons_of_mem _ (mem_cons_of_mem _ (ih hmem))
  | case2 rest ih =>
    rw [toLower] at hmem
    rcases mem_cons.mp hmem with rfl | hmem
    · exact absurd hsmall (by decide)
    · exact mem_cons_of_mem _ (mem_cons_of_mem _ (mem_cons_of_mem _ (ih hmem)))
  | case3 d rest hdotted hkelvin ih =>
    rw [toLower.eq_3 d rest hdotted hkelvin] at hmem
    rcases mem_cons.mp hmem with rfl | hmem
    · rcases lowerChar_eq_or d with hsame | hletter
      · rw [hsame]
        exact mem_cons_self
      · omega
    · exact mem_cons_of_mem _ (ih hmem)
  | case4 => exact hmem

def IsAscii (text : Str) : Prop := ∀ c ∈ text, c.toNat < 128

/-! ## Header names -/

def isTokenChar : Bool :=
  c.isAlphanum || c ∈ "!#$%&'*+-.^_`|~".toList

def IsToken (name : Str) : Prop := ∀ c ∈ name, isTokenChar c = true

instance (name : Str) : Decidable (IsToken name) := List.decidableBAll _ name

def upperChar : Char :=
  if 'a' ≤ c ∧ c ≤ 'z' then Char.ofNat (c.toNat - 32) else c

/-- The first letter and the letters after a hyphen in upper case, the others in lower. -/
def capitalize : Bool → Str → Str
  | _, [] => []
  | first, c :: rest =>
    (if first then upperChar c else lowerChar c) :: capitalize (c = '-') rest

/-- The usual spelling of a header name.  A name that is no token is left alone. -/
def canonicalHeaderKey (name : Str) : Str :=
  if name.all isTokenChar then capitalize true name else name

theorem lowerChar_upperChar : lowerChar (upperChar c) = lowerChar c := by
  by_cases hc : 'a' ≤ c ∧ c ≤ 'z'
  · -- 26 letters
    have hlow : 97 ≤ c.toNat := hc.1
    have hhigh : c.toNat ≤ 122 := hc.2
    rw [← Char.ofNat_toNat c]
    interval_cases c.toNat <;> decide
  · have hsame : upperChar c = c := if_neg hc
    rw [hsame]

theorem lowerAscii_capitalize (first : Bool) (name : Str) :
    lowerAscii (capitalize first name) = lowerAscii name := by
  induction name generalizing first with
  | nil => rfl
  | cons c name ih =>
    have hhead : lowerChar (if first then upperChar c else lowerChar c) = lowerChar c := by
      split
      · exact lowerChar_upperChar c
      · exact lowerChar_lowerChar c
    calc lowerAscii (capitalize first (c :: name))
        = lowerChar (if first then upperChar c else lowerChar c) ::
            lowerAscii (capitalize (c = '-') name) := rfl
      _ = lowerAscii (c :: name) := by rw [hhead, ih]; rfl

/-- The usual spelling of a name is one of its spellings. -/
@[simp]
theorem lowerAscii_canonicalHeaderKey (name : Str) :
    lowerAscii (canonicalHeaderKey name) = lowerAscii name := by
  unfold canonicalHeaderKey
  split
  · exact lowerAscii_capitalize true name
  · rfl

theorem upperChar_lowerChar : upperChar (lowerChar c) = upperChar c := by
  by_cases hc : 'A' ≤ c ∧ c ≤ 'Z'
  · -- 26 letters
    have hlow : 65 ≤ c.toNat := hc.1
    have hhigh : c.toNat ≤ 90 := hc.2
    rw [← Char.ofNat_toNat c]
    interval_cases c.toNat <;> decide
  · have hsame : lowerChar c = c := if_neg hc
    rw [hsame]

theorem lowerChar_eq_hyphen : lowerChar c = '-' ↔ c = '-' := by
  constructor
  · intro hc
    rcases lowerChar_eq_or c with hsame | hletter
    · rw [← hsame, hc]
    · rw [hc] at hletter
      exact absurd hletter (by decide)
  · rintro rfl
    decide

theorem isTokenChar_upperChar {c : Char} (hc : isTokenChar c = true) :
    isTokenChar (upperChar c) = true := by
  by_cases hletter : 'a' ≤ c ∧ c ≤ 'z'
  · have hlow : 97 ≤ c.toNat := hletter.1
    have hhigh : c.toNat ≤ 122 := hletter.2
    rw [← Char.ofNat_toNat c]
    interval_cases c.toNat <;> decide
  · have hsame : upperChar c = c := if_neg hletter
    rwa [hsame]

theorem isTokenChar_lowerChar {c : Char} (hc : isTokenChar c = true) :
    isTokenChar (lowerChar c) = true := by
  by_cases hletter : 'A' ≤ c ∧ c ≤ 'Z'
  · have hlow : 65 ≤ c.toNat := hletter.1
    have hhigh : c.toNat ≤ 90 := hletter.2
    rw [← Char.ofNat_toNat c]
    interval_cases c.toNat <;> decide
  · have hsame : lowerChar c = c := if_neg hletter
    rwa [hsame]

variable {name : Str}

theorem isToken_capitalize (hname : IsToken name) (first : Bool) :
    IsToken (capitalize first name) := by
  induction name generalizing first with
  | nil => exact hname
  | cons c name ih =>
    intro d hd
    rcases mem_cons.mp hd with rfl | hd
    · split
      · exact isTokenChar_upperChar (hname c mem_cons_self)
      · exact isTokenChar_lowerChar (hname c mem_cons_self)
    · exact ih (fun e he => hname e (mem_cons_of_mem _ he)) _ d hd

theorem capitalize_lowerAscii (first : Bool) (name : Str) :
    capitalize first (lowerAscii name) = capitalize first name := by
  induction name generalizing first with
  | nil => rfl
  | cons c name ih =>
    rw [lowerAscii, map_cons, capitalize, capitalize, ← lowerAscii, ih, upperChar_lowerChar,
      lowerChar_lowerChar, decide_eq_decide.mpr (lowerChar_eq_hyphen c)]

theorem toLower_of_isToken (hname : IsToken name) : toLower name = lowerAscii name := by
  induction name using toLower.induct with
  | case1 rest => exact absurd (hname _ mem_cons_self) (by decide)
  | case2 rest => exact absurd (hname _ mem_cons_self) (by decide)
  | case3 c rest hdotted hkelvin ih =>
    rw [toLower.eq_3 c rest hdotted hkelvin, ih fun d hd => hname d (mem_cons_of_mem _ hd)]
    rfl
  | case4 => rfl

theorem canonicalHeaderKey_of_isToken (hname : IsToken name) :
    canonicalHeaderKey name = capitalize true name :=
  if_pos (List.all_eq_true.mpr hname)

theorem isToken_canonicalHeaderKey (hname : IsToken name) : IsToken (canonicalHeaderKey name) := by
  rw [canonicalHeaderKey_of_isToken hname]
  exact isToken_capitalize hname true

theorem canonicalHeaderKey_canonicalHeaderKey (hname : IsToken name) :
    canonicalHeaderKey (canonicalHeaderKey name) = canonicalHeaderKey name := by
  rw [canonicalHeaderKey_of_isToken hname,
    canonicalHeaderKey_of_isToken (isToken_capitalize hname true), ← capitalize_lowerAscii,
    lowerAscii_capitalize, capitalize_lowerAscii]

theorem toLower_canonicalHeaderKey (hname : IsToken name) :
    toLower (canonicalHeaderKey name) = lowerAscii name := by
  rw [toLower_of_isToken (isToken_canonicalHeaderKey hname), lowerAscii_canonicalHeaderKey]

/-- Names in the usual spelling that differ in case only are the same. -/
theorem eq_of_toLower_eq {name' : Str} (hname : IsToken name) (hname' : IsToken name')
    (hcanonical : canonicalHeaderKey name = name) (hcanonical' : canonicalHeaderKey name' = name')
    (heq : toLower name = toLower name') : name = name' := by
  rw [toLower_of_isToken hname, toLower_of_isToken hname'] at heq
  rw [canonicalHeaderKey_of_isToken hname] at hcanonical
  rw [canonicalHeaderKey_of_isToken hname'] at hcanonical'
  calc name = capitalize true (lowerAscii name) := by rw [capitalize_lowerAscii, hcanonical]
    _ = capitalize true (lowerAscii name') := by rw [heq]
    _ = name' := by rw [capitalize_lowerAscii, hcanonical']

/-! ## Space -/

/-- Only white space, which outside ASCII has two or three bytes. -/
def isBlank : Str → Bool
  | '\u00c2' :: c :: rest => (c = '\u0085' || c = '\u00a0') && isBlank rest
  | '\u00e1' :: '\u009a' :: '\u0080' :: rest => isBlank rest
  | '\u00e2' :: '\u0080' :: c :: rest =>
    ('\u0080' ≤ c && c ≤ '\u008a' || c = '\u00a8' || c = '\u00a9' || c = '\u00af') &&
      isBlank rest
  | '\u00e2' :: '\u0081' :: '\u009f' :: rest => isBlank rest
  | '\u00e3' :: '\u0080' :: '\u0080' :: rest => isBlank rest
  | c :: rest => (c = ' ' || ('\t' ≤ c && c ≤ '\r')) && isBlank rest
  | [] => true

/-! ## Queries -/

def hexValue : Option ℕ :=
  if '0' ≤ c ∧ c ≤ '9' then some (c.toNat - 48)
  else if 'a' ≤ c ∧ c ≤ 'f' then some (c.toNat - 87)
  else if 'A' ≤ c ∧ c ≤ 'F' then some (c.toNat - 55)
  else none

/-- Percent-decoding of a query component. -/
def queryUnescape : Str → Option Str
  | [] => some []
  | '%' :: hi :: lo :: rest => do
      let h ← hexValue hi
      let l ← hexValue lo
      let decoded ← queryUnescape rest
      return Char.ofNat (16 * h + l) :: decoded
  | '%' :: _ => none
  | c :: rest => do
      let decoded ← queryUnescape rest
      return (if c = '+' then ' ' else c) :: decoded

/-- The text before and after the first occurrence of a character. -/
def cut (separator : Char) (text : Str) : Str × Option Str :=
  match text.dropWhile (· ≠ separator) with
  | [] => (text, none)
  | _ :: after => (text.takeWhile (· ≠ separator), some after)

def parsePair (segment : Str) : Option (Str × Str) :=
  if segment = [] ∨ ';' ∈ segment then none
  else do
    let name ← queryUnescape (cut '=' segment).1
    let value ← queryUnescape ((cut '=' segment).2.getD [])
    return (name, value)

def parseQuery (query : Str) : List (Str × Str) :=
  (query.splitOn '&').filterMap parsePair

/-- The first value of a name, empty if there is none. -/
def firstValue (pairs : List (Str × Str)) (name : Str) : Str :=
  (pairs.lookup name).getD []

end Text
