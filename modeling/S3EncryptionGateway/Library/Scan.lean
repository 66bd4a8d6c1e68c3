import S3EncryptionGateway.Library.Decimal

/-!
# Scanning text

White space around a text, and a number at the beginning of a text that may go on.  White
space outside ASCII has two or three bytes, so a blank is recognised by its first, first two or
first three characters.
-/

namespace Text

/-- The text without the white space around it: behind the longest blank front, and without
the longest blank end of what is left. -/
def trimSpace (text : Str) : Str :=
  let fronts := (List.range (text.length + 1)).filter fun i => isBlank (text.take i)
  let rest := text.drop (fronts.getLast?.getD 0)
  rest.take (((List.range rest.length).find? fun i => isBlank (rest.drop i)).getD rest.length)

theorem mem_of_mem_trimSpace {text : Str} {c : Char} (hmem : c ∈ trimSpace text) : c ∈ text :=
  List.mem_of_mem_drop (List.mem_of_mem_take hmem)

/-- The text behind the white space it begins with.  A line end is not skipped. -/
def skipSpace : Str → Option Str
  | [] => some []
  | a :: rest =>
    if a = '\n' then none
    else if isBlank [a] then skipSpace rest
    else
      match rest with
      | [] => some [a]
      | b :: rest =>
        if isBlank [a, b] then skipSpace rest
        else
          match rest with
          | [] => some [a, b]
          | c :: rest =>
            if isBlank [a, b, c] then skipSpace rest else some (a :: b :: c :: rest)

end Text

namespace Decimal

open Text

/-- An `int64` at the beginning of a text: white space, a sign, and all the digits that follow.
What comes behind them is not looked at. -/
def scanInt (text : Str) : Option ℤ :=
  (skipSpace text).bind fun
    | '+' :: rest => parseInt ('+' :: rest.takeWhile fun c => (digitValue c).isSome)
    | '-' :: rest => parseInt ('-' :: rest.takeWhile fun c => (digitValue c).isSome)
    | rest => parseInt (rest.takeWhile fun c => (digitValue c).isSome)

end Decimal
