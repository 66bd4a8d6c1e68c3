import S3EncryptionGateway.Library.Base64
import S3EncryptionGateway.Library.Buffered
import S3EncryptionGateway.Library.Fallible
import S3EncryptionGateway.Library.Scan

/-!
# Trailers of a streaming upload

Behind the last chunk of a streaming upload the client may send trailers: one line for each
checksum that it declared in the request, in signed mode a signature over them, and an empty
line.  `verifyAwsTrailers` reads them from where the chunks ended and compares the checksums with
the body that was written.

`trailers_of_verify` says what is known if it succeeds in signed mode: the rest of the stream is
such a section and nothing else.  The loop over the lines is described by
`exists_entries_of_readTrailers`, by induction on its fuel.
-/

namespace S3EncryptionGateway.Api.AwsChunked

open Text Encoding Streams List

/-- A read of the request's body can fail because the request was cancelled. -/
inductive BodyError where
  | canceled
  | other (code : ℕ)
  deriving DecidableEq

/-- What the verification of a streaming upload can fail with. -/
inductive StreamingError where
  | canceled
  | incompleteBody
  | framing
  | length
  | spool
  | trailer
  | trailingData
  | signatureMismatch
  /-- The error of a write to the staged chunk. -/
  | write
  deriving DecidableEq

inductive StreamingMode where
  | none
  | signedPayload
  | signedPayloadTrailer
  | unsignedPayloadTrailer
  deriving DecidableEq

/-! ## Text and hexadecimal numbers -/

def textOf (data : Bytes) : Str := data.map fun b => Char.ofNat b.toNat

@[simp] theorem textOf_append (data data' : Bytes) :
    textOf (data ++ data') = textOf data ++ textOf data' := List.map_append

def crlf : Bytes := [13, 10]

def crlfText : Str := "\r\n".toList

def lineEnd : UInt8 := 10

def isLowerHex (c : Char) : Bool := ('0' ≤ c && c ≤ '9') || ('a' ≤ c && c ≤ 'f')

def validLowerHex (text : Str) (width : ℕ) : Bool := text.length = width && text.all isLowerHex

def hexDigitValue (c : Char) : ℕ := (hexValue c).getD 0

/-- The number that hexadecimal digits stand for. -/
def hexNumber (text : Str) : ℕ := text.foldl (fun n c => 16 * n + hexDigitValue c) 0

def decodeHex : Str → Bytes
  | a :: b :: rest => UInt8.ofNat (16 * hexDigitValue a + hexDigitValue b) :: decodeHex rest
  | _ => []

def hexDigit (n : ℕ) : Char := if n < 10 then Char.ofNat (48 + n) else Char.ofNat (87 + n)

def encodeHex (data : Bytes) : Str :=
  data.flatMap fun b => [hexDigit (b.toNat / 16), hexDigit (b.toNat % 16)]

/-! ## Signatures and checksums -/

inductive Checksum where
  | crc32
  | crc32c
  | crc64nvme
  | sha1
  | sha256
  deriving DecidableEq

def Checksum.name : Checksum → Str
  | crc32 => "x-amz-checksum-crc32".toList
  | crc32c => "x-amz-checksum-crc32c".toList
  | crc64nvme => "x-amz-checksum-crc64nvme".toList
  | sha1 => "x-amz-checksum-sha1".toList
  | sha256 => "x-amz-checksum-sha256".toList

/-- In the order in which they are compared. -/
def Checksum.all : List Checksum := [.sha256, .sha1, .crc32, .crc32c, .crc64nvme]

structure Hashes where
  sha256 : Bytes → Bytes
  hmac : (key : Bytes) → (message : Str) → Bytes
  checksum : Checksum → Bytes → Bytes

/-- What the signature of the request's headers left behind. -/
structure V4SigningContext where
  mode : StreamingMode
  signingKey : Bytes
  timestamp : Str
  credentialScope : Str
  seedSignature : Bytes

namespace V4SigningContext

variable (hashes : Hashes) (c : V4SigningContext)

/-- The signature of a chunk behind a chunk signed with `previous`. -/
def chunkSignature (previous dataHash : Bytes) : Bytes :=
  hashes.hmac c.signingKey
    ("AWS4-HMAC-SHA256-PAYLOAD\n".toList ++ c.timestamp ++ "\n".toList ++ c.credentialScope ++
      "\n".toList ++ encodeHex previous ++ "\n".toList ++ encodeHex (hashes.sha256 []) ++
      "\n".toList ++ encodeHex dataHash)

/-- The signature of the trailers behind a last chunk signed with `final`. -/
def trailerSignature (final trailerHash : Bytes) : Bytes :=
  hashes.hmac c.signingKey
    ("AWS4-HMAC-SHA256-TRAILER\n".toList ++ c.timestamp ++ "\n".toList ++ c.credentialScope ++
      "\n".toList ++ encodeHex final ++ "\n".toList ++ encodeHex trailerHash)

end V4SigningContext

/-- The upload as its headers announce it.  The decoded length is negative if there is none. -/
structure Upload where
  signing : Option V4SigningContext
  mode : StreamingMode
  decodedLength : ℤ
  declaration : Str

/-! ## The trailer section -/

def maxAwsTrailerBytes : ℕ := 65536
def maxAwsTrailerCount : ℕ := 64

def trailerSignatureName : Str := "x-amz-trailer-signature".toList

def forbiddenTrailers : List Str :=
  ["content-length".toList, "transfer-encoding".toList, "authorization".toList,
    "x-amz-content-sha256".toList, "x-amz-trailer".toList]

def validTrailerToken (name : Str) : Bool :=
  name ≠ [] && name.all fun c =>
    ('a' ≤ c && c ≤ 'z') || ('0' ≤ c && c ≤ '9') || c ∈ "!#$%&'*+-.^_`|~".toList

/-- The loop over the declared names, behind those that were `seen`. -/
def validDeclaration : (seen : List Str) → List Str → Bool
  | _, [] => true
  | seen, name :: names =>
    name = lowerAscii name && name ≠ [] && name ∉ seen && name ∉ forbiddenTrailers &&
      name ∈ Checksum.all.map Checksum.name && validTrailerToken name &&
      validDeclaration (name :: seen) names

/-- A trailer by its name and what stands behind the colon. -/
abbrev TrailerEntry := Str × Str

def trailerValue (entry : TrailerEntry) : Str × Str := (entry.1, trimSpace entry.2)

/-- A trailer that was not yet received, or the empty line. -/
def parseTrailer (declared : List Str) (signed : Bool) (received : List Str) (line : Str) :
    Option (Option TrailerEntry) :=
  if line = crlfText then some none
  else if line.length < 3 ∨ ¬crlfText <:+ line then none
  else
    match cut ':' (line.take (line.length - 2)) with
    | (_, none) => none
    | (name, some raw) =>
      if (name ∉ declared ∧ ¬(signed ∧ name = trailerSignatureName)) ∨ name ∈ received then none
      else if name ≠ lowerAscii name ∨ validTrailerToken name = false then none
      else if trimSpace raw = [] ∨ '\r' ∈ trimSpace raw ∨ '\n' ∈ trimSpace raw then none
      else some (some (name, raw))

/-- The lines of the section, up to and with the empty one.  Every line takes some of the
`room`, so that as much fuel is enough. -/
def readTrailers (declared : List Str) (signed : Bool) :
    (fuel room : ℕ) → List (Str × Str) → Buffered UInt8 BodyError →
      Option (List (Str × Str) × Buffered UInt8 BodyError)
  | 0, _, _, _ => none
  | fuel + 1, room, values, input =>
    match input.readLine lineEnd room with
    | .error _ => none
    | .ok (line, input) =>
      match parseTrailer declared signed (values.map Prod.fst) (textOf line) with
      | none => none
      | some none => some (values, input)
      | some (some entry) =>
        readTrailers declared signed fuel (room - line.length)
          (values ++ [trailerValue entry]) input

/-- Compare the checksums with the body.  The spooled body may not be `readable`. -/
def verifyTrailerChecksums (hashes : Hashes) (body : Bytes) (values : List (Str × Str))
    (readable : Bool) : Except StreamingError Unit :=
  if values = [] ∨ values.all (fun value => ¬"x-amz-checksum-".toList <+: value.1) then
    .error .trailer
  else if readable = false then .error .spool
  else if Checksum.all.all fun checksum =>
      match values.lookup checksum.name with
      | none => true
      | some value => Base64.decode value = some (hashes.checksum checksum body) then .ok ()
  else .error .signatureMismatch

/-- Each name with its value, on a line of its own. -/
def canonicalTrailers (values : List (Str × Str)) : Str :=
  ((values.filter fun value => value.1 ≠ trailerSignatureName).mergeSort
    fun a b => decide (a.1 ≤ b.1)).flatMap fun value => value.1 ++ ':' :: (value.2 ++ ['\n'])

def trailerHash (hashes : Hashes) (values : List (Str × Str)) : Bytes :=
  hashes.sha256 ((canonicalTrailers values).map fun c => UInt8.ofNat c.toNat)

/-- Nothing may come behind the section. -/
def expectEnd (input : Buffered UInt8 BodyError) (rewinds : Bool) : Except StreamingError Unit :=
  match input.readByte with
  | .error .eof => if rewinds then .ok () else .error .spool
  | _ => .error .trailingData

/-- The signature over the trailers, which only signed mode has. -/
def verifyTrailerSignature (hashes : Hashes) (upload : Upload) (final : Bytes)
    (values : List (Str × Str)) : Except StreamingError Unit :=
  if upload.mode = .signedPayloadTrailer then
    match upload.signing, values.lookup trailerSignatureName with
    | some c, some supplied =>
      if validLowerHex supplied 64 ∧
          c.trailerSignature hashes final (trailerHash hashes values) = decodeHex supplied then
        .ok ()
      else .error .signatureMismatch
    | _, _ => .error .signatureMismatch
  else if trailerSignatureName ∈ values.map Prod.fst then .error .trailer
  else .ok ()

def boolInt (v : Bool) : ℕ := if v then 1 else 0

def verifyAwsTrailers (hashes : Hashes) (upload : Upload) (body final : Bytes)
    (input : Buffered UInt8 BodyError) (readable rewinds : Bool) : Except StreamingError Unit :=
  let signed := upload.mode = .signedPayloadTrailer
  let declared := upload.declaration.splitOn ','
  if (signed ∨ upload.mode = .unsignedPayloadTrailer) ∧ upload.declaration = [] then
    .error .trailer
  else if signed ∧ (upload.signing.all fun c => c.signingKey = []) then .error .signatureMismatch
  else if declared.head? = some [] ∨ maxAwsTrailerCount < declared.length then .error .trailer
  else if validDeclaration [] declared = false then .error .trailer
  else
    match readTrailers declared signed (maxAwsTrailerBytes + 1) maxAwsTrailerBytes [] input with
    | none => .error .trailer
    | some (values, input) =>
      if values.length ≠ declared.length + boolInt signed then .error .trailer
      else if declared.any fun name => name ∉ values.map Prod.fst then .error .trailer
      else do
        verifyTrailerChecksums hashes body values readable
        verifyTrailerSignature hashes upload final values
        expectEnd input rewinds

/-! ## What a verified section is -/

def trailerLine (entry : TrailerEntry) : Str := entry.1 ++ ':' :: (entry.2 ++ crlfText)

def trailerSection (entries : List TrailerEntry) : Str :=
  entries.flatMap trailerLine ++ crlfText

theorem eq_of_cut {separator : Char} {text before after : Str}
    (hcut : cut separator text = (before, some after)) : text = before ++ separator :: after := by
  rw [cut] at hcut
  have hsplit := takeWhile_append_dropWhile (p := (· ≠ separator)) (l := text)
  split at hcut
  · cases hcut
  rename_i c rest hrest
  rw [hrest] at hsplit
  have hc : c = separator := by
    have hhead := List.head?_dropWhile_not (· ≠ separator) text
    rw [hrest] at hhead
    simpa using hhead
  cases hcut
  rw [hc] at hsplit
  exact hsplit.symm

theorem take_append_of_isSuffix {text : Str} (hsuffix : crlfText <:+ text) :
    text.take (text.length - 2) ++ crlfText = text := by
  obtain ⟨front, rfl⟩ := hsuffix
  have hlen : (front ++ crlfText).length - 2 = front.length := by
    rw [length_append]
    rfl
  rw [hlen, take_left]

variable {input : Buffered UInt8 BodyError} {values : List (Str × Str)}

section ReadTrailers

variable {declared received : List Str} {signed : Bool} {line : Str}

theorem parseTrailer_eq_some_none
    (hparse : parseTrailer declared signed received line = some none) : line = crlfText := by
  rw [parseTrailer] at hparse
  split_ifs at hparse
  · assumption
  · split at hparse
    · cases hparse
    · split_ifs at hparse
      cases Option.some.inj hparse

theorem parseTrailer_eq_some {entry : TrailerEntry}
    (hparse : parseTrailer declared signed received line = some (some entry)) :
    line = trailerLine entry ∧ entry.1 ∉ received ∧
      (entry.1 ∈ declared ∨ (signed = true ∧ entry.1 = trailerSignatureName)) := by
  rw [parseTrailer] at hparse
  split_ifs at hparse with hempty hends
  · cases Option.some.inj hparse
  · obtain ⟨-, hends⟩ := not_or.mp hends
    have hsuffix := take_append_of_isSuffix (not_not.mp hends)
    split at hparse
    · cases hparse
    rename_i name raw hcut
    split_ifs at hparse with hname
    cases hparse
    obtain ⟨hallowed, hfresh⟩ := not_or.mp hname
    refine ⟨?_, hfresh, ?_⟩
    · rw [← hsuffix, eq_of_cut hcut, trailerLine, append_assoc]
      rfl
    · by_cases hdeclared : name ∈ declared
      · exact .inl hdeclared
      · right
        by_contra hneither
        exact hallowed ⟨hdeclared, hneither⟩

/-- **The loop over the lines.** -/
theorem exists_entries_of_readTrailers {fuel room : ℕ} {values' : List (Str × Str)}
    {rest : Buffered UInt8 BodyError} (hnodup : (values.map Prod.fst).Nodup)
    (hread : readTrailers declared signed fuel room values input = some (values', rest)) :
    ∃ entries, values' = values ++ entries.map trailerValue ∧
      textOf input.data = trailerSection entries ++ textOf rest.data ∧
      input.ending = rest.ending ∧ (values'.map Prod.fst).Nodup ∧
      ∀ entry ∈ entries, entry.1 ∈ declared ∨ (signed = true ∧ entry.1 = trailerSignatureName) := by
  induction fuel generalizing room values input with
  | zero => cases hread
  | succ fuel ih =>
    rw [readTrailers] at hread
    cases hline : input.readLine lineEnd room with
    | error err =>
      rw [hline] at hread
      cases hread
    | ok result =>
      obtain ⟨line, later⟩ := result
      obtain ⟨⟨hdata, hending⟩, -, -⟩ := Buffered.reads_of_readLine hline
      rw [hline] at hread
      simp only at hread
      split at hread
      · cases hread
      · rename_i hparse
        cases hread
        refine ⟨[], by simp, ?_, hending, hnodup, by simp⟩
        rw [hdata, textOf_append, parseTrailer_eq_some_none hparse]
        rfl
      · rename_i entry hparse
        obtain ⟨htext, hfresh, hallowed⟩ := parseTrailer_eq_some hparse
        have hnodup' : ((values ++ [trailerValue entry]).map Prod.fst).Nodup := by
          rw [map_append]
          exact hnodup.append (nodup_singleton _) (disjoint_singleton.mpr hfresh)
        obtain ⟨entries, hvalues, hlater, hsame, hdistinct, hall⟩ := ih hnodup' hread
        refine ⟨entry :: entries, ?_, ?_, hending.trans hsame, hdistinct, ?_⟩
        · rw [hvalues, append_assoc]
          rfl
        · rw [hdata, textOf_append, hlater, htext]
          simp [trailerSection]
        · exact forall_mem_cons.mpr ⟨hallowed, hall⟩

end ReadTrailers

/-- A verified trailer section: every declared checksum once and right, and one signature over
all of them. -/
structure TrailersVerified (hashes : Hashes) (c : V4SigningContext) (declaration : Str)
    (body final : Bytes) (entries : List TrailerEntry) : Prop where
  distinct : (entries.map Prod.fst).Nodup
  declared : ∀ name ∈ declaration.splitOn ',', ∃ checksum : Checksum, name = checksum.name ∧
    ∃ raw, (name, raw) ∈ entries ∧
      Base64.decode (trimSpace raw) = some (hashes.checksum checksum body)
  nothing_else : ∀ entry ∈ entries,
    entry.1 ∈ declaration.splitOn ',' ∨ entry.1 = trailerSignatureName
  signed : ∃ raw, (trailerSignatureName, raw) ∈ entries ∧
    c.trailerSignature hashes final (trailerHash hashes (entries.map trailerValue)) =
      decodeHex (trimSpace raw)

theorem name_of_validDeclaration {seen names : List Str} {name : Str}
    (hvalid : validDeclaration seen names = true) (hname : name ∈ names) :
    ∃ checksum : Checksum, name = checksum.name := by
  induction names generalizing seen with
  | nil => cases hname
  | cons first names ih =>
    rw [validDeclaration] at hvalid
    simp only [Bool.and_eq_true, decide_eq_true_eq] at hvalid
    rcases mem_cons.mp hname with rfl | hname
    · obtain ⟨checksum, -, hchecksum⟩ := mem_map.mp hvalid.1.1.2
      exact ⟨checksum, hchecksum.symm⟩
    · exact ih hvalid.2 hname

variable {readable rewinds : Bool} {hashes : Hashes}

theorem exists_of_verify {upload : Upload} {body final : Bytes}
    (hverify : verifyAwsTrailers hashes upload body final input readable rewinds = .ok ()) :
    ∃ values rest,
      readTrailers (upload.declaration.splitOn ',') (upload.mode = .signedPayloadTrailer)
          (maxAwsTrailerBytes + 1) maxAwsTrailerBytes [] input = some (values, rest) ∧
        validDeclaration [] (upload.declaration.splitOn ',') = true ∧
        (∀ name ∈ upload.declaration.splitOn ',', name ∈ values.map Prod.fst) ∧
        verifyTrailerChecksums hashes body values readable = .ok () ∧
        verifyTrailerSignature hashes upload final values = .ok () ∧
        expectEnd rest rewinds = .ok () := by
  rw [verifyAwsTrailers] at hverify
  split_ifs at hverify with _ _ _ hdeclared
  split at hverify
  · cases hverify
  rename_i values rest hread
  split_ifs at hverify with _ hmissing
  obtain ⟨_, hchecksums, hverify⟩ := Fallible.bind_eq_ok_iff.mp hverify
  obtain ⟨_, hsignature, hend⟩ := Fallible.bind_eq_ok_iff.mp hverify
  refine ⟨values, rest, hread, by simpa using hdeclared, ?_, hchecksums, hsignature, hend⟩
  simpa using hmissing

theorem expectEnd_eq_ok (hend : expectEnd input rewinds = .ok ()) : input = ⟨[], .eof⟩ := by
  obtain ⟨data, ending⟩ := input
  cases data with
  | nil =>
    cases ending with
    | eof => rfl
    | unexpectedEof => cases hend
    | other err => cases hend
  | cons b rest => cases hend

theorem exists_entry_of_lookup {entries : List TrailerEntry} {name value : Str}
    (hlookup : (entries.map trailerValue).lookup name = some value) :
    ∃ raw, (name, raw) ∈ entries ∧ trimSpace raw = value := by
  obtain ⟨before, after, hsplit, -⟩ := lookup_eq_some_iff.mp hlookup
  have hmem : (name, value) ∈ entries.map trailerValue := by
    rw [hsplit]
    simp
  obtain ⟨entry, hentry, hvalue⟩ := mem_map.mp hmem
  cases hvalue
  exact ⟨entry.2, hentry, rfl⟩

theorem exists_lookup_of_mem {name : Str} (hname : name ∈ values.map Prod.fst) :
    ∃ value, values.lookup name = some value := by
  cases hlookup : values.lookup name with
  | some value => exact ⟨value, rfl⟩
  | none =>
    obtain ⟨value, hvalue, rfl⟩ := mem_map.mp hname
    have hne := lookup_eq_none_iff.mp hlookup value hvalue
    simp at hne

/-- **A verified section is the rest of the stream.** -/
theorem trailers_of_verify {upload : Upload} {c : V4SigningContext}
    (hsigning : upload.signing = some c) (hmode : upload.mode = .signedPayloadTrailer)
    {body final : Bytes}
    (hverify : verifyAwsTrailers hashes upload body final input readable rewinds = .ok ()) :
    ∃ entries, textOf input.data = trailerSection entries ∧ input.ending = .eof ∧
      TrailersVerified hashes c upload.declaration body final entries := by
  obtain ⟨values, rest, hread, hvalid, hreceived, hchecksums, hsignature, hend⟩ :=
    exists_of_verify hverify
  obtain ⟨entries, hvalues, htext, hending, hdistinct, hall⟩ :=
    exists_entries_of_readTrailers (show (([] : List (Str × Str)).map Prod.fst).Nodup from
      nodup_nil) hread
  obtain rfl := expectEnd_eq_ok hend
  rw [nil_append] at hvalues
  subst hvalues
  refine ⟨entries, ?_, hending, ⟨?_, ?_, ?_, ?_⟩⟩
  · rw [htext]
    exact append_nil _
  · rw [map_map] at hdistinct
    exact hdistinct
  · intro name hname
    obtain ⟨checksum, rfl⟩ := name_of_validDeclaration hvalid hname
    obtain ⟨value, hlookup⟩ := exists_lookup_of_mem (hreceived _ hname)
    obtain ⟨raw, hraw, rfl⟩ := exists_entry_of_lookup hlookup
    refine ⟨checksum, rfl, raw, hraw, ?_⟩
    rw [verifyTrailerChecksums] at hchecksums
    split_ifs at hchecksums with _ _ hmatch
    have hchecksum := all_eq_true.mp hmatch checksum (by cases checksum <;> decide)
    rw [hlookup] at hchecksum
    exact of_decide_eq_true hchecksum
  · intro entry hentry
    exact (hall entry hentry).imp id And.right
  · rw [verifyTrailerSignature, if_pos hmode, hsigning] at hsignature
    split at hsignature
    · rename_i c' supplied hc hlookup
      split_ifs at hsignature with hmatches
      cases hc
      obtain ⟨raw, hraw, hvalue⟩ := exists_entry_of_lookup hlookup
      exact ⟨raw, hraw, by rw [hvalue]; exact hmatches.2⟩
    · cases hsignature

end S3EncryptionGateway.Api.AwsChunked
