import S3EncryptionGateway.Api.AwsTrailers
import S3EncryptionGateway.Api.CanonicalRequest

/-!
# The validator of Signature V4

The signature stands in the query (a presigned request) or in the `Authorization` header.  Both
forms name a time, a credential scope and the signed headers.  The validator compares the time
with the clock, computes the signature over the canonical request again and compares it with the
given one; a presigned request must not have expired.  Last come the headers that announce a
streaming body.

The hash functions and the formats of dates are parameters.  Points in time are nanoseconds.

`validateSignatureV4At_congr` says what the answer depends on: the request line, the signed
headers and seven others, `validatorHeaders`.  `replay_near_timestamp` bounds the times at which
a request is accepted.
-/

namespace S3EncryptionGateway.Api

open Text Separators Decimal Encoding AwsChunked List

/-! ## Time -/

/-- The formats of dates in requests. -/
structure TimeFormats where
  /-- "20060102T150405Z" -/
  parseAmzDate : Str → Option ℤ
  /-- "20060102" -/
  formatDate : ℤ → Str
  parseRfc1123 : Str → Option ℤ

/-- The difference of two points in time, or the closest duration there is. -/
def durationSince (t t' : ℤ) : ℤ := max (-9223372036854775808) (min 9223372036854775807 (t - t'))

def durationAbs (d : ℤ) : ℤ := min 9223372036854775807 |d|

/-- Five minutes. -/
def defaultClockSkew : ℤ := 300000000000

def effectiveSkew (clockSkew : ℤ) : ℤ := if clockSkew ≤ 0 then defaultClockSkew else clockSkew

theorem within_skew {now t skew : ℤ} (hskew : skew < 9223372036854775807)
    (hin : durationAbs (durationSince now t) ≤ skew) : t - skew ≤ now ∧ now ≤ t + skew := by
  unfold durationAbs at hin
  have habs : |durationSince now t| ≤ skew := by omega
  rw [abs_le] at habs
  unfold durationSince at habs
  omega

/-! ## Errors -/

inductive SignatureError where
  | invalidCredentialFormat
  | missingAuthorization
  | invalidCredentialFormatInHeader
  | missingSignature
  | missingTimestamp
  | invalidTimestampFormat
  | requestTimeTooSkewed
  | invalidCredentialScope
  | credentialDateMismatch
  | signatureMismatch
  | invalidPresignedExpiry
  | presignedExpiryTooLong
  | requestExpired
  | unsupportedStreamingMode
  | invalidStreamingHeaders (cause : StreamingError)
  deriving DecidableEq

/-! ## The two forms -/

/-- What either form of the signature says. -/
structure SignedForm where
  signature : Str
  credentialScope : Str
  timestamp : Str

namespace ServerRequest

variable (r : ServerRequest)

def queryValues (name : String) : List Str :=
  ((parseQuery r.rawQuery).filter (·.1 = name.toList)).map Prod.snd

/-- The credential without the access key. -/
def credentialScope (error : SignatureError) (credential : Str) : Except SignatureError Str :=
  if (credential.splitOn '/').length ≠ 5 then .error error
  else .ok (['/'].intercalate ((credential.splitOn '/').drop 1))

def presignedForm : Except SignatureError SignedForm :=
  (credentialScope .invalidCredentialFormat (r.query "X-Amz-Credential")).map fun scope =>
    { signature := r.query "X-Amz-Signature"
      credentialScope := scope
      timestamp := r.query "X-Amz-Date" }

def headerForm : Except SignatureError SignedForm :=
  let header := r.header "Authorization"
  if ¬ "AWS4-HMAC-SHA256 ".toList <+: header then .error .missingAuthorization
  else
    (credentialScope .invalidCredentialFormatInHeader
        (authorizationParam header "Credential")).map fun scope =>
      { signature := authorizationParam header "Signature"
        credentialScope := scope
        timestamp := if r.header "X-Amz-Date" = [] then r.header "Date" else r.header "X-Amz-Date" }

def signedForm : Except SignatureError SignedForm :=
  if r.isPresigned then r.presignedForm else r.headerForm

end ServerRequest

/-! ## The signature -/

def textBytes (text : Str) : Bytes := text.map fun c => UInt8.ofNat c.toNat

/-- Pairs of hexadecimal digits of either case. -/
def decodeHexString : Str → Option Bytes
  | [] => some []
  | hi :: lo :: rest => do
      let h ← hexValue hi
      let l ← hexValue lo
      let decoded ← decodeHexString rest
      return UInt8.ofNat (16 * h + l) :: decoded
  | [_] => none

section

variable (hashes : Hashes)

def createStringToSign (timestamp credentialScope canonicalRequest : Str) : Str :=
  ['\n'].intercalate ["AWS4-HMAC-SHA256".toList, timestamp, credentialScope,
    encodeHex (hashes.sha256 (textBytes canonicalRequest))]

def deriveSignatureKey (secret date region service : Str) : Bytes :=
  let kDate := hashes.hmac (textBytes ("AWS4".toList ++ secret)) date
  let kRegion := hashes.hmac kDate region
  let kService := hashes.hmac kRegion service
  hashes.hmac kService "aws4_request".toList

end

/-! ## Presigned requests expire -/

/-- Seconds from one to a week, in decimal digits. -/
def presignedExpiry : List Str → Except SignatureError ℕ
  | [value] =>
    if value = [] ∨ ¬ value.all fun c => '0' ≤ c ∧ c ≤ '9' then .error .invalidPresignedExpiry
    else
      match parseNat 18446744073709551615 value with
      | none => .error .invalidPresignedExpiry
      | some seconds =>
        if seconds < 1 then .error .invalidPresignedExpiry
        else if seconds > 604800 then .error .presignedExpiryTooLong
        else .ok seconds
  | _ => .error .invalidPresignedExpiry

/-! ## Streaming bodies -/

def classifyStreamingPayloadMode (value : Str) : Except SignatureError StreamingMode :=
  if value = "STREAMING-AWS4-HMAC-SHA256-PAYLOAD".toList then .ok .signedPayload
  else if value = "STREAMING-AWS4-HMAC-SHA256-PAYLOAD-TRAILER".toList then .ok .signedPayloadTrailer
  else if value = "STREAMING-UNSIGNED-PAYLOAD-TRAILER".toList then .ok .unsignedPayloadTrailer
  else if value = [] ∨ value = "UNSIGNED-PAYLOAD".toList then .ok .none
  else if value.length = 64 ∧ (decodeHexString value).isSome ∧ toLower value = value then .ok .none
  else .error .unsupportedStreamingMode

def validAwsContentEncoding (value : Str) : Bool :=
  match value.splitOn ',' with
  | [part] => trimSpace part = "aws-chunked".toList
  | _ => false

namespace ServerRequest

variable (r : ServerRequest)

def validateStreamingRequestHeaders (mode : StreamingMode) : Except SignatureError Unit :=
  if mode = .none then .ok ()
  else if (r.headerValues "x-amz-content-sha256".toList).length ≠ 1 ∨
      (r.headerValues "content-encoding".toList).length ≠ 1 ∨
      (r.headerValues "x-amz-decoded-content-length".toList).length ≠ 1 then
    .error (.invalidStreamingHeaders .framing)
  else if ',' ∈ r.header "X-Amz-Content-Sha256" then .error (.invalidStreamingHeaders .framing)
  else if ¬ validAwsContentEncoding (r.header "Content-Encoding") then
    .error (.invalidStreamingHeaders .framing)
  else if (r.headerValues "x-amz-trailer".toList).length > 1 ∨ r.header "X-Amz-Trailer" = [] ∧
      (mode = .signedPayloadTrailer ∨ mode = .unsignedPayloadTrailer) then
    .error (.invalidStreamingHeaders .trailer)
  else .ok ()

/-- The hash that the body must have, if the request says one. -/
def expectedPayloadHash (mode : StreamingMode) : Option Bytes :=
  if ¬ r.isPresigned ∧ mode = .none ∧ (r.header "X-Amz-Content-Sha256").length = 64 then
    (decodeHexString (r.header "X-Amz-Content-Sha256")).filter fun hash => hash.length = 32
  else none

/-! ## The validator -/

section

variable (hashes : Hashes) (times : TimeFormats) (secretKey : Str) (clockSkew now : ℤ)

/-- The time is too far from the clock.  A presigned request may be old. -/
def outsideSkew (t : ℤ) : Bool :=
  if r.isPresigned then durationSince t now > effectiveSkew clockSkew
  else durationAbs (durationSince now t) > effectiveSkew clockSkew

/-- A presigned request ends with its lifetime. -/
def checkExpiry (t : ℤ) : Except SignatureError Unit :=
  if r.isPresigned then
    (presignedExpiry (r.queryValues "X-Amz-Expires")).bind fun seconds =>
      if now > t + seconds * 1000000000 then .error .requestExpired else .ok ()
  else .ok ()

/-- The headers that announce the body. -/
def checkStreaming : Except SignatureError StreamingMode :=
  (classifyStreamingPayloadMode (r.header "X-Amz-Content-Sha256")).bind fun mode =>
    (r.validateStreamingRequestHeaders mode).map fun _ => mode

/-- The signature again, with the key of the scope. -/
def calculatedSignature (form : SignedForm) (signingKey : Bytes) : Bytes :=
  hashes.hmac signingKey
    (createStringToSign hashes form.timestamp form.credentialScope r.canonicalRequest)

def checkSignature (form : SignedForm) (t : ℤ) : Except SignatureError Bytes :=
  match form.credentialScope.splitOn '/' with
  | [date, region, service, _] =>
    if date ≠ times.formatDate t then .error .credentialDateMismatch
    else
      let signingKey := deriveSignatureKey hashes secretKey date region service
      match decodeHexString form.signature with
      | none => .error .signatureMismatch
      | some provided =>
        if provided.length ≠ 32 ∨ r.calculatedSignature hashes form signingKey ≠ provided then
          .error .signatureMismatch
        else .ok signingKey
  | _ => .error .invalidCredentialScope

/-- What the request's body is checked with later: the context of its signatures, and its hash. -/
def validateSignatureV4At : Except SignatureError (V4SigningContext × Option Bytes) :=
  r.signedForm.bind fun form =>
    if form.signature = [] then .error .missingSignature
    else if form.timestamp = [] then .error .missingTimestamp
    else
      match times.parseAmzDate form.timestamp with
      | none => .error .invalidTimestampFormat
      | some t =>
        if r.outsideSkew clockSkew now t then .error .requestTimeTooSkewed
        else
          (r.checkSignature hashes times secretKey form t).bind fun signingKey =>
            (r.checkExpiry now t).bind fun _ =>
              r.checkStreaming.map fun mode =>
                ({ mode := mode
                   signingKey := signingKey
                   timestamp := form.timestamp
                   credentialScope := form.credentialScope
                   seedSignature := r.calculatedSignature hashes form signingKey },
                  r.expectedPayloadHash mode)

end

/-! ## What the answer depends on -/

theorem firstValue_eq_head {pairs : List (Str × Str)} {name : Str} {p : Str × Str → Bool}
    (hp : ∀ pair ∈ pairs, pair.1 = name ↔ p pair) :
    firstValue pairs name = ((pairs.filter p).map Prod.snd).head?.getD [] := by
  induction pairs with
  | nil => rfl
  | cons pair pairs ih =>
    obtain ⟨key, value⟩ := pair
    have hhead := hp (key, value) mem_cons_self
    have hrest := ih fun other hother => hp other (mem_cons_of_mem _ hother)
    rw [firstValue, lookup_cons]
    by_cases hkey : key = name
    · rw [filter_cons_of_pos (hhead.mp hkey), hkey, beq_self_eq_true]
      rfl
    · rw [filter_cons_of_neg fun hkey' => hkey (hhead.mpr hkey'), ← hrest,
        beq_false_of_ne (Ne.symm hkey)]
      rfl

variable {r} {r' : ServerRequest}

/-- The first value of a header, however its name is spelled. -/
theorem header_eq_head (r : ServerRequest) (name : String) (hname : IsToken name.toList)
    (hcanonical : canonicalHeaderKey name.toList = name.toList) :
    r.header name = (r.headerValues (toLower name.toList)).head?.getD [] := by
  unfold Request.header headerValues
  refine firstValue_eq_head fun h hh => ?_
  rw [decide_eq_true_eq]
  constructor
  · intro hkey
    rw [hkey]
  · exact eq_of_toLower_eq (r.header_token h hh) hname (r.header_canonical h hh) hcanonical

/-- The requests have the same request line, and the same headers of some names. -/
structure SameOn (names : Str → Prop) (r r' : ServerRequest) : Prop where
  method : r'.method = r.method
  path : r'.path = r.path
  rawQuery : r'.rawQuery = r.rawQuery
  forceQuery : r'.forceQuery = r.forceQuery
  host : r'.host = r.host
  contentLength : r'.contentLength = r.contentLength
  headers : ∀ name, names name → r'.headerValues name = r.headerValues name

theorem SameOn.header_eq {names : Str → Prop} (hsame : SameOn names r r') (name : String)
    (hname : IsToken name.toList) (hcanonical : canonicalHeaderKey name.toList = name.toList)
    (hmem : names (toLower name.toList)) : r'.header name = r.header name := by
  rw [header_eq_head r' name hname hcanonical, header_eq_head r name hname hcanonical,
    hsame.headers _ hmem]

theorem SameOn.query_eq {names : Str → Prop} (hsame : SameOn names r r') (name : String) :
    r'.query name = r.query name := by
  rw [Request.query, hsame.rawQuery, Request.query]

def signedNames (r : ServerRequest) : List Str := r.signedHeaders.map toLower

/-- Headers that the validator reads whether they are signed or not. -/
def validatorHeaders : List Str :=
  ["authorization".toList, "x-amz-date".toList, "date".toList, "x-amz-content-sha256".toList,
    "content-encoding".toList, "x-amz-decoded-content-length".toList, "x-amz-trailer".toList]

section

variable {names : Str → Prop} (hsame : SameOn names r r')
  (hvalidator : ∀ name ∈ validatorHeaders, names name)

include hsame

theorem isPresigned_congr : r'.isPresigned = r.isPresigned := by
  rw [isPresigned, hsame.query_eq, isPresigned]

include hvalidator

theorem signedHeaders_congr : r'.signedHeaders = r.signedHeaders := by
  have hauthorization : r'.header "Authorization" = r.header "Authorization" :=
    hsame.header_eq _ (by decide) (by decide) (hvalidator _ (by decide))
  rw [signedHeaders, isPresigned_congr hsame, hsame.query_eq, hauthorization, signedHeaders]

theorem signedForm_congr : r'.signedForm = r.signedForm := by
  have hauthorization : r'.header "Authorization" = r.header "Authorization" :=
    hsame.header_eq _ (by decide) (by decide) (hvalidator _ (by decide))
  have hamzDate : r'.header "X-Amz-Date" = r.header "X-Amz-Date" :=
    hsame.header_eq _ (by decide) (by decide) (hvalidator _ (by decide))
  have hdate : r'.header "Date" = r.header "Date" :=
    hsame.header_eq _ (by decide) (by decide) (hvalidator _ (by decide))
  simp only [signedForm, presignedForm, headerForm, isPresigned_congr hsame, hsame.query_eq,
    hauthorization, hamzDate, hdate]

theorem contentHash_congr :
    r'.header "X-Amz-Content-Sha256" = r.header "X-Amz-Content-Sha256" :=
  hsame.header_eq _ (by decide) (by decide) (hvalidator _ (by decide))

theorem canonicalRequest_congr (hsigned : ∀ name ∈ r.signedNames, names name) :
    r'.canonicalRequest = r.canonicalRequest := by
  have hvalue : ∀ name ∈ sortStrings r.signedHeaders,
      r'.headerValue (toLower name) = r.headerValue (toLower name) := by
    intro name hname
    have hmem : toLower name ∈ r.signedNames :=
      mem_map_of_mem ((sortStrings_perm _).mem_iff.mp hname)
    rw [headerValue, signedValues, hsame.headers _ (hsigned _ hmem), hsame.host,
      hsame.contentLength, headerValue, signedValues]
  have hlines : r'.headerLines r.signedHeaders = r.headerLines r.signedHeaders := by
    refine filterMap_congr fun name hname => ?_
    rw [hvalue name hname]
  rw [canonicalRequest, canonicalRequest, signedHeaders_congr hsame hvalidator,
    isPresigned_congr hsame, createCanonicalRequest, createCanonicalRequest, hlines, hsame.method,
    hsame.rawQuery, canonicalPath, canonicalPath, hsame.path, payloadHash, payloadHash,
    contentHash_congr hsame hvalidator]

theorem checkStreaming_congr : r'.checkStreaming = r.checkStreaming := by
  have hencoding : r'.header "Content-Encoding" = r.header "Content-Encoding" :=
    hsame.header_eq _ (by decide) (by decide) (hvalidator _ (by decide))
  have htrailer : r'.header "X-Amz-Trailer" = r.header "X-Amz-Trailer" :=
    hsame.header_eq _ (by decide) (by decide) (hvalidator _ (by decide))
  have hhash := hsame.headers "x-amz-content-sha256".toList (hvalidator _ (by decide))
  have hencodings := hsame.headers "content-encoding".toList (hvalidator _ (by decide))
  have hlengths := hsame.headers "x-amz-decoded-content-length".toList (hvalidator _ (by decide))
  have htrailers := hsame.headers "x-amz-trailer".toList (hvalidator _ (by decide))
  simp only [checkStreaming, validateStreamingRequestHeaders, contentHash_congr hsame hvalidator,
    hencoding, htrailer, hhash, hencodings, hlengths, htrailers]

/-- **The answer of the validator** depends on the request line, the signed headers and the
headers of the signature and the body. -/
theorem validateSignatureV4At_congr (hsigned : ∀ name ∈ r.signedNames, names name)
    (hashes : Hashes) (times : TimeFormats) (secretKey : Str) (clockSkew now : ℤ) :
    r'.validateSignatureV4At hashes times secretKey clockSkew now =
      r.validateSignatureV4At hashes times secretKey clockSkew now := by
  have hpresigned := isPresigned_congr hsame
  have hcanonical := canonicalRequest_congr hsame hvalidator hsigned
  have hvalues : r'.queryValues "X-Amz-Expires" = r.queryValues "X-Amz-Expires" := by
    rw [queryValues, hsame.rawQuery, queryValues]
  have hskew : ∀ t, r'.outsideSkew clockSkew now t = r.outsideSkew clockSkew now t := by
    intro t
    rw [outsideSkew, hpresigned, outsideSkew]
  have hsignature : ∀ form t, r'.checkSignature hashes times secretKey form t =
      r.checkSignature hashes times secretKey form t := by
    intro form t
    have hcalculated : ∀ key, r'.calculatedSignature hashes form key =
        r.calculatedSignature hashes form key := by
      intro key
      rw [calculatedSignature, hcanonical, calculatedSignature]
    unfold checkSignature
    split
    · simp only [hcalculated]
    · rfl
  have hexpiry : ∀ t, r'.checkExpiry now t = r.checkExpiry now t := by
    intro t
    rw [checkExpiry, hpresigned, hvalues, checkExpiry]
  have hexpected : ∀ mode, r'.expectedPayloadHash mode = r.expectedPayloadHash mode := by
    intro mode
    rw [expectedPayloadHash, hpresigned, contentHash_congr hsame hvalidator, expectedPayloadHash]
  simp only [validateSignatureV4At, signedForm_congr hsame hvalidator, hskew, hsignature, hexpiry,
    checkStreaming_congr hsame hvalidator, hexpected, calculatedSignature, hcanonical]

end

/-! ## How long a signature is accepted -/

theorem presignedExpiry_le {values : List Str} {seconds : ℕ}
    (hexpiry : presignedExpiry values = .ok seconds) : seconds ≤ 604800 := by
  unfold presignedExpiry at hexpiry
  grind

/-- **A replay is accepted near the time of the signature.**  Whatever is changed in a request
outside of what the validator reads, its signature is the right one for the time that the original
names.  The clock is at most the tolerance before that time, and at most the tolerance, or a week
for a presigned request, after it. -/
theorem replay_near_timestamp {names : Str → Prop} (hsame : SameOn names r r')
    (hvalidator : ∀ name ∈ validatorHeaders, names name)
    (hsigned : ∀ name ∈ r.signedNames, names name) {hashes : Hashes} {times : TimeFormats}
    {secretKey : Str} {clockSkew now : ℤ} (hskew : effectiveSkew clockSkew < 9223372036854775807)
    {answer : V4SigningContext × Option Bytes}
    (haccepted : r'.validateSignatureV4At hashes times secretKey clockSkew now = .ok answer) :
    ∃ form t key, r.signedForm = .ok form ∧ times.parseAmzDate form.timestamp = some t ∧
      r.checkSignature hashes times secretKey form t = .ok key ∧
      t - effectiveSkew clockSkew ≤ now ∧
      now ≤ t + if r.isPresigned then 604800 * 1000000000 else effectiveSkew clockSkew := by
  rw [validateSignatureV4At_congr hsame hvalidator hsigned] at haccepted
  obtain ⟨form, hform, hrest⟩ := Fallible.bind_eq_ok_iff.mp haccepted
  cases hparse : times.parseAmzDate form.timestamp with
  | none =>
    rw [hparse] at hrest
    split_ifs at hrest
  | some t =>
    simp only [hparse] at hrest
    split_ifs at hrest with _ _ hin
    obtain ⟨key, hkey, hrest⟩ := Fallible.bind_eq_ok_iff.mp hrest
    obtain ⟨_, hexpiry, -⟩ := Fallible.bind_eq_ok_iff.mp hrest
    refine ⟨form, t, key, hform, hparse, hkey, ?_⟩
    simp only [outsideSkew, checkExpiry] at hin hexpiry
    split_ifs at hin hexpiry ⊢ with hpresigned
    · obtain ⟨seconds, hseconds, hbefore⟩ := Fallible.bind_eq_ok_iff.mp hexpiry
      have hweek := presignedExpiry_le hseconds
      split_ifs at hbefore
      rw [decide_eq_true_eq, durationSince] at hin
      omega
    · exact within_skew hskew (not_lt.mp fun hout => hin (decide_eq_true hout))

end ServerRequest

end S3EncryptionGateway.Api
