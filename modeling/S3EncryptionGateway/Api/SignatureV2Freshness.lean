import S3EncryptionGateway.Library.Fallible
import S3EncryptionGateway.Api.SignatureV2

/-!
# How long a signature of version 2 lasts

The validator compares a date or an expiry time with the clock, and the text to sign has a date.
They are read in different ways: a request that is signed in its query is checked by the `Expires`
or `Date` of the query, but a `Date` header comes first in the text.

`freshness_signed_iff` says when the value that is checked is the one that is signed, and that
then a signature is of no use after its time, whatever request it is moved to.
-/

namespace S3EncryptionGateway.Api

open Text Separators Decimal Encoding List

theorem line_notMem_of_digitsValue {acc n : ℕ} {text : Str}
    (hvalue : digitsValue acc text = some n) : '\n' ∉ text := by
  induction text generalizing acc with
  | nil => exact not_mem_nil
  | cons c rest ih =>
    rw [digitsValue] at hvalue
    obtain ⟨digit, hdigit, hrest⟩ := Option.bind_eq_some_iff.mp hvalue
    intro hmem
    rcases mem_cons.mp hmem with rfl | hmem
    · rw [show digitValue '\n' = none by decide] at hdigit
      cases hdigit
    · exact ih hrest hmem

theorem line_notMem_of_parseInt {text : Str} {n : ℤ} (hparse : parseInt text = some n) :
    '\n' ∉ text := by
  have hdigits : ∀ {limit m : ℕ} {digits : Str}, parseNat limit digits = some m →
      '\n' ∉ digits := by
    intro limit m digits hnat
    unfold parseNat at hnat
    split at hnat
    · cases hnat
    · obtain ⟨k, hk, -⟩ := Option.bind_eq_some_iff.mp hnat
      exact line_notMem_of_digitsValue hk
  unfold parseInt at hparse
  split at hparse
  · obtain ⟨m, hm, -⟩ := Option.map_eq_some_iff.mp hparse
    exact not_mem_cons_of_ne_of_not_mem (by decide) (hdigits hm)
  · obtain ⟨m, hm, -⟩ := Option.map_eq_some_iff.mp hparse
    exact not_mem_cons_of_ne_of_not_mem (by decide) (hdigits hm)
  · obtain ⟨m, hm, -⟩ := Option.map_eq_some_iff.mp hparse
    exact hdigits hm

/-! ## The validator -/

/-- Seconds since the beginning of 1970. -/
def unixSeconds (t : ℤ) : ℤ := t / 1000000000

/-- The validator's surroundings: the keyed hash, date formats, the secret and the clock. -/
structure V2Validator where
  hmacSha1 : (key : Bytes) → (message : Str) → Bytes
  times : TimeFormats
  secretKey : Str
  clockSkew : ℤ

/-- No text is both a number and a date. -/
def TimeFormats.Apart (times : TimeFormats) : Prop :=
  ∀ text n, parseInt text = some n → times.parseRfc1123 text = none

open ServerRequest

namespace V2Validator

variable (v : V2Validator) (now : ℤ) (r : ServerRequest)

def signatureOf (text : Str) : Str := Base64.encode (v.hmacSha1 (textBytes v.secretKey) text)

/-- An expiry time at most a week ahead.  The difference is taken in 64 bits. -/
def checkExpires (expires : Str) : Except V2Error Unit :=
  match parseInt expires with
  | none => .error .invalidExpires
  | some e =>
    if Int.bmod (e - unixSeconds now) 18446744073709551616 > 604800 then .error .expiryTooLong
    else if unixSeconds now > e then .error .requestExpired
    else .ok ()

def checkDate (date : Str) : Except V2Error Unit :=
  match v.times.parseRfc1123 date with
  | none => .error .invalidDateFormat
  | some t =>
    if durationAbs (durationSince now t) > effectiveSkew v.clockSkew then .error .outsideSkew
    else .ok ()

def compareSignature (signature : Str) : Except V2Error Unit :=
  r.buildV2StringToSign.bind fun text =>
    if signature ≠ v.signatureOf text then .error .signatureMismatch else .ok ()

def isQueryStyle : Bool := r.query "AWSAccessKeyId" ≠ [] ∧ r.query "Signature" ≠ []

def checkQueryTime : Except V2Error Unit :=
  if r.query "Expires" ≠ [] then checkExpires now (r.query "Expires")
  else if r.query "Date" = [] then .error .missingDateParameter
  else v.checkDate now (r.query "Date")

def checkHeaderTime : Except V2Error Unit :=
  if r.headerDate = [] then .error .missingDateHeader else v.checkDate now r.headerDate

def validateSignatureV2 : Except V2Error Unit :=
  if isQueryStyle r then
    (v.checkQueryTime now r).bind fun _ => v.compareSignature r (r.query "Signature")
  else if "AWS ".toList <+: r.header "Authorization" then
    match (cut ':' ((r.header "Authorization").drop 4)).2 with
    | none => .error .invalidAuthorization
    | some signature =>
      (v.checkHeaderTime now r).bind fun _ => v.compareSignature r signature
  else .error .noSignature

/-! ## What is checked -/

/-- The text of the date or the expiry time that is compared with the clock. -/
def checkedText : Str :=
  if isQueryStyle r then if r.query "Expires" ≠ [] then r.query "Expires" else r.query "Date"
  else r.headerDate

def carriedSignature : Str :=
  if isQueryStyle r then r.query "Signature"
  else ((cut ':' ((r.header "Authorization").drop 4)).2).getD []

/-- No header hides the value of the query from the signature. -/
def FreshnessSigned : Prop :=
  isQueryStyle r = true →
    if r.query "Expires" ≠ [] then r.headerDate = [] ∨ r.headerDate = r.query "Expires"
    else r.headerDate = r.query "Date"

variable {v now r}

theorem checkDate_ok {date : Str} (hcheck : v.checkDate now date = .ok ()) :
    ∃ t, v.times.parseRfc1123 date = some t ∧
      durationAbs (durationSince now t) ≤ effectiveSkew v.clockSkew := by
  unfold checkDate at hcheck
  split at hcheck
  · cases hcheck
  rename_i t ht
  split at hcheck
  · cases hcheck
  · exact ⟨t, ht, by omega⟩

theorem checkExpires_ok {expires : Str} (hcheck : checkExpires now expires = .ok ()) :
    ∃ e, parseInt expires = some e ∧ unixSeconds now ≤ e := by
  unfold checkExpires at hcheck
  split at hcheck
  · cases hcheck
  rename_i e he
  split at hcheck
  · cases hcheck
  · split at hcheck
    · cases hcheck
    · exact ⟨e, he, by omega⟩

theorem compareSignature_ok {signature : Str} (hcheck : v.compareSignature r signature = .ok ()) :
    ∃ text, r.buildV2StringToSign = .ok text ∧ v.signatureOf text = signature := by
  obtain ⟨text, hbuild, hcheck⟩ := Fallible.bind_eq_ok_iff.mp hcheck
  refine ⟨text, hbuild, ?_⟩
  split at hcheck
  · cases hcheck
  · rename_i hsame
    exact (not_not.mp hsame).symm

/-- The value that an accepted request was checked by. -/
def InTime (v : V2Validator) (now : ℤ) (text : Str) : Prop :=
  (∃ e, parseInt text = some e ∧ unixSeconds now ≤ e) ∨
    ∃ t, v.times.parseRfc1123 text = some t ∧
      durationAbs (durationSince now t) ≤ effectiveSkew v.clockSkew

theorem of_validateSignatureV2 (haccepted : v.validateSignatureV2 now r = .ok ()) :
    InTime v now (checkedText r) ∧ checkedText r ≠ [] ∧
      (isQueryStyle r = true → r.query "Expires" ≠ [] →
        ∃ e, parseInt (r.query "Expires") = some e ∧ unixSeconds now ≤ e) ∧
      ∃ text, r.buildV2StringToSign = .ok text ∧ v.signatureOf text = carriedSignature r := by
  unfold validateSignatureV2 at haccepted
  unfold checkedText carriedSignature
  split at haccepted
  · rename_i hquery
    rw [if_pos hquery, if_pos hquery]
    obtain ⟨_, htime, hsignature⟩ := Fallible.bind_eq_ok_iff.mp haccepted
    unfold checkQueryTime at htime
    split at htime
    · rename_i hexpires
      have hchecked := checkExpires_ok htime
      rw [if_pos hexpires]
      exact ⟨.inl hchecked, hexpires, fun _ _ => hchecked, compareSignature_ok hsignature⟩
    · rename_i hexpires
      split at htime
      · cases htime
      rename_i hdate
      rw [if_neg hexpires]
      exact ⟨.inr (checkDate_ok htime), hdate, fun _ h => absurd h hexpires,
        compareSignature_ok hsignature⟩
  · rename_i hquery
    rw [if_neg hquery, if_neg hquery]
    split at haccepted
    · split at haccepted
      · cases haccepted
      rename_i signature hcut
      obtain ⟨_, htime, hsignature⟩ := Fallible.bind_eq_ok_iff.mp haccepted
      unfold checkHeaderTime at htime
      split at htime
      · cases htime
      rename_i hdate
      rw [hcut]
      exact ⟨.inr (checkDate_ok htime), hdate, fun h => absurd h hquery,
        compareSignature_ok hsignature⟩
    · cases haccepted

theorem line_notMem_headerDate (r : ServerRequest) : '\n' ∉ r.headerDate := by
  unfold headerDate
  split
  · exact r.line_notMem_header _
  · exact r.line_notMem_header _

/-- The value that is checked is the one that is signed. -/
theorem checkedText_eq_iff (haccepted : v.validateSignatureV2 now r = .ok ()) :
    checkedText r = r.signedDate ↔ FreshnessSigned r := by
  obtain ⟨-, hne, -, -⟩ := of_validateSignatureV2 haccepted
  unfold checkedText at hne ⊢
  unfold signedDate FreshnessSigned
  by_cases hquery : isQueryStyle r = true
  · rw [if_pos hquery] at hne ⊢
    by_cases hexpires : r.query "Expires" = []
    · rw [if_neg (not_not.mpr hexpires)] at hne ⊢
      rw [if_neg (not_not.mpr hexpires), hexpires]
      by_cases hheader : r.headerDate = []
      · rw [if_pos hheader, hheader]
        exact ⟨fun h => absurd h hne, fun h => (h hquery).symm⟩
      · rw [if_neg hheader]
        exact ⟨fun h _ => h.symm, fun h => (h hquery).symm⟩
    · rw [if_pos hexpires, if_pos hexpires]
      by_cases hheader : r.headerDate = []
      · rw [if_pos hheader]
        exact ⟨fun _ _ => .inl hheader, fun _ => rfl⟩
      · rw [if_neg hheader]
        exact ⟨fun h _ => .inr h.symm, fun h => ((h hquery).resolve_left hheader).symm⟩
  · rw [if_neg hquery] at hne ⊢
    rw [if_neg hne]
    exact ⟨fun _ h => absurd h hquery, fun _ => rfl⟩

theorem line_notMem_signedDate (haccepted : v.validateSignatureV2 now r = .ok ()) :
    '\n' ∉ r.signedDate := by
  obtain ⟨-, -, hexpires, -⟩ := of_validateSignatureV2 haccepted
  unfold signedDate
  split_ifs with hheader
  · by_cases hgiven : r.query "Expires" = []
    · rw [hgiven]
      exact not_mem_nil
    · by_cases hquery : isQueryStyle r = true
      · obtain ⟨e, he, -⟩ := hexpires hquery hgiven
        exact line_notMem_of_parseInt he
      · -- a signature in the headers comes with a date there
        obtain ⟨-, hne, -, -⟩ := of_validateSignatureV2 haccepted
        rw [checkedText, if_neg hquery] at hne
        exact absurd hheader hne
  · exact line_notMem_headerDate r

theorem signedDate_eq {r r' : ServerRequest} {text : Str}
    (hbuild : r.buildV2StringToSign = .ok text) (hbuild' : r'.buildV2StringToSign = .ok text)
    (hline : '\n' ∉ r.signedDate) (hline' : '\n' ∉ r'.signedDate) :
    r.signedDate = r'.signedDate := by
  have heq := head_append_eq hbuild hbuild'
  simp only [signedHead, append_assoc, cons_append] at heq
  obtain ⟨-, heq⟩ := append_cons_inj line_notMem_method
    line_notMem_method heq
  obtain ⟨-, heq⟩ := append_cons_inj (r.line_notMem_header _) (r'.line_notMem_header _) heq
  obtain ⟨-, heq⟩ := append_cons_inj (r.line_notMem_header _) (r'.line_notMem_header _) heq
  exact (append_cons_inj hline hline' heq).1

/-- **Freshness is signed** for an accepted request if and only if no header hides the value of
the query.  Then a signature that was made over a date or an expiry time is accepted with no
request outside of that time. -/
theorem freshness_signed_iff (v : V2Validator) (now : ℤ) (r : ServerRequest)
    (haccepted : v.validateSignatureV2 now r = .ok ()) :
    (checkedText r = r.signedDate ↔ FreshnessSigned r) ∧
      (FreshnessSigned r → v.times.Apart → effectiveSkew v.clockSkew < 9223372036854775807 →
        ∀ (owner : ServerRequest) (text : Str), owner.buildV2StringToSign = .ok text →
          '\n' ∉ owner.signedDate →
          -- the request carries the signature of that text, and no other text has it
          v.signatureOf text = carriedSignature r →
          (∀ text', v.signatureOf text' = v.signatureOf text → text' = text) →
          (∀ d, v.times.parseRfc1123 owner.signedDate = some d →
            d - effectiveSkew v.clockSkew ≤ now ∧ now ≤ d + effectiveSkew v.clockSkew) ∧
          ∀ e, parseInt owner.signedDate = some e → unixSeconds now ≤ e) := by
  refine ⟨checkedText_eq_iff haccepted, ?_⟩
  intro hsigned hapart hskew owner text howner hline hcarried hunforged
  obtain ⟨hintime, -, -, text', hbuild, hsignature⟩ := of_validateSignatureV2 haccepted
  have htext : text' = text := hunforged text' (hsignature.trans hcarried.symm)
  subst htext
  have hdate : checkedText r = owner.signedDate := by
    rw [(checkedText_eq_iff haccepted).mpr hsigned]
    exact signedDate_eq hbuild howner (line_notMem_signedDate haccepted) hline
  rw [hdate] at hintime
  refine ⟨?_, ?_⟩
  · intro d hd
    rcases hintime with ⟨e, he, -⟩ | ⟨t, ht, hin⟩
    · rw [hapart _ e he] at hd
      cases hd
    · rw [ht, Option.some_inj] at hd
      subst hd
      exact within_skew hskew hin
  · intro e he
    rcases hintime with ⟨e', he', hle⟩ | ⟨t, ht, -⟩
    · rw [he', Option.some_inj] at he
      subst he
      exact hle
    · rw [hapart _ e he] at ht
      cases ht

/-! ## A replay -/

def sampleDate : Str := "Thu, 01 Jan 1970 00:00:00 GMT".toList

/-- A validator whose signatures add up bytes. -/
def sampleValidator : V2Validator where
  hmacSha1 key message := [(key ++ textBytes message).sum]
  times := ⟨fun _ => none, fun _ => [], fun text => if text = sampleDate then some 0 else none⟩
  secretKey := "secret".toList
  clockSkew := 0

/-- The owner's request, signed in its headers. -/
def ownerRequest : ServerRequest where
  method := "GET"
  path := "/b/k".toList
  rawQuery := []
  forceQuery := false
  headers := [("Authorization".toList, "AWS AK:fQ==".toList), ("Date".toList, sampleDate)]
  escapedPath := "/b/k".toList
  host := "s3".toList
  contentLength := 0
  method_token := ServerRequest.rootRequest.method_token
  host_line := ServerRequest.rootRequest.host_line
  path_bytes := ServerRequest.partRequest.path_bytes
  path_escaped := ServerRequest.partRequest.path_escaped
  query_bytes := ServerRequest.rootRequest.path_bytes
  escaped_plain := ServerRequest.partRequest.escaped_plain

/-- The same signature in the query, with an expiry time of the sender's own. -/
def replayedRequest : ServerRequest :=
  { ownerRequest with
    rawQuery := "AWSAccessKeyId=AK&Signature=fQ==&Expires=1000".toList
    headers := [("Date".toList, sampleDate)]
    header_token := by decide +kernel
    header_canonical := by decide +kernel
    header_line := by decide +kernel
    query_bytes := by decide +kernel }

theorem ownerRequest_fresh :
    sampleValidator.validateSignatureV2 0 ownerRequest = .ok () ∧
      checkedText ownerRequest = ownerRequest.signedDate :=
  ⟨by decide +kernel,
    (freshness_signed_iff sampleValidator 0 ownerRequest (by decide +kernel)).1.mpr
      (fun hquery => absurd hquery (by decide +kernel))⟩

/-- Fifteen minutes later, with five minutes of tolerance, the owner's signature is accepted. -/
theorem replay_accepted :
    sampleValidator.validateSignatureV2 0 ownerRequest = .ok () ∧
      sampleValidator.validateSignatureV2 900000000000 ownerRequest = .error .outsideSkew ∧
      replayedRequest.buildV2StringToSign = ownerRequest.buildV2StringToSign ∧
      carriedSignature replayedRequest = carriedSignature ownerRequest ∧
      sampleValidator.validateSignatureV2 900000000000 replayedRequest = .ok () ∧
      checkedText replayedRequest ≠ replayedRequest.signedDate :=
  ⟨by decide +kernel, by decide +kernel, by decide +kernel, by decide +kernel,
    by decide +kernel, by decide +kernel⟩

end V2Validator

end S3EncryptionGateway.Api
