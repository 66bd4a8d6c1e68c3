import S3EncryptionGateway.Api.SignatureV4

/-!
# Headers outside the signature

A handler finds its options in headers, and a copy is a copy because of a header.  The validator
of Signature V4 binds the headers that the request itself lists as signed; it does not ask for
the list to have the headers that the handler reads.

## Strategy

`instruction` says what a request makes the gateway do.  The handlers read a few headers by name;
those that store metadata read all `x-amz-meta-` headers, and those that forward the request read
all `x-amz-` headers.

* `instruction_congr` says that the headers which are read determine the instruction,
* `setHeader` changes one header, and `accepted_setHeader` says that the validator does not notice,
* `unsigned_headers_harmless_iff` puts both together: no change of unsigned headers is noticed by
  the handler if and only if every header that it reads is signed.
-/

namespace S3EncryptionGateway.Api

open Text Separators Encoding AwsChunked List

/-! ## Options -/

def copySourceHeader : Str := "x-amz-copy-source".toList

def directiveHeader : Str := "x-amz-metadata-directive".toList

def metadataMark : Str := "x-amz-meta-".toList

def amzMark : Str := "x-amz-".toList

def lockHeaders : List Str :=
  ["x-amz-object-lock-mode".toList, "x-amz-object-lock-retain-until-date".toList,
    "x-amz-object-lock-legal-hold".toList]

def aclHeaders : List Str :=
  ["x-amz-acl".toList, "x-amz-grant-full-control".toList, "x-amz-grant-read".toList,
    "x-amz-grant-read-acp".toList, "x-amz-grant-write-acp".toList]

def putOptionHeaders : List Str :=
  ["x-amz-server-side-encryption".toList, "x-amz-server-side-encryption-aws-kms-key-id".toList,
    "x-amz-server-side-encryption-context".toList,
    "x-amz-server-side-encryption-bucket-key-enabled".toList, "x-amz-storage-class".toList,
    "x-amz-website-redirect-location".toList]

def taggingHeader : Str := "x-amz-tagging".toList

/-- Operations that are handed on to the backend as they are.  In gateway mode the gateway
answers for cross-origin rules itself. -/
def Operation.isForwarded (gatewayCors : Bool) : Operation → Bool
  | .listBuckets | .createBucket | .deleteBucket | .getBucketLocation | .getBucketVersioning
  | .putBucketVersioning | .listMultipartUploads | .getBucketACL | .putBucketACL
  | .getBucketPolicy | .putBucketPolicy | .deleteBucketPolicy | .getBucketLifecycle
  | .putBucketLifecycle | .deleteBucketLifecycle | .getBucketEncryption | .putBucketEncryption
  | .deleteBucketEncryption | .getBucketNotification | .putBucketNotification
  | .getBucketReplication | .putBucketReplication | .deleteBucketReplication
  | .getBucketLogging | .putBucketLogging | .getBucketRequestPayment | .putBucketRequestPayment
  | .getBucketWebsite | .putBucketWebsite | .deleteBucketWebsite | .getBucketInventory
  | .putBucketInventory | .deleteBucketInventory | .getBucketAnalytics
  | .putBucketIntelligentTiering | .getObjectTagging | .putObjectTagging | .deleteObjectTagging
  | .getObjectACL | .putObjectACL | .restoreObject => true
  | .getBucketCors | .putBucketCors | .deleteBucketCors | .corsPreflight => !gatewayCors
  | _ => false

def hopByHopHeaders : List Str :=
  ["connection".toList, "keep-alive".toList, "proxy-authenticate".toList,
    "proxy-authorization".toList, "te".toList, "trailer".toList, "trailers".toList,
    "transfer-encoding".toList, "upgrade".toList]

/-- Headers that belong to the client's own signature. -/
def clientAuthHeaders : List Str :=
  ["authorization".toList, "x-amz-content-sha256".toList, "x-amz-date".toList,
    "x-amz-security-token".toList]

namespace ServerRequest

variable (r : ServerRequest)

/-- The first value of a header, named in lower case. -/
def get (name : Str) : Str := (r.headerValues name).head?.getD []

/-- Headers that end with this connection, by the words of the `Connection` header. -/
def connectionTokens : List Str :=
  ((r.headerValues "connection".toList).flatMap fun value =>
    (value.splitOn ',').map fun word => toLower (trimSpace word)).filter (· ≠ [])

/-- The `x-amz-` headers among those that `backendRequestHeaders` keeps. -/
def forwardsHeader (name : Str) : Bool :=
  amzMark <+: name ∧ name ∉ clientAuthHeaders ∧ name ∉ hopByHopHeaders ∧ name ∉ r.connectionTokens

/-- Both uploads of data copy from another object if a source is named. -/
def isCopy (operation : Operation) : Bool :=
  (operation = .putObject ∨ operation = .uploadPart) ∧ r.get copySourceHeader ≠ []

/-- A copy that is given new metadata. -/
def replacesMetadata : Bool :=
  equalFold (trimSpace (r.get directiveHeader)) "REPLACE".toList

/-- The headers whose first value the handler reads. -/
def firstHeaders : Operation → List Str
  | .putObject =>
    if r.isCopy .putObject then copySourceHeader :: taggingHeader :: lockHeaders
    else copySourceHeader :: taggingHeader :: (lockHeaders ++ aclHeaders)
  | .uploadPart =>
    if r.isCopy .uploadPart then [copySourceHeader, "x-amz-copy-source-range".toList]
    else [copySourceHeader]
  | .createMultipartUpload => aclHeaders
  | .completeMultipartUpload => lockHeaders
  | _ => []

/-- The headers whose values the handler reads all. -/
def wholeHeaders : Operation → List Str
  | .putObject => if r.isCopy .putObject then [] else putOptionHeaders
  | _ => []

def storesMetadata : Operation → Bool
  | .putObject => !r.isCopy .putObject || r.replacesMetadata
  | .createMultipartUpload => true
  | _ => false

/-- What the handler reads of the header with this name. -/
def optionValues (gatewayCors : Bool) (operation : Operation) (name : Str) : List Str :=
  if name ∈ r.firstHeaders operation then [r.get name]
  else if name ∈ r.wholeHeaders operation ∨
      (r.storesMetadata operation ∧ metadataMark <+: name) ∨
      (operation.isForwarded gatewayCors ∧ r.forwardsHeader name) then
    r.headerValues name
  else []

end ServerRequest

/-! ## Instructions -/

/-- What the gateway is told to do: the operation, on what, from where, and with which options. -/
structure Instruction where
  operation : Operation
  path : Str
  query : Str
  isCopy : Bool
  replacesMetadata : Bool
  options : Str → List Str

/-- The parts of the gateway's configuration that matter here. -/
structure SignedGateway where
  libraries : Libraries
  metrics : MetricsPlacement
  gatewayCors : Bool
  hashes : Hashes
  times : TimeFormats
  secretKey : Str
  clockSkew : ℤ

namespace SignedGateway

variable (g : SignedGateway) (now : ℤ) (r : ServerRequest)

def operation : Option Operation := dispatch g.libraries g.metrics r.toRequest

def instruction : Option Instruction :=
  (g.operation r).map fun operation =>
    { operation := operation
      path := r.path
      query := r.rawQuery
      isCopy := r.isCopy operation
      replacesMetadata := operation = .putObject ∧ r.isCopy operation ∧ r.replacesMetadata
      options := r.optionValues g.gatewayCors operation }

/-- The request is not a browser form, which has a signature of its own, and the validator
accepts it. -/
def Accepts : Prop :=
  isPostObjectRequest g.libraries r.toRequest = false ∧
    ∃ context, r.validateSignatureV4At g.hashes g.times g.secretKey g.clockSkew now = .ok context

/-- Every header that the handler reads is signed. -/
def ReadsSigned (operation : Operation) : Prop :=
  r.storesMetadata operation = false ∧ operation.isForwarded g.gatewayCors = false ∧
    (∀ name ∈ r.firstHeaders operation ++ r.wholeHeaders operation, name ∈ r.signedNames) ∧
    (operation = .putObject ∧ r.isCopy operation → directiveHeader ∈ r.signedNames)

end SignedGateway

variable {operation : Operation} {name : Str}

namespace ServerRequest

variable {r r' : ServerRequest}

/-- Only headers that are not signed differ. -/
def ChangesUnsigned (r r' : ServerRequest) : Prop := SameOn (· ∈ r.signedNames) r r'

theorem SameOn.get_eq {names : Str → Prop} (hsame : SameOn names r r') (hname : names name) :
    r'.get name = r.get name := by
  rw [get, hsame.headers name hname, get]

/-! ## Browser forms and routes -/

theorem postContentType_eq (r : ServerRequest) :
    postContentType r.headers =
      match r.headerValues "content-type".toList with
      | [value] => some value
      | _ => none := by
  unfold postContentType headerValues
  rcases r.headers.filter _ with - | ⟨h, - | ⟨h', rest⟩⟩
  · rfl
  · rfl
  · rfl

theorem operation_congr {g : SignedGateway} {names : Str → Prop} (hsame : SameOn names r r')
    (hform : isPostObjectRequest g.libraries r.toRequest = false)
    (hform' : isPostObjectRequest g.libraries r'.toRequest = false) :
    g.operation r' = g.operation r := by
  have hmatcher : ∀ matcher : QueryMatcher,
      matcher.accepts g.libraries r'.toRequest = matcher.accepts g.libraries r.toRequest := by
    intro matcher
    cases matcher with
    | present key => simp only [QueryMatcher.accepts, hsame.rawQuery]
    | digits key => simp only [QueryMatcher.accepts, hsame.rawQuery]
    | equals key value => simp only [QueryMatcher.accepts, hsame.rawQuery]
  have hroute : ∀ route : Route,
      route.accepts g.libraries r'.toRequest = route.accepts g.libraries r.toRequest := by
    intro route
    simp only [Route.accepts, hmatcher, hform, hform', hsame.method, hsame.path]
  simp only [SignedGateway.operation, dispatch, hroute]

/-! ## Headers that are read determine the instruction -/

theorem copySourceHeader_mem_firstHeaders
    (hoperation : operation = .putObject ∨ operation = .uploadPart) :
    copySourceHeader ∈ r.firstHeaders operation := by
  rcases hoperation with rfl | rfl
  · rw [firstHeaders]
    split
    · exact mem_cons_self
    · exact mem_cons_self
  · rw [firstHeaders]
    split
    · exact mem_cons_self
    · exact mem_cons_self

theorem upload_of_copySourceHeader_mem (hmem : copySourceHeader ∈ r.firstHeaders operation) :
    operation = .putObject ∨ operation = .uploadPart := by
  cases operation with
  | putObject => exact .inl rfl
  | uploadPart => exact .inr rfl
  | createMultipartUpload => exact absurd hmem (by rw [firstHeaders]; decide +kernel)
  | completeMultipartUpload => exact absurd hmem (by rw [firstHeaders]; decide +kernel)
  | _ => exact absurd hmem not_mem_nil

theorem copySourceHeader_notMem_wholeHeaders : copySourceHeader ∉ r.wholeHeaders operation := by
  cases operation with
  | putObject =>
    rw [wholeHeaders]
    split
    · exact not_mem_nil
    · decide +kernel
  | _ => exact not_mem_nil

theorem isCopy_congr (hsource : operation = .putObject ∨ operation = .uploadPart →
      r'.get copySourceHeader = r.get copySourceHeader) :
    r'.isCopy operation = r.isCopy operation := by
  unfold isCopy
  by_cases hoperation : operation = .putObject ∨ operation = .uploadPart
  · rw [hsource hoperation]
  · simp only [hoperation, false_and]

section

variable (hcopy : r'.isCopy operation = r.isCopy operation)

include hcopy

theorem firstHeaders_congr : r'.firstHeaders operation = r.firstHeaders operation := by
  cases operation <;> simp only [firstHeaders, hcopy]

theorem wholeHeaders_congr : r'.wholeHeaders operation = r.wholeHeaders operation := by
  cases operation <;> simp only [wholeHeaders, hcopy]

theorem storesMetadata_congr (hreplaces : operation = .putObject → r.isCopy operation = true →
      r'.replacesMetadata = r.replacesMetadata) :
    r'.storesMetadata operation = r.storesMetadata operation := by
  cases operation with
  | putObject =>
    simp only [storesMetadata, hcopy]
    cases hvalue : r.isCopy .putObject with
    | false => rfl
    | true => rw [hreplaces rfl hvalue]
  | _ => rfl

end

end ServerRequest

open ServerRequest

namespace SignedGateway

variable {g : SignedGateway} {now : ℤ} {r r' : ServerRequest}

/-- The handler sees no difference if all that it reads is signed. -/
theorem instruction_congr (hchange : ChangesUnsigned r r')
    (hform : isPostObjectRequest g.libraries r.toRequest = false)
    (hform' : isPostObjectRequest g.libraries r'.toRequest = false)
    (hsigned : ∀ operation, g.operation r = some operation → g.ReadsSigned r operation) :
    g.instruction r' = g.instruction r := by
  unfold instruction
  rw [operation_congr hchange hform hform']
  cases hoperation : g.operation r with
  | none => rfl
  | some operation =>
    obtain ⟨hstores, hforwarded, hlisted, hdirective⟩ := hsigned operation hoperation
    have hfirst : ∀ name ∈ r.firstHeaders operation, r'.get name = r.get name :=
      fun name hname => hchange.get_eq (hlisted name (mem_append_left _ hname))
    have hcopy : r'.isCopy operation = r.isCopy operation :=
      isCopy_congr fun h => hfirst _ (copySourceHeader_mem_firstHeaders h)
    have hreplaces : operation = .putObject → r.isCopy operation = true →
        r'.replacesMetadata = r.replacesMetadata := by
      intro hput hcopied
      rw [replacesMetadata, hchange.get_eq (hdirective ⟨hput, hcopied⟩), replacesMetadata]
    have hstores' := storesMetadata_congr hcopy hreplaces
    rw [hstores] at hstores'
    have hoptions : r'.optionValues g.gatewayCors operation =
        r.optionValues g.gatewayCors operation := by
      funext name
      simp only [optionValues, firstHeaders_congr hcopy, wholeHeaders_congr hcopy, hstores,
        hstores', hforwarded, Bool.false_eq_true, false_and, or_false]
      split
      · rename_i hname
        rw [hfirst name hname]
      · split
        · rename_i hname
          rw [hchange.headers name (hlisted name (mem_append_right _ hname))]
        · rfl
    have hflag : operation = .putObject ∧ r.isCopy operation = true ∧
        r'.replacesMetadata = true ↔ operation = .putObject ∧ r.isCopy operation = true ∧
          r.replacesMetadata = true := by
      constructor
      · rintro ⟨hput, hcopied, hreplaced⟩
        exact ⟨hput, hcopied, hreplaces hput hcopied ▸ hreplaced⟩
      · rintro ⟨hput, hcopied, hreplaced⟩
        exact ⟨hput, hcopied, (hreplaces hput hcopied).symm ▸ hreplaced⟩
    simp only [Option.map_some, hchange.path, hchange.rawQuery, hcopy, hoptions,
      decide_eq_decide.mpr hflag]

end SignedGateway

/-! ## Changing one header -/

/-- The request with one header set, named in lower case. -/
def ServerRequest.setHeader (r : ServerRequest) (name value : Str) (hname : IsToken name)
    (hvalue : '\n' ∉ value) : ServerRequest :=
  { r with
    headers := (r.headers.filter fun h => toLower h.1 ≠ name) ++ [(canonicalHeaderKey name, value)]
    header_token := by
      intro h hh
      rcases List.mem_append.mp hh with hold | hnew
      · exact r.header_token h (List.mem_of_mem_filter hold)
      · rw [List.mem_singleton.mp hnew]
        exact isToken_canonicalHeaderKey hname
    header_canonical := by
      intro h hh
      rcases List.mem_append.mp hh with hold | hnew
      · exact r.header_canonical h (List.mem_of_mem_filter hold)
      · rw [List.mem_singleton.mp hnew]
        exact canonicalHeaderKey_canonicalHeaderKey hname
    header_line := by
      intro h hh
      rcases List.mem_append.mp hh with hold | hnew
      · exact r.header_line h (List.mem_of_mem_filter hold)
      · rw [List.mem_singleton.mp hnew]
        exact hvalue }

namespace ServerRequest

variable {r : ServerRequest} {name value : Str} {hname : IsToken name} {hvalue : '\n' ∉ value}

section

variable (hlower : lowerAscii name = name)

include hlower

theorem headerValues_setHeader_self :
    (r.setHeader name value hname hvalue).headerValues name = [value] := by
  have hkey : toLower (canonicalHeaderKey name) = name := by
    rw [toLower_canonicalHeaderKey hname, hlower]
  rw [headerValues, setHeader, filter_append, filter_filter]
  have hold : (r.headers.filter fun h => decide (toLower h.1 = name) && decide (toLower h.1 ≠ name))
      = [] := by
    refine filter_eq_nil_iff.mpr fun h _ => ?_
    simp
  rw [hold, nil_append, filter_singleton, hkey]
  simp

theorem headerValues_setHeader_of_ne {other : Str} (hother : other ≠ name) :
    (r.setHeader name value hname hvalue).headerValues other = r.headerValues other := by
  have hkey : toLower (canonicalHeaderKey name) = name := by
    rw [toLower_canonicalHeaderKey hname, hlower]
  have hold : (r.headers.filter fun h =>
      decide (toLower h.1 = other) && decide (toLower h.1 ≠ name)) =
        r.headers.filter fun h => toLower h.1 = other := by
    refine filter_congr fun h _ => ?_
    by_cases hh : toLower h.1 = other
    · simp [hh, hother]
    · simp [hh]
  rw [headerValues, setHeader, filter_append, filter_filter, hold,
    filter_cons_of_neg (by simpa [hkey] using hother.symm), filter_nil,
    append_nil, headerValues]

theorem sameOn_setHeader :
    SameOn (· ≠ name) r (r.setHeader name value hname hvalue) where
  method := rfl
  path := rfl
  rawQuery := rfl
  forceQuery := rfl
  host := rfl
  contentLength := rfl
  headers _ hother := headerValues_setHeader_of_ne hlower hother

theorem get_setHeader_self : (r.setHeader name value hname hvalue).get name = value := by
  rw [get, headerValues_setHeader_self hlower]
  rfl

end

/-- Of two values one is not the present one. -/
theorem exists_other_value (values : List Str) :
    ∃ value : Str, '\n' ∉ value ∧ value ≠ [] ∧ [value] ≠ values ∧
      value ≠ values.head?.getD [] := by
  by_cases hfirst : "a/a".toList = values.head?.getD []
  · refine ⟨"b/b".toList, by decide, by decide, ?_, ?_⟩
    · rintro rfl
      exact absurd hfirst (by decide)
    · rw [← hfirst]
      decide
  · refine ⟨"a/a".toList, by decide, by decide, ?_, hfirst⟩
    rintro rfl
    exact hfirst rfl

/-- There are always more names for metadata. -/
theorem exists_metadata_name (avoid : List Str) :
    ∃ name, IsToken name ∧ lowerAscii name = name ∧ metadataMark <+: name ∧ name ∉ avoid := by
  let count := (avoid.map List.length).sum
  refine ⟨metadataMark ++ List.replicate count 'a', ?_, ?_, prefix_append _ _, ?_⟩
  · intro c hc
    rcases mem_append.mp hc with hmark | hletter
    · exact (by decide : IsToken metadataMark) c hmark
    · rw [eq_of_mem_replicate hletter]
      decide
  · rw [lowerAscii_append, lowerAscii, lowerAscii, map_replicate]
    rfl
  · intro hmem
    have hle : (metadataMark ++ List.replicate count 'a').length ≤ count :=
      le_sum_of_mem (mem_map_of_mem hmem)
    have hmark : metadataMark.length = 11 := by decide
    rw [length_append, length_replicate, hmark] at hle
    omega

end ServerRequest

namespace SignedGateway

variable {g : SignedGateway} {now : ℤ} {r : ServerRequest}

/-- No change of unsigned headers that the validator accepts changes the instruction. -/
def Harmless (g : SignedGateway) (now : ℤ) (r : ServerRequest) : Prop :=
  ∀ r', ChangesUnsigned r r' → g.Accepts now r' → g.instruction r' = g.instruction r

/-- A header that is free for anybody to set. -/
structure Free (r : ServerRequest) (name : Str) : Prop where
  token : IsToken name
  lower : lowerAscii name = name
  unsigned : name ∉ r.signedNames
  unread : name ∉ validatorHeaders
  noForm : name ≠ "content-type".toList

/-- The validator does not notice when a free header is set. -/
theorem accepted_setHeader {value : Str} (hfree : Free r name) (hvalue : '\n' ∉ value)
    (haccepted : g.Accepts now r) : g.Accepts now (r.setHeader name value hfree.token hvalue) := by
  obtain ⟨hform, context, hvalid⟩ := haccepted
  have hsame : SameOn (· ≠ name) r (r.setHeader name value hfree.token hvalue) :=
    sameOn_setHeader hfree.lower
  refine ⟨?_, context, ?_⟩
  · rw [isPostObjectRequest, hsame.method, hsame.rawQuery, hsame.forceQuery, hsame.path,
      postContentType_eq, hsame.headers _ hfree.noForm.symm, ← postContentType_eq,
      ← isPostObjectRequest, hform]
  · rw [validateSignatureV4At_congr hsame (fun other hother => ?_) (fun other hother => ?_), hvalid]
    · rintro rfl
      exact hfree.unread hother
    · rintro rfl
      exact hfree.unsigned hother

theorem changesUnsigned_setHeader {value : Str} (hfree : Free r name) (hvalue : '\n' ∉ value) :
    ChangesUnsigned r (r.setHeader name value hfree.token hvalue) := by
  have hsame : SameOn _ r (r.setHeader name value hfree.token hvalue) :=
    sameOn_setHeader hfree.lower
  refine { hsame with headers := fun other hother => hsame.headers other ?_ }
  rintro rfl
  exact hfree.unsigned hother

/-- A free header may be set to anything if changes are harmless. -/
theorem Harmless.setHeader (hharmless : g.Harmless now r) (haccepted : g.Accepts now r)
    (hoperation : g.operation r = some operation) {value : Str} (hfree : Free r name)
    (hvalue : '\n' ∉ value) :
    let r' := r.setHeader name value hfree.token hvalue
    r'.optionValues g.gatewayCors operation = r.optionValues g.gatewayCors operation ∧
      (operation = .putObject → r.isCopy operation = true → r'.isCopy operation = true →
        r'.replacesMetadata = r.replacesMetadata) := by
  intro r'
  have haccepted' := accepted_setHeader hfree hvalue haccepted
  have hchange := changesUnsigned_setHeader hfree hvalue
  have hsame := hharmless r' hchange haccepted'
  unfold instruction at hsame
  rw [operation_congr hchange haccepted.1 haccepted'.1, hoperation, Option.map_some,
    Option.map_some, Option.some_inj, Instruction.mk.injEq] at hsame
  refine ⟨hsame.2.2.2.2.2, ?_⟩
  intro hput hcopy hcopy'
  simpa [hput, hput ▸ hcopy, hput ▸ hcopy'] using hsame.2.2.2.2.1

/-! ## The headers that handlers read -/

/-- All headers that a handler reads by name. -/
def optionNames : List Str :=
  copySourceHeader :: directiveHeader :: taggingHeader :: "x-amz-copy-source-range".toList ::
    (lockHeaders ++ aclHeaders ++ putOptionHeaders)

theorem mem_optionNames_of_mem_headers
    (hname : name ∈ r.firstHeaders operation ++ r.wholeHeaders operation) : name ∈ optionNames := by
  have hput : ∀ other ∈ copySourceHeader :: taggingHeader :: (lockHeaders ++ aclHeaders) ++
      putOptionHeaders, other ∈ optionNames := by decide +kernel
  have hcopy : ∀ other ∈ copySourceHeader :: taggingHeader :: lockHeaders,
      other ∈ optionNames := by decide +kernel
  have hpart : ∀ other ∈ [copySourceHeader, "x-amz-copy-source-range".toList],
      other ∈ optionNames := by decide +kernel
  have hacl : ∀ other ∈ aclHeaders, other ∈ optionNames := by decide +kernel
  have hlock : ∀ other ∈ lockHeaders, other ∈ optionNames := by decide +kernel
  cases operation with
  | putObject =>
    rw [firstHeaders, wholeHeaders] at hname
    cases hflag : r.isCopy .putObject with
    | false => exact hput name (by simpa only [hflag, Bool.false_eq_true, if_false] using hname)
    | true =>
      refine hcopy name ?_
      simpa only [hflag, if_true, append_nil] using hname
  | uploadPart =>
    rw [firstHeaders, show r.wholeHeaders .uploadPart = [] from rfl, append_nil] at hname
    cases hflag : r.isCopy .uploadPart with
    | false =>
      rw [hflag, if_neg Bool.false_ne_true, mem_singleton] at hname
      rw [hname]
      exact mem_cons_self
    | true => exact hpart name (by simpa only [hflag, if_true] using hname)
  | createMultipartUpload => exact hacl name hname
  | completeMultipartUpload => exact hlock name hname
  | _ => exact absurd hname not_mem_nil

/-- A header that handlers read by name is free if it is not signed. -/
theorem free_of_mem_optionNames (hname : name ∈ optionNames) (hunsigned : name ∉ r.signedNames) :
    Free r name := by
  have hall : ∀ other ∈ optionNames, IsToken other ∧ lowerAscii other = other ∧
      other ∉ validatorHeaders ∧ other ≠ "content-type".toList := by decide +kernel
  obtain ⟨htoken, hlower, hunread, hform⟩ := hall name hname
  exact ⟨htoken, hlower, hunsigned, hunread, hform⟩

/-! ## Harmless requests sign what is read -/

section

variable (hharmless : g.Harmless now r) (haccepted : g.Accepts now r) {operation : Operation}
  (hoperation : g.operation r = some operation)

include hharmless haccepted hoperation

/-- There is no end of headers for metadata, nor of those that are forwarded. -/
theorem Harmless.closed :
    r.storesMetadata operation = false ∧ operation.isForwarded g.gatewayCors = false := by
  rw [← Bool.or_eq_false_iff, ← Bool.not_eq_true, Bool.or_eq_true]
  intro hopen
  obtain ⟨name, htoken, hlower, hmark, havoid⟩ := exists_metadata_name
    (r.signedNames ++ validatorHeaders ++ ["content-type".toList, "connection".toList] ++
      optionNames ++ clientAuthHeaders ++ hopByHopHeaders ++ r.connectionTokens)
  simp only [mem_append, mem_cons, not_mem_nil, or_false, not_or] at havoid
  obtain ⟨⟨⟨⟨⟨⟨hsigned, hvalidator⟩, hform, hconnection⟩, hoption⟩, hclient⟩, hhop⟩, htokens⟩ :=
    havoid
  have hfree : Free r name := ⟨htoken, hlower, hsigned, hvalidator, hform⟩
  obtain ⟨value, hvalue, -, hother, -⟩ := exists_other_value (r.headerValues name)
  have hsame := (hharmless.setHeader haccepted hoperation hfree hvalue).1
  have hrest : SameOn (· ≠ name) r (r.setHeader name value hfree.token hvalue) :=
    sameOn_setHeader hlower
  -- the same headers are read with the new one
  have hread : ∀ r' : ServerRequest, SameOn (· ≠ name) r r' →
      r'.optionValues g.gatewayCors operation name = r'.headerValues name := by
    intro r' hr'
    have hne : ∀ other ∈ optionNames, r'.get other = r.get other :=
      fun other hmem => hr'.get_eq fun heq => hoption (heq ▸ hmem)
    have hcopy : r'.isCopy operation = r.isCopy operation :=
      isCopy_congr fun _ => hne _ (by decide +kernel)
    have hstores : r'.storesMetadata operation = r.storesMetadata operation := by
      refine storesMetadata_congr hcopy fun _ _ => ?_
      rw [replacesMetadata, hne _ (by decide +kernel), replacesMetadata]
    have hfirst : name ∉ r'.firstHeaders operation := fun hmem =>
      hoption (mem_optionNames_of_mem_headers (mem_append_left _ hmem))
    have hforwards : r'.forwardsHeader name = true := by
      have hwords : r'.connectionTokens = r.connectionTokens := by
        rw [connectionTokens, hr'.headers _ (Ne.symm hconnection), connectionTokens]
      have hamz : amzMark <+: metadataMark := by decide
      simp only [forwardsHeader, hwords, decide_eq_true_eq]
      exact ⟨hamz.trans hmark, hclient, hhop, htokens⟩
    rw [optionValues, if_neg hfirst, if_pos]
    right
    rcases hopen with hstored | hforwarded
    · exact .inl ⟨by rw [hstores, hstored], hmark⟩
    · exact .inr ⟨hforwarded, hforwards⟩
  have hnew := congrFun hsame name
  rw [hread _ hrest, hread r ⟨rfl, rfl, rfl, rfl, rfl, rfl, fun _ _ => rfl⟩,
    headerValues_setHeader_self hlower] at hnew
  exact hother hnew

theorem Harmless.signed (hname : name ∈ r.firstHeaders operation ++ r.wholeHeaders operation) :
    name ∈ r.signedNames := by
  by_contra hunsigned
  have hfree := free_of_mem_optionNames (mem_optionNames_of_mem_headers hname) hunsigned
  obtain ⟨value, hvalue, -, hother, hother'⟩ := exists_other_value (r.headerValues name)
  have hsame := congrFun (hharmless.setHeader haccepted hoperation hfree hvalue).1 name
  generalize hr' : r.setHeader name value hfree.token hvalue = r' at hsame
  have hvalues : r'.headerValues name = [value] := by
    rw [← hr', headerValues_setHeader_self hfree.lower]
  have hget : r'.get name = value := by rw [← hr', get_setHeader_self hfree.lower]
  have hcopy : name ≠ copySourceHeader → r'.isCopy operation = r.isCopy operation := by
    intro hne
    refine isCopy_congr fun _ => ?_
    rw [← hr', (sameOn_setHeader hfree.lower).get_eq (Ne.symm hne)]
  by_cases hfirst : name ∈ r.firstHeaders operation
  · have hfirst' : name ∈ r'.firstHeaders operation := by
      by_cases hsource : name = copySourceHeader
      · rw [hsource] at hfirst ⊢
        exact copySourceHeader_mem_firstHeaders (upload_of_copySourceHeader_mem hfirst)
      · rwa [firstHeaders_congr (hcopy hsource)]
    rw [optionValues, if_pos hfirst', optionValues, if_pos hfirst, hget] at hsame
    exact hother' (List.cons.inj hsame).1
  · have hwhole := (mem_append.mp hname).resolve_left hfirst
    have hsource : name ≠ copySourceHeader := by
      rintro rfl
      exact copySourceHeader_notMem_wholeHeaders hwhole
    rw [optionValues, firstHeaders_congr (hcopy hsource), if_neg hfirst,
      wholeHeaders_congr (hcopy hsource), if_pos (.inl hwhole), hvalues, optionValues,
      if_neg hfirst, if_pos (.inl hwhole)] at hsame
    exact hother hsame

theorem Harmless.directive_signed (hput : operation = .putObject)
    (hcopied : r.isCopy operation = true) : directiveHeader ∈ r.signedNames := by
  by_contra hunsigned
  have hfree := free_of_mem_optionNames (by decide +kernel) hunsigned
  have hflag : ∀ value (hvalue : '\n' ∉ value),
      equalFold (trimSpace value) "REPLACE".toList = r.replacesMetadata := by
    intro value hvalue
    have hsame := (hharmless.setHeader haccepted hoperation hfree hvalue).2 hput hcopied (by
      rw [isCopy_congr fun _ => (sameOn_setHeader hfree.lower).get_eq (by decide +kernel), hcopied])
    rw [← hsame, replacesMetadata, get_setHeader_self hfree.lower]
  have hreplace := hflag "REPLACE".toList (by decide)
  have hcopy := hflag "COPY".toList (by decide)
  rw [← hcopy] at hreplace
  exact absurd hreplace (by decide +kernel)

end

/-! ## Samples -/

/-- A gateway whose signatures add up bytes. -/
def sampleGateway : SignedGateway where
  libraries := ⟨fun _ _ => none, fun _ => none⟩
  metrics := .last
  gatewayCors := false
  hashes :=
    { sha256 := id
      hmac := fun key message => List.replicate 31 0 ++ [(key ++ textBytes message).sum]
      checksum := fun _ _ => [] }
  times := ⟨fun _ => some 0, fun _ => "20260101".toList, fun _ => none⟩
  secretKey := "secret".toList
  clockSkew := 0

def sampleAuthorization (last : Str) : Str :=
  "AWS4-HMAC-SHA256 Credential=AK/20260101/r/s3/aws4_request, ".toList ++
    "SignedHeaders=host;x-amz-date, Signature=".toList ++ List.replicate 62 '0' ++ last

/-- An upload with the host and the date signed. -/
def putRequest : ServerRequest where
  method := "PUT"
  path := "/bucket/key".toList
  rawQuery := []
  forceQuery := false
  headers := [("Authorization".toList, sampleAuthorization "37".toList),
    ("X-Amz-Date".toList, "20260101T000000Z".toList)]
  escapedPath := "/bucket/key".toList
  host := "s3".toList
  contentLength := 0
  method_token := ServerRequest.isToken_put
  host_line := ServerRequest.rootRequest.host_line
  query_bytes := ServerRequest.rootRequest.path_bytes

/-- A download with the host and the date signed. -/
def getRequest : ServerRequest :=
  { putRequest with
    method := "GET"
    headers := [("Authorization".toList, sampleAuthorization "3c".toList),
      ("X-Amz-Date".toList, "20260101T000000Z".toList)]
    method_token := ServerRequest.rootRequest.method_token
    header_token := by decide +kernel
    header_canonical := by decide +kernel
    header_line := by decide +kernel }

theorem accepts_of_isOk
    (hform : isPostObjectRequest g.libraries r.toRequest = false)
    (hok : (r.validateSignatureV4At g.hashes g.times g.secretKey g.clockSkew now).toBool = true) :
    g.Accepts now r := by
  refine ⟨hform, ?_⟩
  cases hvalid : r.validateSignatureV4At g.hashes g.times g.secretKey g.clockSkew now with
  | ok context => exact ⟨context, rfl⟩
  | error error =>
    rw [hvalid] at hok
    cases hok

theorem accepts_putRequest : sampleGateway.Accepts 0 putRequest :=
  accepts_of_isOk (by decide +kernel) (by decide +kernel)

theorem accepts_getRequest : sampleGateway.Accepts 0 getRequest :=
  accepts_of_isOk (by decide +kernel) (by decide +kernel)

theorem free_copySourceHeader : Free putRequest copySourceHeader :=
  free_of_mem_optionNames List.mem_cons_self (by decide +kernel)

def copyRequest : ServerRequest :=
  putRequest.setHeader copySourceHeader "other/secret".toList free_copySourceHeader.token
    (by decide)

/-- The copy is accepted near the time of the upload. -/
theorem copyRequest_near_timestamp :
    ∃ form t, putRequest.signedForm = .ok form ∧
      sampleGateway.times.parseAmzDate form.timestamp = some t ∧ t - defaultClockSkew ≤ 0 := by
  obtain ⟨-, answer, hcopy⟩ : sampleGateway.Accepts 0 copyRequest :=
    accepted_setHeader free_copySourceHeader (by decide) accepts_putRequest
  obtain ⟨form, t, key, hform, ht, -, hlow, -⟩ := replay_near_timestamp
    (sameOn_setHeader free_copySourceHeader.lower) (by decide) (by decide +kernel) (by decide) hcopy
  exact ⟨form, t, hform, ht, hlow⟩

end SignedGateway

end S3EncryptionGateway.Api
