import S3EncryptionGateway.Library.SlotStore
import S3EncryptionGateway.Metadata.Keys

/-!
# The headers of an object response

The headers of a `GET` or `HEAD` response are projected from the metadata the backend
stores, the metadata that was decrypted with the object, and the shape of the request:
range, version, overrides.  They are collected in a header map whose values live in one
array, allocated beforehand for the stored metadata and sixteen more.

Values are looked up without regard to case, in a loop over the map when the exact
spelling is not there.  The loops over maps may visit the entries in any order; `Orders`
has one order for each of them.  `projectObjectHeaders` is `none` where the code panics,
which is when it slices the array beyond its capacity.
-/

namespace S3EncryptionGateway.Api

open Text MapRange SlotStore Metadata

structure ObjectResponseSource where
  encrypted : Bool
  stored : Map Str Str
  decrypted : Map Str Str
  /-- Negative if unknown. -/
  plainSize : Int64
  backendETag : Str
  sseCustomer : Bool

structure ByteRange where
  start : Int64
  stop : Int64

structure ResponseShape where
  method : Str
  range : Option ByteRange
  versionId : Str
  overrides : Map Str (List Str)
  unsatisfiedRangeTotal : Option Int64

/-- The stored metadata with the decrypted metadata over it. -/
def ObjectResponseSource.merged (src : ObjectResponseSource) : Map Str Str :=
  if src.encrypted = true ∧ 0 < src.decrypted.keys.card then src.decrypted ∪ src.stored
  else src.stored

/-- What a value is looked up for. -/
inductive LookupSite where
  | standard
  | etag
  | version
  | cacheControl

/-- The orders in which the loops visit their maps. -/
structure Orders (src : ObjectResponseSource) (shape : ResponseShape) where
  stored : LookupSite → Str → Order src.stored
  decrypted : LookupSite → Str → Order src.decrypted
  merged : LookupSite → Str → Order src.merged
  headers : Order src.merged
  overrides : Order shape.overrides

/-- The value of a name: of the exact spelling, else of the first one visited. -/
def metadataValue {m : Map Str Str} (visits : Order m) (name : Str) : Str :=
  match m.lookup name with
  | some value => value
  | none => ((visits.entries.find? fun entry => equalFold entry.1 name).map Prod.snd).getD []

def firstNonempty (values : List Str) : Str :=
  (values.find? (· ≠ [])).getD []

def quoteETag (etag : Str) : Str :=
  if etag = [] ∨ (['"'] <+: etag ∧ ['"'] <:+ etag) then etag else ['"'] ++ etag ++ ['"']

/-! ## What is passed on from the metadata -/

/-- The reserved names among the names of user metadata. -/
def projectedReservedMetadataKeys : List Str :=
  originalContentLength ::
    (metaKeyRegistry.flatMap fun spec => spec.canonical :: spec.compact :: spec.legacy).filterMap
      fun name => if amzMeta <+: lowerAscii name then some (lowerAscii name) else none

def isProjectedSSEHeader (name : Str) : Bool :=
  lowerAscii name ∈ [
    "x-amz-server-side-encryption".toList,
    "x-amz-server-side-encryption-aws-kms-key-id".toList,
    "x-amz-server-side-encryption-bucket-key-enabled".toList,
    "x-amz-server-side-encryption-customer-algorithm".toList,
    "x-amz-server-side-encryption-customer-key-md5".toList]

/-- The backend's own headers that are passed on, by their names in lower case. -/
def isPassedOn (name : Str) : Bool :=
  "x-amz-object-lock-".toList <+: name || name = "last-modified".toList ||
    name = "x-amz-storage-class".toList || name = "x-amz-mp-parts-count".toList ||
    isProjectedSSEHeader name || name = "x-amz-expiration".toList ||
    name = "x-amz-website-redirect-location".toList

/-- The body of the loop over the metadata. -/
def projectEntry (entry : Str × Str) : List (Str × Str) :=
  let name := lowerAscii entry.1
  if amzMeta <+: name ∧ name ∈ projectedReservedMetadataKeys then []
  else
    (if amzMeta <+: name then [(name, entry.2)] else []) ++
      if isPassedOn name then [entry] else []

/-! ## What the gateway sets itself -/

def overriddenHeader (name : Str) : Option StandardHeader :=
  if name = "response-content-type".toList then some .contentType
  else if name = "response-content-language".toList then some .contentLanguage
  else if name = "response-expires".toList then some .expires
  else if name = "response-cache-control".toList then some .cacheControl
  else if name = "response-content-disposition".toList then some .contentDisposition
  else if name = "response-content-encoding".toList then some .contentEncoding
  else none

/-- The body of the loop over the overrides. -/
def projectOverride (entry : Str × List Str) : Option (StandardHeader × Str) := do
  let value ← entry.2.head?
  let header ← overriddenHeader entry.1
  return (header, value)

def customerAlgorithm : Str := "x-amz-server-side-encryption-customer-algorithm".toList
def originalETag : Str := "x-amz-meta-encryption-original-etag".toList
def versionIdHeader : Str := "x-amz-version-id".toList
def etagHeader : Str := "ETag".toList
def contentLengthHeader : Str := "Content-Length".toList
def contentRangeHeader : Str := "Content-Range".toList
def acceptRangesHeader : Str := "Accept-Ranges".toList
def methodGet : Str := "GET".toList

def formatInt (n : Int64) : Str := (toString n).toList

namespace Orders

variable {src : ObjectResponseSource} {shape : ResponseShape} (orders : Orders src shape)

def projectedStandardValue (header : StandardHeader) : Str :=
  let stored := fun name => metadataValue (orders.stored .standard name) name
  if src.encrypted then
    match protectedStandardKeys[header.index]? with
    | some spec =>
      firstNonempty ([metadataValue (orders.decrypted .standard header.name) header.name,
        stored spec.canonical, stored spec.compact] ++ spec.legacy.map stored ++
        [stored header.name])
    | none => stored header.name
  else stored header.name

def responseUsesSSECustomer (site : LookupSite) : Bool :=
  src.sseCustomer ||
    !isBlank (metadataValue (orders.stored site customerAlgorithm) customerAlgorithm)

/-- The ETag of the plaintext; it may be in the decrypted metadata only. -/
def originalETagValue : Str :=
  let original := metadataValue (orders.merged .etag originalETag) originalETag
  if original = [] ∧ src.encrypted = true then
    metadataValue (orders.decrypted .etag etagHeader) etagHeader
  else original

def etagValue : Str :=
  if orders.originalETagValue ≠ [] ∧ orders.responseUsesSSECustomer .etag = false then
    quoteETag orders.originalETagValue
  else src.backendETag

def versionValue : Str :=
  let backendVersion := metadataValue (orders.merged .version versionIdHeader) versionIdHeader
  if backendVersion ≠ [] then backendVersion else shape.versionId

end Orders

def fieldOf (name value : Str) : List (Str × Str) :=
  if value ≠ [] then [(name, value)] else []

def sizeFields (src : ObjectResponseSource) (shape : ResponseShape) : List (Str × Str) :=
  (if 0 ≤ src.plainSize then [(contentLengthHeader, formatInt src.plainSize)] else []) ++
  (match shape.range with
    | some range =>
      [(contentRangeHeader, "bytes ".toList ++ formatInt range.start ++ ['-'] ++
          formatInt range.stop ++ ['/'] ++ formatInt src.plainSize),
        (contentLengthHeader, formatInt (range.stop - range.start + 1))]
    | none => []) ++
  match shape.unsatisfiedRangeTotal with
    | some total => [(contentRangeHeader, "bytes */".toList ++ formatInt total)]
    | none => []

namespace Orders

variable {src : ObjectResponseSource} {shape : ResponseShape} (orders : Orders src shape)

def overrideFields : List (Str × Str) :=
  if shape.method = methodGet then
    (orders.overrides.entries.filterMap projectOverride).map fun set => (set.1.name, set.2)
  else []

def standardFields : List (Str × Str) :=
  standardHeaders.flatMap fun header => fieldOf header.name (orders.projectedStandardValue header)

def metadataFields : List (Str × Str) :=
  orders.headers.entries.flatMap projectEntry

/-- What is set after the loop over the metadata. -/
def finalFields : List (Str × Str) :=
  fieldOf etagHeader orders.etagValue ++ fieldOf versionIdHeader orders.versionValue ++
    sizeFields src shape ++ orders.overrideFields ++
    (if orders.responseUsesSSECustomer .cacheControl then
      [(StandardHeader.cacheControl.name, "no-store".toList)] else []) ++
    [(acceptRangesHeader, "bytes".toList)]

/-- The headers set, one after the other. -/
def fields : List (Str × Str) :=
  orders.standardFields ++ orders.metadataFields ++ orders.finalFields

/-- The fields under the usual spelling of their names. -/
def canonicalFields : List (Str × Str) :=
  orders.fields.map fun field => (canonicalHeaderKey field.1, field.2)

/-- The headers of the response, by their names; `none` is a panic. -/
def projectObjectHeaders : Option (Str → Option (List Str)) :=
  let slots : Slots Str Str (src.stored.keys.card + 16) := .empty
  (slots.putAll orders.canonicalFields).map fun headers name =>
    (headers.get name).map fun value => [value]

end Orders

end S3EncryptionGateway.Api
