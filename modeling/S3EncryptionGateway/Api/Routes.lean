import S3EncryptionGateway.Library.Text

/-!
# The routes of the gateway

A route has a set of methods, a path pattern, query matchers and, for browser forms,
a predicate.  A request goes to the first registered route that matches it in all of
these.  The table `registerRoutes` has the routes in the order of their registration;
the metrics route is registered by the server before or after them.

The lookup of a query value belongs to the router's library and is a parameter here,
as is the parser of media types.
-/

namespace S3EncryptionGateway.Api

open Text

/-- A request, as the router and the middlewares read it.  The headers are the pairs of
canonical name and value. -/
structure Request where
  method : String
  path : Str
  rawQuery : Str
  forceQuery : Bool
  headers : List (Str × Str)

/-- What the libraries outside the repository contribute. -/
structure Libraries where
  /-- The router's first value for a key of the raw query. -/
  queryValue : Str → Str → Option Str
  parseMediaType : Str → Option (Str × List (Str × Str))

/-- The first value of a header, empty if there is none. -/
def Request.header (r : Request) (name : String) : Str :=
  firstValue r.headers name.toList

/-! ## Browser forms -/

/-- The value of the one `Content-Type` header, however its name is spelled. -/
def postContentType (headers : List (Str × Str)) : Option Str :=
  match headers.filter (fun h => toLower h.1 = "content-type".toList) with
  | [h] => some h.2
  | _ => none

/-- The boundaries that a form may be delimited by. -/
def validBoundary (boundary : Str) : Bool :=
  boundary ≠ [] ∧ boundary.length ≤ 70 ∧ boundary.getLast? ≠ some ' ' ∧
    boundary.all fun c => ('a' ≤ c ∧ c ≤ 'z') ∨ ('A' ≤ c ∧ c ≤ 'Z') ∨ ('0' ≤ c ∧ c ≤ '9') ∨
      c ∈ "'()+_,-./:=? ".toList

variable (libraries : Libraries)

/-- The content type of a form upload. -/
def isFormContent (contentType : Str) : Bool :=
  if contentType.any (fun c => c = '\r' ∨ c = '\n' ∨ c = '\x00') then false
  else
    match libraries.parseMediaType contentType with
    | none => false
    | some (mediaType, params) =>
      toLower mediaType = "multipart/form-data".toList ∧
        validBoundary (firstValue params "boundary".toList)

/-- A bucket path with or without its trailing slash. -/
def isFormPath (path : Str) : Bool :=
  let trimmed := if path.getLast? = some '/' then path.dropLast else path
  path.head? = some '/' ∧ trimmed ≠ [] ∧ trimmed.getLast? ≠ some '/' ∧
    trimmed.count '/' = 1 ∧ '?' ∉ trimmed ∧ '#' ∉ trimmed

def isPostObjectRequest (r : Request) : Bool :=
  r.method = "POST" ∧ r.rawQuery = [] ∧ ¬ r.forceQuery ∧ isFormPath r.path ∧
    (postContentType r.headers).any (isFormContent libraries)

/-! ## Patterns -/

inductive PathPattern where
  | exact (path : String)
  /-- One segment. -/
  | bucket
  /-- One segment and a slash. -/
  | bucketSlash
  /-- A segment and a key without a line break. -/
  | object
  deriving DecidableEq

def PathPattern.accepts (pattern : PathPattern) (path : Str) : Bool :=
  match pattern, path with
  | .exact expected, path => path = expected.toList
  | .bucket, '/' :: rest => rest ≠ [] ∧ '/' ∉ rest
  | .bucketSlash, '/' :: rest => (cut '/' rest).1 ≠ [] ∧ (cut '/' rest).2 = some []
  | .object, '/' :: rest =>
    (cut '/' rest).1 ≠ [] ∧ (cut '/' rest).2.any fun key => key ≠ [] ∧ '\n' ∉ key
  | _, _ => false

inductive QueryMatcher where
  /-- The key is there, with any value on one line. -/
  | present (key : String)
  | digits (key : String)
  | equals (key value : String)
  deriving DecidableEq

def QueryMatcher.accepts (matcher : QueryMatcher) (r : Request) : Bool :=
  match matcher with
  | .present key => (libraries.queryValue r.rawQuery key.toList).any fun value => '\n' ∉ value
  | .digits key =>
    (libraries.queryValue r.rawQuery key.toList).any fun value =>
      value ≠ [] ∧ value.all fun c => '0' ≤ c ∧ c ≤ '9'
  | .equals key value => libraries.queryValue r.rawQuery key.toList = some value.toList

/-! ## The table -/

/-- The handlers, by the names of their routes. -/
inductive Operation where
  | health | ready | live | minIOLive | minIOReady | rustFSLive | rustFSReady | metrics
  | corsPreflight
  | listBuckets | createBucket | deleteBucket | headBucket | listObjects | deleteObjects
  | getObject | putObject | deleteObject | headObject | postObject
  | createMultipartUpload | completeMultipartUpload | abortMultipartUpload | listParts
  | uploadPart | listMultipartUploads
  | getObjectRetention | putObjectRetention | getObjectLegalHold | putObjectLegalHold
  | getObjectTagging | putObjectTagging | deleteObjectTagging
  | getObjectACL | putObjectACL | restoreObject | selectObjectContent
  | getObjectLockConfiguration | putObjectLockConfiguration
  | getBucketLifecycle | putBucketLifecycle | deleteBucketLifecycle
  | getBucketPolicy | putBucketPolicy | deleteBucketPolicy
  | getBucketCors | putBucketCors | deleteBucketCors
  | getBucketVersioning | putBucketVersioning
  | getBucketEncryption | putBucketEncryption | deleteBucketEncryption
  | getBucketACL | putBucketACL | getBucketLocation
  | getBucketNotification | putBucketNotification
  | getBucketReplication | putBucketReplication | deleteBucketReplication
  | getBucketLogging | putBucketLogging
  | getBucketRequestPayment | putBucketRequestPayment
  | getBucketWebsite | putBucketWebsite | deleteBucketWebsite
  | getBucketInventory | putBucketInventory | deleteBucketInventory
  | getBucketAnalytics | putBucketIntelligentTiering
  deriving DecidableEq

structure Route where
  method : String
  path : PathPattern
  queries : List QueryMatcher
  /-- Only browser forms. -/
  form : Bool
  operation : Operation
  deriving DecidableEq

def Route.accepts (route : Route) (r : Request) : Bool :=
  route.method = r.method ∧ route.path.accepts r.path ∧
    (route.queries.all fun matcher => matcher.accepts libraries r) ∧
    (route.form → isPostObjectRequest libraries r)

def probe (path : String) (operation : Operation) : Route :=
  ⟨"GET", .exact path, [], false, operation⟩

def object (method : String) (queries : List QueryMatcher) (operation : Operation) : Route :=
  ⟨method, .object, queries, false, operation⟩

def bucket (method : String) (queries : List QueryMatcher) (operation : Operation) : Route :=
  ⟨method, .bucket, queries, false, operation⟩

def probeRoutes : List Route :=
  [probe "/health" .health,
   probe "/healthz" .health,
   probe "/ready" .ready,
   probe "/readyz" .ready,
   probe "/live" .live,
   probe "/livez" .live,
   probe "/minio/health/live" .minIOLive,
   probe "/minio/health/ready" .minIOReady,
   probe "/health/live" .rustFSLive,
   probe "/health/ready" .rustFSReady]

def s3Routes : List Route :=
  [probe "/" .listBuckets,
   object "POST" [.present "uploads"] .createMultipartUpload,
   object "POST" [.present "uploadId"] .completeMultipartUpload,
   object "DELETE" [.present "uploadId"] .abortMultipartUpload,
   object "GET" [.present "uploadId"] .listParts,
   object "PUT" [.digits "partNumber", .present "uploadId"] .uploadPart,
   object "GET" [.present "retention"] .getObjectRetention,
   object "PUT" [.present "retention"] .putObjectRetention,
   object "GET" [.present "legal-hold"] .getObjectLegalHold,
   object "PUT" [.present "legal-hold"] .putObjectLegalHold,
   object "GET" [.present "tagging"] .getObjectTagging,
   object "PUT" [.present "tagging"] .putObjectTagging,
   object "DELETE" [.present "tagging"] .deleteObjectTagging,
   object "GET" [.present "acl"] .getObjectACL,
   object "PUT" [.present "acl"] .putObjectACL,
   object "POST" [.present "restore"] .restoreObject,
   object "POST" [.present "select"] .selectObjectContent,
   object "POST" [.equals "select-type" "2"] .selectObjectContent,
   bucket "GET" [.present "object-lock"] .getObjectLockConfiguration,
   bucket "PUT" [.present "object-lock"] .putObjectLockConfiguration,
   bucket "OPTIONS" [] .corsPreflight,
   object "OPTIONS" [] .corsPreflight,
   bucket "GET" [.present "lifecycle"] .getBucketLifecycle,
   bucket "PUT" [.present "lifecycle"] .putBucketLifecycle,
   bucket "DELETE" [.present "lifecycle"] .deleteBucketLifecycle,
   bucket "GET" [.present "policy"] .getBucketPolicy,
   bucket "PUT" [.present "policy"] .putBucketPolicy,
   bucket "DELETE" [.present "policy"] .deleteBucketPolicy,
   bucket "GET" [.present "cors"] .getBucketCors,
   bucket "PUT" [.present "cors"] .putBucketCors,
   bucket "DELETE" [.present "cors"] .deleteBucketCors,
   bucket "GET" [.present "versioning"] .getBucketVersioning,
   bucket "PUT" [.present "versioning"] .putBucketVersioning,
   bucket "GET" [.present "encryption"] .getBucketEncryption,
   bucket "PUT" [.present "encryption"] .putBucketEncryption,
   bucket "DELETE" [.present "encryption"] .deleteBucketEncryption,
   bucket "GET" [.present "acl"] .getBucketACL,
   bucket "PUT" [.present "acl"] .putBucketACL,
   bucket "GET" [.present "location"] .getBucketLocation,
   bucket "GET" [.present "uploads"] .listMultipartUploads,
   bucket "GET" [.present "notification"] .getBucketNotification,
   bucket "PUT" [.present "notification"] .putBucketNotification,
   bucket "GET" [.present "replication"] .getBucketReplication,
   bucket "PUT" [.present "replication"] .putBucketReplication,
   bucket "DELETE" [.present "replication"] .deleteBucketReplication,
   bucket "GET" [.present "logging"] .getBucketLogging,
   bucket "PUT" [.present "logging"] .putBucketLogging,
   bucket "GET" [.present "requestPayment"] .getBucketRequestPayment,
   bucket "PUT" [.present "requestPayment"] .putBucketRequestPayment,
   bucket "GET" [.present "website"] .getBucketWebsite,
   bucket "PUT" [.present "website"] .putBucketWebsite,
   bucket "DELETE" [.present "website"] .deleteBucketWebsite,
   bucket "GET" [.present "inventory"] .getBucketInventory,
   bucket "PUT" [.present "inventory"] .putBucketInventory,
   bucket "DELETE" [.present "inventory"] .deleteBucketInventory,
   bucket "GET" [.present "analytics"] .getBucketAnalytics,
   bucket "PUT" [.present "intelligent-tiering"] .putBucketIntelligentTiering,
   bucket "DELETE" [] .deleteBucket,
   bucket "GET" [] .listObjects,
   bucket "HEAD" [] .headBucket,
   bucket "PUT" [] .createBucket,
   object "GET" [] .getObject,
   object "PUT" [] .putObject,
   object "DELETE" [] .deleteObject,
   object "HEAD" [] .headObject,
   bucket "POST" [.present "delete"] .deleteObjects,
   ⟨"POST", .bucket, [], true, .postObject⟩,
   ⟨"POST", .bucketSlash, [], true, .postObject⟩]

def registerRoutes : List Route := probeRoutes ++ s3Routes

def metricsRoute : Route := probe "/metrics" .metrics

/-- Where the server registers the metrics route. -/
inductive MetricsPlacement where
  | first
  | last

def routes : MetricsPlacement → List Route
  | .first => metricsRoute :: registerRoutes
  | .last => registerRoutes ++ [metricsRoute]

/-- The handler of a request: that of the first route that accepts it. -/
def dispatch (placement : MetricsPlacement) (r : Request) : Option Operation :=
  ((routes placement).find? fun route => route.accepts libraries r).map Route.operation

end S3EncryptionGateway.Api
