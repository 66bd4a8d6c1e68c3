import S3EncryptionGateway.Api.Routes

/-!
# What a request without credentials can reach

Every request passes two middlewares before the router.  The first one validates its
credentials, the second one checks the principal's permissions; both let the system
endpoints and browser preflights through.  A system endpoint is recognised by its path
alone, whereas the router also looks at the method and the query.

## Strategy

* **The middlewares.**  A request that no validator accepts reaches the router only as
  a system endpoint or as a preflight (`serve_of_rejected`).
* **The table.**  Facts about all routes of a method are checked on the table:
  preflights only go to the preflight handler, and `PUT`, `DELETE`, `HEAD` and `POST`
  only to handlers of buckets and objects.
* **The system endpoints.**  What remains is which of these methods find a route at
  the system endpoints, and where `GET` goes there.
-/

namespace S3EncryptionGateway.Api

open Text List

/-! ## The middlewares -/

def systemEndpoints : List String :=
  ["/health", "/ready", "/live", "/metrics", "/healthz", "/readyz", "/livez",
   "/minio/health/live", "/minio/health/ready", "/health/live", "/health/ready"]

def isSystemEndpoint (path : Str) : Bool :=
  systemEndpoints.any fun endpoint => path = endpoint.toList

variable (r : Request)

/-- The first value of a query parameter. -/
def Request.query (name : String) : Str :=
  firstValue (parseQuery r.rawQuery) name.toList

def hasCredentials : Bool :=
  r.query "X-Amz-Credential" ≠ [] ∨ r.query "AWSAccessKeyId" ≠ [] ∨ r.header "Authorization" ≠ []

def authenticationParameters : List String :=
  ["awsaccesskeyid", "signature", "expires", "date", "x-amz-algorithm", "x-amz-signature",
   "x-amz-credential", "x-amz-date", "x-amz-expires", "x-amz-signedheaders",
   "x-amz-security-token"]

/-- Stricter than `hasCredentials`: a part of a presigned query counts too. -/
def hasAuthenticationMaterial : Bool :=
  hasCredentials r ||
    (parseQuery r.rawQuery).any fun pair =>
      authenticationParameters.any fun name => toLower pair.1 = name.toList

def isUnauthenticatedCORSPreflight : Bool :=
  if r.method ≠ "OPTIONS" then false
  else if isBlank (r.header "Origin") ∨ isBlank (r.header "Access-Control-Request-Method") then
    false
  else if hasAuthenticationMaterial r then false
  else
    let path := if r.path.head? = some '/' then r.path.tail else r.path
    if path = [] then false
    else
      let (bucket, key) := cut '/' path
      bucket ≠ [] ∧ key ≠ some []

def isSignatureV4Request : Bool :=
  r.query "X-Amz-Algorithm" = "AWS4-HMAC-SHA256".toList ∨
    "AWS4-HMAC-SHA256".toList.isPrefixOf (r.header "Authorization")

def isSignatureV2Request : Bool :=
  r.query "AWSAccessKeyId" ≠ [] ∧ r.query "Signature" ≠ [] ∨
    "AWS ".toList.isPrefixOf (r.header "Authorization")

/-- The validators: each gives the principal whose credential it accepts. -/
structure Validators (Principal : Type*) where
  signatureV4 : Request → Option Principal
  signatureV2 : Request → Option Principal
  postPolicy : Request → Option Principal

def Validators.Rejects {Principal : Type*} (validators : Validators Principal) (r : Request) :
    Prop :=
  validators.signatureV4 r = none ∧ validators.signatureV2 r = none ∧
    validators.postPolicy r = none

/-- The configuration of the chain.  `permits` stands for the policy of a principal, which
only authenticated requests come to. -/
structure Chain (Principal : Type*) where
  libraries : Libraries
  validators : Validators Principal
  allowSigV2 : Bool
  permits : Principal → Request → Bool
  proxiedBucket : Str
  placement : MetricsPlacement

variable {Principal : Type*} (chain : Chain Principal)

/-- `AuthMiddleware`: the principal that the next handler sees, `none` in the inner option
for an exempt request, or a refusal. -/
def Chain.authenticate (r : Request) : Option (Option Principal) :=
  if isSystemEndpoint r.path then some none
  else if isUnauthenticatedCORSPreflight r then some none
  else if isPostObjectRequest chain.libraries r then
    if r.headers.any (fun h => toLower h.1 = "authorization".toList) then none
    else (chain.validators.postPolicy r).map some
  else if isSignatureV4Request r then (chain.validators.signatureV4 r).map some
  else if isSignatureV2Request r then
    if chain.allowSigV2 then (chain.validators.signatureV2 r).map some else none
  else none

/-- `AuthorizationMiddleware`. -/
def Chain.authorize (principal : Option Principal) (r : Request) : Bool :=
  if isSystemEndpoint r.path then true
  else if isUnauthenticatedCORSPreflight r then
    let path := if r.path.head? = some '/' then r.path.tail else r.path
    chain.proxiedBucket = [] ∨ (cut '/' path).1 = chain.proxiedBucket
  else
    match principal with
    | none => false
    | some principal => chain.permits principal r

/-- The handler that a request reaches. -/
def Chain.serve (r : Request) : Option Operation :=
  match chain.authenticate r with
  | none => none
  | some principal =>
    if chain.authorize principal r then dispatch chain.libraries chain.placement r else none

/-- The handlers that need no principal. -/
def Operation.isPublic : Operation → Bool
  | .health | .ready | .live | .minIOLive | .minIOReady | .rustFSLive | .rustFSReady | .metrics
  | .corsPreflight => true
  | _ => false

/-- The request reaches no handler that needs a principal. -/
def Chain.KeepsOut (r : Request) : Prop :=
  ∀ operation, chain.serve r = some operation → operation.isPublic = true

/-! ## The table -/

variable {operation : Operation}

section Table

variable {libraries : Libraries} {placement : MetricsPlacement} {r : Request}

theorem Route.accepts_iff {route : Route} :
    route.accepts libraries r = true ↔
      route.method = r.method ∧ route.path.accepts r.path = true ∧
        (∀ matcher ∈ route.queries, matcher.accepts libraries r = true) ∧
        (route.form = true → isPostObjectRequest libraries r = true) := by
  unfold Route.accepts
  rw [decide_eq_true_eq, all_eq_true]

theorem dispatch_eq_some (hdispatch : dispatch libraries placement r = some operation) :
    ∃ route ∈ routes placement, route.accepts libraries r = true ∧
      route.operation = operation := by
  obtain ⟨route, hfind, hoperation⟩ := Option.map_eq_some_iff.mp hdispatch
  have haccepts := List.find?_some hfind
  exact ⟨route, mem_of_find?_eq_some hfind, haccepts, hoperation⟩

theorem mem_routes {route : Route} (hmem : route ∈ registerRoutes) : route ∈ routes placement := by
  cases placement with
  | first => exact mem_cons_of_mem _ hmem
  | last => exact mem_append_left _ hmem

theorem public_of_options : ∀ placement, ∀ route ∈ routes placement, route.method = "OPTIONS" →
    route.operation.isPublic = true := by
  intro placement
  cases placement <;> decide

/-- The methods whose routes all belong to buckets and objects. -/
def privateMethods : List String := ["PUT", "DELETE", "HEAD", "POST"]

theorem private_of_method : ∀ placement, ∀ route ∈ routes placement,
    route.method ∈ privateMethods → route.operation.isPublic = false := by
  intro placement
  cases placement <;> decide

theorem method_mem : ∀ placement, ∀ route ∈ routes placement,
    route.method ∈ privateMethods ∨ route.method = "GET" ∨ route.method = "OPTIONS" := by
  intro placement
  cases placement <;> decide

/-- A handler of a bucket or an object runs whenever a route of such a method accepts. -/
theorem exists_private {route : Route} (hmem : route ∈ registerRoutes)
    (hmethod : r.method ∈ privateMethods) (haccepts : route.accepts libraries r = true) :
    ∃ operation, dispatch libraries placement r = some operation ∧
      operation.isPublic = false := by
  have hsome : ((routes placement).find? fun route => route.accepts libraries r).isSome := by
    rw [List.find?_isSome]
    exact ⟨_, mem_routes hmem, haccepts⟩
  obtain ⟨found, hfound⟩ := Option.isSome_iff_exists.mp hsome
  refine ⟨found.operation, by rw [dispatch, hfound]; rfl,
    private_of_method placement found (mem_of_find?_eq_some hfound) ?_⟩
  have hfits := find?_some hfound
  rw [(Route.accepts_iff.mp hfits).1]
  exact hmethod

/-- A route without query matchers accepts every request of its method and path. -/
theorem accepts_plain {method : String} {path : PathPattern} (hmethod : r.method = method)
    (hpath : path.accepts r.path = true) :
    Route.accepts libraries ⟨method, path, [], false, operation⟩ r = true :=
  Route.accepts_iff.mpr ⟨hmethod.symm, hpath, by simp, by simp⟩

/-! ## The system endpoints -/

/-- The system endpoints that are bucket paths to the router. -/
def bucketEndpoints : List String :=
  ["/health", "/ready", "/live", "/metrics", "/healthz", "/readyz", "/livez"]

/-- Those that are object paths. -/
def objectEndpoints : List String :=
  ["/minio/health/live", "/minio/health/ready", "/health/live", "/health/ready"]

theorem endpoint_cases {path : Str} (hsystem : isSystemEndpoint path = true) :
    (∃ endpoint ∈ bucketEndpoints, path = endpoint.toList) ∨
      ∃ endpoint ∈ objectEndpoints, path = endpoint.toList := by
  have hsplit : ∀ endpoint ∈ systemEndpoints,
      endpoint ∈ bucketEndpoints ∨ endpoint ∈ objectEndpoints := by decide
  simp only [isSystemEndpoint, any_eq_true, decide_eq_true_eq] at hsystem
  obtain ⟨endpoint, hmem, hpath⟩ := hsystem
  rcases hsplit endpoint hmem with hbucket | hobject
  · exact .inl ⟨endpoint, hbucket, hpath⟩
  · exact .inr ⟨endpoint, hobject, hpath⟩

theorem bucketEndpoint_accepts : ∀ endpoint ∈ bucketEndpoints,
    PathPattern.bucket.accepts endpoint.toList = true ∧
      PathPattern.object.accepts endpoint.toList = false ∧
      PathPattern.bucketSlash.accepts endpoint.toList = false := by
  decide

theorem objectEndpoint_accepts : ∀ endpoint ∈ objectEndpoints,
    PathPattern.object.accepts endpoint.toList = true ∧
      PathPattern.bucket.accepts endpoint.toList = false ∧
      PathPattern.bucketSlash.accepts endpoint.toList = false := by
  decide

/-- The methods with a route for every bucket path and every object path, and these
routes' handlers. -/
def writeHandlers : List (String × Operation × Operation) :=
  [("PUT", .createBucket, .putObject), ("DELETE", .deleteBucket, .deleteObject),
   ("HEAD", .headBucket, .headObject)]

theorem writeHandlers_registered : ∀ handler ∈ writeHandlers,
    handler.1 ∈ privateMethods ∧ bucket handler.1 [] handler.2.1 ∈ registerRoutes ∧
      object handler.1 [] handler.2.2 ∈ registerRoutes := by
  decide

/-- Such a method finds a private handler at every system endpoint. -/
theorem exists_private_of_write (hsystem : isSystemEndpoint r.path = true)
    {handler : String × Operation × Operation} (hhandler : handler ∈ writeHandlers)
    (hmethod : r.method = handler.1) :
    ∃ operation, dispatch libraries placement r = some operation ∧
      operation.isPublic = false := by
  obtain ⟨hprivate, hbucket, hobject⟩ := writeHandlers_registered handler hhandler
  rw [← hmethod] at hprivate
  rcases endpoint_cases hsystem with ⟨endpoint, hmem, hpath⟩ | ⟨endpoint, hmem, hpath⟩
  · apply exists_private hbucket hprivate
    apply accepts_plain hmethod
    rw [hpath]
    exact (bucketEndpoint_accepts endpoint hmem).1
  · apply exists_private hobject hprivate
    apply accepts_plain hmethod
    rw [hpath]
    exact (objectEndpoint_accepts endpoint hmem).1

/-- The probes answer `GET` at every system endpoint but the metrics. -/
theorem public_of_get (hsystem : isSystemEndpoint r.path = true) (hget : r.method = "GET")
    (hmetrics : r.path ≠ "/metrics".toList ∨ placement = .first)
    (hdispatch : dispatch libraries placement r = some operation) : operation.isPublic = true := by
  have hpublic : ∀ route ∈ metricsRoute :: probeRoutes, route.operation.isPublic = true := by
    decide
  have hprobes : ∀ endpoint ∈ systemEndpoints, endpoint ≠ "/metrics" →
      ∃ route ∈ probeRoutes, route = probe endpoint route.operation := by
    decide
  -- a route at the front of the table accepts, so the first one that does is at the front
  have hfront : ∀ front rest : List Route,
      (∀ route ∈ front, route.operation.isPublic = true) →
      (∃ route ∈ front, route.accepts libraries r = true) →
      ((front ++ rest).find? fun route => route.accepts libraries r).map Route.operation =
        some operation → operation.isPublic = true := by
    intro front rest hall hsome hfind
    have hisSome : (front.find? fun route => route.accepts libraries r).isSome :=
      List.find?_isSome.mpr hsome
    obtain ⟨found, hfound⟩ := Option.isSome_iff_exists.mp hisSome
    rw [List.find?_append, hfound, Option.some_or] at hfind
    cases hfind
    exact hall found (mem_of_find?_eq_some hfound)
  have haccepts : ∀ endpoint operation, r.path = endpoint.toList →
      (probe endpoint operation).accepts libraries r = true := by
    intro endpoint operation hpath
    apply accepts_plain hget
    simp [PathPattern.accepts, hpath]
  simp only [isSystemEndpoint, any_eq_true, decide_eq_true_eq] at hsystem
  obtain ⟨endpoint, hendpoint, hpath⟩ := hsystem
  by_cases hother : endpoint = "/metrics"
  · -- then the metrics route comes first of all
    subst hother
    have hfirst : placement = .first := hmetrics.resolve_left (fun h => h hpath)
    subst hfirst
    refine hfront [metricsRoute] registerRoutes ?_ ?_ hdispatch
    · intro route hroute
      exact hpublic route (mem_cons.mpr (.inl (mem_singleton.mp hroute)))
    · exact ⟨metricsRoute, mem_singleton_self _, haccepts _ _ hpath⟩
  · obtain ⟨route, hroute, hshape⟩ := hprobes endpoint hendpoint hother
    have hroute' : route.accepts libraries r = true := by
      rw [hshape]
      exact haccepts _ _ hpath
    cases placement with
    | first =>
      exact hfront (metricsRoute :: probeRoutes) s3Routes hpublic
        ⟨route, mem_cons_of_mem _ hroute, hroute'⟩ hdispatch
    | last =>
      refine hfront probeRoutes (s3Routes ++ [metricsRoute])
        (fun route hroute => hpublic route (mem_cons_of_mem _ hroute))
        ⟨route, hroute, hroute'⟩ ?_
      rw [← append_assoc]
      exact hdispatch

/-- Registered last, the metrics route comes after the listing of a bucket. -/
theorem exists_private_of_metrics (hget : r.method = "GET") (hpath : r.path = "/metrics".toList) :
    ∃ operation, dispatch libraries .last r = some operation ∧ operation.isPublic = false := by
  have hlists : (bucket "GET" [] .listObjects).accepts libraries r = true := by
    apply accepts_plain hget
    rw [hpath]
    decide
  have hnoProbe : ∀ route ∈ probeRoutes, route.path.accepts "/metrics".toList = false := by
    decide
  have hprivate : ∀ route ∈ s3Routes, route.method = "GET" →
      route.operation.isPublic = false := by
    decide
  have hsome : (s3Routes.find? fun route => route.accepts libraries r).isSome :=
    List.find?_isSome.mpr ⟨_, by decide, hlists⟩
  obtain ⟨found, hfound⟩ := Option.isSome_iff_exists.mp hsome
  have hskip : (probeRoutes.find? fun route => route.accepts libraries r) = none := by
    rw [List.find?_eq_none]
    intro route hroute haccepts
    have hpathAccepts := (Route.accepts_iff.mp haccepts).2.1
    rw [hpath, hnoProbe route hroute] at hpathAccepts
    cases hpathAccepts
  refine ⟨found.operation, ?_, ?_⟩
  · unfold dispatch routes registerRoutes
    rw [List.find?_append, List.find?_append, hskip, hfound]
    rfl
  · apply hprivate found (mem_of_find?_eq_some hfound)
    have haccepts := List.find?_some hfound
    rw [(Route.accepts_iff.mp haccepts).1, hget]

def postRoutes : List Route :=
  [object "POST" [.present "uploads"] .createMultipartUpload,
   object "POST" [.present "uploadId"] .completeMultipartUpload,
   object "POST" [.present "restore"] .restoreObject,
   object "POST" [.present "select"] .selectObjectContent,
   object "POST" [.equals "select-type" "2"] .selectObjectContent,
   bucket "POST" [.present "delete"] .deleteObjects,
   ⟨"POST", .bucket, [], true, .postObject⟩,
   ⟨"POST", .bucketSlash, [], true, .postObject⟩]

theorem mem_postRoutes : ∀ placement, ∀ route ∈ routes placement, route.method = "POST" →
    route ∈ postRoutes := by
  intro placement
  cases placement <;> decide

theorem postRoutes_registered : ∀ route ∈ postRoutes, route ∈ registerRoutes := by
  decide

/-- The query of an object operation that uses `POST`. -/
def hasObjectSelector (libraries : Libraries) (r : Request) : Bool :=
  [QueryMatcher.present "uploads", .present "uploadId", .present "restore", .present "select",
    .equals "select-type" "2"].any fun matcher => matcher.accepts libraries r

/-- A `POST` that the router takes for an operation on a bucket or an object. -/
def PostExposed (libraries : Libraries) (r : Request) : Prop :=
  (∃ endpoint ∈ bucketEndpoints, r.path = endpoint.toList) ∧
      (QueryMatcher.accepts libraries (.present "delete") r = true ∨
        isPostObjectRequest libraries r = true) ∨
    (∃ endpoint ∈ objectEndpoints, r.path = endpoint.toList) ∧
      hasObjectSelector libraries r = true

theorem exists_private_of_post (hpost : r.method = "POST") (hexposed : PostExposed libraries r) :
    ∃ operation, dispatch libraries placement r = some operation ∧
      operation.isPublic = false := by
  have hprivate : r.method ∈ privateMethods := by
    rw [hpost]
    decide
  have hreach : ∀ route ∈ postRoutes, route.accepts libraries r = true →
      ∃ operation, dispatch libraries placement r = some operation ∧
        operation.isPublic = false :=
    fun route hroute => exists_private (postRoutes_registered route hroute) hprivate
  rcases hexposed with ⟨⟨endpoint, hmem, hpath⟩, hdelete | hform⟩ | ⟨⟨endpoint, hmem, hpath⟩, hselect⟩
  · refine hreach (bucket "POST" [.present "delete"] .deleteObjects) (by decide) ?_
    refine Route.accepts_iff.mpr ⟨hpost.symm, ?_, by simpa [bucket] using hdelete, by simp [bucket]⟩
    rw [hpath]
    exact (bucketEndpoint_accepts endpoint hmem).1
  · refine hreach ⟨"POST", .bucket, [], true, .postObject⟩ (by decide) ?_
    refine Route.accepts_iff.mpr ⟨hpost.symm, ?_, by simp, fun _ => hform⟩
    rw [hpath]
    exact (bucketEndpoint_accepts endpoint hmem).1
  · have hobject : PathPattern.object.accepts r.path = true := by
      rw [hpath]
      exact (objectEndpoint_accepts endpoint hmem).1
    have haccepts : ∀ matcher operation, matcher.accepts libraries r = true →
        (object "POST" [matcher] operation).accepts libraries r = true := by
      intro matcher operation hmatcher
      exact Route.accepts_iff.mpr ⟨hpost.symm, hobject, by simpa [object] using hmatcher,
        by simp [object]⟩
    simp only [hasObjectSelector, any_cons, any_nil, Bool.or_false,
      Bool.or_eq_true] at hselect
    rcases hselect with huploads | huploadId | hrestore | hselect | htype
    · exact hreach _ (by decide) (haccepts _ .createMultipartUpload huploads)
    · exact hreach _ (by decide) (haccepts _ .completeMultipartUpload huploadId)
    · exact hreach _ (by decide) (haccepts _ .restoreObject hrestore)
    · exact hreach _ (by decide) (haccepts _ .selectObjectContent hselect)
    · exact hreach _ (by decide) (haccepts _ .selectObjectContent htype)

theorem postExposed_of_dispatch (hsystem : isSystemEndpoint r.path = true)
    (hpost : r.method = "POST") (hdispatch : dispatch libraries placement r = some operation) :
    PostExposed libraries r := by
  obtain ⟨route, hroute, haccepts, -⟩ := dispatch_eq_some hdispatch
  obtain ⟨hmethod, hpattern, hqueries, hform⟩ := Route.accepts_iff.mp haccepts
  have hmem := mem_postRoutes placement route hroute (hmethod.trans hpost)
  have hselector : ∀ matcher ∈ [QueryMatcher.present "uploads", .present "uploadId",
      .present "restore", .present "select", .equals "select-type" "2"],
      matcher.accepts libraries r = true → hasObjectSelector libraries r = true :=
    fun matcher hmatcher hfits => any_eq_true.mpr ⟨matcher, hmatcher, hfits⟩
  rcases endpoint_cases hsystem with ⟨endpoint, hend, hpath⟩ | ⟨endpoint, hend, hpath⟩
  · -- a bucket path: only the batch delete and the form remain
    obtain ⟨-, hnoObject, hnoSlash⟩ := bucketEndpoint_accepts endpoint hend
    rw [← hpath] at hnoObject hnoSlash
    refine .inl ⟨⟨endpoint, hend, hpath⟩, ?_⟩
    simp only [postRoutes, mem_cons, not_mem_nil, or_false] at hmem
    rcases hmem with rfl | rfl | rfl | rfl | rfl | rfl | rfl | rfl
    iterate 5 exact absurd hpattern (by simp [object, hnoObject])
    · exact .inl (hqueries _ (mem_singleton_self _))
    · exact .inr (hform rfl)
    · exact absurd hpattern (by simp [hnoSlash])
  · obtain ⟨-, hnoBucket, hnoSlash⟩ := objectEndpoint_accepts endpoint hend
    rw [← hpath] at hnoBucket hnoSlash
    refine .inr ⟨⟨endpoint, hend, hpath⟩, ?_⟩
    simp only [postRoutes, mem_cons, not_mem_nil, or_false] at hmem
    rcases hmem with rfl | rfl | rfl | rfl | rfl | rfl | rfl | rfl
    iterate 5 exact hselector _ (by decide) (hqueries _ (mem_singleton_self _))
    · exact absurd hpattern (by simp [bucket, hnoBucket])
    · exact absurd hpattern (by simp [hnoBucket])
    · exact absurd hpattern (by simp [hnoSlash])

end Table

/-! ## The chain -/

namespace Chain

variable {chain : Chain Principal} {r : Request}

theorem isSystemEndpoint_or_preflight (hrejects : chain.validators.Rejects r)
    {principal : Option Principal} (hauth : chain.authenticate r = some principal) :
    isSystemEndpoint r.path = true ∨ isUnauthenticatedCORSPreflight r = true := by
  obtain ⟨hv4, hv2, hpost⟩ := hrejects
  unfold authenticate at hauth
  split at hauth
  · rename_i hsystem
    exact .inl hsystem
  · split at hauth
    · rename_i hpreflight
      exact .inr hpreflight
    · simp only [hv4, hv2, hpost, Option.map_none] at hauth
      split_ifs at hauth

/-- A request that no validator accepts reaches the router as a system endpoint, or as a
preflight. -/
theorem serve_of_rejected (hrejects : chain.validators.Rejects r) :
    isSystemEndpoint r.path = true ∧
        chain.serve r = dispatch chain.libraries chain.placement r ∨
      isSystemEndpoint r.path = false ∧ ∀ operation, chain.serve r = some operation →
        r.method = "OPTIONS" ∧ dispatch chain.libraries chain.placement r = some operation := by
  cases hsystem : isSystemEndpoint r.path with
  | true =>
    refine .inl ⟨rfl, ?_⟩
    simp only [serve, authenticate, authorize, hsystem, if_true]
  | false =>
    refine .inr ⟨rfl, ?_⟩
    intro operation hserve
    unfold serve at hserve
    split at hserve
    · cases hserve
    rename_i principal hauth
    rcases isSystemEndpoint_or_preflight hrejects hauth with hother | hpreflight
    · rw [hsystem] at hother
      cases hother
    have hoptions : r.method = "OPTIONS" := by
      by_contra hne
      simp [isUnauthenticatedCORSPreflight, hne] at hpreflight
    split at hserve
    · exact ⟨hoptions, hserve⟩
    · cases hserve

/-- The requests that reach a handler of a bucket or an object without credentials. -/
def Exposed (chain : Chain Principal) (r : Request) : Prop :=
  isSystemEndpoint r.path = true ∧
    (r.method = "PUT" ∨ r.method = "DELETE" ∨ r.method = "HEAD" ∨
      r.method = "GET" ∧ r.path = "/metrics".toList ∧ chain.placement = .last ∨
      r.method = "POST" ∧ PostExposed chain.libraries r)

theorem not_keepsOut (hserve : chain.serve r = some operation)
    (hprivate : operation.isPublic = false) : ¬ chain.KeepsOut r := by
  intro hkeeps
  rw [hkeeps operation hserve] at hprivate
  cases hprivate

theorem not_keepsOut_of_exposed (hrejects : chain.validators.Rejects r)
    (hexposed : chain.Exposed r) : ¬ chain.KeepsOut r := by
  obtain ⟨hsystem, hmethod⟩ := hexposed
  have hserve : chain.serve r = dispatch chain.libraries chain.placement r := by
    rcases serve_of_rejected hrejects with ⟨-, hserve⟩ | ⟨hother, -⟩
    · exact hserve
    · rw [hsystem] at hother
      cases hother
  have hexists : ∃ operation, dispatch chain.libraries chain.placement r = some operation ∧
      operation.isPublic = false := by
    rcases hmethod with hput | hdelete | hhead | ⟨hget, hpath, hlast⟩ | ⟨hpost, hselector⟩
    · exact exists_private_of_write hsystem
        (show ("PUT", .createBucket, .putObject) ∈ writeHandlers by decide) hput
    · exact exists_private_of_write hsystem
        (show ("DELETE", .deleteBucket, .deleteObject) ∈ writeHandlers by decide) hdelete
    · exact exists_private_of_write hsystem
        (show ("HEAD", .headBucket, .headObject) ∈ writeHandlers by decide) hhead
    · rw [hlast]
      exact exists_private_of_metrics hget hpath
    · exact exists_private_of_post hpost hselector
  obtain ⟨operation, hdispatch, hprivate⟩ := hexists
  exact not_keepsOut (hserve.trans hdispatch) hprivate

theorem keepsOut_of_not_exposed (hrejects : chain.validators.Rejects r)
    (hexposed : ¬ chain.Exposed r) : chain.KeepsOut r := by
  intro operation hserve
  rcases serve_of_rejected hrejects with ⟨hsystem, hrouter⟩ | ⟨-, hpreflight⟩
  · rw [hrouter] at hserve
    obtain ⟨route, hroute, haccepts, rfl⟩ := dispatch_eq_some hserve
    have hmethod := (Route.accepts_iff.mp haccepts).1
    have hnot : ¬ (r.method = "PUT" ∨ r.method = "DELETE" ∨ r.method = "HEAD" ∨
        r.method = "GET" ∧ r.path = "/metrics".toList ∧ chain.placement = .last ∨
        r.method = "POST" ∧ PostExposed chain.libraries r) := fun h => hexposed ⟨hsystem, h⟩
    simp only [not_or, not_and] at hnot
    obtain ⟨hput, hdelete, hhead, hmetrics, hpost⟩ := hnot
    rcases method_mem chain.placement route hroute with hprivate | hget | hoptions
    · rw [hmethod] at hprivate
      simp only [privateMethods, mem_cons, not_mem_nil, or_false] at hprivate
      rcases hprivate with h | h | h | h
      · exact absurd h hput
      · exact absurd h hdelete
      · exact absurd h hhead
      · exact absurd (postExposed_of_dispatch hsystem h hserve) (hpost h)
    · rw [hmethod] at hget
      refine public_of_get hsystem hget ?_ hserve
      by_cases hpath : r.path = "/metrics".toList
      · right
        cases hplace : chain.placement with
        | first => rfl
        | last => exact absurd hplace (hmetrics hget hpath)
      · exact .inl hpath
    · exact public_of_options chain.placement route hroute hoptions
  · obtain ⟨hoptions, hdispatch⟩ := hpreflight operation hserve
    obtain ⟨route, hroute, haccepts, rfl⟩ := dispatch_eq_some hdispatch
    have hmethod := (Route.accepts_iff.mp haccepts).1
    exact public_of_options chain.placement route hroute (hmethod.trans hoptions)

/-- **Requests without credentials.**  They are kept out of the handlers of buckets and
objects exactly if they are not exposed. -/
theorem keepsOut_iff (hrejects : chain.validators.Rejects r) :
    chain.KeepsOut r ↔ ¬ chain.Exposed r :=
  ⟨fun hkeeps hexposed => not_keepsOut_of_exposed hrejects hexposed hkeeps,
    keepsOut_of_not_exposed hrejects⟩

end Chain

/-- A gateway that knows no credentials, with the metrics route registered first. -/
def sampleChain : Chain Unit where
  libraries := ⟨fun query key => (parseQuery query).lookup key, fun _ => none⟩
  validators := ⟨fun _ => none, fun _ => none, fun _ => none⟩
  allowSigV2 := false
  permits _ _ := false
  proxiedBucket := []
  placement := .first

/-- A probe without credentials reaches only the health handler. -/
theorem keepsOut_get_health : sampleChain.KeepsOut ⟨"GET", "/health".toList, [], false, []⟩ := by
  refine (Chain.keepsOut_iff ⟨rfl, rfl, rfl⟩).mpr ?_
  rintro ⟨-, hmethod⟩
  revert hmethod
  simp [sampleChain]

/-- The same path with `PUT` creates a bucket. -/
theorem not_keepsOut_put_health :
    sampleChain.validators.Rejects ⟨"PUT", "/health".toList, [], false, []⟩ ∧
      sampleChain.serve ⟨"PUT", "/health".toList, [], false, []⟩ = some .createBucket ∧
      ¬ sampleChain.KeepsOut ⟨"PUT", "/health".toList, [], false, []⟩ := by
  have hserve : sampleChain.serve ⟨"PUT", "/health".toList, [], false, []⟩ =
      some .createBucket := by decide
  exact ⟨⟨rfl, rfl, rfl⟩, hserve, Chain.not_keepsOut hserve rfl⟩

end S3EncryptionGateway.Api
