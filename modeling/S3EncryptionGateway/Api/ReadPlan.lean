import S3EncryptionGateway.Library.Scan
import S3EncryptionGateway.Metadata.Names
import S3EncryptionGateway.Crypto.Chunked.DecryptRange
import S3EncryptionGateway.Crypto.Mpu.Manifest
import S3EncryptionGateway.Api.RangeRequest

/-!
# Planning the read of an object

Before an object is fetched, `planObjectRead` decides how: what is asked of the backend, how the
answer is decrypted and what the response says about ranges.  For a ranged read of a chunked
object only the records that the range touches are fetched, if the stored metadata allow to
compute where they are; in all other cases an encrypted object is fetched as a whole.

## What a plan may ask for

The client's range counts bytes of the plaintext, the backend's range bytes of the ciphertext.
A plan is `Sound` if it asks for the whole object, or for a slice of the ciphertext out of which
`DecryptRangeOptimized` makes exactly the bytes the client asked for.

`asks_planRange` lists the three ways out of the planner.

* Up to the computation of the slice every way out asks for the whole object.
* If the computation succeeds, the slice is the one that the range reader needs
  (`Stores.delivers_of_encryptedRange`): the size that the planner resolved is the size of the
  plaintext, and cutting the slice at the end of the object changes nothing.
* If it fails, the plan is to buffer the object, but the client's own range is still in it and
  goes to the backend.  `SlicesComputable` says that the planner does not get there.
-/

namespace S3EncryptionGateway.Api.ReadPlan

open Text Crypto Streams Slices Metadata RangeRequest

/-! ## Views of stored objects -/

/-- The metadata of an object, by name. -/
abbrev MetadataMap := Str → Option Str

/-- The value of a name, empty if there is none. -/
def valueOf (metadata : MetadataMap) (name : Str) : Str := (metadata name).getD []

def contentLengthKey : Str := "Content-Length".toList
def etagKey : Str := "ETag".toList

/-- A value as it is stored, under the canonical or else under the compact spelling. -/
def rawMetadataValue (metadata : MetadataMap) (canonical : Str) : Str :=
  if valueOf metadata canonical ≠ [] then valueOf metadata canonical
  else
    match lookupMetaKey canonical with
    | none => []
    | some spec => if spec.compact = [] then [] else valueOf metadata spec.compact

inductive ObjectFormat where
  | plaintext
  | bufferedLegacy
  | bufferedV2
  | bufferedFallback
  | chunkedV1
  | chunkedV2
  | mpuV1
  | mpuV2
  deriving DecidableEq

/-- An object as its metadata present it: as they are stored, with all names spelled out, and
what the classification made of them. -/
structure ObjectView where
  bucket : Str
  key : Str
  raw : MetadataMap
  expanded : MetadataMap
  format : ObjectFormat
  encrypted : Bool

inductive PlanError where
  /-- "object read plan requires bucket and key" -/
  | unnamed
  /-- "invalid fallback original plaintext size" -/
  | fallbackSize
  /-- "invalid chunked ciphertext size" -/
  | chunkedSize
  /-- "invalid original plaintext size" -/
  | originalSize
  /-- "ciphertext size must not be negative" -/
  | negativeSize
  /-- "chunked manifest is present but empty" -/
  | emptyManifest
  /-- "invalid chunked manifest: " and the cause -/
  | invalidManifest (err : RangeError)
  /-- "invalid ciphertext size", of an incomplete object -/
  | incompleteSize
  /-- "short ciphertext", of an incomplete object -/
  | shortCiphertext
  /-- "negative plaintext size", of an incomplete object -/
  | negativePlaintext
  /-- "MPU HEAD metadata does not match object metadata" -/
  | headMismatch
  /-- "invalid encrypted range %d-%d" -/
  | encryptedRange (first last : ℤ)
  /-- "invalid ciphertext content length %q" -/
  | contentLength (text : Str)
  /-- "encrypted range starts beyond object size: %d >= %d" -/
  | beyondObject (first size : ℤ)
  /-- An error of the size or range computations. -/
  | range (err : RangeError)
  /-- An error of the multipart manifest. -/
  | mpu (err : MpuError)
  /-- An error of the backend or of the engine. -/
  | backend (code : ℕ)
  deriving DecidableEq

/-- What the planner gets from the backend and from the engine. -/
structure Environment where
  /-- How the text of a chunk manifest is decoded. -/
  decodeManifest : Str → Option ChunkManifest
  bypass : Bool
  /-- The plaintext size that `AuthenticateChunkedTrailer` reports of the last bytes of a
  ciphertext of the given size. -/
  authenticateTrailer : ℤ → Except PlanError ℕ
  /-- The object is fetched and decrypted as a whole. -/
  drainObject : Except PlanError Unit
  headView : Except PlanError ObjectView
  loadMpuManifest : ObjectView → Except PlanError MultipartManifest

/-! ## The plaintext size -/

structure PlaintextSize where
  size : ℤ
  exact : Bool
  deriving DecidableEq

def unknownSize : PlaintextSize := ⟨-1, false⟩

/-- The chunk size that the metadata declare, or the default. -/
def parseChunkSize (metadata : MetadataMap) : ℕ :=
  match Decimal.scanInt (valueOf metadata MetaName.chunkSize.text) with
  | none => defaultChunkSize
  | some parsed => if 0 < parsed then parsed.toNat else defaultChunkSize

section Sizes

variable (env : Environment)

/-- What the range functions read of the metadata. -/
def rangeMetadata (metadata : MetadataMap) : RangeMetadata :=
  ⟨(metadata MetaName.manifest.text).map env.decodeManifest, metadata contentLengthKey,
    metadata MetaName.originalSize.text, metadata MetaName.chunkCount.text,
    metadata MetaName.chunkSize.text⟩

def chunkedVersionForMetadata (metadata : MetadataMap) : Except RangeError ℕ :=
  if valueOf metadata MetaName.manifest.text = [] then .ok chunkedFormatV1
  else (rangeMetadata env metadata).chunkedFormatVersion

def plaintextSizeForCiphertext (metadata : MetadataMap) (ciphertext : ℤ) :
    Except PlanError (ℤ × ℕ) :=
  match chunkedVersionForMetadata env metadata with
  | .error err => .error (.range err)
  | .ok version =>
    if ciphertext < 0 then .error .negativeSize
    else (chunkedPlaintextSize ciphertext (parseChunkSize metadata) version).mapError .range

variable (view : ObjectView)

/-- Older objects may not have a manifest. -/
def preflightVersion : Except PlanError ℕ :=
  match (rangeMetadata env view.expanded).chunkedFormatVersion with
  | .ok version => .ok version
  | .error err =>
    if valueOf view.expanded MetaName.manifest.text = [] then .ok chunkedFormatV1
    else .error (.range err)

/-- Version 1 has no terminal record; its size follows from the length. -/
def inferredSize : Except PlanError ℕ :=
  let length := valueOf view.expanded contentLengthKey
  if length = [] then .ok 0
  else
    match Decimal.parseInt length with
    | none => .error .incompleteSize
    | some ciphertextSize =>
      if ciphertextSize < 0 then .error .incompleteSize
      else do
        let (plain, _) ← plaintextSizeForCiphertext env view.expanded ciphertextSize
        if plain < 0 then .error .negativePlaintext else return plain.toNat

/-- The size that the terminal record states. -/
def terminalSize : Except PlanError ℕ :=
  match Decimal.parseInt (valueOf view.expanded contentLengthKey) with
  | none => .error .incompleteSize
  | some ciphertextSize =>
    if ciphertextSize < 0 then .error .incompleteSize
    else if ciphertextSize < chunkedTerminalSize then .error .shortCiphertext
    else env.authenticateTrailer ciphertextSize

def preflightChunkedTerminal : Except PlanError ℕ := do
  let version ← preflightVersion env view
  if env.bypass then return 0
  else if version = chunkedFormatV1 then inferredSize env view
  else terminalSize env view

def preflightChunkedCompleteness : Except PlanError ℕ :=
  if valueOf view.expanded MetaName.fallbackVersion.text = "2".toList ∨
      valueOf view.expanded MetaName.fallbackMode.text = "true".toList then .ok 0
  else
    match view.expanded MetaName.manifest.text with
    | none =>
      if valueOf view.expanded MetaName.objectFormatVersion.text = "chunked-v2".toList then do
        env.drainObject
        return 0
      else .ok 0
    | some [] => .error .emptyManifest
    | some (_ :: _) =>
      match (rangeMetadata env view.expanded).chunkedFormatVersion with
      | .error err => .error (.invalidManifest err)
      | .ok version =>
        if version = chunkedFormatV1 then .ok 0 else preflightChunkedTerminal env view

/-- A recorded size, which must be one if it is there. -/
def recordedSize (metadata : MetadataMap) (invalid : PlanError) (otherwise : PlaintextSize) :
    Except PlanError PlaintextSize :=
  let value := valueOf metadata MetaName.originalSize.text
  if value = [] then .ok otherwise
  else
    match Decimal.parseInt value with
    | none => .error invalid
    | some size => if size < 0 then .error invalid else .ok ⟨size, true⟩

/-- The size of a chunked object from the length of its ciphertext. -/
def chunkedSize : Except PlanError PlaintextSize :=
  let value := valueOf view.raw contentLengthKey
  if value = [] then
    if view.format = .chunkedV1 then .ok unknownSize
    else recordedSize view.expanded .originalSize unknownSize
  else
    match Decimal.parseInt value with
    | none => .error .chunkedSize
    | some ciphertext =>
      if ciphertext < 0 then .error .chunkedSize
      else do
        let (plain, _) ← plaintextSizeForCiphertext env view.expanded ciphertext
        return ⟨plain, true⟩

def isAeadAlgorithm (algorithm : Str) : Bool :=
  algorithm = "AES256-GCM".toList ∨ algorithm = "ChaCha20-Poly1305".toList

/-- The size of a buffered object whose size was not recorded. -/
def legacyAeadSize (metadata : MetadataMap) : PlaintextSize :=
  match Decimal.parseInt (valueOf metadata contentLengthKey) with
  | none => unknownSize
  | some size =>
    if isAeadAlgorithm (valueOf metadata MetaName.algorithm.text) ∧ (tagSize : ℤ) ≤ size then
      ⟨size - tagSize, true⟩
    else unknownSize

/-- The stored length, if it is one. -/
def metadataSize (metadata : MetadataMap) : PlaintextSize :=
  match Decimal.parseInt (valueOf metadata contentLengthKey) with
  | none => unknownSize
  | some size => if size < 0 then unknownSize else ⟨size, true⟩

def resolvePlaintextSize : Except PlanError PlaintextSize :=
  if view.encrypted = false then .ok (metadataSize view.expanded)
  else
    match view.format with
    | .mpuV1 | .mpuV2 => do
        let manifest ← env.loadMpuManifest view
        return ⟨manifest.totalPlainSize, true⟩
    | .bufferedFallback => recordedSize view.expanded .fallbackSize unknownSize
    | .chunkedV1 => chunkedSize env view
    | .chunkedV2 => do
        let size ← preflightChunkedCompleteness env view
        if size ≤ maxInt64 then return ⟨size, true⟩ else chunkedSize env view
    | .plaintext | .bufferedLegacy | .bufferedV2 =>
      recordedSize view.expanded .originalSize (legacyAeadSize view.expanded)

end Sizes

/-! ## The plan -/

inductive ObjectReadMode where
  | full
  | mpuFull
  | passthroughRange
  | bufferedRange
  | optimizedRange
  | mpuRange
  deriving DecidableEq

structure ObjectReadPlan where
  mode : ObjectReadMode
  size : PlaintextSize
  /-- The range that the backend is asked for, if not the whole object. -/
  backendRange : Option Str
  rangeStart : ℤ
  rangeEnd : ℤ
  /-- Negative as long as no range is known. -/
  rangeTotal : ℤ
  responseStatus : ℕ
  responseRange : Option (ℤ × ℤ)
  preflightBody : Bool
  mpuManifest : Option MultipartManifest
  mpuRange : Option MpuRangeResult
  mpuRangeError : Option RangeHeaderError

namespace ObjectReadPlan

def initial (preflightBody : Bool) : ObjectReadPlan where
  mode := .full
  size := ⟨0, false⟩
  backendRange := none
  rangeStart := 0
  rangeEnd := 0
  rangeTotal := -1
  responseStatus := 200
  responseRange := none
  preflightBody := preflightBody
  mpuManifest := none
  mpuRange := none
  mpuRangeError := none

/-- Fetch the whole object and cut the range out of its plaintext. -/
def whole (plan : ObjectReadPlan) : ObjectReadPlan :=
  { plan with
    backendRange := none
    mode := .bufferedRange }

def withRange (plan : ObjectReadPlan) (range : ℤ × ℤ) (total : ℤ) : ObjectReadPlan :=
  { plan with
    rangeStart := range.1
    rangeEnd := range.2
    rangeTotal := total }

/-- The response is the range of the plan. -/
def partialContent (plan : ObjectReadPlan) : ObjectReadPlan :=
  { plan with
    responseStatus := 206
    responseRange := some (plan.rangeStart, plan.rangeEnd) }

end ObjectReadPlan

/-- Limit a range of the ciphertext to the stored length. -/
def clampEncryptedRangeEnd (start stop : ℤ) (contentLength : Str) : Except PlanError ℤ :=
  if start < 0 ∨ stop < start then .error (.encryptedRange start stop)
  else if contentLength = [] then .ok stop
  else
    match Decimal.parseInt contentLength with
    | none => .error (.contentLength contentLength)
    | some ciphertextSize =>
      if ciphertextSize ≤ 0 then .error (.contentLength contentLength)
      else if ciphertextSize ≤ start then .error (.beyondObject start ciphertextSize)
      else if ciphertextSize ≤ stop then .ok (ciphertextSize - 1)
      else .ok stop

section Plan

variable (env : Environment) (view : ObjectView)

/-- Where in the stored ciphertext the records of a range are. -/
def encryptedRange (start stop : ℤ) : Except PlanError (ℤ × ℤ) := do
  let (first, last) ←
    (calculateEncryptedRangeForPlaintextRange (rangeMetadata env view.expanded) start stop).mapError
      .range
  let last ← clampEncryptedRangeEnd first last (valueOf view.raw contentLengthKey)
  return (first, last)

/-- The size or the record count is not among the stored metadata. -/
def missingOriginalSize : Bool :=
  rawMetadataValue view.raw MetaName.originalSize.text = [] ∨
    rawMetadataValue view.raw MetaName.chunkCount.text = []

def isChunked : Bool := view.format = .chunkedV1 ∨ view.format = .chunkedV2

/-- The end of the planner, for encrypted objects. -/
def planEncryptedRange (header : Str) (size : PlaintextSize) (plan : ObjectReadPlan) :
    ObjectReadPlan :=
  let plan :=
    if plan.rangeTotal < 0 ∧ 0 ≤ size.size then
      match parseObjectRange header size.size with
      | .error _ => plan
      | .ok range => plan.withRange range size.size
    else plan
  if isChunked view = false then plan.whole
  else if missingOriginalSize view ∨ valueOf view.expanded MetaName.manifest.text = [] ∨
      trimSpace header = "bytes=0-".toList ∨ size.exact = false then plan.whole
  else if plan.rangeTotal < 0 ∨ (plan.rangeStart = 0 ∧ plan.rangeEnd = size.size - 1) then
    plan.whole
  else
    match encryptedRange env view plan.rangeStart plan.rangeEnd with
    -- the backend range stays what it was
    | .error _ => { plan with mode := .bufferedRange }
    | .ok (first, last) =>
      { plan.partialContent with
        backendRange := some (formatRange first last)
        mode := .optimizedRange
        preflightBody := true }

/-- The end of the planner, for objects that are stored as they are. -/
def planPassthroughRange (size : PlaintextSize) (plan : ObjectReadPlan) : ObjectReadPlan :=
  if size.exact ∧ 0 < size.size ∧ 0 ≤ plan.rangeTotal then
    { plan.partialContent with mode := .passthroughRange }
  else plan

/-- A ranged read of an object whose size was resolved. -/
def planRange (header : Str) (size : PlaintextSize) (plan : ObjectReadPlan) : ObjectReadPlan :=
  let size := if size.exact = false ∧ 0 ≤ size.size then { size with exact := true } else size
  let plan :=
    { plan with
      mode := .bufferedRange
      size := size
      backendRange := some header }
  let plan :=
    if size.exact then
      match parseObjectRange header size.size with
      | .error _ => plan
      | .ok range => (plan.withRange range size.size).partialContent
    else plan
  if view.encrypted = false then planPassthroughRange size plan
  else planEncryptedRange env view header size plan

/-- The plan for an object that was uploaded in parts. -/
def planMpu (plan : ObjectReadPlan) : Option Str → Except PlanError ObjectReadPlan
  | none => do
      let head ← env.headView
      if head.format ≠ view.format ∨ (valueOf view.raw etagKey ≠ [] ∧
          valueOf head.raw etagKey ≠ [] ∧ valueOf view.raw etagKey ≠ valueOf head.raw etagKey) then
        .error .headMismatch
      else do
        let manifest ← env.loadMpuManifest head
        return { plan with
          mode := .mpuFull
          size := ⟨manifest.totalPlainSize, true⟩
          mpuManifest := some manifest }
  | some header => do
      let manifest ← env.loadMpuManifest view
      let plan := { plan with
        mode := .mpuRange
        size := ⟨manifest.totalPlainSize, true⟩
        mpuManifest := some manifest }
      match parseObjectRange header manifest.totalPlainSize with
      | .error err =>
        return { plan with
          mpuRangeError := some err
          responseStatus := 416 }
      | .ok range =>
        match manifest.encRangeForPlaintextRange range.1 range.2 with
        | .error err => .error (.mpu err)
        | .ok planned =>
          return { (plan.withRange range manifest.totalPlainSize).partialContent with
            mpuRange := some planned
            backendRange := some (formatRange planned.encStart planned.encEnd) }

/-- `planObjectRead`, from the view of the object on. -/
def planObjectRead (rangeHeader : Option Str) : Except PlanError ObjectReadPlan :=
  let plan := ObjectReadPlan.initial (rangeHeader.isNone && view.encrypted)
  if view.bucket = [] ∨ view.key = [] then .error .unnamed
  else if view.format = .mpuV1 ∨ view.format = .mpuV2 then planMpu env view plan rangeHeader
  else if rangeHeader.isSome ∧ view.format = .chunkedV1 ∧ missingOriginalSize view then
    return { plan.whole with size := unknownSize }
  else do
    let size ← resolvePlaintextSize env view
    match rangeHeader with
    | none => return { plan with size := size }
    | some header => return planRange env view header size plan

end Plan

/-! ## The ways through the planner -/

/-- The planner gets to the computation of a slice for `range`, of an object of `total` bytes. -/
structure Computes (view : ObjectView) (header : Str) (total : ℤ) (range : ℤ × ℤ) : Prop where
  chunked : isChunked view = true
  recorded : missingOriginalSize view = false
  manifest : valueOf view.expanded MetaName.manifest.text ≠ []
  bounded : trimSpace header ≠ "bytes=0-".toList
  known : 0 ≤ total
  parsed : parseObjectRange header total = .ok range
  proper : ¬(range.1 = 0 ∧ range.2 = total - 1)

theorem Computes.range_eq {view : ObjectView} {header : Str} {total : ℤ} {range range' : ℤ × ℤ}
    (hcomputes : Computes view header total range)
    (hparsed : parseObjectRange header total = .ok range') : range = range' :=
  Except.ok.inj (hcomputes.parsed.symm.trans hparsed)

/-- What a plan asks of the backend, and for which range of the plaintext. -/
inductive Asks (env : Environment) (view : ObjectView) (header : Str) (total : ℤ)
    (plan : ObjectReadPlan) : Prop where
  | whole (hnone : plan.backendRange = none) (hmode : plan.mode = .bufferedRange)
      (hnot : ∀ range, ¬Computes view header total range)
  | slice (range encrypted : ℤ × ℤ) (hcomputes : Computes view header total range)
      (hrange : encryptedRange env view range.1 range.2 = .ok encrypted)
      (hbackend : plan.backendRange = some (formatRange encrypted.1 encrypted.2))
      (hmode : plan.mode = .optimizedRange)
      (hplan : (plan.rangeStart, plan.rangeEnd) = range)
  | header (range : ℤ × ℤ) (err : PlanError) (hcomputes : Computes view header total range)
      (hrange : encryptedRange env view range.1 range.2 = .error err)
      (hbackend : plan.backendRange = some header) (hmode : plan.mode = .bufferedRange)

section Ways

variable {env : Environment} {view : ObjectView} {header : Str} {size : PlaintextSize}
  {plan : ObjectReadPlan}

theorem planEncryptedRange_of_unknown (htotal : plan.rangeTotal < 0)
    (hparse : 0 ≤ size.size → ∀ range, parseObjectRange header size.size ≠ .ok range) :
    planEncryptedRange env view header size plan = plan.whole := by
  have hsame : (if plan.rangeTotal < 0 ∧ 0 ≤ size.size then
      match parseObjectRange header size.size with
      | .error _ => plan
      | .ok range => plan.withRange range size.size
      else plan) = plan := by
    split
    · rename_i hknown
      cases hresult : parseObjectRange header size.size with
      | error err => rfl
      | ok range => exact absurd hresult (hparse hknown.2 range)
    · rfl
  simp only [planEncryptedRange, hsame]
  split
  · rfl
  · split
    · rfl
    · rw [if_pos (.inl htotal)]

/-- With a range, the slice is computed unless one of the earlier ways out was taken. -/
theorem asks_of_range {range : ℤ × ℤ} (hexact : size.exact = true) (hknown : 0 ≤ size.size)
    (hparsed : parseObjectRange header size.size = .ok range)
    (htotal : plan.rangeTotal = size.size) (hstart : plan.rangeStart = range.1)
    (hend : plan.rangeEnd = range.2) (hbackend : plan.backendRange = some header) :
    Asks env view header size.size (planEncryptedRange env view header size plan) := by
  have hsame : ∀ other : ObjectReadPlan,
      (if plan.rangeTotal < 0 ∧ 0 ≤ size.size then other else plan) = plan :=
    fun other => if_neg (by omega)
  simp only [planEncryptedRange, hsame]
  split
  · rename_i hformat
    refine .whole rfl rfl fun range' hcomputes => ?_
    rw [hcomputes.chunked] at hformat
    cases hformat
  · rename_i hformat
    split
    · rename_i hearly
      refine .whole rfl rfl fun range' hcomputes => ?_
      rcases hearly with hmissing | hmanifest | hopen | hinexact
      · exact absurd (hmissing.symm.trans hcomputes.recorded) (by decide)
      · exact hcomputes.manifest hmanifest
      · exact hcomputes.bounded hopen
      · exact absurd (hexact.symm.trans hinexact) (by decide)
    · rename_i hearly
      obtain ⟨hmissing, hearly⟩ := not_or.mp hearly
      obtain ⟨hmanifest, hearly⟩ := not_or.mp hearly
      obtain ⟨hopen, -⟩ := not_or.mp hearly
      split_ifs with hwhole
      · refine .whole rfl rfl fun range' hcomputes => hcomputes.proper ?_
        rw [hcomputes.range_eq hparsed, ← hstart, ← hend]
        rcases hwhole with hnegative | hwhole
        · omega
        · exact hwhole
      · have hcomputes : Computes view header size.size range := by
          refine ⟨(Bool.not_eq_false _).mp hformat, (Bool.not_eq_true _).mp hmissing, hmanifest,
            hopen, hknown, hparsed, fun hproper => hwhole (.inr ?_)⟩
          rw [hstart, hend]
          exact hproper
        rw [hstart, hend]
        cases hrange : encryptedRange env view range.1 range.2 with
        | error err => exact .header range err hcomputes hrange hbackend rfl
        | ok encrypted =>
          refine .slice range encrypted hcomputes hrange rfl rfl ?_
          show (plan.rangeStart, plan.rangeEnd) = range
          rw [hstart, hend]

/-- **The three ways a ranged read of an encrypted object is planned.** -/
theorem asks_planRange (hencrypted : view.encrypted = true) (htotal : plan.rangeTotal < 0) :
    Asks env view header size.size (planRange env view header size plan) := by
  obtain ⟨total, exact⟩ := size
  have hpassed : ¬view.encrypted = false := by
    rw [hencrypted]
    decide
  by_cases hknown : 0 ≤ total
  · -- the size counts as exact
    have hforced : (if exact = false ∧ 0 ≤ total then (⟨total, true⟩ : PlaintextSize)
        else ⟨total, exact⟩) = ⟨total, true⟩ := by
      cases exact <;> simp [hknown]
    simp only [planRange, hforced, if_neg hpassed, if_true]
    cases hparsed : parseObjectRange header total with
    | ok range =>
      have hsize : parseObjectRange header (⟨total, true⟩ : PlaintextSize).size = .ok range :=
        hparsed
      show Asks env view header (⟨total, true⟩ : PlaintextSize).size _
      exact asks_of_range rfl hknown hsize rfl rfl rfl rfl
    | error err =>
      have hnone : ∀ range, parseObjectRange header total ≠ .ok range := by
        intro range hok
        cases hparsed.symm.trans hok
      rw [planEncryptedRange_of_unknown]
      · exact .whole rfl rfl fun range hcomputes => hnone range hcomputes.parsed
      · exact htotal
      · exact fun _ => hnone
  · have hsame : (if exact = false ∧ 0 ≤ total then (⟨total, true⟩ : PlaintextSize)
        else ⟨total, exact⟩) = ⟨total, exact⟩ := if_neg fun h => hknown h.2
    simp only [planRange, hsame, if_neg hpassed]
    rw [planEncryptedRange_of_unknown]
    · exact .whole rfl rfl fun range hcomputes => hknown hcomputes.known
    · split
      · split
        · exact htotal
        · exact not_le.mp hknown
      · exact htotal
    · exact fun h => absurd h hknown

end Ways

/-! ## Slices that are decrypted -/

/-- The view is that of the stored object `o`, and `target` is what the engine makes of its
metadata. -/
structure Stores (env : Environment) (view : ObjectView) (target : RangeTarget)
    (o : ChunkedObject) : Prop where
  metadata_eq : target.metadata = rangeMetadata env view.expanded
  isOf : target.IsOf o
  encrypted : view.encrypted = true
  format_eq : view.format = if o.format.version = chunkedFormatV2 then .chunkedV2 else .chunkedV1
  length_eq : view.raw contentLengthKey = view.expanded contentLengthKey
  chunkSize_eq : o.format.version = chunkedFormatV1 → parseChunkSize view.expanded = o.chunkSize
  -- the markers of objects that keep their metadata in front of the body
  version_ne : valueOf view.expanded MetaName.fallbackVersion.text ≠ "2".toList
  mode_ne : valueOf view.expanded MetaName.fallbackMode.text ≠ "true".toList
  active : env.bypass = false
  /-- A size is only authenticated if the stored length is the one that belongs to it. -/
  authenticated : ∀ length size, env.authenticateTrailer length = .ok size →
    ∃ count, chunkedPlaintextSize length o.chunkSize chunkedFormatV2 = .ok ((size : ℤ), count)

/-- However the bytes arrive and are read, `DecryptRangeOptimized` makes `expected` of them. -/
def DecryptsTo (target : RangeTarget) (hkdf : Hkdf) (stored : Encoding.Bytes) (start stop : ℤ)
    (expected : Encoding.Bytes) : Prop :=
  ∀ source, Script.Clean source → Script.bytes source = stored →
    ∃ r, decryptRange target source start stop true = .ok r ∧
      ∀ sizes, KeepsReading sizes → ∃ fuel r',
        drain (RangeDecryptReader.read hkdf) sizes fuel r = (expected, some .eof, r')

open MetaName

namespace Stores

variable {env : Environment} {view : ObjectView} {target : RangeTarget} {o : ChunkedObject}

section

variable (hstores : Stores env view target o)

include hstores

theorem describes :
    ∃ written, (rangeMetadata env view.expanded).Describes (o.manifest written)
      o.plaintext.length := by
  rw [← hstores.metadata_eq]
  exact hstores.isOf.describes

theorem contentLength_eq :
    view.expanded contentLengthKey = some (Decimal.formatNat o.ciphertext.length) := by
  obtain ⟨written, hdescribes⟩ := hstores.describes
  rw [o.length_ciphertext]
  exact hdescribes.contentLength

theorem parseInt_expanded :
    Decimal.parseInt (valueOf view.expanded contentLengthKey) = some (o.ciphertext.length : ℤ) := by
  rw [valueOf, hstores.contentLength_eq]
  exact Decimal.parseInt_formatNat o.fits

theorem raw_ne_nil : valueOf view.raw contentLengthKey ≠ [] := by
  obtain ⟨digit, rest, -, hcons⟩ := Decimal.exists_formatNat_eq_cons o.ciphertext.length
  rw [valueOf, hstores.length_eq, hstores.contentLength_eq, Option.getD_some, hcons]
  exact List.cons_ne_nil _ _

theorem parseInt_raw :
    Decimal.parseInt (valueOf view.raw contentLengthKey) = some (o.ciphertext.length : ℤ) := by
  rw [valueOf, hstores.length_eq]
  exact hstores.parseInt_expanded

theorem chunkedFormatVersion_eq :
    (rangeMetadata env view.expanded).chunkedFormatVersion = .ok o.format.version := by
  obtain ⟨written, hdescribes⟩ := hstores.describes
  exact hdescribes.chunkedFormatVersion_eq

theorem chunkedSize_eq (hversion : o.format.version = chunkedFormatV1)
    (hmanifest : valueOf view.expanded manifest.text ≠ []) :
    chunkedSize env view = .ok ⟨o.plaintext.length, true⟩ := by
  have hsize : plaintextSizeForCiphertext env view.expanded o.ciphertext.length =
      .ok ((o.plaintext.length : ℤ), o.recordCount) := by
    rw [plaintextSizeForCiphertext, chunkedVersionForMetadata, if_neg hmanifest,
      hstores.chunkedFormatVersion_eq, hstores.chunkSize_eq hversion]
    show (if _ then _ else _) = _
    rw [if_neg (by omega), o.chunkedPlaintextSize_length]
    rfl
  rw [chunkedSize, if_neg hstores.raw_ne_nil, hstores.parseInt_raw]
  show (if _ then _ else _) = _
  rw [if_neg (by omega), hsize]
  rfl

theorem size_of_preflight (hversion : o.format.version = chunkedFormatV2)
    (hmanifest : valueOf view.expanded manifest.text ≠ []) {size : ℕ}
    (hpreflight : preflightChunkedCompleteness env view = .ok size) :
    size = o.plaintext.length := by
  have hmarked : ¬(valueOf view.expanded fallbackVersion.text = "2".toList ∨
      valueOf view.expanded fallbackMode.text = "true".toList) :=
    not_or.mpr ⟨hstores.version_ne, hstores.mode_ne⟩
  have hother : ¬chunkedFormatV2 = chunkedFormatV1 := by decide
  obtain ⟨c, rest, htext⟩ : ∃ c rest, view.expanded manifest.text = some (c :: rest) := by
    rw [valueOf] at hmanifest
    rcases htext : view.expanded manifest.text with _ | _ | ⟨c, rest⟩
    · rw [htext] at hmanifest
      exact absurd rfl hmanifest
    · rw [htext] at hmanifest
      exact absurd rfl hmanifest
    · exact ⟨c, rest, rfl⟩
  have hlength : chunkedTerminalSize ≤ o.ciphertext.length := by
    rw [o.length_ciphertext, hversion]
    exact Nat.le_add_left _ _
  rw [preflightChunkedCompleteness, if_neg hmarked, htext] at hpreflight
  simp only [hstores.chunkedFormatVersion_eq, hversion, if_neg hother] at hpreflight
  have hterminal : preflightChunkedTerminal env view = terminalSize env view := by
    rw [preflightChunkedTerminal, preflightVersion, hstores.chunkedFormatVersion_eq, hversion,
      hstores.active]
    rfl
  rw [hterminal, terminalSize, hstores.parseInt_expanded] at hpreflight
  simp only at hpreflight
  rw [if_neg (by omega), if_neg (by omega)] at hpreflight
  obtain ⟨count, hcount⟩ := hstores.authenticated _ _ hpreflight
  rw [← hversion, o.chunkedPlaintextSize_length] at hcount
  have hsame : (o.plaintext.length : ℤ) = size := congrArg Prod.fst (Except.ok.inj hcount)
  exact_mod_cast hsame.symm

/-- **The resolved size is the size of the plaintext.** -/
theorem resolvePlaintextSize_eq (hmanifest : valueOf view.expanded manifest.text ≠ [])
    {size : PlaintextSize} (hresolve : resolvePlaintextSize env view = .ok size) :
    size.size = o.plaintext.length := by
  rw [resolvePlaintextSize, if_neg (by rw [hstores.encrypted]; decide), hstores.format_eq]
    at hresolve
  rcases o.supported with hversion | hversion
  · have hother : ¬o.format.version = chunkedFormatV2 := by
      rw [hversion]
      decide
    rw [if_neg hother] at hresolve
    replace hresolve : chunkedSize env view = .ok size := hresolve
    rw [hstores.chunkedSize_eq hversion hmanifest] at hresolve
    rw [← Except.ok.inj hresolve]
  · rw [if_pos hversion] at hresolve
    obtain ⟨found, hpreflight, hresolve⟩ := Fallible.bind_eq_ok_iff.mp hresolve
    have hfound := hstores.size_of_preflight hversion hmanifest hpreflight
    rw [if_pos (hfound ▸ o.length_plaintext_le)] at hresolve
    rw [← Except.ok.inj hresolve, hfound]

/-- A slice up to the record of the last byte is not cut. -/
theorem clampEncryptedRangeEnd_eq {first last : ℕ} (hle : first ≤ last)
    (hlast : last < o.plaintext.length) :
    clampEncryptedRangeEnd ((first / o.chunkSize * (o.chunkSize + tagSize) : ℕ) : ℤ)
        ((recordEnd o.plaintext.length o.chunkSize last : ℤ) - 1)
        (valueOf view.raw contentLengthKey) =
      .ok ((recordEnd o.plaintext.length o.chunkSize last : ℤ) - 1) := by
  have hend : recordEnd o.plaintext.length o.chunkSize last ≤ o.ciphertext.length :=
    ChunkedObject.recordEnd_le_ciphertext
  have hbegin : first / o.chunkSize * (o.chunkSize + tagSize) <
      recordEnd o.plaintext.length o.chunkSize last := by
    have hrecord := ChunkedObject.recordEnd_le (o := o) (i := first / o.chunkSize)
      ((Nat.div_mul_le_self first o.chunkSize).trans_lt (hle.trans_lt hlast))
    have hmono : first / o.chunkSize < last / o.chunkSize + 1 :=
      Nat.lt_succ_of_le (Nat.div_le_div_right hle)
    rw [recordEnd, lt_min_iff]
    constructor
    · exact Nat.mul_lt_mul_of_pos_right hmono (by simp only [tagSize]; omega)
    · rw [← o.length_data]
      simp only [tagSize] at hrecord ⊢
      omega
  rw [clampEncryptedRangeEnd, if_neg (by omega), if_neg hstores.raw_ne_nil, hstores.parseInt_raw]
  show (if _ then _ else if _ then _ else if _ then _ else _) = _
  rw [if_neg (by omega), if_neg (by omega), if_neg (by omega)]

/-- **The computed slice is the one the range reader needs.** -/
theorem delivers_of_encryptedRange {header : Str} {range encrypted : ℤ × ℤ}
    (hcomputes : Computes view header o.plaintext.length range)
    (hrange : encryptedRange env view range.1 range.2 = .ok encrypted) :
    (rangeForm header).bind (RangeForm.select o.plaintext.length) = some range ∧
      DecryptsTo target o.hkdf (slice o.ciphertext encrypted.1.toNat (encrypted.2 + 1).toNat)
        range.1 range.2 (bytesOf o.plaintext range) := by
  obtain ⟨start, stop⟩ := range
  have hpos : 0 < o.plaintext.length := by
    by_contra hempty
    obtain ⟨written, hdescribes⟩ := hstores.describes
    rw [Nat.eq_zero_of_not_pos hempty] at hdescribes
    rw [encryptedRange, calculateEncryptedRangeForPlaintextRange_of_empty hdescribes] at hrange
    cases hrange
  have hfits := o.length_plaintext_le
  have hselect : (rangeForm header).bind (RangeForm.select o.plaintext.length) =
      some (start, stop) := by
    rw [← toOption_parseObjectRange (by omega) (by omega), hcomputes.parsed]
    rfl
  refine ⟨hselect, ?_⟩
  obtain ⟨form, -, hform⟩ := Option.bind_eq_some_iff.mp hselect
  obtain ⟨hstart, hle, hlast⟩ := bounds_of_select hform
  lift start to ℕ using hstart
  lift stop to ℕ using by omega
  have hle : start ≤ stop := by omega
  have hlast : stop < o.plaintext.length := by omega
  obtain ⟨written, hdescribes⟩ := hstores.describes
  have hplan : calculateEncryptedRangeForPlaintextRange (rangeMetadata env view.expanded) start
      stop =
      if maxInt64 / (o.chunkSize + tagSize) ≤ stop / o.chunkSize then
        .error .encryptedRangeOverflow
      else .ok (((start / o.chunkSize * (o.chunkSize + tagSize) : ℕ) : ℤ),
        (recordEnd o.plaintext.length o.chunkSize stop : ℤ) - 1) :=
    calculateEncryptedRangeForPlaintextRange_eq hdescribes hle hlast
  rw [encryptedRange, hplan] at hrange
  split at hrange
  · cases hrange
  replace hrange : (clampEncryptedRangeEnd _ _ (valueOf view.raw contentLengthKey)).bind _ =
      .ok encrypted := hrange
  rw [hstores.clampEncryptedRangeEnd_eq hle hlast] at hrange
  cases hrange
  intro source hclean hbytes
  rw [Int.sub_add_cancel, Int.toNat_natCast, Int.toNat_natCast] at hbytes
  obtain ⟨r, hnew, hdrain⟩ := ChunkedObject.deliversFrom_recordEnd hle hlast source hclean hbytes
  refine ⟨r, ?_, hdrain⟩
  rw [hstores.isOf.decryptRange_eq, if_neg (by omega), hnew]
  rfl

end

end Stores

theorem bounds_of_clamp {first last clamped : ℤ} {contentLength : Str}
    (hclamp : clampEncryptedRangeEnd first last contentLength = .ok clamped) :
    0 ≤ first ∧ first ≤ clamped := by
  unfold clampEncryptedRangeEnd at hclamp
  split at hclamp
  · cases hclamp
  split at hclamp
  · cases hclamp
    omega
  · split at hclamp
    · cases hclamp
    · split_ifs at hclamp <;> cases hclamp <;> omega

theorem bounds_of_encryptedRange {env : Environment} {view : ObjectView} {start stop : ℤ}
    {encrypted : ℤ × ℤ} (hrange : encryptedRange env view start stop = .ok encrypted) :
    0 ≤ encrypted.1 ∧ encrypted.1 ≤ encrypted.2 := by
  obtain ⟨⟨first, last⟩, -, hrange⟩ := Fallible.bind_eq_ok_iff.mp hrange
  obtain ⟨clamped, hclamp, hrange⟩ := Fallible.bind_eq_ok_iff.mp hrange
  cases hrange
  exact bounds_of_clamp hclamp

/-! ## Sound plans -/

/-- The plan asks for the whole object, or for a slice of the ciphertext out of which the bytes
are decrypted that the client asked for. -/
def Sound (env : Environment) (view : ObjectView) (rangeHeader : Option Str)
    (plan : ObjectReadPlan) : Prop :=
  plan.backendRange = none ∧ (plan.mode = .full ∨ plan.mode = .bufferedRange) ∨
    plan.mode = .optimizedRange ∧ ∃ first last : ℕ, first ≤ last ∧
      plan.backendRange = some (formatRange first last) ∧
      ∀ target o, Stores env view target o →
        ∃ range, (rangeHeader.bind rangeForm).bind (RangeForm.select o.plaintext.length) =
            some range ∧
          DecryptsTo target o.hkdf (slice o.ciphertext first (last + 1)) plan.rangeStart
            plan.rangeEnd (bytesOf o.plaintext range)

/-- The slice of every range for which the planner computes one can be computed. -/
def SlicesComputable (env : Environment) (view : ObjectView) (rangeHeader : Option Str) : Prop :=
  view.bucket ≠ [] → view.key ≠ [] → ∀ header ∈ rangeHeader, ∀ size range,
    resolvePlaintextSize env view = .ok size → Computes view header size.size range →
      ∃ encrypted, encryptedRange env view range.1 range.2 = .ok encrypted

section Soundness

variable {env : Environment} {view : ObjectView} {header : Str} {size : PlaintextSize}
  {plan : ObjectReadPlan}

/-- A ranged plan is sound unless the computation of the slice fails. -/
theorem sound_iff_of_asks (hresolve : resolvePlaintextSize env view = .ok size)
    (hasks : Asks env view header size.size plan) :
    Sound env view (some header) plan ↔ ∀ range, Computes view header size.size range →
      ∃ encrypted, encryptedRange env view range.1 range.2 = .ok encrypted := by
  cases hasks with
  | whole hnone hmode hnot =>
    exact iff_of_true (.inl ⟨hnone, .inr hmode⟩) fun range hcomputes =>
      absurd hcomputes (hnot range)
  | slice range encrypted hcomputes hrange hbackend hmode hplan =>
    obtain ⟨hfirst, hlast⟩ := bounds_of_encryptedRange hrange
    obtain ⟨first, last⟩ := encrypted
    lift first to ℕ using hfirst
    lift last to ℕ using by omega
    refine iff_of_true (.inr ⟨hmode, first, last, by omega, hbackend, ?_⟩) ?_
    · intro target o hstores
      have hsize := hstores.resolvePlaintextSize_eq hcomputes.manifest hresolve
      rw [hsize] at hcomputes
      obtain ⟨hselect, hdecrypts⟩ := hstores.delivers_of_encryptedRange hcomputes hrange
      refine ⟨range, hselect, ?_⟩
      rw [show plan.rangeStart = range.1 from congrArg Prod.fst hplan,
        show plan.rangeEnd = range.2 from congrArg Prod.snd hplan]
      exact hdecrypts
    · intro range' hcomputes'
      rw [hcomputes'.range_eq hcomputes.parsed]
      exact ⟨_, hrange⟩
  | header range err hcomputes hrange hbackend hmode =>
    refine iff_of_false ?_ fun hall => ?_
    · rintro (⟨hnone, -⟩ | ⟨hoptimized, -⟩)
      · cases hnone.symm.trans hbackend
      · cases hoptimized.symm.trans hmode
    · obtain ⟨encrypted, hok⟩ := hall range hcomputes
      cases hok.symm.trans hrange

/-- A plan for a range: none, the whole object at once, or after its size was resolved. -/
theorem planObjectRead_cases (hencrypted : view.encrypted = true)
    (hsingle : ¬(view.format = .mpuV1 ∨ view.format = .mpuV2))
    (hnamed : ¬(view.bucket = [] ∨ view.key = [])) (header : Str) :
    (∃ err, planObjectRead env view (some header) = .error err ∧
        ∀ size, resolvePlaintextSize env view ≠ .ok size) ∨
      (∃ plan, planObjectRead env view (some header) = .ok plan ∧
        Sound env view (some header) plan ∧ missingOriginalSize view = true) ∨
      ∃ size plan, resolvePlaintextSize env view = .ok size ∧
        planObjectRead env view (some header) = .ok plan ∧
        Asks env view header size.size plan := by
  rw [planObjectRead, if_neg hnamed, if_neg hsingle]
  split_ifs with hmissing
  · exact .inr (.inl ⟨_, rfl, .inl ⟨rfl, .inr rfl⟩, hmissing.2.2⟩)
  · cases hresolve : resolvePlaintextSize env view with
    | error err => exact .inl ⟨err, rfl, fun size => nofun⟩
    | ok size =>
      exact .inr (.inr ⟨size, _, rfl, rfl, asks_planRange hencrypted neg_one_lt_zero⟩)

/-- Without a range the whole object is asked for. -/
theorem sound_of_no_range (hsingle : ¬(view.format = .mpuV1 ∨ view.format = .mpuV2))
    (hnamed : ¬(view.bucket = [] ∨ view.key = []))
    (hplan : planObjectRead env view none = .ok plan) : Sound env view none plan := by
  rw [planObjectRead, if_neg hnamed, if_neg hsingle, if_neg (fun h => Bool.false_ne_true h.1)]
    at hplan
  obtain ⟨size, -, hplan⟩ := Fallible.bind_eq_ok_iff.mp hplan
  cases hplan
  exact .inl ⟨rfl, .inl rfl⟩

end Soundness

/-- **Plans of encrypted objects.**  Whatever the metadata and the client's range, a plan asks for
the whole object or for the slice that decrypts to the bytes of the range, exactly if every
slice that is to be computed can be computed.  Otherwise the client's range goes to the
backend. -/
theorem plans_sound_iff (env : Environment) (view : ObjectView) (rangeHeader : Option Str)
    (hencrypted : view.encrypted = true) (hv1 : view.format ≠ .mpuV1)
    (hv2 : view.format ≠ .mpuV2) :
    (∀ plan, planObjectRead env view rangeHeader = .ok plan →
      Sound env view rangeHeader plan) ↔ SlicesComputable env view rangeHeader := by
  have hsingle : ¬(view.format = .mpuV1 ∨ view.format = .mpuV2) := not_or.mpr ⟨hv1, hv2⟩
  by_cases hnamed : view.bucket = [] ∨ view.key = []
  · -- there is no plan
    refine iff_of_true (fun plan hplan => ?_) fun hbucket hkey => ?_
    · rw [planObjectRead, if_pos hnamed] at hplan
      cases hplan
    · exact absurd hnamed (not_or.mpr ⟨hbucket, hkey⟩)
  obtain ⟨hbucket, hkey⟩ := not_or.mp hnamed
  cases rangeHeader with
  | none =>
    refine iff_of_true (fun plan hplan => sound_of_no_range hsingle hnamed hplan) ?_
    rintro - - header hnone
    cases hnone
  | some header =>
    rcases planObjectRead_cases hencrypted hsingle hnamed header with
      ⟨err, herr, hnone⟩ | ⟨plan, hplan, hsound, hmissing⟩ | ⟨size, plan, hresolve, hplan, hasks⟩
    · refine iff_of_true (fun plan hplan => ?_) fun _ _ _ _ size _ hok => ?_
      · cases hplan.symm.trans herr
      · exact absurd hok (hnone size)
    · refine iff_of_true (fun plan' hplan' => ?_) ?_
      · cases hplan.symm.trans hplan'
        exact hsound
      · intro _ _ header' _ size range _ hcomputes
        exact absurd (hmissing.symm.trans hcomputes.recorded) (by decide)
    · have hiff := sound_iff_of_asks hresolve hasks
      constructor
      · intro hall _ _ header' hheader size' range hok
        cases Option.mem_some_iff.mp hheader
        cases hresolve.symm.trans hok
        exact hiff.mp (hall plan hplan) range
      · intro hcomputable plan' hplan'
        cases hplan.symm.trans hplan'
        exact hiff.mpr fun range =>
          hcomputable hbucket hkey header rfl size range hresolve

/-! ## Two stored objects -/

/-- A store that holds the bound object `o`. -/
def storeEnvironment (o : ChunkedObject) : Environment where
  decodeManifest := fun _ => some (o.manifest 0)
  bypass := false
  authenticateTrailer := fun length =>
    if length = o.ciphertext.length then .ok o.plaintext.length else .error (.backend 0)
  drainObject := .ok ()
  headView := .error (.backend 0)
  loadMpuManifest := fun _ => .error (.backend 0)

/-- Its metadata, with the size and the record count. -/
def storeMetadata (o : ChunkedObject) : MetadataMap := fun name =>
  [(contentLengthKey, Decimal.formatNat o.ciphertext.length),
    (MetaName.manifest.text, "manifest".toList),
    (MetaName.originalSize.text, Decimal.formatNat o.plaintext.length),
    (MetaName.chunkCount.text, Decimal.formatNat o.recordCount)].lookup name

def storeView (o : ChunkedObject) : ObjectView :=
  ⟨"bucket".toList, "key".toList, storeMetadata o, storeMetadata o, .chunkedV2, true⟩

def storeTarget (o : ChunkedObject) : RangeTarget where
  metadata := rangeMetadata (storeEnvironment o) (storeMetadata o)
  chunked := true
  marker := .chunkedV2
  bindingId := some o.format.bindingId
  aead := o.aead
  baseIv := o.format.baseIv
  object := o.format.object

theorem stores_storeView {o : ChunkedObject} (hversion : o.format.version = chunkedFormatV2) :
    Stores (storeEnvironment o) (storeView o) (storeTarget o) o where
  metadata_eq := rfl
  isOf :=
    { describes := by
        refine ⟨0, rfl, o.supported, o.chunkSize_valid, .inl rfl, ?_, ?_⟩
        · show some (Decimal.formatNat o.ciphertext.length) = _
          rw [o.length_ciphertext]
          rfl
        · have hfits : o.ciphertext.length ≤ maxInt64 := o.fits
          rw [o.length_ciphertext] at hfits
          exact hfits
      originalSize := by
        right
        show ((some (Decimal.formatNat o.plaintext.length)).bind Decimal.parseInt).filter _ = _
        rw [Option.bind_some, Decimal.parseInt_formatNat o.length_plaintext_le]
        exact Option.filter_some_pos (decide_eq_true (by omega))
      chunked := rfl
      marker_eq := (if_pos hversion).symm
      bindingId_eq := fun _ => rfl
      aead_eq := rfl
      baseIv_eq := rfl
      object_eq := fun _ => rfl }
  encrypted := rfl
  format_eq := (if_pos hversion).symm
  length_eq := rfl
  chunkSize_eq := fun hfirst => absurd (hversion.symm.trans hfirst) (by decide)
  version_ne := by
    rw [show valueOf (storeView o).expanded fallbackVersion.text = [] from rfl]
    decide
  mode_ne := by
    rw [show valueOf (storeView o).expanded fallbackMode.text = [] from rfl]
    decide
  active := rfl
  authenticated := by
    intro length size hok
    simp only [storeEnvironment] at hok
    split at hok <;> cases hok
    rename_i hlength
    rw [hlength, ← hversion]
    exact ⟨_, o.chunkedPlaintextSize_length⟩

/-- Two of three bytes: a slice is asked for and decrypted. -/
theorem plan_two_bytes :
    Stores (storeEnvironment sampleObject) (storeView sampleObject) (storeTarget sampleObject)
        sampleObject ∧
      ∃ plan, planObjectRead (storeEnvironment sampleObject) (storeView sampleObject)
          (some "bytes=1-2".toList) = .ok plan ∧
        plan.mode = .optimizedRange ∧
        Sound (storeEnvironment sampleObject) (storeView sampleObject) (some "bytes=1-2".toList)
          plan := by
  have hcomputable : SlicesComputable (storeEnvironment sampleObject) (storeView sampleObject)
      (some "bytes=1-2".toList) := by
    intro _ _ header hheader size range hresolve hcomputes
    cases Option.mem_some_iff.mp hheader
    have hsize : resolvePlaintextSize (storeEnvironment sampleObject) (storeView sampleObject) =
        .ok ⟨3, true⟩ := by
      decide +kernel
    cases hsize.symm.trans hresolve
    have hparsed : parseObjectRange "bytes=1-2".toList 3 = .ok (1, 2) := by decide +kernel
    rw [hcomputes.range_eq hparsed]
    exact ⟨(0, 18), by decide +kernel⟩
  have hmode : (planObjectRead (storeEnvironment sampleObject) (storeView sampleObject)
      (some "bytes=1-2".toList)).map ObjectReadPlan.mode = .ok .optimizedRange := by
    decide +kernel
  refine ⟨stores_storeView rfl, ?_⟩
  obtain ⟨plan, hplan, hmode⟩ := Fallible.map_eq_ok_iff.mp hmode
  exact ⟨plan, hplan, hmode,
    (plans_sound_iff _ _ _ rfl (by decide) (by decide)).mpr hcomputable plan hplan⟩

/-- Nothing, sealed and bound. -/
def emptyObject : ChunkedObject where
  hkdf := zeroHkdf
  aead := zeroTagAead
  format := sampleBinding.format
  derivation := .hkdfSha256
  chunkSize := minChunkSize
  plaintext := []
  data := []
  terminal := List.replicate 32 0
  form := sampleObject.form
  aead_lawful := zeroTagAead_lawful
  chunkSize_valid := sampleBinding_valid.chunkSize_valid
  sealed_eq := by
    rw [Script.chunksOf_nil]
    rfl
  fits := by decide

/-- The first ten bytes of an empty object: the backend is asked for the first ten bytes of the
ciphertext. -/
theorem plan_forwards_range :
    Stores (storeEnvironment emptyObject) (storeView emptyObject) (storeTarget emptyObject)
        emptyObject ∧
      ∃ plan, planObjectRead (storeEnvironment emptyObject) (storeView emptyObject)
          (some "bytes=0-9".toList) = .ok plan ∧
        plan.backendRange = some "bytes=0-9".toList ∧
        ¬Sound (storeEnvironment emptyObject) (storeView emptyObject) (some "bytes=0-9".toList)
          plan := by
  have hplan : (planObjectRead (storeEnvironment emptyObject) (storeView emptyObject)
      (some "bytes=0-9".toList)).map (fun plan => (plan.backendRange, plan.mode)) =
        .ok (some "bytes=0-9".toList, .bufferedRange) := by
    decide +kernel
  refine ⟨stores_storeView rfl, ?_⟩
  obtain ⟨plan, hresult, hplan⟩ := Fallible.map_eq_ok_iff.mp hplan
  obtain ⟨hbackend, hmode⟩ := Prod.mk.inj hplan
  refine ⟨plan, hresult, hbackend, ?_⟩
  rintro (⟨hnone, -⟩ | ⟨hoptimized, -⟩)
  · cases hnone.symm.trans hbackend
  · cases hoptimized.symm.trans hmode

end S3EncryptionGateway.Api.ReadPlan
