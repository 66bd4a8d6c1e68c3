import S3EncryptionGateway.Library.TransitionSystem
import S3EncryptionGateway.Crypto.Chunked.RangePlan
import S3EncryptionGateway.Api.SignatureV4

/-!
# Writing objects and recording their sizes

`putObjectData` stores an object and keeps its plaintext size in three places: with the metadata
of the object, in the cache that listings read, and in its result.  If the length of the body is
not known, the size is inferred from the stored ciphertext and put into the metadata by copying
the object onto itself.

The first part is about one write.  The sizes are the real one unless the client declares another
length for a body that is not streamed, or the size of a body of unknown length is not to be seen.

The second is about requests on one key.  Each makes a call or two of the backend and then one of
the cache, and any number of them interleave.  Nothing ties the later calls of a request to the
object that its first one wrote or saw.  So the copy takes the metadata to whatever body is there
by then (`intact_of_ownBody`), and the cache learns the size of an object that may be gone
(`coherent_of_timely`).
-/

namespace S3EncryptionGateway.Api.ObjectWrites

open Text Crypto Transitions

/-! ## One write -/

/-- What the engine makes of a body. -/
structure WriteMode where
  chunked : Bool
  /-- The metadata do not fit the headers and stand in front of the body. -/
  fallback : Bool
  /-- The size is not among the metadata that can be read: they are sealed, or the engine passes
  objects through. -/
  hidden : Bool
  chunkSize : ℕ
  valid : ValidChunkSize chunkSize

namespace WriteMode

variable (mode : WriteMode)

/-- The size that the engine puts into the metadata.  Chunked encryption does not wait for the
body and takes the declared length. -/
def originalSize (length : Option ℤ) (plain : ℕ) : Option ℤ :=
  if mode.hidden then none
  else if mode.chunked then length.filter (0 < ·)
  else some plain

/-- The bytes of ciphertext are counted to infer the size from them. -/
def infers (length : Option ℤ) : Bool := length.isNone && mode.chunked && !mode.fallback

/-- The size that follows from the length of the ciphertext of `plain` bytes, if it is positive. -/
def inferredSize (plain : ℕ) : Option ℤ :=
  match chunkedPlaintextSize (dataLength plain mode.chunkSize + terminalLength chunkedFormatV2 : ℕ)
      mode.chunkSize chunkedFormatV2 with
  | .error _ => none
  | .ok (size, _) => if size ≤ 0 then none else some size

end WriteMode

/-- Where a write leaves the plaintext size. -/
structure WriteSizes where
  /-- With the metadata of the object. -/
  stored : Option ℤ
  cached : Option ℤ
  plainSize : ℤ
  deriving DecidableEq

/-- The sizes after `putObjectData`, for a body of `plain` bytes whose length is known to be
`length`.  `copied` says whether the copy of the object onto itself succeeds. -/
def putObjectData (mode : WriteMode) (length : Option ℤ) (plain : ℕ) (copied : Bool) :
    WriteSizes :=
  let original := mode.originalSize length plain
  if mode.infers length then
    match mode.inferredSize plain with
    | none => ⟨original, none, 0⟩
    | some size => if copied then ⟨some size, some size, size⟩ else ⟨original, none, size⟩
  else ⟨original, original, length.getD (original.getD 0)⟩

/-- Every size that is there is the real one. -/
def WriteSizes.Real (sizes : WriteSizes) (plain : ℕ) : Prop :=
  (∀ size, sizes.stored = some size → size = plain) ∧
    (∀ size, sizes.cached = some size → size = plain) ∧ sizes.plainSize = plain

instance (sizes : WriteSizes) (plain : ℕ) : Decidable (sizes.Real plain) :=
  decidable_of_iff ((sizes.stored.all (· = (plain : ℤ)) ∧ sizes.cached.all (· = (plain : ℤ))) ∧
    sizes.plainSize = plain) (by simp [WriteSizes.Real, Option.all_eq_true, and_assoc])

/-- A request to put an object, by the headers that tell its length and by the number of bytes
that are read of its body, decoded if it is streamed. -/
structure PutRequest where
  contentSha256 : Str
  decodedContentLength : Str
  contentLength : Str
  body : ℕ
  /-- A body that is not streamed is as long as the server was told. -/
  framed : classifyStreamingPayloadMode contentSha256 = .ok .none → contentLength ≠ [] →
    Decimal.parseInt contentLength = some (body : ℤ)

def parseLength (text : Str) : Option ℤ := (Decimal.parseInt text).filter (0 ≤ ·)

variable {size : ℤ}

namespace PutRequest

variable (r : PutRequest)

def declaredLength : Option ℤ :=
  if r.decodedContentLength ≠ [] then parseLength r.decodedContentLength
  else if r.contentLength ≠ [] then parseLength r.contentLength
  else none

/-- The length that `handlePutObject` hands on, if it knows one. -/
def plainLength : Except SignatureError (Option ℤ) :=
  match classifyStreamingPayloadMode r.contentSha256 with
  | .error err => .error err
  | .ok .none => .ok r.declaredLength
  -- the body was spooled
  | .ok _ => .ok (some r.body)

/-- Without streaming, no other length is declared for the decoded body. -/
def DeclaresBody : Prop :=
  classifyStreamingPayloadMode r.contentSha256 = .ok .none →
    ∀ size, parseLength r.decodedContentLength = some size → size = r.body

variable {r}

theorem declaresBody_iff (hlength : r.plainLength = .ok (some size)) :
    r.DeclaresBody ↔ size = r.body := by
  rw [plainLength] at hlength
  rcases hmode : classifyStreamingPayloadMode r.contentSha256 with err | mode
  · rw [hmode] at hlength
    cases hlength
  rw [DeclaresBody, hmode]
  rw [hmode] at hlength
  cases mode with
  | none =>
    have hdeclared : r.declaredLength = some size := Except.ok.inj hlength
    rw [declaredLength] at hdeclared
    split at hdeclared
    · simp [hdeclared]
    rename_i hnone
    split at hdeclared
    · rename_i hsome
      have hempty : parseLength [] = none := rfl
      simp [parseLength, r.framed hmode hsome] at hdeclared
      simp [not_not.mp hnone, hempty, hdeclared]
    · cases hdeclared
  | _ =>
    cases hlength
    simp

theorem declaresBody_of_none (hlength : r.plainLength = .ok none) : r.DeclaresBody := by
  intro hmode size hsize
  rw [plainLength, hmode] at hlength
  have hdeclared : r.declaredLength = none := Except.ok.inj hlength
  rw [declaredLength, hsize] at hdeclared
  split at hdeclared
  · cases hdeclared
  · rename_i hnone
    rw [not_not.mp hnone] at hsize
    cases hsize

end PutRequest

/-- The size of a body of unknown length comes to light. -/
def WriteMode.Measures (mode : WriteMode) (plain : ℕ) : Prop :=
  plain = 0 ∨ (if mode.chunked then mode.fallback = false else mode.hidden = false)

theorem WriteMode.inferredSize_eq (mode : WriteMode) {plain : ℕ}
    (hfits : dataLength plain mode.chunkSize ≤ maxInt64) :
    mode.inferredSize plain = if plain = 0 then none else some (plain : ℤ) := by
  rw [inferredSize, chunkedPlaintextSize_eq (.inr rfl) mode.valid hfits]
  simp

/-- **The sizes are the real one** exactly if no other length was declared and, where none was
known, the size comes to light. -/
theorem real_putObjectData_iff (mode : WriteMode) (r : PutRequest) (copied : Bool)
    {length : Option ℤ} (hlength : r.plainLength = .ok length)
    (hfits : dataLength r.body mode.chunkSize ≤ maxInt64) :
    (putObjectData mode length r.body copied).Real r.body ↔
      r.DeclaresBody ∧ (length = none → mode.Measures r.body) := by
  cases length with
  | some size =>
    rw [PutRequest.declaresBody_iff hlength, putObjectData, WriteMode.infers, WriteSizes.Real,
      WriteMode.originalSize]
    cases mode.hidden <;> cases mode.chunked <;> simp
    intro hsize _
    exact hsize
  | none =>
    simp only [PutRequest.declaresBody_of_none hlength, true_and, forall_const, putObjectData,
      WriteMode.infers, WriteSizes.Real, WriteMode.originalSize, mode.inferredSize_eq hfits,
      WriteMode.Measures]
    cases mode.hidden <;> cases mode.chunked <;> cases mode.fallback <;> cases copied <;>
      by_cases hzero : r.body = 0 <;> simp [hzero, eq_comm]

def sampleMode : WriteMode := ⟨true, false, false, 16384, ⟨by decide, by decide⟩⟩

/-- Three bytes, declared as such. -/
theorem real_putObjectData_threeBytes :
    (putObjectData sampleMode (some 3) 3 true).Real 3 :=
  (real_putObjectData_iff sampleMode ⟨[], "3".toList, "3".toList, 3, by decide⟩ true (by decide)
    (by decide)).mpr ⟨by simp [PutRequest.DeclaresBody]; decide, nofun⟩

/-- Ten bytes that are not streamed, of which the client says that they decode to five. -/
theorem not_real_putObjectData_declared :
    ∃ r : PutRequest, r.contentSha256 = "UNSIGNED-PAYLOAD".toList ∧ r.body = 10 ∧
      r.decodedContentLength = "5".toList ∧ r.plainLength = .ok (some 5) ∧
      putObjectData sampleMode (some 5) r.body true = ⟨some 5, some 5, 5⟩ ∧
      ¬(putObjectData sampleMode (some 5) r.body true).Real r.body :=
  ⟨⟨"UNSIGNED-PAYLOAD".toList, "5".toList, "10".toList, 10, by decide⟩, by decide⟩

/-! ## Requests on one key -/

/-- The object as the backend has it: who wrote the body, whose metadata it has, and its plaintext
length. -/
structure Stored where
  bodyOf : ℕ
  metadataOf : ℕ
  plain : ℕ
  deriving DecidableEq

inductive Request where
  | put (mode : WriteMode) (length : Option ℤ) (plain : ℕ)
  /-- A copy onto the key, with the size of the source if that is known exactly. -/
  | copy (plain : ℕ) (size : Option ℤ)
  /-- The end of an upload in parts, with the sum of the parts if they are tracked. -/
  | complete (plain : ℕ) (total : Option ℤ)
  | delete
  /-- A HEAD in the background, after the object was listed with a size. -/
  | resolve (listed : ℤ) (exact : Bool)

inductive Pc where
  | start
  | backfill (size : ℤ)
  /-- The size of the object that request `source` wrote is to be recorded. -/
  | record (size : ℤ) (source : ℕ)
  | evict
  | finished

def recordPlaintextSize (source : ℕ) : Option ℤ → Pc
  | none => .finished
  | some size => if size < 0 then .finished else .record size source

namespace Request

/-- The plaintext length that a request writes. -/
def written : Request → Option ℕ
  | .put _ _ plain | .copy plain _ | .complete plain _ => some plain
  | .delete | .resolve _ _ => none

/-- The first call, if it succeeds. -/
def begin (index : ℕ) (object : Option Stored) : Request → Pc × Option Stored
  | .put mode length plain =>
    (if mode.infers length then (mode.inferredSize plain).elim .finished .backfill
      else recordPlaintextSize index (mode.originalSize length plain),
      some ⟨index, index, plain⟩)
  | .copy plain size | .complete plain size =>
    (recordPlaintextSize index size, some ⟨index, index, plain⟩)
  | .delete => (.evict, none)
  | .resolve listed exact =>
    (object.elim .finished fun o =>
      recordPlaintextSize o.bodyOf (some (if exact then o.plain else listed)), object)

end Request

structure System where
  object : Option Stored
  cache : Option ℤ
  pc : ℕ → Pc

def System.initial : System := ⟨none, none, fun _ => .start⟩

variable (requests : ℕ → Request)

/-- A call of request `index`, which may fail. -/
def System.step (s : System) : ℕ × Bool → Option System
  | (index, succeeds) =>
    let goTo (pc : Pc) (object : Option Stored) (cache : Option ℤ) : Option System :=
      some ⟨object, cache, Function.update s.pc index pc⟩
    match s.pc index with
    | .start =>
      if succeeds then
        goTo ((requests index).begin index s.object).1
          ((requests index).begin index s.object).2 s.cache
      else goTo .finished s.object s.cache
    | .backfill size =>
      match s.object with
      | some o =>
        if succeeds then
          goTo (.record size index) (some { o with metadataOf := index }) s.cache
        else goTo .finished s.object s.cache
      | none => goTo .finished none s.cache
    | .record size _ => goTo .finished s.object (if succeeds then some size else s.cache)
    | .evict => goTo .finished s.object (if succeeds then none else s.cache)
    | .finished => none

/-! ## Body and metadata -/

def Intact (s : System) : Prop := ∀ o, s.object = some o → o.metadataOf = o.bodyOf

/-- An object is copied onto itself only by the request that wrote its body. -/
def ownBody (s : System) : ℕ × Bool → Bool
  | (index, _) =>
    match s.pc index with
    | .backfill _ => s.object.all fun o => o.bodyOf = index
    | _ => true

/-- **One writer.**  In every run in which each copy finds the body of its own request, body and
metadata come from one request. -/
theorem intact_of_ownBody {actions : List (ℕ × Bool)} {s : System}
    (hmeets : Meets (System.step requests) (fun s action => ownBody s action = true) .initial actions)
    (hrun : run (System.step requests) .initial actions = some s) : Intact s := by
  refine run_invariant _ ?_ (show Intact .initial from nofun) hmeets hrun
  rintro s ⟨index, succeeds⟩ s' hintact hown hstep
  simp only [System.step] at hstep
  split at hstep
  · split at hstep <;> cases hstep
    · intro o ho
      rcases hrequest : requests index <;> simp only [hrequest, Request.begin] at ho
      case delete => cases ho
      case resolve => exact hintact o ho
      all_goals cases ho; rfl
    · exact hintact
  · rename_i size hpc
    rcases hobject : s.object with - | o
    · rw [hobject] at hstep
      cases hstep
      exact nofun
    · simp only [ownBody, hpc, hobject, Option.all_some, decide_eq_true_eq] at hown
      simp only [hobject] at hstep
      split at hstep <;> cases hstep
      · rintro _ ⟨⟩
        exact hown.symm
      · exact fun o' ho' => hintact o' (hobject.trans ho')
  all_goals cases hstep
  all_goals exact hintact

/-- Two writers of unknown length. -/
def sampleRequests : ℕ → Request := fun _ => .put sampleMode none 1

theorem intact_inTurn :
    ∃ s, run (System.step sampleRequests) .initial
        [(0, true), (0, true), (0, true), (1, true), (1, true), (1, true)] = some s ∧ Intact s :=
  ⟨_, rfl, intact_of_ownBody sampleRequests
    (show Meets _ _ _ [(0, true), (0, true), (0, true), (1, true), (1, true), (1, true)] by decide)
    rfl⟩

/-- The second writer comes between the two calls of the first. -/
theorem not_intact_between :
    ∃ s, run (System.step sampleRequests) .initial
        [(0, true), (1, true), (1, true), (0, true), (0, true), (1, true)] = some s ∧
      s.pc 0 = .finished ∧ s.pc 1 = .finished ∧ s.object = some ⟨1, 0, 1⟩ ∧ ¬Intact s :=
  ⟨_, rfl, rfl, rfl, rfl, fun hintact => absurd (hintact _ rfl) (by decide)⟩

/-! ## The size cache -/

/-- A cached size is that of the object. -/
def coherent (object : Option Stored) (cache : Option ℤ) : Bool :=
  cache.all fun size => object.any fun o => size = o.plain

/-- The size that a request knows is the one of the object that it writes or sees. -/
def Request.accurate : Request → Bool
  | .put mode length plain =>
    length.all (· = (plain : ℤ)) && dataLength plain mode.chunkSize ≤ maxInt64
  | .copy plain size | .complete plain size => size.all (· = (plain : ℤ))
  | .delete => true
  | .resolve _ exact => exact

/-- The request has changed or seen the object and has still to tell the cache. -/
def Pc.owes : Pc → Bool
  | .start | .finished => false
  | _ => true

/-- A size is recorded while the object it is of is there, and a request that ends without having
told the cache of its change leaves no entry that is wrong. -/
def timely (s : System) : ℕ × Bool → Bool
  | (index, succeeds) =>
    match s.pc index with
    | .start =>
      let (pc, object) := (requests index).begin index s.object
      !succeeds || pc.owes || object = s.object || coherent object s.cache
    | .backfill _ => succeeds && s.object.isSome || coherent s.object s.cache
    | .record _ source =>
      if succeeds then (requests index).accurate && s.object.any fun o => o.bodyOf = source
      else coherent s.object s.cache
    | .evict => succeeds || coherent s.object s.cache
    | .finished => true

/-- The size that a request has still to record, and whose object it is of. -/
def Pc.owed (index : ℕ) : Pc → Option (ℤ × ℕ)
  | .backfill size => some (size, index)
  | .record size source => some (size, source)
  | _ => none

/-- What the sizes that are under way are of; and a cached size is right unless someone has still
to tell the cache. -/
structure Booked (requests : ℕ → Request) (s : System) : Prop where
  object : ∀ o, s.object = some o → (requests o.bodyOf).written = some o.plain
  owed : ∀ i size source, (s.pc i).owed i = some (size, source) → (requests i).accurate = true →
    ∃ plain : ℕ, (requests source).written = some plain ∧ size = plain
  cache : coherent s.object s.cache = true ∨ ∃ i, (s.pc i).owes = true

section Steps

variable {requests : ℕ → Request} {s s' : System} {index : ℕ}

theorem recordPlaintextSize_owed {known : Option ℤ} {source source' : ℕ}
    (howed : (recordPlaintextSize source known).owed index = some (size, source')) :
    known = some size ∧ source' = source := by
  rcases known with - | known
  · cases howed
  · rw [recordPlaintextSize] at howed
    split at howed <;> cases howed
    exact ⟨rfl, rfl⟩

theorem WriteMode.originalSize_eq {mode : WriteMode} {length : Option ℤ} {plain : ℕ}
    (hlength : length.all (· = (plain : ℤ)) = true)
    (hsize : mode.originalSize length plain = some size) : size = plain := by
  rw [originalSize] at hsize
  split at hsize
  · cases hsize
  split at hsize
  · obtain ⟨rfl, -⟩ := Option.filter_eq_some_iff.mp hsize
    simpa using hlength
  · cases hsize
    rfl

variable {object : Option Stored}

theorem Request.begin_owed
    (hobject : ∀ o, object = some o → (requests o.bodyOf).written = some o.plain) {source : ℕ}
    (howed : ((requests index).begin index object).1.owed index = some (size, source))
    (haccurate : (requests index).accurate = true) :
    ∃ plain : ℕ, (requests source).written = some plain ∧ size = plain := by
  rcases hrequest : requests index with ⟨mode, length, plain⟩ | ⟨plain, known⟩ |
    ⟨plain, known⟩ | - | ⟨listed, exact⟩ <;> rw [hrequest] at howed haccurate
  case put =>
    simp only [accurate, Bool.and_eq_true, decide_eq_true_eq] at haccurate
    simp only [begin] at howed
    split at howed
    · rw [mode.inferredSize_eq haccurate.2] at howed
      split at howed <;> cases howed
      exact ⟨plain, by rw [hrequest]; rfl, rfl⟩
    · obtain ⟨hsize, rfl⟩ := recordPlaintextSize_owed howed
      exact ⟨plain, by rw [hrequest]; rfl, WriteMode.originalSize_eq haccurate.1 hsize⟩
  case delete => cases howed
  case resolve =>
    rcases object with - | o
    · cases howed
    simp only [begin, Option.elim_some] at howed
    obtain ⟨hsize, rfl⟩ := recordPlaintextSize_owed howed
    have hexact : exact = true := haccurate
    rw [hexact] at hsize
    exact ⟨o.plain, hobject o rfl, (Option.some.inj hsize).symm⟩
  all_goals
    obtain ⟨rfl, rfl⟩ := recordPlaintextSize_owed howed
    exact ⟨plain, by rw [hrequest]; rfl, by simpa [accurate] using haccurate⟩

theorem Request.begin_object
    (hobject : ∀ o, object = some o → (requests o.bodyOf).written = some o.plain) {o : Stored}
    (ho : ((requests index).begin index object).2 = some o) :
    (requests o.bodyOf).written = some o.plain := by
  rcases hrequest : requests index <;> simp only [hrequest, begin] at ho
  case delete => cases ho
  case resolve => exact hobject o ho
  all_goals
    cases ho
    rw [hrequest]
    rfl

theorem Booked.goTo (hbooked : Booked requests s) {pc : Pc} {cache : Option ℤ}
    (hobject : ∀ o, object = some o → (requests o.bodyOf).written = some o.plain)
    (howed : ∀ size source, pc.owed index = some (size, source) →
      (requests index).accurate = true →
      ∃ plain : ℕ, (requests source).written = some plain ∧ size = plain)
    (hcache : coherent object cache = true ∨ pc.owes = true ∨
      object = s.object ∧ cache = s.cache ∧ s.pc index = .start) :
    Booked requests ⟨object, cache, Function.update s.pc index pc⟩ := by
  refine ⟨hobject, ?_, ?_⟩
  · intro i size source hi
    by_cases heq : i = index
    · subst heq
      simp only [Function.update_self] at hi
      exact howed size source hi
    · simp only [Function.update_of_ne heq] at hi
      exact hbooked.owed i size source hi
  · rcases hcache with hcoherent | howes | ⟨rfl, rfl, hstart⟩
    · exact .inl hcoherent
    · exact .inr ⟨index, by simpa using howes⟩
    · refine hbooked.cache.imp_right ?_
      rintro ⟨i, howes⟩
      have hne : i ≠ index := by
        rintro rfl
        rw [hstart] at howes
        cases howes
      exact ⟨i, by simpa [hne] using howes⟩

theorem Booked.step (hbooked : Booked requests s) {succeeds : Bool}
    (htimely : timely requests s (index, succeeds) = true)
    (hstep : s.step requests (index, succeeds) = some s') : Booked requests s' := by
  simp only [System.step] at hstep
  simp only [timely] at htimely
  split at hstep
  · rename_i hpc
    rw [hpc] at htimely
    split at hstep <;> rename_i hsucceeds <;> cases hstep
    · refine hbooked.goTo (fun o => Request.begin_object hbooked.object)
        (fun size source => Request.begin_owed hbooked.object) ?_
      simp only [hsucceeds, Bool.not_true, Bool.false_or, Bool.or_eq_true, decide_eq_true_eq]
        at htimely
      rcases htimely with (hmore | hsame) | hcoherent
      · exact .inr (.inl hmore)
      · exact .inr (.inr ⟨hsame, rfl, hpc⟩)
      · exact .inl hcoherent
    · exact hbooked.goTo hbooked.object nofun (.inr (.inr ⟨rfl, rfl, hpc⟩))
  · rename_i size hpc
    rw [hpc] at htimely
    rcases hobject : s.object with - | o <;> simp only [hobject] at hstep htimely
    · cases hstep
      exact hbooked.goTo nofun nofun (.inl (by simpa using htimely))
    · split at hstep <;> rename_i hsucceeds <;> cases hstep
      · refine hbooked.goTo ?_ ?_ (.inr (.inl rfl))
        · rintro _ ⟨⟩
          exact hbooked.object o hobject
        · rintro _ _ ⟨⟩
          exact hbooked.owed index size index (by rw [hpc]; rfl)
      · refine hbooked.goTo (hobject ▸ hbooked.object) nofun (.inl ?_)
        simpa [hsucceeds] using htimely
  · rename_i size source hpc
    rw [hpc] at htimely
    cases hstep
    refine hbooked.goTo hbooked.object nofun (.inl ?_)
    cases succeeds
    · exact htimely
    · -- the object is still the one that the size is of
      simp only [if_true, Bool.and_eq_true, Option.any_eq_true, decide_eq_true_eq] at htimely
      obtain ⟨haccurate, o, hobject, rfl⟩ := htimely
      obtain ⟨plain, hwritten, rfl⟩ := hbooked.owed index size o.bodyOf (by rw [hpc]; rfl) haccurate
      have hplain : o.plain = plain :=
        Option.some.inj ((hbooked.object o hobject).symm.trans hwritten)
      simp [coherent, hobject, hplain]
  · rename_i hpc
    rw [hpc] at htimely
    cases hstep
    refine hbooked.goTo hbooked.object nofun (.inl ?_)
    cases succeeds
    · exact htimely
    · rfl
  · cases hstep

end Steps

/-- **Coherence.**  In every run in which sizes are recorded while their objects are there, and in
which nobody ends with a change that the cache is not told of, a size that is cached once all
requests have finished is the plaintext length of the stored object. -/
theorem coherent_of_timely {actions : List (ℕ × Bool)} {s : System}
    (hmeets : Meets (System.step requests) (fun s action => timely requests s action = true) .initial actions)
    (hrun : run (System.step requests) .initial actions = some s)
    (hquiet : ∀ i, s.pc i = .start ∨ s.pc i = .finished) :
    ∀ size, s.cache = some size → ∃ o, s.object = some o ∧ size = o.plain := by
  have hbooked : Booked requests s := by
    have hinitial : Booked requests .initial := by
      refine ⟨?_, ?_, .inl rfl⟩
      · intro o ho
        cases ho
      · intro i size source howed
        cases howed
    refine run_invariant _ ?_ hinitial hmeets hrun
    rintro s ⟨index, succeeds⟩ s' hbooked htimely hstep
    exact hbooked.step htimely hstep
  intro size hsize
  rcases hbooked.cache with hcoherent | ⟨i, howes⟩
  · simpa [coherent, hsize, Option.any_eq_true] using hcoherent
  · rcases hquiet i with hpc | hpc <;> rw [hpc] at howes <;> cases howes

/-- A known and an unknown length, a listing and a deletion. -/
def mixedRequests : ℕ → Request
  | 0 => .put sampleMode (some 3) 3
  | 1 => .resolve 35 true
  | 2 => .put sampleMode none 0
  | _ => .delete

theorem coherent_inTurn :
    ∃ s, run (System.step mixedRequests) .initial
        [(0, true), (0, true), (1, true), (1, true), (3, true), (3, true), (2, true)] = some s ∧
      s.object = some ⟨2, 2, 0⟩ ∧ s.cache = none ∧
      ∀ size, s.cache = some size → ∃ o, s.object = some o ∧ size = o.plain :=
  ⟨_, rfl, rfl, rfl, coherent_of_timely mixedRequests
    (show Meets _ _ _ [(0, true), (0, true), (1, true), (1, true), (3, true), (3, true), (2, true)]
      by decide) rfl fun
      | 0 | 1 | 2 | 3 => .inr rfl
      | _ + 4 => .inl rfl⟩

/-- The empty object of unknown length comes after the other: the old size stays.  And a listing
resolves the size of an object that is deleted before it is recorded. -/
theorem not_coherent_runs :
    (∃ s, run (System.step mixedRequests) .initial [(0, true), (0, true), (2, true)] = some s ∧
      (∀ i, s.pc i = .start ∨ s.pc i = .finished) ∧ s.cache = some 3 ∧
      s.object = some ⟨2, 2, 0⟩) ∧
    ∃ s, run (System.step mixedRequests) .initial
        [(0, true), (0, true), (1, true), (3, true), (3, true), (1, true)] = some s ∧
      (∀ i, s.pc i = .start ∨ s.pc i = .finished) ∧ s.cache = some 3 ∧ s.object = none := by
  refine ⟨⟨_, rfl, ?_, rfl, rfl⟩, ⟨_, rfl, ?_, rfl, rfl⟩⟩
  · rintro (_ | _ | _ | _ | i)
    · exact .inr rfl
    · exact .inl rfl
    · exact .inr rfl
    all_goals exact .inl rfl
  · rintro (_ | _ | _ | _ | i)
    · exact .inr rfl
    · exact .inr rfl
    · exact .inl rfl
    · exact .inr rfl
    · exact .inl rfl

end S3EncryptionGateway.Api.ObjectWrites
