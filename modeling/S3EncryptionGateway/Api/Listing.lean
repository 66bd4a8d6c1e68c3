import S3EncryptionGateway.Library.Paging
import S3EncryptionGateway.Api.MultipartUpload

/-!
# Listing a bucket

The companion objects of encrypted uploads lie in the bucket beside the clients' objects,
and a listing must not show them.  The handler takes them out of the backend's page and
fetches further pages until the response is full.  A response that gets too long is cut,
and the client goes on with the token of the last page fetched.

## Strategy

* `Outcome` says what the handler answers when it begins at a position: everything that is
  left, or a first part of it with the token of a later position.  `outcome_refill` follows
  the loop from one backend page to the next, and `outcome_list` adds the first page.
* A client that follows the tokens sees a sublist of the visible keys (`follow_sublist`).
  It sees all of them exactly if no response is cut inside a page or at the very end,
  which `CutsAtPageEnds` says about the numbers of visible keys in the backend's pages.
-/

namespace S3EncryptionGateway.Api.Listing

open Text Paging List
open S3EncryptionGateway.Api.Multipart (mpuManifestSuffix)

/-! ## The handler -/

structure ListOptions where
  delimiter : Str
  continuationToken : Str
  startAfter : Str
  maxKeys : ℤ

/-- A page of the backend, or the answer to the client.  Of an object only its key. -/
structure ListResult where
  objects : List Str
  commonPrefixes : List Str
  isTruncated : Bool
  nextContinuationToken : Str

/-- The listing of a bucket under a key prefix, `none` if the call fails. -/
abbrev Backend := Str → ListOptions → Option ListResult

def isMpuManifest (key : Str) : Bool :=
  mpuManifestSuffix <:+ key

def filterMpuManifestObjects (objects : List Str) : List Str :=
  objects.filter fun key => !isMpuManifest key

/-- The loop that fills up a page.  `none` is a loop that takes more rounds than allowed. -/
def refill (backend : Backend) (under : Str) (opts : ListOptions) :
    ℕ → ListResult → Option ListResult
  | 0, _ => none
  | rounds + 1, result =>
    if result.isTruncated = true ∧ (result.objects.length : ℤ) < opts.maxKeys ∧
        result.nextContinuationToken ≠ [] then
      match backend under { opts with
          continuationToken := result.nextContinuationToken
          startAfter := [] } with
      -- what there is already is answered
      | none => some result
      | some nextPage =>
        let objects := result.objects ++ filterMpuManifestObjects nextPage.objects
        if opts.maxKeys ≤ (objects.length : ℤ) then
          some { result with
            objects := objects.take opts.maxKeys.toNat
            isTruncated := true
            nextContinuationToken := nextPage.nextContinuationToken }
        else
          refill backend under opts rounds
            { objects := objects
              commonPrefixes := result.commonPrefixes ++ nextPage.commonPrefixes
              isTruncated := nextPage.isTruncated
              nextContinuationToken := nextPage.nextContinuationToken }
    else some result

/-- The key that clients of the older interface go on with. -/
def nextMarker (result : ListResult) : Str :=
  if result.isTruncated then result.objects.getLast?.getD [] else []

/-- What the handler answers; the outer `none` is a loop that does not end in time, the
inner one an error of the backend. -/
def handleListObjects (backend : Backend) (rounds : ℕ) (under : Str) (opts : ListOptions) :
    Option (Option (ListResult × Str)) :=
  match backend under opts with
  | none => some none
  | some first =>
    (refill backend under opts rounds
      { first with objects := filterMpuManifestObjects first.objects }).map fun result =>
        some (result, nextMarker result)

/-! ## A client that follows the tokens -/

def listOptions (maxKeys : ℕ) (token : Str) : ListOptions :=
  ⟨[], token, [], maxKeys⟩

/-- The keys a client sees that asks again with the token of the last answer until an
answer is not truncated.  `none` if an answer is missing or has no token to go on with. -/
def follow (backend : Backend) (rounds : ℕ) (under : Str) (maxKeys : ℕ) :
    ℕ → Str → Option (List Str)
  | 0, _ => none
  | requests + 1, token =>
    match handleListObjects backend rounds under (listOptions maxKeys token) with
    | some (some (answer, _)) =>
      if answer.isTruncated = false then some answer.objects
      else if answer.nextContinuationToken = [] then none
      else
        (follow backend rounds under maxKeys requests answer.nextContinuationToken).map
          (answer.objects ++ ·)
    | _ => none

/-! ## A backend that serves its keys in pages -/

/-- A bucket whose keys are listed in a fixed order, in pages that the backend may make
shorter than it is asked to.  A token stands for the position to go on from. -/
structure PagedBackend where
  keys : List Str
  nodup : keys.Nodup
  pageSize : ℕ → ℕ → ℕ
  pageSize_pos : ∀ maxKeys position, 0 < maxKeys → 0 < pageSize maxKeys position
  pageSize_le : ∀ maxKeys position, pageSize maxKeys position ≤ maxKeys
  token : ℕ → Str
  token_ne_nil : ∀ position, token position ≠ []
  position : Str → Option ℕ
  position_token : ∀ p, position (token p) = some p

namespace PagedBackend

variable (b : PagedBackend)

def keysUnder (under : Str) : List Str :=
  b.keys.filter fun key => under <+: key

/-- Where a request with this token begins. -/
def resume (token : Str) : Option ℕ :=
  if token = [] then some 0 else b.position token

/-- The listing.  The clients of interest give neither a delimiter nor a key to start
after. -/
def listObjects : Backend := fun under opts => do
  let position ← b.resume opts.continuationToken
  let stop := position + b.pageSize opts.maxKeys.toNat position
  let isTruncated := decide (stop < (b.keysUnder under).length)
  return {
    objects := page (b.keysUnder under) (b.pageSize opts.maxKeys.toNat) position
    commonPrefixes := []
    isTruncated := isTruncated
    nextContinuationToken := if isTruncated then b.token stop else [] }

def pages (under : Str) (maxKeys : ℕ) : List (List Str) :=
  pagesFrom (b.keysUnder under) (b.pageSize maxKeys) 0

/-- A client that follows the tokens gets to an answer that is not truncated, and has then
seen every key under the prefix that is not a manifest exactly once, and nothing else. -/
def ListsCompletely (under : Str) (maxKeys : ℕ) : Prop :=
  ∃ rounds requests seen, follow b.listObjects rounds under maxKeys requests [] = some seen ∧
    (∀ key ∈ b.keys, under <+: key → isMpuManifest key = false → seen.count key = 1) ∧
    ∀ key ∈ seen, key ∈ b.keys ∧ under <+: key ∧ isMpuManifest key = false

end PagedBackend

/-- No response is cut inside a page or with the last page.  The list has the number of
visible keys of each page, and `filled` how many keys the response has already; it has
none before its first page, which is never too long for it. -/
def CutsAtPageEnds (maxKeys : ℕ) : Option ℕ → List ℕ → Prop
  | _, [] => True
  | none, count :: counts =>
    if count < maxKeys then CutsAtPageEnds maxKeys (some count) counts
    else CutsAtPageEnds maxKeys none counts
  | some filled, count :: counts =>
    if filled + count < maxKeys then CutsAtPageEnds maxKeys (some (filled + count)) counts
    else filled + count = maxKeys ∧ counts ≠ [] ∧ CutsAtPageEnds maxKeys none counts

instance decidableCutsAtPageEnds (maxKeys : ℕ) :
    ∀ filled counts, Decidable (CutsAtPageEnds maxKeys filled counts)
  | none, [] => isTrue trivial
  | some _, [] => isTrue trivial
  | none, count :: counts =>
    haveI := decidableCutsAtPageEnds maxKeys (some count) counts
    haveI := decidableCutsAtPageEnds maxKeys none counts
    inferInstanceAs (Decidable (if count < maxKeys then _ else _))
  | some filled, count :: counts =>
    haveI := decidableCutsAtPageEnds maxKeys (some (filled + count)) counts
    haveI := decidableCutsAtPageEnds maxKeys none counts
    inferInstanceAs (Decidable (if filled + count < maxKeys then _ else _ ∧ _ ∧ _))

/-- The number of keys of a page that a listing shows. -/
def visibleCount (page : List Str) : ℕ :=
  (filterMpuManifestObjects page).length

/-! ## What an answer has -/

namespace PagedBackend

variable (b : PagedBackend) (under : Str) (maxKeys : ℕ)

/-- The keys left at a position that a listing shows. -/
def visibleFrom (position : ℕ) : List Str :=
  filterMpuManifestObjects ((b.keysUnder under).drop position)

/-- The numbers of visible keys of the pages left at a position. -/
def countsFrom (position : ℕ) : List ℕ :=
  (pagesFrom (b.keysUnder under) (b.pageSize maxKeys) position).map visibleCount

def tokenAt (position : ℕ) : Str :=
  if position < (b.keysUnder under).length then b.token position else []

/-- What the loop has when it has shown `objects` and fetched up to a position. -/
def fetched (objects : List Str) (position : ℕ) : ListResult :=
  ⟨objects, [], decide (position < (b.keysUnder under).length), b.tokenAt under position⟩

/-- What the handler answers from a position on, if `objects` are in the answer already. -/
inductive Outcome (objects : List Str) (position : ℕ) (filled : Option ℕ) (answer : ListResult) :
    Prop where
  | rest (htruncated : answer.isTruncated = false)
      (hobjects : answer.objects = objects ++ b.visibleFrom under position)
      (hcuts : CutsAtPageEnds maxKeys filled (b.countsFrom under maxKeys position))
  | cut (stop : ℕ) (shown : List Str) (hstop : position < stop)
      (htruncated : answer.isTruncated = true)
      (htoken : answer.nextContinuationToken = b.tokenAt under stop)
      (hsplit : objects ++ b.visibleFrom under position = shown ++ b.visibleFrom under stop)
      (hlong : maxKeys ≤ shown.length) (hobjects : answer.objects = shown.take maxKeys)
      (hcuts : CutsAtPageEnds maxKeys filled (b.countsFrom under maxKeys position) ↔
        shown.length = maxKeys ∧ stop < (b.keysUnder under).length ∧
          CutsAtPageEnds maxKeys none (b.countsFrom under maxKeys stop))

variable {b under maxKeys}

theorem resume_nil : b.resume [] = some 0 := rfl

theorem resume_token (position : ℕ) : b.resume (b.token position) = some position := by
  unfold resume
  rw [if_neg (b.token_ne_nil position), b.position_token]

variable {position : ℕ}

theorem tokenAt_of_lt (hlt : position < (b.keysUnder under).length) :
    b.tokenAt under position = b.token position :=
  if_pos hlt

theorem listObjects_of_resume {opts : ListOptions} (hopts : opts.maxKeys = maxKeys)
    (hresume : b.resume opts.continuationToken = some position) :
    b.listObjects under opts =
      some (b.fetched under (page (b.keysUnder under) (b.pageSize maxKeys) position)
        (position + b.pageSize maxKeys position)) := by
  unfold listObjects
  rw [hresume, hopts, Int.toNat_natCast]
  simp only [fetched, tokenAt, Option.bind_eq_bind, Option.bind_some, Option.pure_def,
    decide_eq_true_eq]

theorem visibleFrom_of_le (hle : (b.keysUnder under).length ≤ position) :
    b.visibleFrom under position = [] := by
  unfold visibleFrom
  rw [drop_eq_nil_of_le hle]
  rfl

theorem countsFrom_of_le (hle : (b.keysUnder under).length ≤ position) :
    b.countsFrom under maxKeys position = [] := by
  unfold countsFrom
  rw [pagesFrom_of_le _ _ hle]
  rfl

theorem countsFrom_of_lt (hmax : 0 < maxKeys) (hlt : position < (b.keysUnder under).length) :
    b.countsFrom under maxKeys position =
      visibleCount (page (b.keysUnder under) (b.pageSize maxKeys) position) ::
        b.countsFrom under maxKeys (position + b.pageSize maxKeys position) := by
  unfold countsFrom
  rw [pagesFrom_of_lt _ (fun position => b.pageSize_pos maxKeys position hmax) hlt]
  rfl

/-- The keys left at a position are those of its page and those left after it. -/
theorem visibleFrom_eq_page_append (maxKeys position : ℕ) :
    b.visibleFrom under position =
      filterMpuManifestObjects (page (b.keysUnder under) (b.pageSize maxKeys) position) ++
        b.visibleFrom under (position + b.pageSize maxKeys position) := by
  unfold visibleFrom filterMpuManifestObjects
  rw [← filter_append, page, ← drop_drop, take_append_drop]

variable {rounds : ℕ}

section Loop

variable (hmax : 0 < maxKeys) {opts : ListOptions} (hopts : opts.maxKeys = maxKeys)
  {objects : List Str} {position : ℕ}

include hopts in
theorem refill_of_lt (hlt : position < (b.keysUnder under).length)
    (hshort : objects.length < maxKeys) {fresh : List Str} {stop : ℕ}
    (hpage : page (b.keysUnder under) (b.pageSize maxKeys) position = fresh)
    (hstop : position + b.pageSize maxKeys position = stop) (rounds : ℕ) :
    refill b.listObjects under opts (rounds + 1) (b.fetched under objects position) =
      if maxKeys ≤ objects.length + visibleCount fresh then
        some ⟨(objects ++ filterMpuManifestObjects fresh).take maxKeys, [], true,
          b.tokenAt under stop⟩
      else
        refill b.listObjects under opts rounds
          (b.fetched under (objects ++ filterMpuManifestObjects fresh) stop) := by
  have hgoes : (b.fetched under objects position).isTruncated = true ∧
      ((b.fetched under objects position).objects.length : ℤ) < opts.maxKeys ∧
      (b.fetched under objects position).nextContinuationToken ≠ [] := by
    refine ⟨decide_eq_true hlt, ?_, ?_⟩
    · rw [hopts]
      exact Int.ofNat_lt.mpr hshort
    · show b.tokenAt under position ≠ []
      rw [tokenAt_of_lt hlt]
      exact b.token_ne_nil position
  have hresume : b.resume (b.fetched under objects position).nextContinuationToken =
      some position := by
    show b.resume (b.tokenAt under position) = some position
    rw [tokenAt_of_lt hlt, resume_token]
  have hlist : b.listObjects under { opts with
      continuationToken := (b.fetched under objects position).nextContinuationToken
      startAfter := [] } = some (b.fetched under fresh stop) := by
    rw [← hpage, ← hstop]
    exact listObjects_of_resume (by exact hopts) hresume
  have hlength : (objects ++ filterMpuManifestObjects fresh).length =
      objects.length + visibleCount fresh := length_append
  rw [refill, if_pos hgoes, hlist]
  simp only [hopts, Int.toNat_natCast, fetched, append_nil, hlength]
  by_cases hfull : maxKeys ≤ objects.length + visibleCount fresh
  · rw [if_pos hfull, if_pos (Int.ofNat_le.mpr hfull)]
  · rw [if_neg hfull, if_neg fun hle => hfull (Int.ofNat_le.mp hle)]

theorem refill_of_le (hle : (b.keysUnder under).length ≤ position) (rounds : ℕ) :
    refill b.listObjects under opts (rounds + 1) (b.fetched under objects position) =
      some (b.fetched under objects position) := by
  rw [refill, if_neg fun hgoes => not_lt.mpr hle (of_decide_eq_true hgoes.1)]

include hopts in
theorem refill_of_full (hfull : maxKeys ≤ objects.length) (rounds : ℕ) :
    refill b.listObjects under opts (rounds + 1) (b.fetched under objects position) =
      some (b.fetched under objects position) := by
  have hstays : ¬((b.fetched under objects position).isTruncated = true ∧
      ((b.fetched under objects position).objects.length : ℤ) < opts.maxKeys ∧
      (b.fetched under objects position).nextContinuationToken ≠ []) := by
    rw [hopts]
    exact fun hgoes => not_lt.mpr hfull (Int.ofNat_lt.mp hgoes.2.1)
  rw [refill, if_neg hstays]

include hmax hopts

/-- **The loop.**  By induction on its rounds. -/
theorem outcome_refill {answer : ListResult} (hshort : objects.length < maxKeys)
    (hrefill : refill b.listObjects under opts rounds (b.fetched under objects position) =
      some answer) : Outcome b under maxKeys objects position (some objects.length) answer := by
  induction rounds generalizing objects position with
  | zero => cases hrefill
  | succ rounds ih =>
    by_cases hlt : position < (b.keysUnder under).length
    · -- another page is fetched
      have hpos := b.pageSize_pos maxKeys position hmax
      have hcounts : b.countsFrom under maxKeys position = _ := countsFrom_of_lt hmax hlt
      have hsplit : b.visibleFrom under position = _ := visibleFrom_eq_page_append maxKeys position
      rw [refill_of_lt hopts hlt hshort rfl rfl] at hrefill
      generalize page (b.keysUnder under) (b.pageSize maxKeys) position = fresh
        at hrefill hcounts hsplit
      generalize hstop : position + b.pageSize maxKeys position = stop
        at hrefill hcounts hsplit
      have hlength : (objects ++ filterMpuManifestObjects fresh).length =
          objects.length + visibleCount fresh := length_append
      split at hrefill
      · rename_i hfull
        cases hrefill
        refine .cut stop (objects ++ filterMpuManifestObjects fresh) (by omega) rfl rfl ?_
          (hlength ▸ hfull) rfl ?_
        · rw [hsplit, append_assoc]
        · rw [hcounts, CutsAtPageEnds, if_neg (not_lt.mpr hfull), hlength,
            countsFrom, Ne, map_eq_nil_iff,
            pagesFrom_eq_nil_iff _ fun position => b.pageSize_pos maxKeys position hmax, not_le]
      · rename_i hroom
        rw [not_le] at hroom
        have hnext := ih (hlength ▸ hroom) hrefill
        rw [hlength] at hnext
        have hcuts : CutsAtPageEnds maxKeys (some objects.length)
            (b.countsFrom under maxKeys position) ↔
            CutsAtPageEnds maxKeys (some (objects.length + visibleCount fresh))
              (b.countsFrom under maxKeys stop) := by
          rw [hcounts, CutsAtPageEnds, if_pos hroom]
        cases hnext with
        | rest htruncated hobjects hends =>
          refine .rest htruncated ?_ (hcuts.mpr hends)
          rw [hobjects, hsplit, append_assoc]
        | cut stop' shown hstop' htruncated htoken hshown hlong hobjects hends =>
          refine .cut stop' shown (by omega) htruncated htoken ?_ hlong hobjects
            (hcuts.trans hends)
          rw [← hshown, hsplit, append_assoc]
    · have hle := not_lt.mp hlt
      rw [refill_of_le hle] at hrefill
      cases hrefill
      refine .rest (decide_eq_false hlt) ?_ ?_
      · rw [visibleFrom_of_le hle, append_nil]
        rfl
      · rw [countsFrom_of_le hle]
        trivial

/-- The loop ends: every round fetches at least one key. -/
theorem exists_refill (hrounds : (b.keysUnder under).length - position < rounds) :
    ∃ answer, refill b.listObjects under opts rounds (b.fetched under objects position) =
      some answer := by
  induction rounds generalizing objects position with
  | zero => exact absurd hrounds (Nat.not_lt_zero _)
  | succ rounds ih =>
    by_cases hlt : position < (b.keysUnder under).length
    · by_cases hshort : objects.length < maxKeys
      · have hpos := b.pageSize_pos maxKeys position hmax
        rw [refill_of_lt hopts hlt hshort rfl rfl]
        split
        · exact ⟨_, rfl⟩
        · exact ih (by omega)
      · rw [refill_of_full hopts (not_lt.mp hshort)]
        exact ⟨_, rfl⟩
    · rw [refill_of_le (not_lt.mp hlt)]
      exact ⟨_, rfl⟩

end Loop

/-! ## Requests and sessions -/

section Session

variable (hmax : 0 < maxKeys) {token : Str} {position : ℕ}
  (hresume : b.resume token = some position)

include hresume in
theorem handleListObjects_of_resume (rounds : ℕ) :
    handleListObjects b.listObjects rounds under (listOptions maxKeys token) =
      (refill b.listObjects under (listOptions maxKeys token) rounds
        (b.fetched under
          (filterMpuManifestObjects (page (b.keysUnder under) (b.pageSize maxKeys) position))
          (position + b.pageSize maxKeys position))).map fun result =>
            some (result, nextMarker result) := by
  have hlist : b.listObjects under (listOptions maxKeys token) =
      some (b.fetched under (page (b.keysUnder under) (b.pageSize maxKeys) position)
        (position + b.pageSize maxKeys position)) := listObjects_of_resume rfl hresume
  unfold handleListObjects
  rw [hlist]
  rfl

include hmax hresume

/-- **An answer.**  The first page of a response is never cut. -/
theorem outcome_list {answer : ListResult} {marker : Str}
    (hlist : handleListObjects b.listObjects rounds under (listOptions maxKeys token) =
      some (some (answer, marker))) : Outcome b under maxKeys [] position none answer := by
  rw [handleListObjects_of_resume hresume] at hlist
  obtain ⟨result, hrefill, heq⟩ := Option.map_eq_some_iff.mp hlist
  obtain ⟨rfl, -⟩ := Prod.mk.inj (Option.some.inj heq)
  have hpos := b.pageSize_pos maxKeys position hmax
  have hle : visibleCount (page (b.keysUnder under) (b.pageSize maxKeys) position) ≤ maxKeys :=
    calc visibleCount (page (b.keysUnder under) (b.pageSize maxKeys) position)
        ≤ (page (b.keysUnder under) (b.pageSize maxKeys) position).length := length_filter_le ..
      _ ≤ b.pageSize maxKeys position := length_take_le ..
      _ ≤ maxKeys := b.pageSize_le maxKeys position
  have hsplit : b.visibleFrom under position = _ := visibleFrom_eq_page_append maxKeys position
  -- a position past the end has no pages, and one before it has the page just fetched
  have hcounts : b.countsFrom under maxKeys position = [] ∧
        visibleCount (page (b.keysUnder under) (b.pageSize maxKeys) position) = 0 ∧
        (b.keysUnder under).length ≤ position ∨
      b.countsFrom under maxKeys position =
        visibleCount (page (b.keysUnder under) (b.pageSize maxKeys) position) ::
          b.countsFrom under maxKeys (position + b.pageSize maxKeys position) := by
    by_cases hlt : position < (b.keysUnder under).length
    · exact .inr (countsFrom_of_lt hmax hlt)
    refine .inl ⟨countsFrom_of_le (not_lt.mp hlt), ?_, not_lt.mp hlt⟩
    unfold page
    rw [drop_eq_nil_of_le (not_lt.mp hlt), take_nil]
    rfl
  generalize page (b.keysUnder under) (b.pageSize maxKeys) position = fresh at *
  generalize hstop : position + b.pageSize maxKeys position = stop at *
  by_cases hroom : visibleCount fresh < maxKeys
  · have hcuts : CutsAtPageEnds maxKeys none (b.countsFrom under maxKeys position) ↔
        CutsAtPageEnds maxKeys (some (visibleCount fresh)) (b.countsFrom under maxKeys stop) := by
      rcases hcounts with ⟨hnil, -, hend⟩ | hcons
      · have hend' : (b.keysUnder under).length ≤ stop := by omega
        rw [hnil, countsFrom_of_le hend']
        exact Iff.rfl
      · rw [hcons, CutsAtPageEnds, if_pos hroom]
    cases outcome_refill hmax rfl hroom hrefill with
    | rest htruncated hobjects hends =>
      refine .rest htruncated ?_ (hcuts.mpr hends)
      rw [hobjects, hsplit, nil_append]
    | cut stop' shown hstop' htruncated htoken hshown hlong hobjects hends =>
      refine .cut stop' shown (by omega) htruncated htoken ?_ hlong hobjects (hcuts.trans hends)
      rw [← hshown, hsplit, nil_append]
  · -- the page is as long as the response may be
    have hfull : visibleCount fresh = maxKeys := le_antisymm hle (not_lt.mp hroom)
    have hcons : b.countsFrom under maxKeys position =
        visibleCount fresh :: b.countsFrom under maxKeys stop := by
      rcases hcounts with ⟨-, hzero, -⟩ | hcons
      · omega
      · exact hcons
    have hanswer : result = b.fetched under (filterMpuManifestObjects fresh) stop := by
      cases rounds with
      | zero => cases hrefill
      | succ rounds =>
        rw [refill_of_full rfl (not_lt.mp hroom)] at hrefill
        exact (Option.some.inj hrefill).symm
    subst hanswer
    have hcuts : CutsAtPageEnds maxKeys none (b.countsFrom under maxKeys position) ↔
        CutsAtPageEnds maxKeys none (b.countsFrom under maxKeys stop) := by
      rw [hcons, CutsAtPageEnds, if_neg hroom]
    by_cases hmore : stop < (b.keysUnder under).length
    · refine .cut stop (filterMpuManifestObjects fresh) (by omega) (decide_eq_true hmore) rfl ?_
        (not_lt.mp hroom) (take_of_length_le hle).symm ?_
      · rw [hsplit, nil_append]
      · rw [hcuts]
        exact ⟨fun hends => ⟨hfull, hmore, hends⟩, fun hends => hends.2.2⟩
    · refine .rest (decide_eq_false hmore) ?_ ?_
      · rw [hsplit, visibleFrom_of_le (not_lt.mp hmore), append_nil, nil_append]
        rfl
      · rw [hcuts, countsFrom_of_le (not_lt.mp hmore)]
        trivial

theorem exists_list :
    ∃ answer marker, handleListObjects b.listObjects ((b.keysUnder under).length + 1) under
      (listOptions maxKeys token) = some (some (answer, marker)) := by
  have hrounds : (b.keysUnder under).length - (position + b.pageSize maxKeys position) <
      (b.keysUnder under).length + 1 := by
    omega
  obtain ⟨answer, hanswer⟩ :
      ∃ answer, refill b.listObjects under (listOptions maxKeys token)
        ((b.keysUnder under).length + 1) (b.fetched under
          (filterMpuManifestObjects (page (b.keysUnder under) (b.pageSize maxKeys) position))
          (position + b.pageSize maxKeys position)) = some answer :=
    exists_refill hmax rfl hrounds
  refine ⟨answer, nextMarker answer, ?_⟩
  rw [handleListObjects_of_resume hresume, hanswer]
  rfl

omit hmax hresume in
theorem follow_succ {requests : ℕ} {answer : ListResult} {marker : Str}
    (hlist : handleListObjects b.listObjects rounds under (listOptions maxKeys token) =
      some (some (answer, marker))) :
    follow b.listObjects rounds under maxKeys (requests + 1) token =
      if answer.isTruncated = false then some answer.objects
      else if answer.nextContinuationToken = [] then none
      else
        (follow b.listObjects rounds under maxKeys requests answer.nextContinuationToken).map
          (answer.objects ++ ·) := by
  rw [follow, hlist]

/-- A client sees some of the keys left, in their order, and all of them only if no
response is cut inside a page. -/
theorem follow_sublist {requests : ℕ} {seen : List Str}
    (hfollow : follow b.listObjects rounds under maxKeys requests token = some seen) :
    seen.Sublist (b.visibleFrom under position) ∧
      (seen.length = (b.visibleFrom under position).length →
        CutsAtPageEnds maxKeys none (b.countsFrom under maxKeys position)) := by
  induction requests generalizing token position seen with
  | zero => cases hfollow
  | succ requests ih =>
    have hlist : ∃ answer marker, handleListObjects b.listObjects rounds under
        (listOptions maxKeys token) = some (some (answer, marker)) := by
      unfold follow at hfollow
      split at hfollow
      · rename_i answer marker hlist
        exact ⟨answer, marker, hlist⟩
      · cases hfollow
    obtain ⟨answer, marker, hlist⟩ := hlist
    rw [follow_succ hlist] at hfollow
    cases outcome_list hmax hresume hlist with
    | rest htruncated hobjects hcuts =>
      rw [if_pos htruncated] at hfollow
      cases hfollow
      rw [hobjects, nil_append]
      exact ⟨List.Sublist.refl _, fun _ => hcuts⟩
    | cut stop shown hstop htruncated htoken hsplit hlong hobjects hcuts =>
      rw [if_neg (by rw [htruncated]; simp), htoken] at hfollow
      split at hfollow
      · cases hfollow
      rename_i htok
      -- a token stands for a position before the end
      have hmore : stop < (b.keysUnder under).length := by
        by_contra hend
        exact htok (if_neg hend)
      rw [tokenAt_of_lt hmore] at hfollow
      obtain ⟨later, hlater, rfl⟩ := Option.map_eq_some_iff.mp hfollow
      obtain ⟨hsub, hall⟩ := ih (resume_token stop) hlater
      rw [nil_append] at hsplit
      rw [hsplit, hobjects]
      refine ⟨(take_sublist _ _).append hsub, ?_⟩
      intro hlength
      rw [length_append, length_append, length_take] at hlength
      have hle := hsub.length_le
      exact hcuts.mpr ⟨by omega, hmore, hall (by omega)⟩

/-- Without such a cut the client sees all keys left. -/
theorem follow_of_cutsAtPageEnds {requests : ℕ}
    (hrequests : (b.keysUnder under).length - position < requests)
    (hcuts : CutsAtPageEnds maxKeys none (b.countsFrom under maxKeys position)) :
    follow b.listObjects ((b.keysUnder under).length + 1) under maxKeys requests token =
      some (b.visibleFrom under position) := by
  induction requests generalizing token position with
  | zero => exact absurd hrequests (Nat.not_lt_zero _)
  | succ requests ih =>
    obtain ⟨answer, marker, hlist⟩ :
        ∃ answer marker, handleListObjects b.listObjects ((b.keysUnder under).length + 1) under
          (listOptions maxKeys token) = some (some (answer, marker)) := exists_list hmax hresume
    rw [follow_succ hlist]
    cases outcome_list hmax hresume hlist with
    | rest htruncated hobjects _ => rw [if_pos htruncated, hobjects, nil_append]
    | cut stop shown hstop htruncated htoken hsplit hlong hobjects hends =>
      obtain ⟨hexact, hmore, hlater⟩ := hends.mp hcuts
      rw [if_neg (by rw [htruncated]; simp), htoken, tokenAt_of_lt hmore,
        if_neg (b.token_ne_nil stop), ih (resume_token stop) (by omega) hlater, Option.map_some,
        hobjects, take_of_length_le hexact.le, ← hsplit, nil_append]

end Session

theorem mem_visibleFrom_zero {key : Str} :
    key ∈ b.visibleFrom under 0 ↔ key ∈ b.keys ∧ under <+: key ∧ isMpuManifest key = false := by
  unfold visibleFrom filterMpuManifestObjects keysUnder
  rw [drop_zero, mem_filter, mem_filter, decide_eq_true_iff, Bool.not_eq_true', and_assoc]

theorem nodup_visibleFrom_zero : (b.visibleFrom under 0).Nodup := by
  unfold visibleFrom filterMpuManifestObjects keysUnder
  rw [drop_zero]
  exact (b.nodup.filter _).filter _

/-- If a listing is complete, no response of it was cut inside a page. -/
theorem cutsAtPageEnds_of_listsCompletely (hmax : 0 < maxKeys)
    (hlists : b.ListsCompletely under maxKeys) :
    CutsAtPageEnds maxKeys none ((b.pages under maxKeys).map visibleCount) := by
  obtain ⟨rounds, requests, seen, hfollow, honce, -⟩ := hlists
  obtain ⟨hsub, hcuts⟩ := follow_sublist hmax (resume_nil (b := b)) hfollow
  apply hcuts
  -- a sublist without repetition that has all the keys is as long as they are
  have hsubset : b.visibleFrom under 0 ⊆ seen := by
    intro key hkey
    obtain ⟨hmem, hunder, hvisible⟩ := mem_visibleFrom_zero.mp hkey
    apply count_pos_iff.mp
    rw [honce key hmem hunder hvisible]
    exact Nat.one_pos
  have hle := (subperm_of_subset (nodup_visibleFrom_zero (b := b)) hsubset).length_le
  exact le_antisymm hsub.length_le hle

/-- **A listing is complete exactly if no response is cut inside a page of the backend or
with its last page.** -/
theorem listsCompletely_iff (b : PagedBackend) (under : Str) {maxKeys : ℕ} (hmax : 1 ≤ maxKeys) :
    b.ListsCompletely under maxKeys ↔
      CutsAtPageEnds maxKeys none ((b.pages under maxKeys).map visibleCount) := by
  refine ⟨cutsAtPageEnds_of_listsCompletely hmax, ?_⟩
  intro hcuts
  have hfollow : follow b.listObjects ((b.keysUnder under).length + 1) under maxKeys
      ((b.keysUnder under).length + 1) [] = some (b.visibleFrom under 0) :=
    follow_of_cutsAtPageEnds hmax resume_nil (by omega) hcuts
  refine ⟨_, _, _, hfollow, ?_, ?_⟩
  · intro key hmem hunder hvisible
    apply count_eq_one_of_mem nodup_visibleFrom_zero
    exact mem_visibleFrom_zero.mpr ⟨hmem, hunder, hvisible⟩
  · intro key hkey
    exact mem_visibleFrom_zero.mp hkey

/-! ## A bucket with one manifest -/

/-- Three objects and a manifest, in pages of at most `limit` keys. -/
def sample (limit : ℕ) (hlimit : 0 < limit) : PagedBackend where
  keys := ["a".toList, "b.mpu-manifest".toList, "c".toList, "d".toList]
  nodup := by decide
  pageSize := fun maxKeys _ => min limit maxKeys
  pageSize_pos := fun _ _ hmax => lt_min hlimit hmax
  pageSize_le := fun _ _ => min_le_right _ _
  token := fun position => List.replicate (position + 1) 't'
  token_ne_nil := fun _ => List.cons_ne_nil _ _
  position := fun token => some (token.length - 1)
  position_token := fun position => by rw [List.length_replicate, Nat.add_sub_cancel]

/-- Pages of one key fill a response exactly. -/
theorem listsCompletely_sample : (sample 1 Nat.one_pos).ListsCompletely [] 2 :=
  (listsCompletely_iff (sample 1 Nat.one_pos) [] (by decide)).mpr (by decide +kernel)

/-- The first response is `a`, `c`: it is cut after the first key of the last page, and has
no token to go on with. -/
theorem not_listsCompletely_sample : ¬(sample 1000 (by decide)).ListsCompletely [] 2 := by
  intro hlists
  have hcuts := cutsAtPageEnds_of_listsCompletely (by decide) hlists
  revert hcuts
  decide +kernel

end PagedBackend

end S3EncryptionGateway.Api.Listing
