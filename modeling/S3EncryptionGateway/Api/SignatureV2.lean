import S3EncryptionGateway.Api.SignatureV4

/-!
# The text that Signature V2 signs

The text has the method, three headers, the `x-amz-` headers and the resource: the path and the
sub-resources of the query, which select the operation and the version, upload or part it is
about.  Names and values are written decoded, with `=`, `&` and line breaks as they are.

## Strategy

The resource is what follows the last line break in front of the path.  Two requests with one
text have the same sub-resources exactly if the resource has the same length in both, and the
values have the same numbers of `&`: then the text can be taken apart in one way only
(`sameSubresources_iff`).  The router looks at sub-resources only, so that the operation is the
same (`dispatch_served_eq`).
-/

namespace S3EncryptionGateway.Api

open Text Separators Decimal Encoding List

/-! ## Sub-resources -/

def sigV2CanonicalResourceParams : List Str :=
  ["acl", "analytics", "cors", "delete", "encryption", "intelligent-tiering", "inventory",
    "legal-hold", "lifecycle", "location", "logging", "notification", "object-lock", "partNumber",
    "policy", "replication", "requestPayment", "response-cache-control",
    "response-content-disposition", "response-content-encoding", "response-content-language",
    "response-content-type", "response-expires", "restore", "retention", "select", "select-type",
    "tagging", "torrent", "uploadId", "uploads", "versionId", "versioning", "versions",
    "website"].map String.toList

inductive V2Error where
  | invalidQuery
  | duplicateParameter
  | invalidExpires
  | expiryTooLong
  | requestExpired
  | missingDateParameter
  | invalidDateFormat
  | outsideSkew
  | signatureMismatch
  | invalidAuthorization
  | missingDateHeader
  | noSignature
  deriving DecidableEq

/-- The pairs of a query if all of it can be decoded. -/
def parseQueryStrict (query : Str) : Option (List (Str × Str)) :=
  if (query.splitOn '&').all fun segment => segment = [] ∨ (parsePair segment).isSome then
    some (parseQuery query)
  else none

def subresourceNames (pairs : List (Str × Str)) : List Str :=
  ((pairs.map Prod.fst).dedup).filter (· ∈ sigV2CanonicalResourceParams)

def subresources (pairs : List (Str × Str)) : List (Str × Str) :=
  (sortStrings (subresourceNames pairs)).map fun name => (name, firstValue pairs name)

def subresourceItem (item : Str × Str) : Str :=
  if item.2 = [] then item.1 else item.1 ++ '=' :: item.2

def subresourceText (items : List (Str × Str)) : Str :=
  if items = [] then [] else '?' :: ['&'].intercalate (items.map subresourceItem)

namespace ServerRequest

variable (r : ServerRequest)

def resourcePath : Str := if r.escapedPath = [] then ['/'] else r.escapedPath

def buildV2CanonicalizedResource : Except V2Error Str :=
  match parseQueryStrict r.rawQuery with
  | none => .error .invalidQuery
  | some pairs =>
    if (subresourceNames pairs).any fun name => 1 < (pairs.filter (·.1 = name)).length then
      .error .duplicateParameter
    else .ok (r.resourcePath ++ subresourceText (subresources pairs))

/-! ## The text -/

def amzHeaderLine (name : Str) : Str :=
  name ++ ':' :: trimSpace ([','].intercalate (r.headerValues name))

def amzHeaderLines : List Str :=
  sortStrings ((((r.headers.map fun h => toLower h.1).dedup).filter
    ("x-amz-".toList <+: ·)).map r.amzHeaderLine)

def headerDate : Str := if r.header "Date" = [] then r.header "X-Amz-Date" else r.header "Date"

def signedDate : Str := if r.headerDate = [] then r.query "Expires" else r.headerDate

def signedHead : Str :=
  r.method.toList ++ '\n' :: (r.header "Content-Md5" ++ '\n' :: (r.header "Content-Type" ++ '\n' ::
    (r.signedDate ++ '\n' :: closeLines '\n' r.amzHeaderLines)))

def buildV2StringToSign : Except V2Error Str :=
  r.buildV2CanonicalizedResource.map fun resource => r.signedHead ++ resource

def namedSubresources : List (Str × Str) := subresources (parseQuery r.rawQuery)

end ServerRequest

/-! ## Names and values -/

variable {pairs : List (Str × Str)}

theorem isSome_lookup {name : Str} : (pairs.lookup name).isSome ↔ name ∈ pairs.map Prod.fst := by
  rw [Option.isSome_iff_ne_none, ne_eq, lookup_eq_none_iff]
  constructor
  · intro hsome
    push Not at hsome
    obtain ⟨pair, hpair, hname⟩ := hsome
    exact mem_map.mpr ⟨pair, hpair, by simpa using Eq.symm (by simpa using hname)⟩
  · intro hmem hnone
    obtain ⟨pair, hpair, rfl⟩ := mem_map.mp hmem
    simpa using hnone pair hpair

theorem mem_subresourceNames {name : Str} :
    name ∈ subresourceNames pairs ↔
      (pairs.lookup name).isSome ∧ name ∈ sigV2CanonicalResourceParams := by
  simp only [subresourceNames, mem_filter, mem_dedup, isSome_lookup, decide_eq_true_eq]

theorem subresources_eq_iff {pairs' : List (Str × Str)} :
    subresources pairs = subresources pairs' ↔
      ∀ name ∈ sigV2CanonicalResourceParams, pairs.lookup name = pairs'.lookup name := by
  constructor
  · intro heq name hname
    have hnames : sortStrings (subresourceNames pairs) = sortStrings (subresourceNames pairs') := by
      simpa [subresources, Function.comp_def] using congrArg (List.map Prod.fst) heq
    have hmem : name ∈ subresourceNames pairs ↔ name ∈ subresourceNames pairs' := by
      rw [← (sortStrings_perm _).mem_iff, hnames, (sortStrings_perm _).mem_iff]
    by_cases hlisted : name ∈ subresourceNames pairs
    · have hitem : (name, firstValue pairs name) ∈ subresources pairs' := by
        rw [← heq]
        exact mem_map.mpr ⟨name, (sortStrings_perm _).mem_iff.mpr hlisted, rfl⟩
      obtain ⟨other, -, hother⟩ := mem_map.mp hitem
      obtain ⟨rfl, hvalue⟩ := Prod.mk.inj hother
      obtain ⟨value, hlookup⟩ := Option.isSome_iff_exists.mp (mem_subresourceNames.mp hlisted).1
      obtain ⟨value', hlookup'⟩ :=
        Option.isSome_iff_exists.mp (mem_subresourceNames.mp (hmem.mp hlisted)).1
      rw [firstValue, firstValue, hlookup, hlookup', Option.getD_some, Option.getD_some] at hvalue
      rw [hlookup, hlookup', hvalue]
    · have hnone : ∀ {ps : List (Str × Str)}, name ∉ subresourceNames ps →
          ps.lookup name = none := by
        intro ps hps
        by_contra hsome
        exact hps (mem_subresourceNames.mpr ⟨Option.isSome_iff_ne_none.mpr hsome, hname⟩)
      rw [hnone hlisted, hnone (hmem.not.mp hlisted)]
  · intro hlookup
    have hperm : (subresourceNames pairs).Perm (subresourceNames pairs') := by
      refine (perm_ext_iff_of_nodup ?_ ?_).mpr fun name => ?_
      · exact (nodup_dedup _).filter _
      · exact (nodup_dedup _).filter _
      · rw [mem_subresourceNames, mem_subresourceNames]
        constructor
        · rintro ⟨hsome, hname⟩
          exact ⟨hlookup name hname ▸ hsome, hname⟩
        · rintro ⟨hsome, hname⟩
          exact ⟨(hlookup name hname).symm ▸ hsome, hname⟩
    rw [subresources, subresources, sortStrings_eq_of_perm hperm]
    refine map_congr_left fun name hname => ?_
    have hparam := (mem_subresourceNames.mp ((sortStrings_perm _).mem_iff.mp hname)).2
    rw [firstValue, firstValue, hlookup name hparam]

variable {item : Str × Str}

theorem params_plain : ∀ name ∈ sigV2CanonicalResourceParams,
    '&' ∉ name ∧ '=' ∉ name ∧ '\n' ∉ name := by
  decide +kernel

/-! ## The text of the sub-resources -/

theorem subresourceItem_inj {item' : Str × Str} (hname : item.1 ∈ sigV2CanonicalResourceParams)
    (hname' : item'.1 ∈ sigV2CanonicalResourceParams)
    (heq : subresourceItem item = subresourceItem item') : item = item' := by
  have hplain := (params_plain item.1 hname).2.1
  have hplain' := (params_plain item'.1 hname').2.1
  unfold subresourceItem at heq
  split at heq
  · rename_i hempty
    split at heq
    · rename_i hempty'
      exact Prod.ext heq (hempty.trans hempty'.symm)
    · rw [heq] at hplain
      exact absurd (mem_append_cons_self) hplain
  · split at heq
    · rw [← heq] at hplain'
      exact absurd (mem_append_cons_self) hplain'
    · obtain ⟨hfst, hsnd⟩ := append_cons_inj hplain hplain' heq
      exact Prod.ext hfst hsnd

theorem count_subresourceItem (hname : item.1 ∈ sigV2CanonicalResourceParams) :
    (subresourceItem item).count '&' = item.2.count '&' := by
  have hplain : item.1.count '&' = 0 := count_eq_zero_of_not_mem (params_plain _ hname).1
  unfold subresourceItem
  split
  · rename_i hempty
    rw [hplain, hempty, count_nil]
  · rw [count_append, hplain, count_cons_of_ne (by decide), zero_add]

theorem length_subresourceText (items : List (Str × Str)) :
    (subresourceText items).length =
      (items.map fun item => (subresourceItem item).length + 1).sum := by
  have hjoined : ∀ parts : List Str, parts ≠ [] →
      (['&'].intercalate parts).length + 1 = (parts.map fun part => part.length + 1).sum := by
    intro parts hparts
    induction parts with
    | nil => exact absurd rfl hparts
    | cons part parts ih =>
      cases parts with
      | nil => simp
      | cons second parts =>
        rw [intercalate_cons_cons, length_append, length_append, map_cons,
          sum_cons, ← ih (cons_ne_nil _ _), length_singleton]
        omega
  unfold subresourceText
  split
  · rename_i hempty
    rw [hempty]
    rfl
  · rename_i hitems
    rw [length_cons, hjoined _ (by simpa using hitems), map_map]
    rfl

/-- Equal texts have the same parts if these have the same separators of their own. -/
theorem subresourceText_inj {items items' : List (Str × Str)}
    (hnames : ∀ item ∈ items, item.1 ∈ sigV2CanonicalResourceParams)
    (hnames' : ∀ item ∈ items', item.1 ∈ sigV2CanonicalResourceParams)
    (hcount : items.map (fun item => item.2.count '&') = items'.map fun item => item.2.count '&')
    (heq : subresourceText items = subresourceText items') : items = items' := by
  have hmap : ∀ {items : List (Str × Str)},
      (∀ item ∈ items, item.1 ∈ sigV2CanonicalResourceParams) →
      (items.map subresourceItem).map (List.count '&') =
        items.map fun item => item.2.count '&' := by
    intro items hnames
    rw [map_map]
    exact map_congr_left fun item hitem => count_subresourceItem (hnames item hitem)
  by_cases hempty : items = []
  · subst hempty
    exact (map_eq_nil_iff.mp hcount.symm).symm
  · have hempty' : items' ≠ [] := by
      rintro rfl
      exact hempty (map_eq_nil_iff.mp hcount)
    rw [subresourceText, if_neg hempty, subresourceText, if_neg hempty'] at heq
    have hitems := intercalate_inj_of_count ((hmap hnames).trans (hcount.trans (hmap hnames').symm))
      (List.cons.inj heq).2
    exact map_inj_of_mem (fun item hitem item' hitem' =>
      subresourceItem_inj (hnames item hitem) (hnames' item' hitem')) hitems

namespace ServerRequest

variable {r r' : ServerRequest}

/-! ## The resource -/

theorem resourcePath_plain (r : ServerRequest) : '\n' ∉ r.resourcePath ∧ '?' ∉ r.resourcePath := by
  unfold resourcePath
  split
  · decide
  · exact r.escaped_plain

/-- The path of the text is the escape of the path that is served. -/
theorem pathUnescape_resourcePath (r : ServerRequest) :
    pathUnescape r.resourcePath = some r.canonicalPath := by
  have hescaped := r.path_escaped
  unfold resourcePath canonicalPath
  split
  · rename_i hempty
    rw [hempty, pathUnescape, Option.some_inj] at hescaped
    rw [if_pos hescaped.symm]
    decide
  · rename_i hne
    obtain ⟨c, rest, hcons⟩ := exists_cons_of_ne_nil hne
    have hpath : r.path ≠ [] := by
      intro hpath
      rw [hpath, hcons] at hescaped
      exact pathUnescape_cons_ne c rest hescaped
    rw [if_neg hpath, hescaped]

theorem resource_inj {items items' : List (Str × Str)}
    (heq : r.resourcePath ++ subresourceText items = r'.resourcePath ++ subresourceText items') :
    r.resourcePath = r'.resourcePath ∧ subresourceText items = subresourceText items' := by
  have hplain := r.resourcePath_plain.2
  have hplain' := r'.resourcePath_plain.2
  unfold subresourceText at heq ⊢
  split at heq
  · rename_i hempty
    rw [if_pos hempty]
    split at heq
    · rename_i hempty'
      rw [if_pos hempty']
      rw [append_nil, append_nil] at heq
      exact ⟨heq, rfl⟩
    · rw [append_nil] at heq
      rw [heq] at hplain
      exact absurd mem_append_cons_self hplain
  · rename_i hempty
    rw [if_neg hempty]
    split_ifs at heq with hempty'
    · rw [append_nil] at heq
      rw [← heq] at hplain'
      exact absurd mem_append_cons_self hplain'
    · rw [if_neg hempty']
      obtain ⟨hpath, htext⟩ := append_cons_inj hplain hplain' heq
      exact ⟨hpath, by rw [htext]⟩

/-- The text to sign is the head and the resource, and the head ends with a line break. -/
theorem text_of_build {text : Str} (hbuild : r.buildV2StringToSign = .ok text) :
    text = r.signedHead ++ (r.resourcePath ++ subresourceText r.namedSubresources) := by
  unfold buildV2StringToSign buildV2CanonicalizedResource at hbuild
  cases hquery : parseQueryStrict r.rawQuery with
  | none =>
    rw [hquery] at hbuild
    cases hbuild
  | some pairs =>
    have hpairs : pairs = parseQuery r.rawQuery := by
      unfold parseQueryStrict at hquery
      split at hquery
      · exact (Option.some.inj hquery).symm
      · cases hquery
    rw [hquery] at hbuild
    dsimp only at hbuild
    split at hbuild <;> cases hbuild
    rw [namedSubresources, hpairs]

theorem exists_signedHead (r : ServerRequest) : ∃ front, r.signedHead = front ++ ['\n'] := by
  obtain ⟨front, hfront⟩ := exists_append_closeLines (a := '\n') r.signedDate r.amzHeaderLines
  refine ⟨r.method.toList ++ '\n' :: (r.header "Content-Md5" ++ '\n' ::
    (r.header "Content-Type" ++ '\n' :: front)), ?_⟩
  rw [signedHead, hfront]
  simp

theorem names_params (r : ServerRequest) :
    ∀ item ∈ r.namedSubresources, item.1 ∈ sigV2CanonicalResourceParams := by
  intro item hitem
  obtain ⟨name, hname, rfl⟩ := mem_map.mp hitem
  exact (mem_subresourceNames.mp ((sortStrings_perm _).mem_iff.mp hname)).2

/-! ## Requests with one text -/

/-- The same sub-resources, with the same values. -/
def SameSubresources (r r' : ServerRequest) : Prop :=
  ∀ name ∈ sigV2CanonicalResourceParams,
    (parseQuery r.rawQuery).lookup name = (parseQuery r'.rawQuery).lookup name

/-- How long the path and the sub-resources are together. -/
def resourceLength (r : ServerRequest) : ℕ :=
  r.resourcePath.length +
    (r.namedSubresources.map fun item => (subresourceItem item).length + 1).sum

/-- How many ampersands the values have. -/
def ampersands (r : ServerRequest) : List ℕ :=
  r.namedSubresources.map fun item => item.2.count '&'

/-- The values have neither ampersands nor line breaks. -/
def PlainValues (r : ServerRequest) : Prop :=
  ∀ item ∈ r.namedSubresources, '&' ∉ item.2 ∧ '\n' ∉ item.2

/-- Without ampersands of their own there are as many values as the text says. -/
theorem length_of_plainValues (hplain : r.PlainValues) :
    r.namedSubresources.length =
      if subresourceText r.namedSubresources = [] then 0
      else (subresourceText r.namedSubresources).count '&' + 1 := by
  have hcounts : ∀ part ∈ r.namedSubresources.map subresourceItem, part.count '&' + 1 = 1 := by
    intro part hpart
    obtain ⟨item, hitem, rfl⟩ := mem_map.mp hpart
    rw [count_subresourceItem (r.names_params item hitem),
      count_eq_zero_of_not_mem (hplain item hitem).1]
  unfold subresourceText
  split
  · rename_i hempty
    rw [hempty]
    rfl
  · rename_i hitems
    rw [if_neg (cons_ne_nil _ _), count_cons_of_ne (by decide),
      count_intercalate _ (by simpa using hitems), map_congr_left hcounts, map_const',
      sum_replicate, length_map, smul_eq_mul, mul_one]

theorem same_of_resource_eq
    (hresource : r.resourcePath ++ subresourceText r.namedSubresources =
      r'.resourcePath ++ subresourceText r'.namedSubresources)
    (hcount : r.ampersands = r'.ampersands) : SameSubresources r r' :=
  subresources_eq_iff.mp
    (subresourceText_inj r.names_params r'.names_params hcount (resource_inj hresource).2)

section

variable {text : Str} (hbuild : r.buildV2StringToSign = .ok text)
  (hbuild' : r'.buildV2StringToSign = .ok text)

include hbuild hbuild'

theorem head_append_eq :
    r.signedHead ++ (r.resourcePath ++ subresourceText r.namedSubresources) =
      r'.signedHead ++ (r'.resourcePath ++ subresourceText r'.namedSubresources) :=
  (text_of_build hbuild).symm.trans (text_of_build hbuild')

theorem resourcePath_eq_of_same (hsame : SameSubresources r r') :
    r.resourcePath = r'.resourcePath := by
  have hitems : r.namedSubresources = r'.namedSubresources := subresources_eq_iff.mpr hsame
  have heq := head_append_eq hbuild hbuild'
  rw [hitems, ← append_assoc, ← append_assoc, append_cancel_right_eq] at heq
  obtain ⟨front, hfront⟩ := r.exists_signedHead
  obtain ⟨front', hfront'⟩ := r'.exists_signedHead
  rw [hfront, hfront', append_assoc, append_assoc, singleton_append, singleton_append] at heq
  exact (append_cons_inj_last r.resourcePath_plain.1 r'.resourcePath_plain.1 heq).2

/-- The resource and its parts are found again if their sizes are known. -/
theorem same_iff : SameSubresources r r' ↔
    r.resourceLength = r'.resourceLength ∧ r.ampersands = r'.ampersands := by
  constructor
  · intro hsame
    have hitems : r.namedSubresources = r'.namedSubresources := subresources_eq_iff.mpr hsame
    rw [resourceLength, resourceLength, ampersands, ampersands, hitems,
      resourcePath_eq_of_same hbuild hbuild' hsame]
    exact ⟨rfl, rfl⟩
  · rintro ⟨hlength, hcount⟩
    have hlengths : (r.resourcePath ++ subresourceText r.namedSubresources).length =
        (r'.resourcePath ++ subresourceText r'.namedSubresources).length := by
      rw [length_append, length_append, length_subresourceText, length_subresourceText]
      exact hlength
    exact same_of_resource_eq
      (append_inj' (head_append_eq hbuild hbuild') hlengths).2 hcount

theorem same_of_plainValues (hplain : r.PlainValues) (hplain' : r'.PlainValues) :
    SameSubresources r r' := by
  have hline : ∀ {r : ServerRequest}, r.PlainValues →
      '\n' ∉ r.resourcePath ++ subresourceText r.namedSubresources := by
    intro r hplain hmem
    rcases mem_append.mp hmem with hpath | htext
    · exact r.resourcePath_plain.1 hpath
    unfold subresourceText at htext
    split at htext
    · cases htext
    rcases mem_cons.mp htext with hmark | hjoined
    · exact absurd hmark (by decide)
    rcases mem_intercalate hjoined with hamp | ⟨part, hpart, hin⟩
    · exact absurd hamp (by decide)
    obtain ⟨item, hitem, rfl⟩ := mem_map.mp hpart
    have hname := (params_plain _ (r.names_params item hitem)).2.2
    have hvalue := (hplain item hitem).2
    unfold subresourceItem at hin
    split at hin
    · exact hname hin
    rcases mem_append.mp hin with hin | hin
    · exact hname hin
    · rcases mem_cons.mp hin with hequals | hin
      · exact absurd hequals (by decide)
      · exact hvalue hin
  have hresource : r.resourcePath ++ subresourceText r.namedSubresources =
      r'.resourcePath ++ subresourceText r'.namedSubresources := by
    have heq := head_append_eq hbuild hbuild'
    obtain ⟨front, hfront⟩ := r.exists_signedHead
    obtain ⟨front', hfront'⟩ := r'.exists_signedHead
    rw [hfront, hfront', append_assoc front, append_assoc front', singleton_append,
      singleton_append] at heq
    exact (append_cons_inj_last (hline hplain) (hline hplain') heq).2
  refine same_of_resource_eq hresource ?_
  -- without ampersands of their own there are as many values as the text says
  have hzero : ∀ {r : ServerRequest}, r.PlainValues →
      r.ampersands = List.replicate r.namedSubresources.length 0 := by
    intro r hplain
    refine eq_replicate_iff.mpr ⟨length_map _, fun n hn => ?_⟩
    obtain ⟨item, hitem, rfl⟩ := mem_map.mp hn
    exact count_eq_zero_of_not_mem (hplain item hitem).1
  rw [hzero hplain, hzero hplain', length_of_plainValues hplain, length_of_plainValues hplain',
    (resource_inj hresource).2]

theorem method_eq : r.method = r'.method := by
  have heq := head_append_eq hbuild hbuild'
  rw [signedHead, signedHead, append_assoc, append_assoc, cons_append, cons_append] at heq
  exact String.toList_inj.mp (append_cons_inj line_notMem_method line_notMem_method heq).1

end

end ServerRequest

/-! ## Routes -/

/-- The router takes the first value of a name from a query that can be decoded. -/
def Libraries.FindsFirst (libraries : Libraries) : Prop :=
  ∀ query pairs, parseQueryStrict query = some pairs → ∀ name,
    libraries.queryValue query name = pairs.lookup name

def QueryMatcher.key : QueryMatcher → Str
  | .present key => key.toList
  | .digits key => key.toList
  | .equals key _ => key.toList

theorem key_mem_params (placement : MetricsPlacement) :
    ∀ route ∈ routes placement, ∀ matcher ∈ route.queries,
      matcher.key ∈ sigV2CanonicalResourceParams := by
  cases placement <;> decide +kernel

theorem QueryMatcher.accepts_congr {libraries : Libraries} {matcher : QueryMatcher}
    {r r' : Request} (hvalue : libraries.queryValue r.rawQuery matcher.key =
      libraries.queryValue r'.rawQuery matcher.key) :
    matcher.accepts libraries r = matcher.accepts libraries r' := by
  cases matcher with
  | present name =>
    rw [key] at hvalue
    rw [accepts, accepts, hvalue]
  | digits name =>
    rw [key] at hvalue
    rw [accepts, accepts, hvalue]
  | equals name value =>
    rw [key] at hvalue
    rw [accepts, accepts, hvalue]

namespace ServerRequest

variable {r r' : ServerRequest} {text : Str}

/-- The request as it is routed: an empty path is the root. -/
def served (r : ServerRequest) : Request := { r.toRequest with path := r.canonicalPath }

theorem parseQueryStrict_of_build (hbuild : r.buildV2StringToSign = .ok text) :
    parseQueryStrict r.rawQuery = some (parseQuery r.rawQuery) := by
  unfold parseQueryStrict
  split
  · rfl
  rename_i hfails
  rw [buildV2StringToSign, buildV2CanonicalizedResource, parseQueryStrict,
    if_neg hfails] at hbuild
  cases hbuild

/-- Requests with the same sub-resources and one text go to the same handler. -/
theorem dispatch_served_eq {libraries : Libraries} (hfinds : libraries.FindsFirst)
    (placement : MetricsPlacement) (hbuild : r.buildV2StringToSign = .ok text)
    (hbuild' : r'.buildV2StringToSign = .ok text) (hsame : SameSubresources r r')
    (hform : isPostObjectRequest libraries r.served = false)
    (hform' : isPostObjectRequest libraries r'.served = false) :
    dispatch libraries placement r.served = dispatch libraries placement r'.served := by
  have hpath : r.served.path = r'.served.path := by
    have hdecoded := pathUnescape_resourcePath r
    rw [resourcePath_eq_of_same hbuild hbuild' hsame, pathUnescape_resourcePath r'] at hdecoded
    exact (Option.some.inj hdecoded).symm
  have hmethod : r.served.method = r'.served.method := method_eq hbuild hbuild'
  have hroute : ∀ route ∈ routes placement,
      route.accepts libraries r.served = route.accepts libraries r'.served := by
    intro route hroute
    have hqueries : (route.queries.all fun matcher => matcher.accepts libraries r.served) =
        route.queries.all fun matcher => matcher.accepts libraries r'.served := by
      rw [Bool.eq_iff_iff, all_eq_true, all_eq_true]
      refine forall₂_congr fun matcher hmatcher => ?_
      rw [QueryMatcher.accepts_congr]
      have hkey := key_mem_params placement route hroute matcher hmatcher
      have hvalue := hfinds _ _ (parseQueryStrict_of_build hbuild) matcher.key
      have hvalue' := hfinds _ _ (parseQueryStrict_of_build hbuild') matcher.key
      exact hvalue.trans ((hsame _ hkey).trans hvalue'.symm)
    rw [Route.accepts, Route.accepts, hpath, hmethod, hqueries, hform, hform']
  rw [dispatch, dispatch, List.find?_congr hroute]

/-- **Signature V2 signs the operation** if the text shows where the resource begins and where
its values end, in particular if the values have neither ampersands nor line breaks. -/
theorem same_operation_iff (r r' : ServerRequest) (text : Str)
    (hbuild : r.buildV2StringToSign = .ok text) (hbuild' : r'.buildV2StringToSign = .ok text) :
    (SameSubresources r r' ↔
        r.resourceLength = r'.resourceLength ∧ r.ampersands = r'.ampersands) ∧
      (r.PlainValues → r'.PlainValues → SameSubresources r r') ∧
      (SameSubresources r r' → ∀ (libraries : Libraries) (placement : MetricsPlacement),
        libraries.FindsFirst → isPostObjectRequest libraries r.served = false →
        isPostObjectRequest libraries r'.served = false →
        dispatch libraries placement r.served = dispatch libraries placement r'.served) := by
  refine ⟨same_iff hbuild hbuild', same_of_plainValues hbuild hbuild', ?_⟩
  intro hsame libraries placement hfinds hform hform'
  exact dispatch_served_eq hfinds placement hbuild hbuild' hsame hform hform'

def partRequest : ServerRequest where
  method := "PUT"
  path := "/b/k".toList
  rawQuery := "partNumber=1&uploadId=U".toList
  forceQuery := false
  headers := []
  escapedPath := "/b/k".toList
  host := "s3".toList
  contentLength := 0
  method_token := isToken_put
  host_line := rootRequest.host_line

def partRequestReordered : ServerRequest :=
  { partRequest with
    rawQuery := "uploadId=U&partNumber=1".toList
    query_bytes := by decide +kernel }

/-- One sub-resource whose value looks like another one. -/
def objectRequest : ServerRequest :=
  { partRequest with
    rawQuery := "partNumber=1%26uploadId%3DU".toList
    query_bytes := by decide +kernel }

def partText : Str := "PUT\n\n\n\n/b/k?partNumber=1&uploadId=U".toList

theorem build_partRequest : partRequest.buildV2StringToSign = .ok partText := by decide +kernel

instance (r : ServerRequest) : Decidable r.PlainValues := List.decidableBAll _ _

theorem same_parts : SameSubresources partRequest partRequestReordered :=
  (same_operation_iff partRequest partRequestReordered partText build_partRequest
    (by decide +kernel)).2.1 (by decide +kernel) (by decide +kernel)

def firstValueLibraries : Libraries where
  queryValue query name := (parseQuery query).lookup name
  parseMediaType _ := none

/-- One text for the upload of a part and the upload of an object. -/
theorem part_signed_as_object :
    partRequest.buildV2StringToSign = .ok partText ∧
      objectRequest.buildV2StringToSign = .ok partText ∧
      ¬ SameSubresources partRequest objectRequest ∧
      dispatch firstValueLibraries .last partRequest.served = some .uploadPart ∧
      dispatch firstValueLibraries .last objectRequest.served = some .putObject := by
  refine ⟨build_partRequest, by decide +kernel, ?_, by decide +kernel, by decide +kernel⟩
  intro hsame
  have hupload := hsame "uploadId".toList (by decide +kernel)
  exact absurd hupload (by decide +kernel)

end ServerRequest

end S3EncryptionGateway.Api
