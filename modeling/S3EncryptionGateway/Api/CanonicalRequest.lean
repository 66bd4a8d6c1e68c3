import S3EncryptionGateway.Library.Separators
import S3EncryptionGateway.Library.UriEncoding
import S3EncryptionGateway.Library.Scan
import S3EncryptionGateway.Api.AuthChain

/-!
# The canonical request of Signature V4

The signature covers a text with the method, the path, the query, the signed headers, their
names and the hash of the payload, separated by line breaks.  The block of headers has one line
for each signed header that the request has, and headers that it does not have are left out.  The
names of the signed headers come from the request itself.

## Strategy

The text is taken apart from the front: method, path and query have no line breaks, and the
block of headers ends with the first empty line.  What is left are the names of the signed
headers and the payload hash.  The names of a presigned query may have line breaks, so these two
are taken apart at the last one.

* `encodePath_inj` and `queryItems_perm` say what the path and the query determine,
* `headerValue_eq` says that the lines determine each signed header and whether it is there,
* `canonicalRequest_injective` puts them together.
-/

namespace S3EncryptionGateway.Api

open Text Separators Decimal List

/-! ## Requests -/

/-- A request as the server hands it on: the method and the header names are tokens, the names in
their usual spelling, and header values have one line. -/
structure ServerRequest extends Request where
  escapedPath : Str
  host : Str
  contentLength : Int64
  method_token : IsToken method.toList := by decide +kernel
  header_token : ∀ h ∈ headers, IsToken h.1 := by decide +kernel
  header_canonical : ∀ h ∈ headers, canonicalHeaderKey h.1 = h.1 := by decide +kernel
  header_line : ∀ h ∈ headers, '\n' ∉ h.2 := by decide +kernel
  host_line : '\n' ∉ host := by decide +kernel
  path_bytes : IsBytes path := by decide +kernel
  path_escaped : pathUnescape escapedPath = some path := by decide +kernel
  query_bytes : IsBytes rawQuery := by decide +kernel
  escaped_plain : '\n' ∉ escapedPath ∧ '?' ∉ escapedPath := by decide +kernel

namespace ServerRequest

variable (r : ServerRequest)

/-- All values of the headers with this name in lower case. -/
def headerValues (name : Str) : List Str :=
  (r.headers.filter fun h => toLower h.1 = name).map Prod.snd

/-- The values that are signed for a name.  The host, and the length if it is known, stand in for
headers that the server has taken out. -/
def signedValues (name : Str) : Option (List Str) :=
  if r.headerValues name ≠ [] then some (r.headerValues name)
  else if name = "host".toList ∧ r.host ≠ [] then some [r.host]
  else if name = "content-length".toList ∧ 0 ≤ r.contentLength then
    some [formatInt r.contentLength.toInt]
  else none

/-- The values, trimmed and joined by commas. -/
def headerValue (name : Str) : Option Str :=
  (r.signedValues name).map fun values => [','].intercalate (values.map trimSpace)

/-- The query carries the signature. -/
def isPresigned : Bool := r.query "X-Amz-Algorithm" = "AWS4-HMAC-SHA256".toList

end ServerRequest

/-! ## The authorization header -/

/-- The parameters after "AWS4-HMAC-SHA256 ". -/
def authorizationParams (header : Str) : List (Str × Str) :=
  ((header.drop 17).splitOn ',').filterMap fun part =>
    match cut '=' (trimSpace part) with
    | (name, some value) => some (name, value)
    | (_, none) => none

/-- Of several parameters with one name the last counts. -/
def authorizationParam (header : Str) (name : String) : Str :=
  firstValue (authorizationParams header).reverse name.toList

def ServerRequest.signedHeaders (r : ServerRequest) : List Str :=
  if r.isPresigned then (r.query "X-Amz-SignedHeaders").splitOn ';'
  else (authorizationParam (r.header "Authorization") "SignedHeaders").splitOn ';'

/-! ## The text -/

/-- Percent-encoding with spaces written out. -/
def uriEncode (text : Str) : Str := replaceAll '+' "%20".toList (queryEscape text)

def encodePath (path : Str) : Str := ['/'].intercalate ((path.splitOn '/').map uriEncode)

def sortStrings (texts : List Str) : List Str := texts.insertionSort (· ≤ ·)

theorem sortStrings_perm (texts : List Str) : (sortStrings texts).Perm texts :=
  List.perm_insertionSort _ _

theorem sortStrings_eq_of_perm {texts texts' : List Str} (hperm : texts.Perm texts') :
    sortStrings texts = sortStrings texts' := by
  refine List.Perm.eq_of_pairwise' (r := (· ≤ ·)) ?_ ?_
    ((sortStrings_perm _).trans (hperm.trans (sortStrings_perm _).symm))
  · exact pairwise_insertionSort _ _
  · exact pairwise_insertionSort _ _

def signatureKey : Str := "X-Amz-Signature".toList

variable (pairs : List (Str × Str))

/-- The names of the query, each once and without the signature. -/
def queryKeys : List Str :=
  ((pairs.map Prod.fst).dedup).filter (· ≠ signatureKey)

/-- The pairs by name, and for each name by value. -/
def queryItems : List (Str × Str) :=
  (sortStrings (queryKeys pairs)).flatMap fun name =>
    (sortStrings ((pairs.filter (·.1 = name)).map Prod.snd)).map fun value => (name, value)

def encodeItem (item : Str × Str) : Str := uriEncode item.1 ++ '=' :: uriEncode item.2

def canonicalQuery : Str :=
  ['&'].intercalate ((queryItems pairs).map encodeItem)

namespace ServerRequest

variable (r : ServerRequest)

/-- An empty path is the root. -/
def canonicalPath : Str := if r.path = [] then ['/'] else r.path

def headerLines (signedHeaders : List Str) : List Str :=
  (sortStrings signedHeaders).filterMap fun name =>
    (r.headerValue (toLower name)).map fun value => toLower name ++ ':' :: value

def payloadHash (isPresigned : Bool) : Str :=
  if isPresigned ∨ r.header "X-Amz-Content-Sha256" = [] then "UNSIGNED-PAYLOAD".toList
  else r.header "X-Amz-Content-Sha256"

def createCanonicalRequest (isPresigned : Bool) (signedHeaders : List Str) : Str :=
  r.method.toList ++ '\n' :: (encodePath r.canonicalPath ++ '\n' ::
    (canonicalQuery (parseQuery r.rawQuery) ++ '\n' ::
      (closeLines '\n' (r.headerLines signedHeaders) ++ '\n' ::
        ([';'].intercalate (sortStrings signedHeaders) ++ '\n' :: r.payloadHash isPresigned))))

/-- The canonical request as the validator asks for it. -/
def canonicalRequest : Str := r.createCanonicalRequest r.isPresigned r.signedHeaders

end ServerRequest

/-! ## Path and query -/

variable {text : Str}

theorem uriEncode_eq (hbytes : IsBytes text) : uriEncode text = percentEncode text :=
  replaceAll_queryEscape hbytes

theorem isBytes_splitOn {part : Str} {c : Char} (hbytes : IsBytes text)
    (hpart : part ∈ text.splitOn c) : IsBytes part :=
  fun d hd => hbytes d (mem_of_mem_splitOn hpart hd)

theorem mem_encoded_segments {path segment : Str}
    (hmem : segment ∈ (path.splitOn '/').map uriEncode) (hbytes : IsBytes path) :
    '/' ∉ segment ∧ '\n' ∉ segment := by
  obtain ⟨part, hpart, rfl⟩ := mem_map.mp hmem
  have hpart_bytes := isBytes_splitOn hbytes hpart
  rw [uriEncode_eq hpart_bytes]
  exact ⟨separator_notMem_percentEncode (by simp) hpart_bytes,
    separator_notMem_percentEncode (by simp) hpart_bytes⟩

theorem map_inj_of_mem {α β : Type*} {f : α → β} {l l' : List α}
    (hinj : ∀ a ∈ l, ∀ b ∈ l', f a = f b → a = b) (heq : l.map f = l'.map f) : l = l' := by
  induction l generalizing l' with
  | nil => exact (map_eq_nil_iff.mp heq.symm).symm
  | cons a l ih =>
    cases l' with
    | nil => cases heq
    | cons b l' =>
      obtain ⟨hhead, htail⟩ := List.cons.inj heq
      rw [hinj a mem_cons_self b mem_cons_self hhead, ih ?_ htail]
      exact fun c hc d hd => hinj c (mem_cons_of_mem _ hc) d (mem_cons_of_mem _ hd)

theorem uriEncode_inj {text' : Str} (hbytes : IsBytes text) (hbytes' : IsBytes text')
    (heq : uriEncode text = uriEncode text') : text = text' := by
  rw [uriEncode_eq hbytes, uriEncode_eq hbytes'] at heq
  have hread := queryUnescape_percentEncode hbytes
  rw [heq, queryUnescape_percentEncode hbytes'] at hread
  exact (Option.some.inj hread).symm

theorem encodePath_inj {path path' : Str} (hbytes : IsBytes path) (hbytes' : IsBytes path')
    (heq : encodePath path = encodePath path') : path = path' := by
  have hsegments : (path.splitOn '/').map uriEncode = (path'.splitOn '/').map uriEncode := by
    refine intercalate_inj (fun s hs => (mem_encoded_segments hs hbytes).1)
      (fun s hs => (mem_encoded_segments hs hbytes').1) ?_ ?_ heq
    · simp
    · simp
  have hsplit : path.splitOn '/' = path'.splitOn '/' := by
    refine map_inj_of_mem ?_ hsegments
    intro s hs s' hs' hsame
    exact uriEncode_inj (isBytes_splitOn hbytes hs) (isBytes_splitOn hbytes' hs') hsame
  calc path = ['/'].intercalate (path.splitOn '/') := (intercalate_splitOn '/').symm
    _ = ['/'].intercalate (path'.splitOn '/') := by rw [hsplit]
    _ = path' := intercalate_splitOn '/'

theorem line_notMem_encodePath {path : Str} (hbytes : IsBytes path) : '\n' ∉ encodePath path := by
  intro hmem
  rcases mem_intercalate hmem with hslash | ⟨segment, hsegment, hline⟩
  · exact absurd hslash (by decide)
  · exact (mem_encoded_segments hsegment hbytes).2 hline

variable (r : ServerRequest)

theorem isBytes_canonicalPath : IsBytes r.canonicalPath := by
  unfold ServerRequest.canonicalPath
  split
  · intro c hc
    rw [mem_singleton.mp hc]
    decide
  · exact r.path_bytes

theorem mem_of_mem_cut {separator c : Char}
    (hmem : c ∈ (cut separator text).1 ∨ c ∈ (cut separator text).2.getD []) : c ∈ text := by
  unfold cut at hmem
  split at hmem
  · simpa using hmem
  rename_i first after hafter
  rcases hmem with hmem | hmem
  · exact (takeWhile_sublist (· ≠ separator)).mem hmem
  · refine (dropWhile_sublist (· ≠ separator)).mem ?_
    rw [hafter]
    exact mem_cons_of_mem _ hmem

theorem isBytes_of_mem_parseQuery {query : Str} (hbytes : IsBytes query) {pair : Str × Str}
    (hpair : pair ∈ parseQuery query) : IsBytes pair.1 ∧ IsBytes pair.2 := by
  obtain ⟨segment, hsegment, hparse⟩ := mem_filterMap.mp hpair
  have hbytes' := isBytes_splitOn hbytes hsegment
  unfold parsePair at hparse
  split at hparse
  · cases hparse
  obtain ⟨name, hname, hparse⟩ := Option.bind_eq_some_iff.mp hparse
  obtain ⟨value, hvalue, hparse⟩ := Option.bind_eq_some_iff.mp hparse
  cases hparse
  exact ⟨isBytes_queryUnescape (fun c hc => hbytes' c (mem_of_mem_cut (.inl hc))) hname,
    isBytes_queryUnescape (fun c hc => hbytes' c (mem_of_mem_cut (.inr hc))) hvalue⟩

theorem flatMap_filter_perm {α β : Type*} [DecidableEq α] {keys : List α} (hnodup : keys.Nodup)
    {pairs : List (α × β)} {p : α × β → Bool} (hp : ∀ pair ∈ pairs, p pair ↔ pair.1 ∈ keys) :
    (keys.flatMap fun key => pairs.filter (·.1 = key)).Perm (pairs.filter p) := by
  induction keys generalizing p with
  | nil =>
    rw [flatMap_nil, filter_eq_nil_iff.mpr]
    exact fun pair hpair hsome => absurd ((hp pair hpair).mp hsome) not_mem_nil
  | cons key keys ih =>
    obtain ⟨hkey, hnodup⟩ := nodup_cons.mp hnodup
    have hrest := ih (p := fun pair => !decide (pair.1 = key) && p pair) hnodup (by
      intro pair hpair
      rw [Bool.and_eq_true, hp pair hpair, Bool.not_eq_true', decide_eq_false_iff_not, mem_cons]
      constructor
      · rintro ⟨hne, hmem⟩
        exact hmem.resolve_left hne
      · intro hmem
        exact ⟨fun heq => hkey (heq ▸ hmem), .inr hmem⟩)
    have hfirst : pairs.filter (·.1 = key) =
        (pairs.filter p).filter (·.1 = key) := by
      rw [filter_filter]
      refine filter_congr fun pair hpair => ?_
      by_cases heq : pair.1 = key
      · have hpkey := (hp pair hpair).mpr (heq ▸ mem_cons_self)
        simp [heq, hpkey]
      · simp [heq]
    rw [flatMap_cons, hfirst]
    rw [← filter_filter] at hrest
    exact (hrest.append_left _).trans (filter_append_perm _ _)

/-- The items are the pairs of the query in another order. -/
theorem queryItems_perm : (queryItems pairs).Perm (pairs.filter (·.1 ≠ signatureKey)) := by
  have hvalues : ∀ name, ((sortStrings ((pairs.filter (·.1 = name)).map Prod.snd)).map
      fun value => (name, value)).Perm (pairs.filter (·.1 = name)) := by
    intro name
    refine ((sortStrings_perm _).map _).trans (List.Perm.of_eq ?_)
    rw [map_map]
    refine (map_congr_left fun pair hpair => ?_).trans (map_id _)
    have hname : pair.1 = name := by simpa using (mem_filter.mp hpair).2
    rw [← hname]
    rfl
  have hkeys : (queryKeys pairs).Nodup := (nodup_dedup _).filter _
  have hsorted : (queryItems pairs).Perm
      ((queryKeys pairs).flatMap fun name => pairs.filter (·.1 = name)) :=
    (sortStrings_perm _).flatMap fun name _ => hvalues name
  refine hsorted.trans (flatMap_filter_perm hkeys fun pair hpair => ?_)
  have hname : pair.1 ∈ pairs.map Prod.fst := mem_map_of_mem hpair
  simp only [queryKeys, mem_filter, mem_dedup, hname, true_and, decide_eq_true_eq]

theorem isBytes_of_mem_queryItems {item : Str × Str}
    (hitem : item ∈ queryItems (parseQuery r.rawQuery)) : IsBytes item.1 ∧ IsBytes item.2 :=
  isBytes_of_mem_parseQuery r.query_bytes
    (List.mem_of_mem_filter ((queryItems_perm _).mem_iff.mp hitem))

theorem encodeItem_inj {item item' : Str × Str} (hbytes : IsBytes item.1 ∧ IsBytes item.2)
    (hbytes' : IsBytes item'.1 ∧ IsBytes item'.2) (heq : encodeItem item = encodeItem item') :
    item = item' := by
  have hplain : ∀ {text : Str}, IsBytes text → '=' ∉ uriEncode text := by
    intro text htext
    rw [uriEncode_eq htext]
    exact separator_notMem_percentEncode (by simp) htext
  obtain ⟨hname, hvalue⟩ := append_cons_inj (hplain hbytes.1) (hplain hbytes'.1) heq
  exact Prod.ext (uriEncode_inj hbytes.1 hbytes'.1 hname) (uriEncode_inj hbytes.2 hbytes'.2 hvalue)

theorem separator_notMem_encodeItem {c : Char} (hsep : c = '&' ∨ c = '\n') {item : Str × Str}
    (hbytes : IsBytes item.1 ∧ IsBytes item.2) : c ∉ encodeItem item := by
  intro hmem
  have hequals : c ≠ '=' := by
    rcases hsep with rfl | rfl
    · decide
    · decide
  have hplain : ∀ {text : Str}, IsBytes text → c ∉ uriEncode text := by
    intro text htext
    rw [uriEncode_eq htext]
    exact separator_notMem_percentEncode (by tauto) htext
  rw [encodeItem, mem_append, mem_cons] at hmem
  rcases hmem with hname | heq | hvalue
  · exact hplain hbytes.1 hname
  · exact hequals heq
  · exact hplain hbytes.2 hvalue

theorem encoded_items_plain {c : Char} (hsep : c = '&' ∨ c = '\n')
    (htext : text ∈ (queryItems (parseQuery r.rawQuery)).map encodeItem) : c ∉ text := by
  obtain ⟨item, hitem, rfl⟩ := mem_map.mp htext
  exact separator_notMem_encodeItem hsep (isBytes_of_mem_queryItems r hitem)

theorem line_notMem_canonicalQuery : '\n' ∉ canonicalQuery (parseQuery r.rawQuery) := by
  intro hmem
  rcases mem_intercalate hmem with hamp | ⟨text, htext, hline⟩
  · exact absurd hamp (by decide)
  · exact encoded_items_plain r (.inr rfl) htext hline

/-- The query determines its pairs up to their order. -/
theorem perm_of_canonicalQuery_eq {r r' : ServerRequest}
    (heq : canonicalQuery (parseQuery r.rawQuery) = canonicalQuery (parseQuery r'.rawQuery)) :
    ((parseQuery r.rawQuery).filter (·.1 ≠ signatureKey)).Perm
      ((parseQuery r'.rawQuery).filter (·.1 ≠ signatureKey)) := by
  have hpart : ∀ r : ServerRequest,
      ∀ text ∈ (queryItems (parseQuery r.rawQuery)).map encodeItem, text ≠ [] ∧ '&' ∉ text := by
    intro r text htext
    refine ⟨?_, encoded_items_plain r (.inl rfl) htext⟩
    obtain ⟨item, -, rfl⟩ := mem_map.mp htext
    simp [encodeItem]
  have hitems : queryItems (parseQuery r.rawQuery) = queryItems (parseQuery r'.rawQuery) := by
    refine map_inj_of_mem ?_ (intercalate_inj_of_ne_nil (hpart r) (hpart r') heq)
    intro item hitem item' hitem' hsame
    exact encodeItem_inj (isBytes_of_mem_queryItems r hitem) (isBytes_of_mem_queryItems r' hitem')
      hsame
  exact (queryItems_perm _).symm.trans (hitems ▸ queryItems_perm _)

/-! ## Headers -/

theorem line_notMem_formatInt (n : ℤ) : '\n' ∉ formatInt n := by
  have hdigits : ∀ m : ℕ, '\n' ∉ formatNat m := by
    intro m hmem
    obtain ⟨digit, hdigit, hchar⟩ := exists_of_mem_formatNat hmem
    have hten := congrArg Char.toNat hchar
    rw [toNat_digitChar hdigit] at hten
    have hline : ('\n').toNat = 10 := rfl
    omega
  cases n with
  | ofNat m => exact hdigits m
  | negSucc m =>
    intro hmem
    rcases mem_cons.mp hmem with hminus | hmem
    · exact absurd hminus (by decide)
    · exact hdigits (m + 1) hmem

/-- A header that can be signed has a token as its name and one line as its value. -/
theorem plain_of_headerValue {r : ServerRequest} {name value : Str}
    (hvalue : r.headerValue name = some value) :
    '\n' ∉ name ∧ ':' ∉ name ∧ '\n' ∉ value := by
  obtain ⟨values, hvalues, rfl⟩ := Option.map_eq_some_iff.mp hvalue
  have hplain : ('\n' ∉ name ∧ ':' ∉ name) ∧ ∀ v ∈ values, '\n' ∉ v := by
    unfold ServerRequest.signedValues at hvalues
    split at hvalues
    · rename_i hne
      cases hvalues
      constructor
      · obtain ⟨h, hh⟩ := exists_mem_of_ne_nil _ hne
        obtain ⟨header, hheader, -⟩ := mem_map.mp hh
        obtain ⟨hheader, hname⟩ := mem_filter.mp hheader
        rw [← of_decide_eq_true hname]
        have htoken := r.header_token header hheader
        constructor
        · intro hmem
          exact absurd (htoken _ (mem_of_mem_toLower (by decide) hmem)) (by decide)
        · intro hmem
          exact absurd (htoken _ (mem_of_mem_toLower (by decide) hmem)) (by decide)
      · intro v hv
        obtain ⟨header, hheader, rfl⟩ := mem_map.mp hv
        exact r.header_line header (mem_of_mem_filter hheader)
    · split at hvalues
      · rename_i hhost
        cases hvalues
        rw [hhost.1]
        exact ⟨by decide, fun v hv => mem_singleton.mp hv ▸ r.host_line⟩
      · split at hvalues <;> cases hvalues
        rename_i hlength
        rw [hlength.1]
        exact ⟨by decide, fun v hv => mem_singleton.mp hv ▸ line_notMem_formatInt _⟩
  refine ⟨hplain.1.1, hplain.1.2, ?_⟩
  intro hmem
  rcases mem_intercalate hmem with hcomma | ⟨part, hpart, hline⟩
  · exact absurd hcomma (by decide)
  · obtain ⟨v, hv, rfl⟩ := mem_map.mp hpart
    exact hplain.2 v hv (mem_of_mem_trimSpace hline)

namespace ServerRequest

variable {r r' : ServerRequest}

variable {signedHeaders : List Str}

theorem mem_headerLines {line : Str} :
    line ∈ r.headerLines signedHeaders ↔ ∃ name ∈ signedHeaders, ∃ value,
      r.headerValue (toLower name) = some value ∧ toLower name ++ ':' :: value = line := by
  simp [headerLines, (sortStrings_perm _).mem_iff]

theorem plain_of_mem_headerLines {line : Str} (hline : line ∈ r.headerLines signedHeaders) :
    line ≠ [] ∧ '\n' ∉ line := by
  obtain ⟨name, -, value, hvalue, rfl⟩ := mem_headerLines.mp hline
  obtain ⟨hname, -, hvalue⟩ := plain_of_headerValue hvalue
  simp [hname, hvalue]

/-- A line that both requests sign for a name has the same value in both. -/
theorem headerValue_of_mem {signedHeaders' : List Str} {name value : Str}
    (hlines : r.headerLines signedHeaders = r'.headerLines signedHeaders')
    (hname : name ∈ signedHeaders) (hvalue : r.headerValue (toLower name) = some value) :
    r'.headerValue (toLower name) = some value := by
  have hline : toLower name ++ ':' :: value ∈ r'.headerLines signedHeaders' :=
    hlines ▸ mem_headerLines.mpr ⟨name, hname, value, hvalue, rfl⟩
  obtain ⟨name', -, value', hvalue', hsame⟩ := mem_headerLines.mp hline
  obtain ⟨hlower, rfl⟩ := append_cons_inj (plain_of_headerValue hvalue').2.1
    (plain_of_headerValue hvalue).2.1 hsame
  rw [← hlower]
  exact hvalue'

/-! ## The whole text -/

theorem signedHeaders_ne_nil : r.signedHeaders ≠ [] := by
  unfold signedHeaders
  split
  · exact splitOn_ne_nil _ _
  · exact splitOn_ne_nil _ _

theorem separator_notMem_signedHeaders {name : Str} (hname : name ∈ r.signedHeaders) :
    ';' ∉ name := by
  unfold signedHeaders at hname
  split at hname
  · exact notMem_of_mem_splitOn hname
  · exact notMem_of_mem_splitOn hname

theorem sortStrings_signedHeaders_eq
    (heq : [';'].intercalate (sortStrings r.signedHeaders) =
      [';'].intercalate (sortStrings r'.signedHeaders)) :
    sortStrings r.signedHeaders = sortStrings r'.signedHeaders := by
  have hplain : ∀ r : ServerRequest, ∀ name ∈ sortStrings r.signedHeaders, ';' ∉ name :=
    fun r name hname => separator_notMem_signedHeaders ((sortStrings_perm _).mem_iff.mp hname)
  have hne : ∀ r : ServerRequest, sortStrings r.signedHeaders ≠ [] := by
    intro r hempty
    have hperm := sortStrings_perm r.signedHeaders
    rw [hempty] at hperm
    exact r.signedHeaders_ne_nil hperm.nil_eq.symm
  exact intercalate_inj (hplain r) (hplain r') (hne r) (hne r') heq

theorem line_notMem_header (name : String) : '\n' ∉ r.header name := by
  rw [Request.header, firstValue]
  cases hlookup : r.headers.lookup name.toList with
  | none =>
    rw [Option.getD_none]
    exact not_mem_nil
  | some value =>
    obtain ⟨before, after, hsplit, -⟩ := lookup_eq_some_iff.mp hlookup
    refine r.header_line (name.toList, value) ?_
    rw [hsplit]
    exact mem_append_cons_self

theorem line_notMem_payloadHash (isPresigned : Bool) : '\n' ∉ r.payloadHash isPresigned := by
  unfold payloadHash
  split
  · decide
  · exact r.line_notMem_header _

theorem line_notMem_method : '\n' ∉ r.method.toList :=
  fun hmem => absurd (r.method_token _ hmem) (by decide)

/-- Two requests that a signature cannot tell apart. -/
structure Alike (r r' : ServerRequest) : Prop where
  method : r.method = r'.method
  path : r.canonicalPath = r'.canonicalPath
  query : ((parseQuery r.rawQuery).filter (·.1 ≠ signatureKey)).Perm
    ((parseQuery r'.rawQuery).filter (·.1 ≠ signatureKey))
  signedHeaders : r.signedHeaders.Perm r'.signedHeaders
  headers : ∀ name ∈ r.signedHeaders, r.headerValue (toLower name) = r'.headerValue (toLower name)
  payload : r.payloadHash r.isPresigned = r'.payloadHash r'.isPresigned

/-- **The canonical request is injective.** Requests with one text have the same method, path,
query, signed headers and payload hash. -/
theorem canonicalRequest_injective (r r' : ServerRequest)
    (heq : r.canonicalRequest = r'.canonicalRequest) : Alike r r' := by
  unfold canonicalRequest createCanonicalRequest at heq
  obtain ⟨hmethod, heq⟩ := append_cons_inj line_notMem_method line_notMem_method heq
  obtain ⟨hpath, heq⟩ := append_cons_inj (line_notMem_encodePath (isBytes_canonicalPath r))
    (line_notMem_encodePath (isBytes_canonicalPath r')) heq
  obtain ⟨hquery, heq⟩ := append_cons_inj (line_notMem_canonicalQuery r)
    (line_notMem_canonicalQuery r') heq
  obtain ⟨hlines, heq⟩ := closeLines_inj (fun _ hline => plain_of_mem_headerLines hline)
    (fun _ hline => plain_of_mem_headerLines hline) heq
  -- the names may have line breaks, but the payload hash has none
  obtain ⟨hnames, hpayload⟩ := append_cons_inj_last (line_notMem_payloadHash _)
    (line_notMem_payloadHash _) heq
  have hsorted := sortStrings_signedHeaders_eq hnames
  have hperm : r.signedHeaders.Perm r'.signedHeaders :=
    (sortStrings_perm _).symm.trans (hsorted ▸ sortStrings_perm _)
  exact {
    method := String.toList_inj.mp hmethod
    path := encodePath_inj (isBytes_canonicalPath r) (isBytes_canonicalPath r') hpath
    query := perm_of_canonicalQuery_eq hquery
    signedHeaders := hperm
    headers := fun name hname => Option.ext fun value => ⟨headerValue_of_mem hlines hname,
      headerValue_of_mem hlines.symm (hperm.mem_iff.mp hname)⟩
    payload := hpayload }

/-- A request of the root without a path. -/
def rootRequest : ServerRequest where
  method := "GET"
  path := []
  rawQuery := "list-type=2".toList
  forceQuery := false
  headers := [("Authorization".toList, "AWS4-HMAC-SHA256 SignedHeaders=x-amz-date;host".toList),
    ("X-Amz-Date".toList, "20260101T000000Z".toList)]
  escapedPath := []
  host := "s3".toList
  contentLength := 0

/-- The same request with a path, and with the signed headers named in order. -/
def slashRequest : ServerRequest :=
  { rootRequest with
    path := ['/']
    escapedPath := ['/']
    headers := [("Authorization".toList, "AWS4-HMAC-SHA256 SignedHeaders=host;x-amz-date".toList),
      ("X-Amz-Date".toList, "20260101T000000Z".toList)]
    header_token := by decide +kernel
    header_canonical := by decide +kernel
    header_line := by decide +kernel
    path_bytes := by decide +kernel
    path_escaped := by decide +kernel
    escaped_plain := by decide +kernel }

theorem isToken_put : IsToken "PUT".toList := by decide +kernel

theorem canonicalRequest_rootRequest :
    rootRequest.canonicalRequest = slashRequest.canonicalRequest := by decide +kernel

theorem alike_root_slash : Alike rootRequest slashRequest :=
  canonicalRequest_injective rootRequest slashRequest canonicalRequest_rootRequest

/-- An empty path is signed as the root, and the signed headers are signed in order. -/
theorem canonicalRequest_forgets :
    rootRequest.isPresigned = slashRequest.isPresigned ∧
      rootRequest.canonicalRequest = slashRequest.canonicalRequest ∧
      rootRequest.path ≠ slashRequest.path ∧
      rootRequest.signedHeaders ≠ slashRequest.signedHeaders :=
  ⟨by decide +kernel, canonicalRequest_rootRequest, by decide +kernel, by decide +kernel⟩

end ServerRequest

end S3EncryptionGateway.Api
