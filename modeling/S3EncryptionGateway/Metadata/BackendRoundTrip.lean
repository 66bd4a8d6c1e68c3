import S3EncryptionGateway.Library.MapRange
import S3EncryptionGateway.Metadata.Keys

/-!
# User metadata, to the backend and back

A write request names its metadata in headers that begin with `x-amz-meta-`.  The
gateway refuses the names it keeps for itself, adds its own metadata, and hands the map
to the client library of the backend, which sends every entry as a header.  On the way
there and back the names change five times:

* `convertMetadata` takes `x-amz-meta-` off, since the library puts it on again;
* the library puts it on, and on reading takes it off and lowers the case;
* `extractMetadata` puts it on unless the name has it already;
* `normalizeBackendKeys` settles the case.

## Strategy

* `mem_userMetadata_iff` and `not_reserved_of_mem_userMetadata` say which keys an
  accepted request has.
* `renameAll_backendNames` computes the five renamings of one name.  All names come
  back as they were except those that begin with `x-amz-meta-` twice: they lose one,
  because `extractMetadata` takes the second for the one it would add.
* Without such a name `Piped.eq_of_forall_renameAll_eq` gives the whole map back.  With
  one, the longest such name is not in the map read back: only a longer one could have
  become it.
-/

namespace S3EncryptionGateway.Metadata

open Text MapRange List

/-! ## Reading a write request -/

structure S3Error where
  code : Str
  message : Str
  httpStatus : ℕ
  deriving DecidableEq

structure WriteMetadata where
  user : Map Str Str
  standard : Standard

def reservedError (name : Str) : S3Error where
  code := "InvalidArgument".toList
  message := "Metadata key ".toList ++ name ++ " is reserved by the encryption gateway.".toList
  httpStatus := 400

/-- The loop over the request headers. -/
def userMetadata (user : Map Str Str) : List (Str × List Str) → Except S3Error (Map Str Str)
  | [] => .ok user
  | (_, []) :: rest => userMetadata user rest
  | (name, value :: _) :: rest =>
    if ¬amzMeta <+: lowerAscii name then userMetadata user rest
    else if isGatewayReservedKey (lowerAscii name) then .error (reservedError name)
    else userMetadata (user.insert (lowerAscii name) value) rest

def parseWriteMetadata (standardVisits : StandardHeader → List (Str × List Str))
    (visits : List (Str × List Str)) : Except S3Error WriteMetadata := do
  let user ← userMetadata ∅ visits
  return { user, standard := Standard.fromHeader standardVisits }

/-- The header has a value and its name, in lower case, is a key of user metadata. -/
def NamesKey (header : Str × List Str) (key : Str) : Prop :=
  header.2 ≠ [] ∧ amzMeta <+: key ∧ lowerAscii header.1 = key

theorem userMetadata_cons_of_meta {name value : Str} {values : List Str}
    (hmeta : amzMeta <+: lowerAscii name)
    (hreserved : isGatewayReservedKey (lowerAscii name) = false) (user : Map Str Str)
    (rest : List (Str × List Str)) :
    userMetadata user ((name, value :: values) :: rest) =
      userMetadata (user.insert (lowerAscii name) value) rest := by
  simp [userMetadata, hmeta, hreserved]

theorem userMetadata_cons_of_other {name : Str} (hother : ¬amzMeta <+: lowerAscii name)
    (values : List Str) (user : Map Str Str) (rest : List (Str × List Str)) :
    userMetadata user ((name, values) :: rest) = userMetadata user rest := by
  cases values <;> simp [userMetadata, hother]

variable {visits : List (Str × List Str)}

open Finmap

theorem mem_userMetadata_iff {user out : Map Str Str} (hout : userMetadata user visits = .ok out)
    (key : Str) : key ∈ out ↔ key ∈ user ∨ ∃ header ∈ visits, NamesKey header key := by
  fun_induction userMetadata user visits with
  | case1 user =>
    cases hout
    simp
  | case2 user _ rest ih =>
    simp [ih hout, NamesKey]
  | case3 user name value values rest hother ih =>
    have hnot : ¬NamesKey (name, value :: values) key := by
      rintro ⟨-, hmeta, rfl⟩
      exact hother hmeta
    simp [ih hout, hnot]
  | case4 => cases hout
  | case5 user name value values rest hmeta _ ih =>
    have hnames : NamesKey (name, value :: values) key ↔ key = lowerAscii name := by
      constructor
      · rintro ⟨-, -, rfl⟩
        rfl
      · rintro rfl
        exact ⟨cons_ne_nil _ _, not_not.mp hmeta, rfl⟩
    rw [ih hout, mem_insert]
    simp only [mem_cons, exists_eq_or_imp, hnames]
    tauto

theorem not_reserved_of_mem_userMetadata {user out : Map Str Str}
    (hout : userMetadata user visits = .ok out)
    (huser : ∀ key ∈ user, isGatewayReservedKey key = false) :
    ∀ key ∈ out, isGatewayReservedKey key = false := by
  fun_induction userMetadata user visits with
  | case1 user =>
    cases hout
    exact huser
  | case2 user _ rest ih => exact ih hout huser
  | case3 user name value values rest hother ih => exact ih hout huser
  | case4 => cases hout
  | case5 user name value values rest hmeta hreserved ih =>
    apply ih hout
    intro key hkey
    rcases mem_insert.mp hkey with rfl | hkey
    · exact Bool.not_eq_true _ ▸ hreserved
    · exact huser key hkey

/-! ## The names on their way -/

def convertKey (key : Str) : Str :=
  if amzMeta.length < key.length ∧ equalFold (key.take amzMeta.length) amzMeta then
    key.drop amzMeta.length
  else key

def convertMetadata : List (Str × Str) → Map Str Str :=
  renameKeys convertKey

/-- The header under which the library sends an entry. -/
def sdkHeaderName (name : Str) : Str :=
  amzMeta ++ name

/-- The name under which the library gives a header of the backend's answer. -/
def sdkMetadataName (header : Str) : Str :=
  lowerAscii (header.drop amzMeta.length)

def extractKey (key : Str) : Str :=
  if amzMeta.length ≤ key.length ∧ equalFold (key.take amzMeta.length) amzMeta then
    lowerAscii key
  else amzMeta ++ key

def extractMetadata : List (Str × Str) → Map Str Str :=
  renameKeys extractKey

def normalizeKey (key : Str) : Str :=
  if "x-amz-".toList <+: lowerAscii key then lowerAscii key
  else if equalFold key "etag".toList then "ETag".toList
  else canonicalHeaderKey key

def normalizeBackendKeys : List (Str × Str) → Map Str Str :=
  renameKeys normalizeKey

/-- What happens to a map that is written to the backend and read back.  The backend
keeps the headers as they are. -/
def backendLoops : List (List (Str × Str) → Map Str Str) :=
  [convertMetadata, renameKeys sdkHeaderName, renameKeys sdkMetadataName, extractMetadata,
    normalizeBackendKeys]

def backendNames : List (Str → Str) :=
  [convertKey, sdkHeaderName, sdkMetadataName, extractKey, normalizeKey]

theorem backendLoops_eq : backendLoops = backendNames.map renameKeys := rfl

/-! ## The name that comes back -/

@[simp]
theorem lowerAscii_amzMeta : lowerAscii amzMeta = amzMeta := by decide

variable {key : Str}

theorem equalFold_take_amzMeta_iff (hlower : lowerAscii key = key) :
    equalFold (key.take amzMeta.length) amzMeta = true ↔ amzMeta <+: key := by
  have htake : lowerAscii (key.take amzMeta.length) = key.take amzMeta.length := by
    conv_rhs => rw [← hlower]
    exact map_take
  rw [equalFold, decide_eq_true_iff, htake, lowerAscii_amzMeta, prefix_iff_eq_take]
  exact eq_comm

theorem convertKey_amzMeta : convertKey amzMeta = amzMeta := by decide

theorem convertKey_amzMeta_append {rest : Str} (hne : rest ≠ []) :
    convertKey (amzMeta ++ rest) = rest := by
  have hlong : amzMeta.length < (amzMeta ++ rest).length := by
    rw [length_append]
    have := length_pos_of_ne_nil hne
    omega
  have hfold : equalFold ((amzMeta ++ rest).take amzMeta.length) amzMeta = true := by
    rw [take_left]
    exact decide_eq_true rfl
  rw [convertKey, if_pos ⟨hlong, hfold⟩, drop_left]

theorem sdkMetadataName_sdkHeaderName (name : Str) :
    sdkMetadataName (sdkHeaderName name) = lowerAscii name := by
  rw [sdkMetadataName, sdkHeaderName, drop_left]

theorem extractKey_of_lower (hlower : lowerAscii key = key) :
    extractKey key = if amzMeta <+: key then key else amzMeta ++ key := by
  have hcondition : (amzMeta.length ≤ key.length ∧
      equalFold (key.take amzMeta.length) amzMeta = true) ↔ amzMeta <+: key := by
    rw [equalFold_take_amzMeta_iff hlower, and_iff_right_iff_imp]
    exact List.IsPrefix.length_le
  rw [extractKey, if_congr hcondition hlower rfl]

theorem normalizeKey_of_lower (hlower : lowerAscii key = key) (hmeta : amzMeta <+: key) :
    normalizeKey key = key := by
  have hamz : "x-amz-".toList <+: lowerAscii key := by
    rw [hlower]
    exact List.IsPrefix.trans (by decide) hmeta
  rw [normalizeKey, if_pos hamz, hlower]

/-- A name comes back as it was, unless `x-amz-meta-` stands in it twice: then one is lost. -/
theorem renameAll_backendNames {rest : Str} (hlower : lowerAscii rest = rest) :
    renameAll backendNames (amzMeta ++ rest) =
      if amzMeta <+: rest then rest else amzMeta ++ rest := by
  have hchain : ∀ converted, lowerAscii converted = converted →
      convertKey (amzMeta ++ rest) = converted →
      renameAll backendNames (amzMeta ++ rest) =
        if amzMeta <+: converted then converted else amzMeta ++ converted := by
    intro converted hconverted hconvert
    simp only [renameAll, backendNames, foldl_cons, foldl_nil]
    rw [hconvert, sdkMetadataName_sdkHeaderName, hconverted, extractKey_of_lower hconverted]
    split_ifs with hmeta
    · exact normalizeKey_of_lower hconverted hmeta
    · apply normalizeKey_of_lower _ (prefix_append _ _)
      rw [lowerAscii_append, lowerAscii_amzMeta, hconverted]
  by_cases hne : rest = []
  · -- a name that is nothing but `x-amz-meta-` is kept whole on writing
    subst hne
    rw [hchain amzMeta lowerAscii_amzMeta (by rw [append_nil]; exact convertKey_amzMeta)]
    decide
  · exact hchain rest hlower (convertKey_amzMeta_append hne)

theorem renameAll_backendNames_of_not_doubled (hmeta : amzMeta <+: key)
    (hlower : lowerAscii key = key) (hdoubled : ¬amzMeta ++ amzMeta <+: key) :
    renameAll backendNames key = key := by
  obtain ⟨rest, rfl⟩ := hmeta
  rw [lowerAscii_append, lowerAscii_amzMeta, append_right_inj] at hlower
  rw [prefix_append_right_inj] at hdoubled
  rw [renameAll_backendNames hlower, if_neg hdoubled]

/-! ## Client metadata stays client metadata -/

/-- Whatever the orders of the loops are, the map read back has the gateway's keys
exactly as the gateway wrote them and every key of the client with its value. -/
def MetadataKept (user gateway : Map Str Str) : Prop :=
  ∀ back, Piped backendLoops (user ∪ gateway) back →
    (∀ key, isGatewayReservedKey key = true → back.lookup key = gateway.lookup key) ∧
    ∀ key value, user.lookup key = some value → back.lookup key = some value

/-- Metadata of an accepted request beside metadata of the gateway. -/
structure Accepted (user gateway : Map Str Str) : Prop where
  amzMeta_isPrefix : ∀ key ∈ user, amzMeta <+: key
  lower : ∀ key ∈ user, lowerAscii key = key
  not_reserved : ∀ key ∈ user, isGatewayReservedKey key = false
  gateway_mem : ∀ key ∈ gateway, key ∈ gatewayKeys

namespace Accepted

variable {user gateway : Map Str Str}

section

variable (haccepted : Accepted user gateway)

include haccepted

theorem shape_of_mem_union (hkey : key ∈ user ∪ gateway) :
    amzMeta <+: key ∧ lowerAscii key = key := by
  rcases mem_union.mp hkey with huser | hgateway
  · exact ⟨haccepted.amzMeta_isPrefix key huser, haccepted.lower key huser⟩
  · obtain ⟨hmeta, hlower, -⟩ := shape_of_mem_gatewayKeys key (haccepted.gateway_mem key hgateway)
    exact ⟨hmeta, hlower⟩

/-- Only a key of the client can begin with `x-amz-meta-` twice. -/
theorem mem_user_of_doubled (hkey : key ∈ user ∪ gateway) (hdoubled : amzMeta ++ amzMeta <+: key) :
    key ∈ user := by
  rcases mem_union.mp hkey with huser | hgateway
  · exact huser
  · obtain ⟨-, -, hnot⟩ := shape_of_mem_gatewayKeys key (haccepted.gateway_mem key hgateway)
    exact absurd hdoubled hnot

theorem metadataKept_of_not_doubled (hnone : ∀ key ∈ user, ¬amzMeta ++ amzMeta <+: key) :
    MetadataKept user gateway := by
  intro back hback
  rw [backendLoops_eq] at hback
  have hid : ∀ key ∈ user ∪ gateway, renameAll backendNames key = key := by
    intro key hkey
    obtain ⟨hmeta, hlower⟩ := haccepted.shape_of_mem_union hkey
    apply renameAll_backendNames_of_not_doubled hmeta hlower
    intro hdoubled
    exact hnone key (haccepted.mem_user_of_doubled hkey hdoubled) hdoubled
  obtain rfl := hback.eq_of_forall_renameAll_eq hid
  constructor
  · intro key hreserved
    apply lookup_union_right
    intro huser
    rw [haccepted.not_reserved key huser] at hreserved
    cases hreserved
  · intro key value hlookup
    have hmem : key ∈ user := mem_iff.mpr ⟨value, hlookup⟩
    rw [lookup_union_left hmem, hlookup]

/-- The longest of the keys that begin with `x-amz-meta-` twice is lost. -/
theorem not_metadataKept_of_doubled (hkey : key ∈ user) (hdoubled : amzMeta ++ amzMeta <+: key) :
    ¬MetadataKept user gateway := by
  intro hkept
  obtain ⟨longest, hmem, hlongest⟩ := Finset.exists_max_image
    (user.keys.filter (amzMeta ++ amzMeta <+: ·)) List.length
    ⟨key, Finset.mem_filter.mpr ⟨mem_keys.mpr hkey, hdoubled⟩⟩
  obtain ⟨huser, htwice⟩ := Finset.mem_filter.mp hmem
  obtain ⟨value, hvalue⟩ := mem_iff.mp (mem_keys.mp huser)
  obtain ⟨back, hback⟩ := exists_piped backendLoops (user ∪ gateway)
  have hlookup := (hkept back hback).2 longest value hvalue
  rw [backendLoops_eq] at hback
  obtain ⟨source, hsource, hrename⟩ := hback.exists_of_mem (mem_iff.mpr ⟨value, hlookup⟩)
  obtain ⟨hmeta, hlower⟩ := haccepted.shape_of_mem_union hsource
  by_cases hsourceTwice : amzMeta ++ amzMeta <+: source
  · -- the key it came from is longer by one `x-amz-meta-`
    have hsourceUser := haccepted.mem_user_of_doubled hsource hsourceTwice
    have hle : source.length ≤ longest.length :=
      hlongest source
        (Finset.mem_filter.mpr ⟨mem_keys.mpr hsourceUser, hsourceTwice⟩)
    obtain ⟨rest, rfl⟩ := hmeta
    rw [lowerAscii_append, lowerAscii_amzMeta, append_right_inj] at hlower
    rw [renameAll_backendNames hlower,
      if_pos ((prefix_append_right_inj _).mp hsourceTwice)] at hrename
    subst hrename
    rw [length_append] at hle
    have hpositive : 0 < amzMeta.length := by decide
    omega
  · rw [renameAll_backendNames_of_not_doubled hmeta hlower hsourceTwice] at hrename
    exact hsourceTwice (hrename ▸ htwice)

end

end Accepted

theorem userMetadata_of_parseWriteMetadata {standardVisits : StandardHeader → List (Str × List Str)}
    {written : WriteMetadata} (hparse : parseWriteMetadata standardVisits visits = .ok written) :
    userMetadata ∅ visits = .ok written.user := by
  unfold parseWriteMetadata at hparse
  rcases huser : userMetadata ∅ visits with error | user
  · rw [huser] at hparse
    cases hparse
  · rw [huser] at hparse
    cases hparse
    rfl

section

variable {headers : Map Str (List Str)} (standardVisits : StandardHeader → Order headers)
  (visits : Order headers) {written : WriteMetadata}

theorem accepted_of_parseWriteMetadata
    (hparse : parseWriteMetadata (fun header => (standardVisits header).entries) visits.entries =
      .ok written) {gateway : Map Str Str} (hgateway : ∀ key ∈ gateway, key ∈ gatewayKeys) :
    Accepted written.user gateway := by
  have huser := userMetadata_of_parseWriteMetadata hparse
  have hnames : ∀ key ∈ written.user, ∃ header, NamesKey header key := by
    intro key hkey
    rcases (mem_userMetadata_iff huser key).mp hkey with hempty | ⟨header, -, hnames⟩
    · exact absurd hempty notMem_empty
    · exact ⟨header, hnames⟩
  refine ⟨?_, ?_, ?_, hgateway⟩
  · intro key hkey
    obtain ⟨header, -, hmeta, -⟩ := hnames key hkey
    exact hmeta
  · intro key hkey
    obtain ⟨header, -, -, rfl⟩ := hnames key hkey
    exact lowerAscii_lowerAscii _
  · apply not_reserved_of_mem_userMetadata huser
    intro key hempty
    exact absurd hempty notMem_empty

/-- **Client metadata never becomes gateway metadata, and comes back as it was, exactly
when no header with a value begins with `x-amz-meta-x-amz-meta-`** in any spelling. -/
theorem metadataKept_iff
    (hparse : parseWriteMetadata (fun header => (standardVisits header).entries) visits.entries =
      .ok written) {gateway : Map Str Str} (hgateway : ∀ key ∈ gateway, key ∈ gatewayKeys) :
    MetadataKept written.user gateway ↔
      ∀ name values, headers.lookup name = some values → values ≠ [] →
        ¬amzMeta ++ amzMeta <+: lowerAscii name := by
  have haccepted := accepted_of_parseWriteMetadata standardVisits visits hparse hgateway
  have huser := userMetadata_of_parseWriteMetadata hparse
  constructor
  · intro hkept name values hlookup hvalues hdoubled
    have hmeta : amzMeta <+: lowerAscii name :=
      (prefix_append amzMeta amzMeta).trans hdoubled
    have hkey : lowerAscii name ∈ written.user := by
      apply (mem_userMetadata_iff huser _).mpr
      exact .inr ⟨(name, values), (visits.mem_iff name values).mpr hlookup, hvalues, hmeta, rfl⟩
    exact haccepted.not_metadataKept_of_doubled hkey hdoubled hkept
  · intro hheaders
    apply haccepted.metadataKept_of_not_doubled
    intro key hkey
    rcases (mem_userMetadata_iff huser key).mp hkey with hempty | ⟨header, hmem, hvalues, -, rfl⟩
    · exact absurd hempty notMem_empty
    · exact hheaders header.1 header.2 ((visits.mem_iff _ _).mp hmem) hvalues

end

/-! ## Two requests -/

def sampleHeaders : List (Str × List Str) :=
  [("Content-Type".toList, ["text/plain".toList]), ("X-Amz-Meta-Owner".toList, ["alice".toList])]

def sampleGateway : Map Str Str :=
  renameKeys id [("x-amz-meta-encrypted".toList, "true".toList)]

def sampleUser : Map Str Str :=
  renameKeys id [("x-amz-meta-owner".toList, "alice".toList)]

theorem userMetadata_sampleHeaders : userMetadata ∅ sampleHeaders = .ok sampleUser := by
  have hother : ¬amzMeta <+: lowerAscii "Content-Type".toList := by decide
  have hmeta : amzMeta <+: lowerAscii "X-Amz-Meta-Owner".toList := by decide
  have hreserved : isGatewayReservedKey (lowerAscii "X-Amz-Meta-Owner".toList) = false := by
    decide +kernel
  have hlower : lowerAscii "X-Amz-Meta-Owner".toList = "x-amz-meta-owner".toList := by decide
  rw [sampleHeaders, userMetadata_cons_of_other hother, userMetadata_cons_of_meta hmeta hreserved,
    hlower]
  rfl

theorem metadataKept_sample :
    (userMetadata ∅ sampleHeaders = .ok sampleUser) ∧ MetadataKept sampleUser sampleGateway := by
  have hnodup : (sampleHeaders.map Prod.fst).Nodup := by decide
  have hparse : parseWriteMetadata (fun _ => sampleHeaders) sampleHeaders =
      .ok ⟨sampleUser, Standard.fromHeader fun _ => sampleHeaders⟩ := by
    rw [parseWriteMetadata, userMetadata_sampleHeaders]
    rfl
  have hgateway : ∀ key ∈ sampleGateway, key ∈ gatewayKeys := by
    intro key hkey
    rcases mem_insert.mp hkey with rfl | hempty
    · decide +kernel
    · exact absurd hempty notMem_empty
  have hnone : ∀ header ∈ sampleHeaders, ¬amzMeta ++ amzMeta <+: lowerAscii header.1 := by
    decide
  let order := Order.ofEntries sampleHeaders hnodup
  refine ⟨userMetadata_sampleHeaders,
    (metadataKept_iff (fun _ => order) order hparse hgateway).mpr ?_⟩
  intro name values hlookup _
  exact hnone (name, values) ((order.mem_iff name values).mpr hlookup)

/-- A client's header whose name holds the gateway's marker after a second `x-amz-meta-`. -/
def promotedHeaders : List (Str × List Str) :=
  [("X-Amz-Meta-X-Amz-Meta-Encrypted".toList, ["true".toList])]

def promotedUser : Map Str Str :=
  renameKeys id [("x-amz-meta-x-amz-meta-encrypted".toList, "true".toList)]

theorem userMetadata_promotedHeaders : userMetadata ∅ promotedHeaders = .ok promotedUser := by
  have hmeta : amzMeta <+: lowerAscii "X-Amz-Meta-X-Amz-Meta-Encrypted".toList := by decide
  have hreserved :
      isGatewayReservedKey (lowerAscii "X-Amz-Meta-X-Amz-Meta-Encrypted".toList) = false := by
    decide +kernel
  have hlower : lowerAscii "X-Amz-Meta-X-Amz-Meta-Encrypted".toList =
      "x-amz-meta-x-amz-meta-encrypted".toList := by
    decide
  rw [promotedHeaders, userMetadata_cons_of_meta hmeta hreserved, hlower]
  rfl

/-- The request is accepted, the gateway writes nothing of its own, and the map read back
has the gateway's marker with the client's value. -/
theorem not_metadataKept_promoted :
    userMetadata ∅ promotedHeaders = .ok promotedUser ∧
      (∃ back, Piped backendLoops (promotedUser ∪ ∅) back ∧
        back.lookup "x-amz-meta-encrypted".toList = some "true".toList) ∧
      ¬MetadataKept promotedUser ∅ := by
  have hpromoted : ∃ back, Piped backendLoops (promotedUser ∪ ∅) back ∧
      back.lookup "x-amz-meta-encrypted".toList = some "true".toList := by
    obtain ⟨back, hback⟩ := exists_piped backendLoops (promotedUser ∪ ∅)
    have hnames : Piped (backendNames.map renameKeys) (promotedUser ∪ ∅) back := hback
    have hsingle : ∀ key ∈ promotedUser ∪ ∅,
        key = "x-amz-meta-x-amz-meta-encrypted".toList := by
      intro key hkey
      rw [union_empty] at hkey
      rcases mem_insert.mp hkey with rfl | hempty
      · rfl
      · exact absurd hempty notMem_empty
    have hinj : Set.InjOn (renameAll backendNames) {key | key ∈ promotedUser ∪ ∅} := by
      intro key₁ h₁ key₂ h₂ _
      rw [hsingle key₁ h₁, hsingle key₂ h₂]
    refine ⟨back, hback, (hnames.lookup_eq_some_iff hinj).mpr ?_⟩
    exact ⟨"x-amz-meta-x-amz-meta-encrypted".toList, by decide, by decide⟩
  refine ⟨userMetadata_promotedHeaders, hpromoted, ?_⟩
  intro hkept
  obtain ⟨back, hback, hlookup⟩ := hpromoted
  have hreserved : isGatewayReservedKey "x-amz-meta-encrypted".toList = true := by decide
  rw [(hkept back hback).1 _ hreserved, lookup_empty] at hlookup
  cases hlookup

end S3EncryptionGateway.Metadata
