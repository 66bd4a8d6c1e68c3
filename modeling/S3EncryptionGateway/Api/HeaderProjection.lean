import S3EncryptionGateway.Api.ResponseHeaders

/-!
# The projection of response headers is exact, if it has room

The value array of `projectObjectHeaders` is allocated for the stored metadata and sixteen
more, before the decrypted metadata is merged in.  If the response is to have more headers
than that, the code panics.  Apart from this the projection is exact.

## Strategy

* `Projected` lists the headers the response is to have, each with its reason.
  `mem_names_iff` says these are the names set, so with `Slots.putAll_eq_none_iff` the panic
  is a matter of counting them.
* The fields set before and after the loop over the metadata belong to the gateway:
  `ownNames` are their names.  Inside the loop every field keeps the name of its key up to
  case (`projectEntry_cases`), so different keys do not collide when no two are equal
  ignoring case.
* Without collisions the order of the visits does not matter (`store_eq_of_perm`), and the
  value of a user key is the one set in the loop (`lookup_headerMap_of_user`).
-/

namespace S3EncryptionGateway.Api

open Text MapRange SlotStore Metadata List

/-- A key of user metadata that the gateway did not reserve. -/
def IsUserMetadata (key : Str) : Prop :=
  amzMeta <+: lowerAscii key ∧ isGatewayReservedKey key = false

/-- No two differently spelled keys of the two maps are equal ignoring case. -/
def ObjectResponseSource.CaseDistinct (src : ObjectResponseSource) : Prop :=
  ∀ key key', (key ∈ src.stored ∨ key ∈ src.decrypted) →
    (key' ∈ src.stored ∨ key' ∈ src.decrypted) → lowerAscii key = lowerAscii key' → key = key'

/-! ## The headers a response is to have -/

section

variable {src : ObjectResponseSource} {shape : ResponseShape} (orders : Orders src shape)

inductive Projected : Str → Prop where
  | standard (header : StandardHeader) : orders.projectedStandardValue header ≠ [] →
      Projected (canonicalHeaderKey header.name)
  | user (key : Str) : key ∈ src.merged → IsUserMetadata key →
      Projected (canonicalHeaderKey (lowerAscii key))
  | passedOn (key : Str) : key ∈ src.merged → isPassedOn (lowerAscii key) = true →
      Projected (canonicalHeaderKey key)
  | etag : orders.etagValue ≠ [] → Projected (canonicalHeaderKey etagHeader)
  | version : orders.versionValue ≠ [] → Projected (canonicalHeaderKey versionIdHeader)
  | contentLength : 0 ≤ src.plainSize ∨ shape.range.isSome = true →
      Projected (canonicalHeaderKey contentLengthHeader)
  | contentRange : shape.range.isSome = true ∨ shape.unsatisfiedRangeTotal.isSome = true →
      Projected (canonicalHeaderKey contentRangeHeader)
  | override (key : Str) (header : StandardHeader) (value : Str) (values : List Str) :
      shape.method = methodGet → shape.overrides.lookup key = some (value :: values) →
      overriddenHeader key = some header → Projected (canonicalHeaderKey header.name)
  | noStore : orders.responseUsesSSECustomer .cacheControl = true →
      Projected (canonicalHeaderKey StandardHeader.cacheControl.name)
  | acceptRanges : Projected (canonicalHeaderKey acceptRangesHeader)

end

/-! ## Names -/

/-- The names of the fields that the gateway sets itself. -/
def ownNames : List Str :=
  standardHeaders.map StandardHeader.name ++
    [etagHeader, versionIdHeader, contentLengthHeader, contentRangeHeader, acceptRangesHeader]

/-- The names passed on, apart from those of object locks. -/
def passedOnNames : List Str :=
  ["last-modified".toList, "x-amz-storage-class".toList, "x-amz-mp-parts-count".toList,
    "x-amz-server-side-encryption".toList, "x-amz-server-side-encryption-aws-kms-key-id".toList,
    "x-amz-server-side-encryption-bucket-key-enabled".toList,
    "x-amz-server-side-encryption-customer-algorithm".toList,
    "x-amz-server-side-encryption-customer-key-md5".toList, "x-amz-expiration".toList,
    "x-amz-website-redirect-location".toList]

/-- A name, in lower case, that is neither user metadata nor reserved. -/
def IsBackendName (name : Str) : Prop :=
  ¬amzMeta <+: name ∧ ¬"encryption-".toList <+: name ∧ name ≠ []

instance (name : Str) : Decidable (IsBackendName name) :=
  inferInstanceAs (Decidable (_ ∧ _))

theorem isBackendName_of_mem_ownNames :
    ∀ name ∈ ownNames, IsBackendName (lowerAscii name) := by
  decide

theorem isBackendName_of_mem_passedOnNames : ∀ name ∈ passedOnNames, IsBackendName name := by
  decide

variable {name : Str}

theorem isBackendName_of_objectLock (hlock : "x-amz-object-lock-".toList <+: name) :
    IsBackendName name := by
  refine ⟨?_, ?_, ?_⟩
  · intro hmeta
    rcases prefix_or_prefix_of_prefix hlock hmeta with hle | hle <;>
      exact absurd hle (by decide)
  · intro hold
    rcases prefix_or_prefix_of_prefix hlock hold with hle | hle <;>
      exact absurd hle (by decide)
  · rintro rfl
    exact absurd (prefix_nil.mp hlock) (by decide)

variable {key : Str}

theorem isBackendName_of_isPassedOn (hpassed : isPassedOn (lowerAscii key) = true) :
    IsBackendName (lowerAscii key) := by
  have hcases : "x-amz-object-lock-".toList <+: lowerAscii key ∨
      lowerAscii key ∈ passedOnNames := by
    simp only [isPassedOn, isProjectedSSEHeader, lowerAscii_lowerAscii, Bool.or_eq_true,
      decide_eq_true_iff, mem_cons, not_mem_nil, or_false] at hpassed
    rcases hpassed with
      (((((hlock | hname) | hname) | hname) | hname | hname | hname | hname | hname) | hname) |
        hname
    · exact .inl hlock
    all_goals
      right
      rw [hname]
      decide
  rcases hcases with hlock | hmem
  · exact isBackendName_of_objectLock hlock
  · exact isBackendName_of_mem_passedOnNames _ hmem

theorem IsBackendName.not_reserved (hname : IsBackendName (lowerAscii key)) :
    isGatewayReservedKey key = false := by
  rw [Bool.eq_false_iff, Ne, isGatewayReservedKey_iff]
  intro hmem
  obtain ⟨hmeta, hold, hempty⟩ := hname
  rcases shape_of_mem_reservedNames _ hmem with heq | hmeta' | hold'
  · exact hempty heq
  · exact hmeta hmeta'
  · exact hold hold'

theorem mem_projectedReservedMetadataKeys_iff (hmeta : amzMeta <+: lowerAscii key) :
    lowerAscii key ∈ projectedReservedMetadataKeys ↔ isGatewayReservedKey key = true := by
  rw [isGatewayReservedKey_iff, projectedReservedMetadataKeys, reservedNames, mem_cons,
    mem_cons, mem_filterMap, mem_map]
  apply or_congr
  · rw [show lowerAscii originalContentLength = originalContentLength by decide]
  · constructor
    · rintro ⟨name, hmem, hname⟩
      split at hname
      · exact ⟨name, hmem, Option.some.inj hname⟩
      · cases hname
    · rintro ⟨name, hmem, hname⟩
      refine ⟨name, hmem, ?_⟩
      rw [hname, if_pos hmeta]

/-! ## The loop over the metadata -/

/-- **What the loop does with an entry.** -/
theorem projectEntry_cases (key value : Str) :
    (IsUserMetadata key ∧ projectEntry (key, value) = [(lowerAscii key, value)]) ∨
    (isPassedOn (lowerAscii key) = true ∧ projectEntry (key, value) = [(key, value)]) ∨
    (¬IsUserMetadata key ∧ isPassedOn (lowerAscii key) = false ∧
      projectEntry (key, value) = []) := by
  by_cases hmeta : amzMeta <+: lowerAscii key
  · have hnotPassed : isPassedOn (lowerAscii key) = false := by
      rw [Bool.eq_false_iff]
      intro hpassed
      exact (isBackendName_of_isPassedOn hpassed).1 hmeta
    rcases hreserved : isGatewayReservedKey key with - | -
    · have hnot : lowerAscii key ∉ projectedReservedMetadataKeys := by
        rw [mem_projectedReservedMetadataKeys_iff hmeta, hreserved]
        exact Bool.false_ne_true
      left
      exact ⟨⟨hmeta, hreserved⟩, by simp [projectEntry, hmeta, hnot, hnotPassed]⟩
    · have hmem : lowerAscii key ∈ projectedReservedMetadataKeys := by
        rw [mem_projectedReservedMetadataKeys_iff hmeta, hreserved]
      right
      right
      refine ⟨?_, hnotPassed, by simp [projectEntry, hmeta, hmem]⟩
      rintro ⟨-, hfree⟩
      rw [hreserved] at hfree
      cases hfree
  · have hnotUser : ¬IsUserMetadata key := fun huser => hmeta huser.1
    rcases hpassed : isPassedOn (lowerAscii key) with - | -
    · exact .inr (.inr ⟨hnotUser, rfl, by simp [projectEntry, hmeta, hpassed]⟩)
    · exact .inr (.inl ⟨rfl, by simp [projectEntry, hmeta, hpassed]⟩)

theorem map_lowerAscii_flatMap_projectEntry_sublist (visits : List (Str × Str)) :
    ((visits.flatMap projectEntry).map fun field => lowerAscii field.1).Sublist
      (visits.map fun entry => lowerAscii entry.1) := by
  induction visits with
  | nil => exact List.Sublist.refl _
  | cons entry visits ih =>
    rw [flatMap_cons, map_append, map_cons]
    rcases projectEntry_cases entry.1 entry.2 with ⟨-, heq⟩ | ⟨-, heq⟩ | ⟨-, -, heq⟩
    · rw [heq, map_singleton, singleton_append, lowerAscii_lowerAscii]
      exact ih.cons_cons _
    · rw [heq, map_singleton, singleton_append]
      exact ih.cons_cons _
    · rw [heq, map_nil, nil_append]
      exact ih.cons _

/-! ## The names set -/

variable {field : Str × Str}

variable {value : Str}

theorem mem_fieldOf_iff : field ∈ fieldOf name value ↔ value ≠ [] ∧ field = (name, value) := by
  unfold fieldOf
  split <;> simp_all

theorem projectOverride_eq_some_iff {values : List Str} {header : StandardHeader} :
    projectOverride (key, values) = some (header, value) ↔
      ∃ rest, values = value :: rest ∧ overriddenHeader key = some header := by
  unfold projectOverride
  cases values with
  | nil => simp
  | cons first rest => simp [Option.bind_eq_some_iff, and_comm]

variable {src : ObjectResponseSource}

/-- The names that the size and the range set, each with its reason. -/
theorem exists_mem_sizeFields_iff {shape : ResponseShape} :
    (∃ field ∈ sizeFields src shape, field.1 = name) ↔
      (name = contentLengthHeader ∧ (0 ≤ src.plainSize ∨ shape.range.isSome = true)) ∨
      (name = contentRangeHeader ∧
        (shape.range.isSome = true ∨ shape.unsatisfiedRangeTotal.isSome = true)) := by
  unfold sizeFields
  -- which names the two are does not matter
  generalize contentLengthHeader = lengthName, contentRangeHeader = rangeName
  by_cases hsize : 0 ≤ src.plainSize <;> rcases shape.range with - | range <;>
    rcases shape.unsatisfiedRangeTotal with - | total
  all_goals simp [hsize, eq_comm]
  all_goals tauto

open Finmap

namespace Orders

variable {src : ObjectResponseSource} {shape : ResponseShape} (orders : Orders src shape)

theorem mem_overrideFields_iff :
    field ∈ orders.overrideFields ↔ shape.method = methodGet ∧
      ∃ key header value values, shape.overrides.lookup key = some (value :: values) ∧
        overriddenHeader key = some header ∧ field = (header.name, value) := by
  unfold overrideFields
  split
  · rename_i hget
    simp only [mem_map, mem_filterMap, hget, true_and]
    constructor
    · rintro ⟨⟨header, value⟩, ⟨⟨key, values⟩, hmem, hset⟩, rfl⟩
      obtain ⟨rest, rfl, hheader⟩ := projectOverride_eq_some_iff.mp hset
      exact ⟨key, header, value, rest, (orders.overrides.mem_iff _ _).mp hmem, hheader, rfl⟩
    · rintro ⟨key, header, value, rest, hlookup, hheader, rfl⟩
      refine ⟨(header, value), ⟨(key, value :: rest), ?_, ?_⟩, rfl⟩
      · exact (orders.overrides.mem_iff _ _).mpr hlookup
      · exact projectOverride_eq_some_iff.mpr ⟨rest, rfl, hheader⟩
  · rename_i hother
    simp [hother]

theorem mem_ownNames_standard (header : StandardHeader) : header.name ∈ ownNames := by
  apply mem_append_left
  apply mem_map_of_mem
  cases header <;> decide

/-- The fields in the order in which they are set. -/
theorem mem_fields_iff :
    field ∈ orders.fields ↔ field ∈ orders.standardFields ∨ field ∈ orders.metadataFields ∨
      field ∈ orders.finalFields := by
  simp [fields]

theorem mem_standardFields_iff :
    field ∈ orders.standardFields ↔ ∃ header : StandardHeader,
      orders.projectedStandardValue header ≠ [] ∧
        field = (header.name, orders.projectedStandardValue header) := by
  have hall : ∀ header : StandardHeader, header ∈ standardHeaders := by
    intro header
    cases header <;> decide
  simp [standardFields, mem_fieldOf_iff, hall]

theorem mem_finalFields_iff :
    field ∈ orders.finalFields ↔
      (orders.etagValue ≠ [] ∧ field = (etagHeader, orders.etagValue)) ∨
      (orders.versionValue ≠ [] ∧ field = (versionIdHeader, orders.versionValue)) ∨
      field ∈ sizeFields src shape ∨ field ∈ orders.overrideFields ∨
      (orders.responseUsesSSECustomer .cacheControl = true ∧
        field = (StandardHeader.cacheControl.name, "no-store".toList)) ∨
      field = (acceptRangesHeader, "bytes".toList) := by
  unfold finalFields
  split <;> simp_all [mem_fieldOf_iff]

/-- Before and behind the loop only the gateway's own fields are set. -/
theorem name_mem_ownNames (hmem : field ∈ orders.standardFields ∨ field ∈ orders.finalFields) :
    field.1 ∈ ownNames := by
  rcases hmem with hstandard | hfinal
  · obtain ⟨header, -, rfl⟩ := orders.mem_standardFields_iff.mp hstandard
    exact mem_ownNames_standard header
  · rcases orders.mem_finalFields_iff.mp hfinal with ⟨-, rfl⟩ | ⟨-, rfl⟩ | hsize | hoverride |
      ⟨-, rfl⟩ | rfl
    · exact (by decide : etagHeader ∈ ownNames)
    · exact (by decide : versionIdHeader ∈ ownNames)
    · rcases exists_mem_sizeFields_iff.mp ⟨field, hsize, rfl⟩ with ⟨hname, -⟩ | ⟨hname, -⟩
      · rw [hname]
        decide
      · rw [hname]
        decide
    · obtain ⟨-, key, header, value, values, -, -, rfl⟩ := orders.mem_overrideFields_iff.mp hoverride
      exact mem_ownNames_standard header
    · exact mem_ownNames_standard .cacheControl
    · decide

/-- A key of the merged metadata with its field. -/
theorem mem_metadataFields_iff :
    field ∈ orders.metadataFields ↔ ∃ key value, src.merged.lookup key = some value ∧
      ((IsUserMetadata key ∧ field = (lowerAscii key, value)) ∨
        (isPassedOn (lowerAscii key) = true ∧ field = (key, value))) := by
  rw [metadataFields, mem_flatMap, Prod.exists]
  apply exists_congr
  intro key
  apply exists_congr
  intro value
  rw [orders.headers.mem_iff]
  apply and_congr_right
  intro _
  rcases projectEntry_cases key value with ⟨huser, heq⟩ | ⟨hpassed, heq⟩ | ⟨hnot, hnot', heq⟩
  · have hother : ¬isPassedOn (lowerAscii key) = true := fun hpassed =>
      (isBackendName_of_isPassedOn hpassed).1 huser.1
    simp [heq, huser, hother]
  · have hother : ¬IsUserMetadata key := fun huser =>
      (isBackendName_of_isPassedOn hpassed).1 huser.1
    simp [heq, hpassed, hother]
  · simp [heq, hnot, hnot']

/-- **The names set are those the response is to have.** -/
theorem mem_names_iff (name : Str) :
    name ∈ orders.fields.map (fun field => canonicalHeaderKey field.1) ↔
      Projected orders name := by
  simp only [mem_map, mem_fields_iff]
  constructor
  · rintro ⟨field, hstandard | hmetadata | hfinal, rfl⟩
    · obtain ⟨header, hvalue, rfl⟩ := orders.mem_standardFields_iff.mp hstandard
      exact Projected.standard header hvalue
    · obtain ⟨key, value, hlookup, ⟨huser, rfl⟩ | ⟨hpassed, rfl⟩⟩ :=
        orders.mem_metadataFields_iff.mp hmetadata
      · exact Projected.user key (mem_iff.mpr ⟨value, hlookup⟩) huser
      · exact Projected.passedOn key (mem_iff.mpr ⟨value, hlookup⟩) hpassed
    · rcases orders.mem_finalFields_iff.mp hfinal with ⟨hvalue, rfl⟩ | ⟨hvalue, rfl⟩ | hsize |
        hoverride | ⟨hcustomer, rfl⟩ | rfl
      · exact Projected.etag hvalue
      · exact Projected.version hvalue
      · rcases exists_mem_sizeFields_iff.mp ⟨field, hsize, rfl⟩ with ⟨hname, hreason⟩ |
          ⟨hname, hreason⟩
        · exact hname ▸ Projected.contentLength hreason
        · exact hname ▸ Projected.contentRange hreason
      · obtain ⟨hget, key, header, value, values, hlookup, hheader, rfl⟩ :=
          orders.mem_overrideFields_iff.mp hoverride
        exact Projected.override key header value values hget hlookup hheader
      · exact Projected.noStore hcustomer
      · exact Projected.acceptRanges
  · intro hprojected
    have hfinal : ∀ field ∈ orders.finalFields, ∃ field', (field' ∈ orders.standardFields ∨
        field' ∈ orders.metadataFields ∨ field' ∈ orders.finalFields) ∧
          canonicalHeaderKey field'.1 = canonicalHeaderKey field.1 :=
      fun field hfield => ⟨field, .inr (.inr hfield), rfl⟩
    have hsizes : ∀ name, (∃ field ∈ sizeFields src shape, field.1 = name) →
        ∃ field ∈ orders.finalFields, field.1 = name := by
      rintro name ⟨field, hfield, hname⟩
      exact ⟨field, orders.mem_finalFields_iff.mpr (.inr (.inr (.inl hfield))), hname⟩
    cases hprojected with
    | standard header hvalue =>
      exact ⟨_, .inl (orders.mem_standardFields_iff.mpr ⟨header, hvalue, rfl⟩), rfl⟩
    | user key hkey huser =>
      obtain ⟨value, hlookup⟩ := mem_iff.mp hkey
      exact ⟨_, .inr (.inl (orders.mem_metadataFields_iff.mpr
        ⟨key, value, hlookup, .inl ⟨huser, rfl⟩⟩)), rfl⟩
    | passedOn key hkey hpassed =>
      obtain ⟨value, hlookup⟩ := mem_iff.mp hkey
      exact ⟨_, .inr (.inl (orders.mem_metadataFields_iff.mpr
        ⟨key, value, hlookup, .inr ⟨hpassed, rfl⟩⟩)), rfl⟩
    | etag hvalue => exact hfinal _ (orders.mem_finalFields_iff.mpr (.inl ⟨hvalue, rfl⟩))
    | version hvalue =>
      exact hfinal _ (orders.mem_finalFields_iff.mpr (.inr (.inl ⟨hvalue, rfl⟩)))
    | contentLength hreason =>
      obtain ⟨field, hfield, hname⟩ :=
        hsizes _ (exists_mem_sizeFields_iff.mpr (.inl ⟨rfl, hreason⟩))
      exact hname ▸ hfinal field hfield
    | contentRange hreason =>
      obtain ⟨field, hfield, hname⟩ :=
        hsizes _ (exists_mem_sizeFields_iff.mpr (.inr ⟨rfl, hreason⟩))
      exact hname ▸ hfinal field hfield
    | override key header value values hget hlookup hheader =>
      have hfield := orders.mem_overrideFields_iff.mpr
        ⟨hget, key, header, value, values, hlookup, hheader, rfl⟩
      exact hfinal _ (orders.mem_finalFields_iff.mpr (.inr (.inr (.inr (.inl hfield)))))
    | noStore hcustomer =>
      exact hfinal _ (orders.mem_finalFields_iff.mpr
        (.inr (.inr (.inr (.inr (.inl ⟨hcustomer, rfl⟩))))))
    | acceptRanges =>
      exact hfinal _ (orders.mem_finalFields_iff.mpr
        (.inr (.inr (.inr (.inr (.inr rfl))))))

/-- Whose header it is: the gateway's own, a user's, or one that is passed on. -/
theorem origin_of_projected (hprojected : Projected orders name) :
    (∃ own ∈ ownNames, name = canonicalHeaderKey own) ∨
      ∃ key ∈ src.merged, (IsUserMetadata key ∧ name = canonicalHeaderKey (lowerAscii key)) ∨
        (isPassedOn (lowerAscii key) = true ∧ name = canonicalHeaderKey key) := by
  obtain ⟨field, hfield, rfl⟩ := mem_map.mp ((orders.mem_names_iff name).mpr hprojected)
  rcases orders.mem_fields_iff.mp hfield with hstandard | hmetadata | hfinal
  · exact .inl ⟨field.1, orders.name_mem_ownNames (.inl hstandard), rfl⟩
  · obtain ⟨key, value, hlookup, ⟨huser, rfl⟩ | ⟨hpassed, rfl⟩⟩ :=
      orders.mem_metadataFields_iff.mp hmetadata
    · exact .inr ⟨key, mem_iff.mpr ⟨value, hlookup⟩, .inl ⟨huser, rfl⟩⟩
    · exact .inr ⟨key, mem_iff.mpr ⟨value, hlookup⟩, .inr ⟨hpassed, rfl⟩⟩
  · exact .inl ⟨field.1, orders.name_mem_ownNames (.inr hfinal), rfl⟩

/-! ## Room in the array -/

theorem setOf_projected :
    {name | Projected orders name} = ↑(orders.canonicalFields.map Prod.fst).toFinset := by
  ext name
  rw [Set.mem_ofPred_eq, ← orders.mem_names_iff, Finset.mem_coe, mem_toFinset,
    canonicalFields, map_map]
  rfl

/-- **The projection panics exactly when the response is to have more headers than the
array has places.** -/
theorem projectObjectHeaders_eq_none_iff :
    orders.projectObjectHeaders = none ↔
      src.stored.keys.card + 16 < {name | Projected orders name}.ncard := by
  unfold projectObjectHeaders
  rw [Option.map_eq_none_iff, Slots.putAll_eq_none_iff, setOf_projected, Set.ncard_coe_finset]
  have hempty : (Slots.empty : Slots Str Str (src.stored.keys.card + 16)).slot.keys = ∅ :=
    keys_empty
  rw [hempty, Finset.empty_union]

def headerMap : Map Str Str :=
  store canonicalHeaderKey orders.fields ∅

theorem of_projectObjectHeaders {headers : Str → Option (List Str)}
    (hsome : orders.projectObjectHeaders = some headers) (name : Str) :
    headers name = (orders.headerMap.lookup name).map fun value => [value] := by
  obtain ⟨slots, hput, rfl⟩ := Option.map_eq_some_iff.mp hsome
  have hempty : ∀ k, (Slots.empty : Slots Str Str (src.stored.keys.card + 16)).get k =
      (∅ : Map Str Str).lookup k := by
    intro k
    rw [lookup_empty]
    rfl
  have hget : slots.get name = orders.headerMap.lookup name := by
    rw [Slots.get_of_putAll hput hempty name, canonicalFields, store_id_map]
    rfl
  exact congrArg (Option.map fun value => [value]) hget

theorem projected_of_mem_headerMap (hmem : name ∈ orders.headerMap) : Projected orders name := by
  obtain ⟨value, hvalue⟩ := mem_iff.mp hmem
  obtain ⟨key, hfield, rfl⟩ := exists_of_lookup_renameKeys hvalue
  exact (orders.mem_names_iff _).mp (mem_map.mpr ⟨(key, value), hfield, rfl⟩)

/-- No header of the response is reserved. -/
theorem not_reserved_of_projected (hprojected : Projected orders name) :
    isGatewayReservedKey name = false := by
  rcases orders.origin_of_projected hprojected with ⟨own, hown, rfl⟩ |
    ⟨key, -, ⟨huser, rfl⟩ | ⟨hpassed, rfl⟩⟩
  · apply IsBackendName.not_reserved
    rw [lowerAscii_canonicalHeaderKey]
    exact isBackendName_of_mem_ownNames own hown
  · have hlower : lowerAscii (canonicalHeaderKey (lowerAscii key)) = lowerAscii key := by
      rw [lowerAscii_canonicalHeaderKey, lowerAscii_lowerAscii]
    rw [isGatewayReservedKey_congr hlower]
    exact huser.2
  · apply IsBackendName.not_reserved
    rw [lowerAscii_canonicalHeaderKey]
    exact isBackendName_of_isPassedOn hpassed

end Orders

/-! ## Keys that differ in more than case -/

/-- The value of a name does not depend on the order of the visits. -/
theorem metadataValue_eq {m : Map Str Str}
    (hdistinct : ∀ key ∈ m, ∀ key' ∈ m, lowerAscii key = lowerAscii key' → key = key')
    (visits visits' : Order m) (name : Str) :
    metadataValue visits name = metadataValue visits' name := by
  have hunique : ∀ {entry entry' : Str × Str}, entry ∈ visits.entries → entry' ∈ visits.entries →
      equalFold entry.1 name = true → equalFold entry'.1 name = true → entry = entry' := by
    rintro ⟨key, value⟩ ⟨key', value'⟩ hmem hmem' hfold hfold'
    have hlookup := (visits.mem_iff key value).mp hmem
    have hlookup' := (visits.mem_iff key' value').mp hmem'
    have hlower : lowerAscii key = lowerAscii key' :=
      (of_decide_eq_true hfold).trans (of_decide_eq_true hfold').symm
    obtain rfl := hdistinct key (mem_iff.mpr ⟨value, hlookup⟩) key'
      (mem_iff.mpr ⟨value', hlookup'⟩) hlower
    rw [Option.some.inj (hlookup.symm.trans hlookup')]
  have hperm := visits.perm visits'
  have hfind : (visits.entries.find? fun entry => equalFold entry.1 name) =
      visits'.entries.find? fun entry => equalFold entry.1 name := by
    rcases hfound : visits.entries.find? fun entry => equalFold entry.1 name with - | entry
    · rw [hfound, eq_comm, List.find?_eq_none]
      rw [List.find?_eq_none] at hfound
      intro entry hmem
      exact hfound entry (hperm.mem_iff.mpr hmem)
    · have hmem := mem_of_find?_eq_some hfound
      have hfold := List.find?_some (p := fun entry : Str × Str => equalFold entry.1 name) hfound
      rcases hfound' : visits'.entries.find? fun entry => equalFold entry.1 name with - | entry'
      · rw [List.find?_eq_none] at hfound'
        exact absurd hfold (hfound' entry (hperm.mem_iff.mp hmem))
      · have hmem' := hperm.mem_iff.mpr (mem_of_find?_eq_some hfound')
        have hfold' := List.find?_some (p := fun entry : Str × Str => equalFold entry.1 name) hfound'
        rw [hfound, hfound', hunique hmem hmem' hfold hfold']
  unfold metadataValue
  rw [hfind]

namespace ObjectResponseSource

variable {src : ObjectResponseSource}

theorem mem_of_mem_merged (hkey : key ∈ src.merged) : key ∈ src.stored ∨ key ∈ src.decrypted := by
  unfold merged at hkey
  split at hkey
  · exact (mem_union.mp hkey).symm
  · exact .inl hkey

/-- For an encrypted object both maps count, the decrypted one first. -/
theorem merged_of_encrypted (hencrypted : src.encrypted = true) :
    src.merged = src.decrypted ∪ src.stored := by
  unfold merged
  split
  · rfl
  rename_i hnot
  have hnone : ∀ key, key ∉ src.decrypted := by
    intro key hkey
    apply hnot
    exact ⟨hencrypted, Finset.card_pos.mpr ⟨key, mem_keys.mpr hkey⟩⟩
  apply ext_lookup
  intro key
  rw [lookup_union_right (hnone key)]

theorem merged_of_not_encrypted (hencrypted : src.encrypted = false) :
    src.merged = src.stored := by
  unfold merged
  rw [if_neg]
  rintro ⟨htrue, -⟩
  rw [hencrypted] at htrue
  cases htrue

theorem CaseDistinct.merged (hdistinct : src.CaseDistinct) :
    ∀ key ∈ src.merged, ∀ key' ∈ src.merged, lowerAscii key = lowerAscii key' → key = key' := by
  intro key hkey key' hkey'
  exact hdistinct key key' (mem_of_mem_merged hkey) (mem_of_mem_merged hkey')

end ObjectResponseSource

def overrideName : StandardHeader → Str
  | .contentType => "response-content-type".toList
  | .contentLanguage => "response-content-language".toList
  | .expires => "response-expires".toList
  | .cacheControl => "response-cache-control".toList
  | .contentDisposition => "response-content-disposition".toList
  | .contentEncoding => "response-content-encoding".toList

theorem eq_overrideName_of_overriddenHeader {header : StandardHeader}
    (hheader : overriddenHeader key = some header) : key = overrideName header := by
  unfold overriddenHeader at hheader
  repeat' split at hheader
  all_goals first
    | (obtain rfl := Option.some.inj hheader; assumption)
    | cases hheader

open ObjectResponseSource

namespace Orders

variable {src : ObjectResponseSource} {shape : ResponseShape}

theorem nodup_metadataFields (hdistinct : src.CaseDistinct) (orders : Orders src shape) :
    (orders.metadataFields.map fun field => canonicalHeaderKey field.1).Nodup := by
  apply List.Nodup.of_map lowerAscii
  have hlower : (orders.metadataFields.map fun field => canonicalHeaderKey field.1).map lowerAscii =
      orders.metadataFields.map fun field => lowerAscii field.1 := by
    rw [map_map]
    apply map_congr_left
    intro field _
    exact lowerAscii_canonicalHeaderKey field.1
  rw [hlower]
  apply (map_lowerAscii_flatMap_projectEntry_sublist orders.headers.entries).nodup
  have hkeys : (orders.headers.entries.map fun entry => lowerAscii entry.1) =
      (orders.headers.entries.map Prod.fst).map lowerAscii := by
    rw [map_map]
    rfl
  rw [hkeys]
  apply orders.headers.nodup.map_on
  have hmem : ∀ key ∈ orders.headers.entries.map Prod.fst, key ∈ src.merged := by
    intro key hkey
    obtain ⟨entry, hentry, rfl⟩ := mem_map.mp hkey
    exact mem_iff.mpr ⟨entry.2, (orders.headers.mem_iff _ _).mp hentry⟩
  intro key hkey key' hkey' heq
  exact hdistinct.merged key (hmem key hkey) key' (hmem key' hkey') heq

theorem nodup_overrideFields (orders : Orders src shape) :
    (orders.overrideFields.map fun field => canonicalHeaderKey field.1).Nodup := by
  unfold overrideFields
  split
  · rw [map_map]
    have hnames : ((orders.overrides.entries.filterMap projectOverride).map Prod.fst).Nodup := by
      apply List.Nodup.of_map overrideName
      -- every header set comes from its own override
      have hsublist : ∀ entries : List (Str × List Str),
          (((entries.filterMap projectOverride).map Prod.fst).map overrideName).Sublist
            (entries.map Prod.fst) := by
        intro entries
        induction entries with
        | nil => exact List.Sublist.refl _
        | cons entry entries ih =>
          rw [map_cons (f := Prod.fst)]
          rcases hset : projectOverride entry with - | ⟨header, value⟩
          · rw [filterMap_cons_none hset]
            exact ih.cons _
          · obtain ⟨rest, -, hheader⟩ := projectOverride_eq_some_iff.mp hset
            rw [filterMap_cons_some hset, map_cons, map_cons,
              eq_overrideName_of_overriddenHeader hheader]
            exact ih.cons_cons _
      exact (hsublist orders.overrides.entries).nodup orders.overrides.nodup
    have hinj : Function.Injective fun header : StandardHeader =>
        canonicalHeaderKey header.name := by
      intro header header'
      cases header <;> cases header' <;> decide
    have hmapped := hnames.map hinj
    rwa [map_map] at hmapped
  · exact nodup_nil

/-- **Without case collisions the headers do not depend on the orders of the visits.** -/
theorem headerMap_eq (hdistinct : src.CaseDistinct) (orders orders' : Orders src shape) :
    orders.headerMap = orders'.headerMap := by
  have hstored : ∀ site name, metadataValue (orders.stored site name) name =
      metadataValue (orders'.stored site name) name := by
    intro site name
    apply metadataValue_eq
    intro key hkey key' hkey'
    exact hdistinct key key' (.inl hkey) (.inl hkey')
  have hdecrypted : ∀ site name, metadataValue (orders.decrypted site name) name =
      metadataValue (orders'.decrypted site name) name := by
    intro site name
    apply metadataValue_eq
    intro key hkey key' hkey'
    exact hdistinct key key' (.inr hkey) (.inr hkey')
  have hmerged : ∀ site name, metadataValue (orders.merged site name) name =
      metadataValue (orders'.merged site name) name := by
    intro site name
    exact metadataValue_eq hdistinct.merged _ _ _
  have hcustomer : ∀ site, orders.responseUsesSSECustomer site =
      orders'.responseUsesSSECustomer site := by
    intro site
    unfold responseUsesSSECustomer
    rw [hstored]
  have hstandard : orders.standardFields = orders'.standardFields := by
    simp only [standardFields, projectedStandardValue, hstored, hdecrypted]
  have horiginal : orders.originalETagValue = orders'.originalETagValue := by
    unfold originalETagValue
    rw [hmerged, hdecrypted]
  have hetag : orders.etagValue = orders'.etagValue := by
    unfold etagValue
    rw [horiginal, hcustomer]
  have hversion : orders.versionValue = orders'.versionValue := by
    simp only [versionValue, hmerged]
  have hmetadata : orders.metadataFields.Perm orders'.metadataFields :=
    (orders.headers.perm orders'.headers).flatMap_right projectEntry
  have hoverride : orders.overrideFields.Perm orders'.overrideFields := by
    unfold overrideFields
    split
    · exact ((orders.overrides.perm orders'.overrides).filterMap projectOverride).map _
    · exact List.Perm.refl _
  unfold headerMap fields finalFields
  simp only [store_append, hstandard, hetag, hversion, hcustomer]
  rw [store_eq_of_perm hmetadata (nodup_metadataFields hdistinct orders),
    store_eq_of_perm hoverride orders.nodup_overrideFields]

/-- A key of user metadata has the value of the loop: nothing set later has its name. -/
theorem lookup_headerMap_of_user (hdistinct : src.CaseDistinct) (orders : Orders src shape)
    (huser : IsUserMetadata key) (hlookup : src.merged.lookup key = some value) :
    orders.headerMap.lookup (canonicalHeaderKey (lowerAscii key)) = some value := by
  have hfield : (lowerAscii key, value) ∈ orders.metadataFields :=
    orders.mem_metadataFields_iff.mpr ⟨key, value, hlookup, .inl ⟨huser, rfl⟩⟩
  have hlater : ∀ field ∈ orders.finalFields,
      canonicalHeaderKey field.1 ≠ canonicalHeaderKey (lowerAscii key) := by
    intro field hmem heq
    have hown := isBackendName_of_mem_ownNames _ (orders.name_mem_ownNames (.inr hmem))
    have hlower : lowerAscii field.1 = lowerAscii key := by
      rw [← lowerAscii_canonicalHeaderKey, heq, lowerAscii_canonicalHeaderKey,
        lowerAscii_lowerAscii]
    exact hown.1 (hlower ▸ huser.1)
  unfold headerMap fields
  rw [store_append, store_append, lookup_store_of_forall_ne hlater]
  exact lookup_store_of_mem (nodup_metadataFields hdistinct orders) hfield _

theorem mem_merged_of_mem_headerMap (hdistinct : src.CaseDistinct) (orders : Orders src shape)
    (huser : IsUserMetadata key) (hkey : key ∈ src.stored ∨ key ∈ src.decrypted)
    (hmem : canonicalHeaderKey (lowerAscii key) ∈ orders.headerMap) : key ∈ src.merged := by
  have hlower : lowerAscii (canonicalHeaderKey (lowerAscii key)) = lowerAscii key := by
    rw [lowerAscii_canonicalHeaderKey, lowerAscii_lowerAscii]
  rcases orders.origin_of_projected (orders.projected_of_mem_headerMap hmem) with
    ⟨own, hown, hname⟩ | ⟨key', hkey', ⟨-, hname⟩ | ⟨hpassed, hname⟩⟩
  · rw [hname, lowerAscii_canonicalHeaderKey] at hlower
    exact absurd (hlower ▸ huser.1) (isBackendName_of_mem_ownNames own hown).1
  · have heq : lowerAscii key = lowerAscii key' := by
      rw [← hlower, hname, lowerAscii_canonicalHeaderKey, lowerAscii_lowerAscii]
    rwa [hdistinct key key' hkey (mem_of_mem_merged hkey') heq]
  · have heq : lowerAscii key = lowerAscii key' := by
      rw [← hlower, hname, lowerAscii_canonicalHeaderKey]
    exact absurd (heq ▸ huser.1) (isBackendName_of_isPassedOn hpassed).1

end Orders

/-! ## The projection -/

structure ExactHeaders (src : ObjectResponseSource) (headers : Str → Option (List Str)) :
    Prop where
  oneValue : ∀ name values, headers name = some values → ∃ value, values = [value]
  user : ∀ key value, IsUserMetadata key → (src.decrypted ∪ src.stored).lookup key = some value →
    headers (canonicalHeaderKey (lowerAscii key)) = some [value]
  notReserved : ∀ name, (headers name).isSome = true → isGatewayReservedKey name = false

/-- The projection never panics; and if no two keys are equal ignoring case, it gives the
same exact headers whatever the orders of the visits. -/
def ProjectsExactly (src : ObjectResponseSource) (shape : ResponseShape) : Prop :=
  (∀ orders : Orders src shape, orders.projectObjectHeaders ≠ none) ∧
    (src.CaseDistinct → ∃ headers,
      (∀ orders : Orders src shape, orders.projectObjectHeaders = some headers) ∧
        ExactHeaders src headers)

/-- The array has a place for every header of the response. -/
def HasRoom (src : ObjectResponseSource) (shape : ResponseShape) : Prop :=
  ∀ orders : Orders src shape,
    {name | Projected orders name}.ncard ≤ src.stored.keys.card + 16

/-- The decrypted map has no user metadata that the stored map lacks. -/
def AddsNothing (src : ObjectResponseSource) : Prop :=
  ∀ key value, IsUserMetadata key → src.decrypted.lookup key = some value →
    src.stored.lookup key = some value

theorem nonempty_orders (src : ObjectResponseSource) (shape : ResponseShape) :
    Nonempty (Orders src shape) := by
  obtain ⟨stored⟩ := nonempty_order src.stored
  obtain ⟨decrypted⟩ := nonempty_order src.decrypted
  obtain ⟨merged⟩ := nonempty_order src.merged
  obtain ⟨overrides⟩ := nonempty_order shape.overrides
  exact ⟨⟨fun _ _ => stored, fun _ _ => decrypted, fun _ _ => merged, merged, overrides⟩⟩

theorem lookup_merged_of_user (hadds : src.encrypted = true ∨ AddsNothing src)
    (huser : IsUserMetadata key) (hlookup : (src.decrypted ∪ src.stored).lookup key = some value) :
    src.merged.lookup key = some value := by
  rcases hencrypted : src.encrypted with - | -
  · rw [hencrypted] at hadds
    have hadds : AddsNothing src := hadds.resolve_left Bool.false_ne_true
    rw [merged_of_not_encrypted hencrypted]
    by_cases hmem : key ∈ src.decrypted
    · rw [lookup_union_left hmem] at hlookup
      exact hadds key value huser hlookup
    · rwa [lookup_union_right hmem] at hlookup
  · rwa [merged_of_encrypted hencrypted]

theorem exactHeaders_of_headerMap {shape : ResponseShape} (hdistinct : src.CaseDistinct)
    (hadds : src.encrypted = true ∨ AddsNothing src) (orders : Orders src shape) :
    ExactHeaders src fun name => (orders.headerMap.lookup name).map fun value => [value] where
  oneValue := by
    intro name values hvalues
    obtain ⟨value, -, rfl⟩ := Option.map_eq_some_iff.mp hvalues
    exact ⟨value, rfl⟩
  user := by
    intro key value huser hlookup
    have hmerged := lookup_merged_of_user hadds huser hlookup
    rw [orders.lookup_headerMap_of_user hdistinct huser hmerged, Option.map_some]
  notReserved := by
    intro name hsome
    apply orders.not_reserved_of_projected
    apply orders.projected_of_mem_headerMap
    rwa [Option.isSome_map, lookup_isSome] at hsome

/-- **The projection is exact, exactly when the array has room for all the headers and,
for an object that is not encrypted, the decrypted map adds nothing.** -/
theorem projectsExactly_iff (src : ObjectResponseSource) (shape : ResponseShape) :
    ProjectsExactly src shape ↔
      HasRoom src shape ∧ (src.CaseDistinct → src.encrypted = true ∨ AddsNothing src) := by
  have hroom : HasRoom src shape ↔
      ∀ orders : Orders src shape, orders.projectObjectHeaders ≠ none := by
    apply forall_congr'
    intro orders
    rw [Ne, orders.projectObjectHeaders_eq_none_iff, not_lt]
  constructor
  · rintro ⟨hnever, hexact⟩
    refine ⟨hroom.mpr hnever, ?_⟩
    intro hdistinct
    obtain ⟨headers, hsome, hexact⟩ := hexact hdistinct
    obtain ⟨orders⟩ := nonempty_orders src shape
    rcases hencrypted : src.encrypted with - | -
    · right
      intro key value huser hlookup
      have hmem : key ∈ src.decrypted := mem_iff.mpr ⟨value, hlookup⟩
      have hheader := hexact.user key value huser
        (by rw [lookup_union_left hmem, hlookup])
      rw [orders.of_projectObjectHeaders (hsome orders)] at hheader
      obtain ⟨value', hvalue', heq⟩ := Option.map_eq_some_iff.mp hheader
      obtain rfl : value' = value := singleton_inj.mp heq
      -- the header comes from a stored key, which is this one
      have hstored := orders.mem_merged_of_mem_headerMap hdistinct huser (.inr hmem)
        (mem_iff.mpr ⟨value', hvalue'⟩)
      obtain ⟨stored, hlookup'⟩ := mem_iff.mp hstored
      have hmap := orders.lookup_headerMap_of_user hdistinct huser hlookup'
      rw [hvalue'] at hmap
      rw [merged_of_not_encrypted hencrypted] at hlookup'
      rw [hlookup', hmap]
    · exact .inl rfl
  · rintro ⟨hfits, hadds⟩
    have hnever := hroom.mp hfits
    refine ⟨hnever, ?_⟩
    intro hdistinct
    obtain ⟨orders⟩ := nonempty_orders src shape
    refine ⟨_, ?_, exactHeaders_of_headerMap hdistinct (hadds hdistinct) orders⟩
    intro orders'
    obtain ⟨headers, hsome⟩ := Option.ne_none_iff_exists'.mp (hnever orders')
    rw [hsome]
    congr 1
    funext name
    rw [orders'.of_projectObjectHeaders hsome, orders'.headerMap_eq hdistinct orders]

/-! ## An object whose metadata was in its body -/

def overflowKey (letter : Char) : Str := "x-amz-meta-u".toList ++ [letter]

def overflowLetters : List Char := "abcdefghijklmnopqrstuvwx".toList

def overflowNames : Finset Str :=
  (overflowLetters.map fun letter => canonicalHeaderKey (lowerAscii (overflowKey letter))).toFinset

/-- Of the metadata only the marker is stored; 24 keys were decrypted with the object. -/
def overflowSource : ObjectResponseSource where
  encrypted := true
  stored := renameKeys id [("x-amz-meta-encrypted".toList, "true".toList)]
  decrypted := renameKeys id (overflowLetters.map fun letter => (overflowKey letter, [letter]))
  plainSize := 5
  backendETag := []
  sseCustomer := false

def plainGet : ResponseShape := ⟨methodGet, none, [], ∅, none⟩

theorem isUserMetadata_overflowKey (letter : Char) : IsUserMetadata (overflowKey letter) := by
  have hsame : lowerAscii "x-amz-meta-u".toList = "x-amz-meta-u".toList := by decide
  have hsplit : lowerAscii (overflowKey letter) = "x-amz-meta-u".toList ++ lowerAscii [letter] :=
    (lowerAscii_append _ _).trans (congrArg (· ++ lowerAscii [letter]) hsame)
  have hlower : "x-amz-meta-u".toList <+: lowerAscii (overflowKey letter) :=
    ⟨lowerAscii [letter], hsplit.symm⟩
  have hfree : ∀ name ∈ reservedNames, ¬"x-amz-meta-u".toList <+: name := by
    decide +kernel
  refine ⟨List.IsPrefix.trans (by decide) hlower, ?_⟩
  rw [Bool.eq_false_iff, Ne, isGatewayReservedKey_iff]
  intro hmem
  exact hfree _ hmem hlower

theorem mem_merged_overflowSource {letter : Char} (hletter : letter ∈ overflowLetters) :
    overflowKey letter ∈ overflowSource.merged := by
  have hnodup : ((overflowLetters.map fun letter => (overflowKey letter, [letter])).map
      fun entry => id entry.1).Nodup := by
    decide
  have hmem : overflowKey letter ∈ overflowSource.decrypted := by
    apply mem_iff.mpr
    exact ⟨[letter], lookup_store_of_mem hnodup (mem_map.mpr ⟨letter, hletter, rfl⟩) ∅⟩
  rw [merged_of_encrypted rfl]
  exact mem_union.mpr (.inl hmem)

theorem not_projectsExactly_overflowSource : ¬ProjectsExactly overflowSource plainGet := by
  rintro ⟨hnever, -⟩
  obtain ⟨orders⟩ := nonempty_orders overflowSource plainGet
  have hprojected : ∀ name ∈ overflowNames, Projected orders name := by
    intro name hname
    obtain ⟨letter, hletter, rfl⟩ := mem_map.mp (mem_toFinset.mp hname)
    exact Projected.user (overflowKey letter) (mem_merged_overflowSource hletter)
      (isUserMetadata_overflowKey letter)
  have hcard : overflowSource.stored.keys.card + 16 < overflowNames.card := by
    decide
  refine hnever orders ?_
  rw [orders.projectObjectHeaders_eq_none_iff, orders.setOf_projected, Set.ncard_coe_finset]
  refine hcard.trans_le (Finset.card_le_card fun name hname => ?_)
  rw [← Finset.mem_coe, ← orders.setOf_projected]
  exact hprojected name hname

end S3EncryptionGateway.Api
