import S3EncryptionGateway.Metadata.BackendRoundTrip

/-!
# The metadata a write gives to the backend

A write request's metadata goes through two functions.  `engineInput` puts the user
metadata and the standard headers into one map, and `buildPersistPlan` decides what of a
map the backend gets: names on the configured filter list are left out, the standard
headers of an object that is not encrypted are split off, to be given as native headers,
and what the backend sets itself is dropped.

`lookup_buildPersistPlan` says what becomes of a key, and `lookup_engineInput` where it
comes from.  A name that the gateway keeps for itself is in no request's metadata.
-/

namespace S3EncryptionGateway.Metadata

open Text MapRange

def contentLengthName : Str := "Content-Length".toList

/-! ## Standard headers in a map -/

/-- Stores the headers that have a value under their usual names. -/
def Standard.applyTo (standard : Standard) (metadata : Map Str Str) : Map Str Str :=
  standardHeaders.foldl (fun out header =>
    if standard header ≠ [] then out.insert header.name (standard header) else out) metadata

def isStandard (name : Str) : Bool :=
  standardHeaders.any fun header => equalFold name header.name

/-- The standard headers and the rest.  Of several spellings of one header the source
takes the one visited last; a request's map has the usual spelling only, as
`exists_name_of_isStandard` shows. -/
def Standard.split (metadata : Map Str Str) : Standard × Map Str Str :=
  (fun header => (metadata.lookup header.name).getD [], keep (fun key => !isStandard key) metadata)

def WriteMetadata.engineInput (m : WriteMetadata) (plainLen : Option ℤ) : Map Str Str :=
  match plainLen with
  | some len => (m.standard.applyTo m.user).insert contentLengthName (toString len).toList
  | none => m.standard.applyTo m.user

/-! ## What is persisted -/

structure PersistPlan where
  metadata : Map Str Str
  native : Standard

/-- Fields of the backend's own. -/
def isBackendField (name : Str) : Bool :=
  equalFold name "content-length".toList || equalFold name "etag".toList ||
    equalFold name "last-modified".toList

def isFiltered (filterKeys : List Str) (key : Str) : Bool :=
  filterKeys.any fun name => equalFold key name

def buildPersistPlan (metadata : Map Str Str) (encrypted : Bool) (filterKeys : List Str) :
    PersistPlan :=
  let split := Standard.split (keep (fun key => !isFiltered filterKeys key) metadata)
  { metadata := keep (fun key => !isBackendField key) split.2
    native := if encrypted then fun _ => [] else split.1 }

/-! ## What becomes of a key -/

theorem isStandard_name (header : StandardHeader) : isStandard header.name = true := by
  cases header <;> decide

variable {key : Str}

theorem lookup_applyTo (hkey : isStandard key = false) (standard : Standard)
    (metadata : Map Str Str) : (standard.applyTo metadata).lookup key = metadata.lookup key := by
  unfold Standard.applyTo
  -- no header stores under this key, whatever came before it
  induction standardHeaders generalizing metadata with
  | nil => rfl
  | cons header headers ih =>
    rw [List.foldl_cons, ih]
    split
    · apply Finmap.lookup_insert_of_ne
      rintro rfl
      rw [isStandard_name] at hkey
      cases hkey
    · rfl

theorem lookup_engineInput (hkey : isStandard key = false) (m : WriteMetadata) :
    (m.engineInput none).lookup key = m.user.lookup key :=
  lookup_applyTo hkey m.standard m.user

/-- A key that is neither a standard header nor the backend's own is persisted unless the
filter list has it. -/
theorem lookup_buildPersistPlan (hkey : isStandard key = false)
    (hbackend : isBackendField key = false) (metadata : Map Str Str) (encrypted : Bool)
    (filterKeys : List Str) :
    (buildPersistPlan metadata encrypted filterKeys).metadata.lookup key =
      if isFiltered filterKeys key then none else metadata.lookup key := by
  unfold buildPersistPlan Standard.split
  simp only [lookup_keep, hkey, hbackend, Bool.not_false, if_true]
  cases isFiltered filterKeys key <;> rfl

/-! ## The keys of a request -/

variable {standardVisits : StandardHeader → List (Str × List Str)}

theorem amzMeta_of_mem_user {visits : List (Str × List Str)} {m : WriteMetadata}
    (hparse : parseWriteMetadata standardVisits visits = .ok m) :
    ∀ key ∈ m.user, amzMeta <+: key ∧ lowerAscii key = key ∧ isGatewayReservedKey key = false := by
  have huser := userMetadata_of_parseWriteMetadata hparse
  intro key hkey
  rcases (mem_userMetadata_iff huser key).mp hkey with hempty | ⟨header, -, -, hmeta, hname⟩
  · exact absurd hempty Finmap.notMem_empty
  refine ⟨hmeta, ?_, ?_⟩
  · rw [← hname, lowerAscii_lowerAscii]
  · apply not_reserved_of_mem_userMetadata huser _ key hkey
    intro key hempty
    exact absurd hempty Finmap.notMem_empty

/-- No request brings a key that the gateway keeps for itself. -/
theorem lookup_user_of_reserved {visits : List (Str × List Str)} {m : WriteMetadata}
    (hparse : parseWriteMetadata standardVisits visits = .ok m)
    (hkey : isGatewayReservedKey key = true) : m.user.lookup key = none := by
  rw [Finmap.lookup_eq_none]
  intro hmem
  rw [(amzMeta_of_mem_user hparse key hmem).2.2] at hkey
  cases hkey

end S3EncryptionGateway.Metadata
