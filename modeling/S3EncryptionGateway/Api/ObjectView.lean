import S3EncryptionGateway.Crypto.Engine.Dispatch
import S3EncryptionGateway.Api.ReadPlan

/-!
# Classifier and decryptor

`ClassifyObject` tells the handlers in which format an object is stored, and `Decrypt` finds it out
once more for itself.  Both read the same markers, but not in the same way.

* The classifier takes a marker that has any value for present; `Decrypt` takes the markers of
  fallback and chunked objects for present only if the value is `true`.
* The classifier does not need the marker of encrypted objects; `Decrypt` passes an object
  without it through.
* The classifier knows nothing of the sealed part of the metadata, and checks fewer combinations.

## Result

The classifier names the reader `markedReader` (`reader_of_classifyObject`), and `Decrypt` takes
the one that its view of the metadata selects (`Engine.exists_dispatch_iff`).  They agree exactly
if that is the same (`reader_agrees_iff`).
-/

namespace S3EncryptionGateway.Api.ReadPlan

open Text MapRange Crypto Metadata Fallible

/-! ## The classifier -/

structure ObjectClass where
  format : ObjectFormat
  encrypted : Bool
  chunkSize : ℕ
  bindingId : Encoding.Bytes
  manifestKey : Str

inductive ClassError where
  /-- "unsupported object format marker: mpu marker %q" -/
  | mpuMarker (marker : Str)
  /-- "unsupported object format marker: manifest pointer mismatch" -/
  | manifestPointer
  /-- "unsupported object format marker: binding: " and the cause -/
  | binding (err : EngineError)
  /-- "unsupported object format marker: fallback marker %q" -/
  | fallbackMarker (mode : Str)
  /-- "chunked object completeness check failed: invalid chunk size" -/
  | chunkSize
  /-- "unsupported object format marker: " and the cause -/
  | chunkedVersion (err : RangeError)
  /-- "unsupported object format marker: format marker %q" -/
  | formatMarker (marker : Str)

def mpuManifestSuffix : Str := ".mpu-manifest".toList

/-- The binding id of objects that have none. -/
def noBindingId : Encoding.Bytes := List.replicate bindingIdSize 0

section Classifier

variable (env : Environment) (parentKey : Str) (expanded : Map Str Str)

def mpuFormat (marker : Str) : Except ClassError ObjectFormat :=
  if marker = trueText then .ok .mpuV1
  else if marker = "v2".toList then .ok .mpuV2
  else .error (.mpuMarker marker)

def mpuBinding (format : ObjectFormat) : Except ClassError Encoding.Bytes :=
  if format = .mpuV2 then
    (parseObjectBindingId (valueAt expanded .objectBindingId)).mapError .binding
  else .ok noBindingId

/-- A multipart object, with the marker `marker`. -/
def classifyMpu (marker : Str) : Except ClassError ObjectClass := do
  let format ← mpuFormat marker
  let manifest := parentKey ++ mpuManifestSuffix
  let pointer := valueAt expanded .fallbackPointer
  if pointer ≠ [] ∧ pointer ≠ manifest then .error .manifestPointer
  else do
    let binding ← mpuBinding expanded format
    return ⟨format, true, 0, binding, manifest⟩

/-- An object whose marker of chunked objects is not empty. -/
def classifyChunked : Except ClassError ObjectClass := do
  let declared := parseChunkSize fun name => expanded.lookup name
  if declared = 0 ∨ maxChunkSize < declared then .error .chunkSize
  else do
    let version ← (chunkedVersionForMetadata env fun name => expanded.lookup name).mapError
      .chunkedVersion
    return ⟨if version = chunkedFormatV2 then .chunkedV2 else .chunkedV1, true, declared,
      noBindingId, []⟩

/-- An object with none of the other markers. -/
def classifyBuffered : Except ClassError ObjectClass :=
  if valueAt expanded .encrypted ≠ [] then
    let marker := valueAt expanded .objectFormatVersion
    if marker = [] then .ok ⟨.bufferedLegacy, true, 0, noBindingId, []⟩
    else if marker = bufferedV2Text then .ok ⟨.bufferedV2, true, 0, noBindingId, []⟩
    else .error (.formatMarker marker)
  else .ok ⟨.plaintext, false, 0, noBindingId, []⟩

def classifyObject : Except ClassError ObjectClass :=
  if valueAt expanded .mpuEncrypted ≠ [] then
    classifyMpu parentKey expanded (valueAt expanded .mpuEncrypted)
  else if valueAt expanded .fallbackPointer ≠ [] then
    if valueAt expanded .fallbackPointer ≠ parentKey ++ mpuManifestSuffix then
      .error .manifestPointer
    else .ok ⟨.mpuV1, true, 0, noBindingId, parentKey ++ mpuManifestSuffix⟩
  else if valueAt expanded .fallbackMode ≠ [] then
    let mode := valueAt expanded .fallbackMode
    if mode ∈ [trueText, "v1".toList, "v2".toList, "v3".toList] then
      .ok ⟨.bufferedFallback, true, 0, noBindingId, []⟩
    else .error (.fallbackMarker mode)
  else if valueAt expanded .chunkedFormat ≠ [] then classifyChunked env expanded
  else classifyBuffered expanded

end Classifier

/-! ## The reader that the class names -/

/-- The reader of a format.  Multipart objects are not read by `Decrypt`. -/
def ObjectFormat.reader : ObjectFormat → Option BodyReader
  | .plaintext => some .passThrough
  | .bufferedLegacy | .bufferedV2 => some .buffered
  | .bufferedFallback => some .fallback
  | .chunkedV1 | .chunkedV2 => some .chunked
  | .mpuV1 | .mpuV2 => none

/-- The reader that the markers name if any value counts. -/
def markedReader (expanded : Map Str Str) : BodyReader :=
  if valueAt expanded .fallbackMode ≠ [] then .fallback
  else if valueAt expanded .chunkedFormat ≠ [] then .chunked
  else if valueAt expanded .encrypted ≠ [] then .buffered
  else .passThrough

section Reader

variable {env : Environment} {parentKey : Str} {expanded : Map Str Str} {objectClass : ObjectClass}

theorem format_of_classifyMpu {marker : Str}
    (hclass : classifyMpu parentKey expanded marker = .ok objectClass) :
    objectClass.format = .mpuV1 ∨ objectClass.format = .mpuV2 := by
  rw [classifyMpu, bind_eq_ok_iff] at hclass
  obtain ⟨format, hformat, hrest⟩ := hclass
  have hmpu : format = .mpuV1 ∨ format = .mpuV2 := by
    rw [mpuFormat] at hformat
    split at hformat
    · exact .inl (Except.ok.inj hformat).symm
    · split at hformat
      · exact .inr (Except.ok.inj hformat).symm
      · cases hformat
  dsimp only at hrest
  split at hrest
  · cases hrest
  · obtain ⟨binding, _, hdone⟩ := bind_eq_ok_iff.mp hrest
    cases hdone
    exact hmpu

theorem reader_of_classifyChunked (hclass : classifyChunked env expanded = .ok objectClass) :
    objectClass.format.reader = some .chunked := by
  rw [classifyChunked] at hclass
  split at hclass
  · cases hclass
  obtain ⟨version, _, hdone⟩ := bind_eq_ok_iff.mp hclass
  cases hdone
  show (ObjectFormat.reader (if version = chunkedFormatV2 then _ else _)) = _
  split <;> rfl

theorem reader_of_classifyBuffered (hclass : classifyBuffered expanded = .ok objectClass) :
    objectClass.format.reader =
      some (if valueAt expanded .encrypted ≠ [] then .buffered else .passThrough) := by
  rw [classifyBuffered] at hclass
  split at hclass
  · rename_i hencrypted
    rw [if_pos hencrypted]
    dsimp only at hclass
    split at hclass
    · cases hclass
      rfl
    · split at hclass <;> cases hclass
      rfl
  · rename_i hplain
    rw [if_neg hplain]
    cases hclass
    rfl

/-- **The class names the marked reader.** -/
theorem reader_of_classifyObject (hclass : classifyObject env parentKey expanded = .ok objectClass)
    (hsingle : objectClass.format ≠ .mpuV1 ∧ objectClass.format ≠ .mpuV2) :
    objectClass.format.reader = some (markedReader expanded) := by
  rw [classifyObject] at hclass
  split at hclass
  · rcases format_of_classifyMpu hclass with hmpu | hmpu
    · exact absurd hmpu hsingle.1
    · exact absurd hmpu hsingle.2
  split at hclass
  · split at hclass <;> cases hclass
    exact absurd rfl hsingle.1
  rw [markedReader]
  split at hclass
  · rename_i hmode
    rw [if_pos hmode]
    dsimp only at hclass
    split at hclass <;> cases hclass
    rfl
  rename_i hmode
  rw [if_neg hmode]
  split_ifs at hclass with hchunked
  · rw [if_pos hchunked]
    exact reader_of_classifyChunked hclass
  · rw [if_neg hchunked]
    exact reader_of_classifyBuffered hclass

end Reader

/-! ## Agreement -/

/-- The markers mean the same to both: an object that is not marked as encrypted has no other
marker either, and for one that is, the markers of the metadata as they are and of the view with
the sealed part opened name the same reader. -/
def MarkersAgree (lib : Crypto.Libraries) (e : Crypto.Engine) (expanded : Map Str Str) : Prop :=
  if isEncryptedMetadata expanded = false then markedReader expanded = .passThrough
  else ∃ view, e.apiExpandedMetadata lib expanded = .ok view ∧
    Selects lib view (markedReader expanded)

/-- **Classifier and decryptor** choose the same reader exactly if the markers agree. -/
theorem reader_agrees_iff (lib : Crypto.Libraries) (e : Crypto.Engine) (env : Environment)
    (parentKey : Str) (expanded : Map Str Str) (objectClass : ObjectClass)
    (hclass : classifyObject env parentKey expanded = .ok objectClass)
    (hsingle : objectClass.format ≠ .mpuV1 ∧ objectClass.format ≠ .mpuV2) :
    (∃ dispatch, e.dispatch lib expanded = .ok dispatch ∧
      objectClass.format.reader = some dispatch.reader) ↔ MarkersAgree lib e expanded := by
  have hreader := reader_of_classifyObject hclass hsingle
  have hsame : (∃ dispatch, e.dispatch lib expanded = .ok dispatch ∧
      objectClass.format.reader = some dispatch.reader) ↔
      ∃ dispatch, e.dispatch lib expanded = .ok dispatch ∧
        dispatch.reader = markedReader expanded := by
    rw [hreader]
    simp only [Option.some.injEq, eq_comm]
  rw [hsame, Engine.exists_dispatch_iff, MarkersAgree]

/-! ## Two objects -/

/-- An object of the oldest format. -/
def legacyMetadata : Map Str Str := Finmap.singleton MetaName.encrypted.text trueText

/-- An object that only has the marker of the fallback formats. -/
def fallbackMetadata : Map Str Str := Finmap.singleton MetaName.fallbackMode.text "v1".toList

theorem valueAt_singleton (name name' : MetaName) (value : Str) :
    valueAt (Finmap.singleton name.text value) name' = if name' = name then value else [] := by
  split_ifs with hname
  · rw [hname]
    exact valueAt_of_lookup Finmap.lookup_singleton_eq
  · have hnot : name'.text ∉ (Finmap.singleton name.text value : Map Str Str) := by
      rw [Finmap.mem_singleton]
      exact fun htext => hname (MetaName.text_injective htext)
    rw [valueAt, Finmap.lookup_eq_none.mpr hnot, Option.getD_none]

theorem classifyObject_legacyMetadata (env : Environment) (parentKey : Str) :
    classifyObject env parentKey legacyMetadata = .ok ⟨.bufferedLegacy, true, 0, noBindingId, []⟩ := by
  have hmarker : trueText ≠ [] := by decide
  simp [classifyObject, classifyBuffered, legacyMetadata, valueAt_singleton, hmarker]

theorem classifyObject_fallbackMetadata (env : Environment) (parentKey : Str) :
    classifyObject env parentKey fallbackMetadata =
      .ok ⟨.bufferedFallback, true, 0, noBindingId, []⟩ := by
  have hmode : "v1".toList ≠ [] := by decide
  simp only [classifyObject, fallbackMetadata, valueAt_singleton, reduceCtorEq, if_false, if_true,
    ne_eq, not_true_eq_false, hmode, not_false_eq_true]
  rfl

theorem isEncryptedMetadata_legacyMetadata : isEncryptedMetadata legacyMetadata = true := by
  decide +kernel

/-- Both take the object of the oldest format for a buffered one. -/
theorem legacy_agrees :
    ∃ json : JsonCodec, classifyObject (storeEnvironment emptyObject) "key".toList legacyMetadata =
        .ok ⟨.bufferedLegacy, true, 0, noBindingId, []⟩ ∧
      ∃ dispatch, sampleEngine.dispatch (sampleLibraries json) legacyMetadata = .ok dispatch ∧
        ObjectFormat.bufferedLegacy.reader = some dispatch.reader := by
  obtain ⟨json, -⟩ := JsonCodec.exists_short ∅
  have hclass := classifyObject_legacyMetadata (storeEnvironment emptyObject) "key".toList
  refine ⟨json, hclass, (reader_agrees_iff (sampleLibraries json) sampleEngine
    (storeEnvironment emptyObject) "key".toList legacyMetadata _ hclass ⟨by decide, by decide⟩).mpr ?_⟩
  have hexpanded : Expanded legacyMetadata := by
    intro key hkey
    rw [legacyMetadata, Finmap.mem_singleton] at hkey
    rw [hkey, isCompactedKey_text]
  have hmarked : markedReader legacyMetadata = .buffered := by
    have hmarker : trueText ≠ [] := by decide
    simp [markedReader, legacyMetadata, valueAt_singleton, hmarker]
  rw [MarkersAgree, if_neg (by rw [isEncryptedMetadata_legacyMetadata]; decide), hmarked]
  have hexpand : sampleEngine.apiExpandedMetadata (sampleLibraries json) legacyMetadata =
      .ok (expandMetadata (sampleLibraries json).choose legacyMetadata) := by
    rw [Engine.apiExpandedMetadata]
    exact if_neg fun h => absurd h.2 (by decide)
  refine ⟨_, hexpand, ?_⟩
  -- none of the other markers has a value
  have hvalue : ∀ name : MetaName, name ≠ .encrypted →
      valueAt (expandMetadata (sampleLibraries json).choose legacyMetadata) name = [] := by
    intro name hname
    rw [valueAt_expandMetadata hexpanded hname, legacyMetadata, valueAt_singleton, if_neg hname]
  simp only [Selects, isFallbackMode, isChunkedFormat, hvalue .fallbackMode (by decide),
    hvalue .chunkedFormat (by decide), hvalue .objectFormatVersion (by decide)]
  exact ⟨by decide, by decide, .inl trivial⟩

/-- To the classifier the object is a fallback object, and `Decrypt` passes it through. -/
theorem fallback_passed_through :
    ∃ json : JsonCodec,
      classifyObject (storeEnvironment emptyObject) "key".toList fallbackMetadata =
        .ok ⟨.bufferedFallback, true, 0, noBindingId, []⟩ ∧
      sampleEngine.dispatch (sampleLibraries json) fallbackMetadata =
        .ok ⟨.passThrough, fallbackMetadata, false⟩ ∧
      ¬ ∃ dispatch, sampleEngine.dispatch (sampleLibraries json) fallbackMetadata = .ok dispatch ∧
        ObjectFormat.bufferedFallback.reader = some dispatch.reader := by
  obtain ⟨json, -⟩ := JsonCodec.exists_short ∅
  have hdispatch : sampleEngine.dispatch (sampleLibraries json) fallbackMetadata =
      .ok ⟨.passThrough, fallbackMetadata, false⟩ :=
    if_pos (by decide +kernel)
  refine ⟨json, classifyObject_fallbackMetadata _ _, hdispatch, ?_⟩
  rintro ⟨dispatch, hok, hreader⟩
  rw [hdispatch] at hok
  cases hok
  cases hreader

end S3EncryptionGateway.Api.ReadPlan
