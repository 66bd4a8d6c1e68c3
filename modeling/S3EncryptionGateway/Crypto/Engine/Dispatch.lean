import S3EncryptionGateway.Crypto.Engine.Config

/-!
# How `Decrypt` chooses a reader

The metadata of an object say in which of several formats it is stored.  `Decrypt` expands them,
opens the sealed part if the engine has a key for it, and then tests the format markers one after
the other.

`Selects` lists what the markers have to be for each reader; `selectReader_eq_ok_iff` says that
the tests come to exactly that.
-/

namespace S3EncryptionGateway.Crypto

open Text Encoding MapRange Metadata Fallible

/-! ## Sealed metadata -/

namespace Engine

section Sealed

variable (lib : Libraries) (e : Engine)

def metadataCipher (key : MetadataKey) : Aead := lib.ciphers.aesGcm key.val

/-- The metadata in a sealed text.  The marker of encrypted objects is always among them. -/
def decryptMetadata (blob : Str) : Except EngineError (Map Str Str) :=
  match e.metadataKey with
  | none => .error .metadataKeyAbsent
  | some key =>
    match decodeBase64 blob with
    | none => .error .metadataBase64
    | some bytes =>
      if bytes.length < nonceSize then .error .metadataShort
      else
        match (metadataCipher lib key).opened (bytes.take nonceSize) (bytes.drop nonceSize) []
          with
        | none => .error .metadataForged
        | some plaintext =>
          match lib.json.unmarshal plaintext with
          | none => .error .metadataJson
          | some none => .error .metadataNull
          | some (some metadata) =>
            .ok (metadata.insert MetaName.encrypted.text trueText)

/-- The name under which the sealed text is stored. -/
def blobKey (expanded : Map Str Str) : Str :=
  if MetaName.encryptedMetadata.compact ∈ expanded then MetaName.encryptedMetadata.compact
  else MetaName.encryptedMetadata.text

/-- The handlers pass over an empty one. -/
def apiBlobKey (expanded : Map Str Str) : Str :=
  if (expanded.lookup MetaName.encryptedMetadata.compact).getD [] ≠ [] then
    MetaName.encryptedMetadata.compact
  else MetaName.encryptedMetadata.text

/-- What was sealed is stored over what was in the clear, and the sealed text is removed.  The
headers of a buffered fallback object say another format than the sealed metadata, and have to
belong to the same object. -/
def mergeSealed (key : Str) (expanded opened : Map Str Str) : Except EngineError (Map Str Str) :=
  let merged := opened ∪ expanded
  if valueAt expanded .fallbackVersion = "3".toList then
    if valueAt opened .objectFormatVersion ≠ bufferedV2Text ∨
        valueAt opened .objectBindingId ≠ valueAt expanded .objectBindingId ∨
        valueAt expanded .objectFormatVersion ≠ bufferedFallbackV2Text then .error .sealedIdentity
    else .ok ((merged.insert MetaName.objectFormatVersion.text
      (valueAt expanded .objectFormatVersion)).erase key)
  else .ok (merged.erase key)

/-- After the sealed part has been opened, the marker is there in its canonical spelling. -/
def markEncrypted (view : Map Str Str) : Map Str Str :=
  if isEncryptedMetadata view then view.insert MetaName.encrypted.text trueText else view

/-- The metadata with the sealed part opened, as `Decrypt` goes on with them. -/
def openSealed (expanded : Map Str Str) : Except EngineError (Map Str Str) :=
  match e.metadataKey with
  | none => .ok expanded
  | some _ =>
    let blob := (expanded.lookup (blobKey expanded)).getD []
    if blob = [] then .ok (markEncrypted expanded)
    else do
      let opened ← decryptMetadata lib e blob
      let view ← mergeSealed (blobKey expanded) expanded opened
      return markEncrypted view

/-- The metadata as the handlers see them: expanded, and the sealed part opened if the engine has
a key for it. -/
def apiExpandedMetadata (metadata : Map Str Str) : Except EngineError (Map Str Str) :=
  let expanded := expandMetadata lib.choose metadata
  let blob := (expanded.lookup (apiBlobKey expanded)).getD []
  if blob ≠ [] ∧ e.metadataKey.isSome then do
    let opened ← decryptMetadata lib e blob
    mergeSealed (apiBlobKey expanded) expanded opened
  else .ok expanded

end Sealed

end Engine

/-! ## The choice of the reader -/

/-- What becomes of the body. -/
inductive BodyReader where
  | passThrough
  | fallback
  | chunked
  | buffered

def isFallbackMode (metadata : Map Str Str) : Bool := valueAt metadata .fallbackMode = trueText

def isChunkedFormat (metadata : Map Str Str) : Bool := valueAt metadata .chunkedFormat = trueText

/-- What the functions for chunked objects read of the metadata. -/
def rangeMetadataOf (lib : Libraries) (metadata : Map Str Str) : RangeMetadata :=
  ⟨(metadata.lookup MetaName.manifest.text).map lib.manifests.decode,
    metadata.lookup contentLengthName, metadata.lookup MetaName.originalSize.text,
    metadata.lookup MetaName.chunkCount.text, metadata.lookup MetaName.chunkSize.text⟩

/-- The text is the encoding of a binding id. -/
def IsBindingId (text : Str) : Prop := ∃ bindingId, parseObjectBindingId text = .ok bindingId

def checkBindingId (view : Map Str Str) : Except EngineError Unit :=
  (parseObjectBindingId (valueAt view .objectBindingId)).map fun _ => ()

/-- Of the formats with metadata in the body the current one is bound to its object. -/
def checkFallback (view : Map Str Str) : Except EngineError Unit :=
  if valueAt view .fallbackVersion = "3".toList then
    if valueAt view .objectFormatVersion ≠ bufferedFallbackV2Text then .error .fallbackMarker
    else checkBindingId view
  else .ok ()

/-- The format marker, if there is one, has to agree with the marker of chunked objects. -/
def checkMarker (view : Map Str Str) : Except EngineError Unit :=
  let marker := valueAt view .objectFormatVersion
  if marker = [] then .ok ()
  else if marker = bufferedV2Text then
    if isChunkedFormat view then .error .bufferedMarker else checkBindingId view
  else if marker = chunkedV2Text then
    if isChunkedFormat view then checkBindingId view else .error .chunkedMarker
  else .error (.formatVersion marker)

/-- The tests on the format markers of an encrypted object. -/
def selectReader (lib : Libraries) (view : Map Str Str) : Except EngineError BodyReader :=
  if isFallbackMode view then do
    checkFallback view
    return .fallback
  else do
    checkMarker view
    if isChunkedFormat view then do
      let _ ← (rangeMetadataOf lib view).chunkedFormatVersion.mapError .manifest
      return .chunked
    else return .buffered

/-- The reader of an object, the metadata it works with, and whether the headers have a sealed
part. -/
structure Dispatch where
  reader : BodyReader
  view : Map Str Str
  headerBlobPresent : Bool

/-- `Decrypt` up to the reader. -/
def Engine.dispatch (lib : Libraries) (e : Engine) (metadata : Map Str Str) :
    Except EngineError Dispatch :=
  if isEncryptedMetadata metadata = false then .ok ⟨.passThrough, metadata, false⟩
  else do
    let expanded := expandMetadata lib.choose metadata
    let view ← e.openSealed lib expanded
    let reader ← selectReader lib view
    return ⟨reader, view,
      (metadataValue lib.choose expanded MetaName.encryptedMetadata.text).isSome ||
        (metadataValue lib.choose expanded MetaName.encryptedMetadata.compact).isSome⟩

/-! ## What the tests come to -/

/-- The markers under which each reader is chosen. -/
def Selects (lib : Libraries) (view : Map Str Str) : BodyReader → Prop
  | .passThrough => False
  | .fallback => isFallbackMode view = true ∧ (valueAt view .fallbackVersion = "3".toList →
      valueAt view .objectFormatVersion = bufferedFallbackV2Text ∧
        IsBindingId (valueAt view .objectBindingId))
  | .chunked => isFallbackMode view = false ∧ isChunkedFormat view = true ∧
      (valueAt view .objectFormatVersion = [] ∨ valueAt view .objectFormatVersion = chunkedV2Text ∧
        IsBindingId (valueAt view .objectBindingId)) ∧
      ∃ version, (rangeMetadataOf lib view).chunkedFormatVersion = .ok version
  | .buffered => isFallbackMode view = false ∧ isChunkedFormat view = false ∧
      (valueAt view .objectFormatVersion = [] ∨ valueAt view .objectFormatVersion = bufferedV2Text ∧
        IsBindingId (valueAt view .objectBindingId))

section Tests

variable {lib : Libraries} {view : Map Str Str}

theorem checkBindingId_eq_ok_iff :
    checkBindingId view = .ok () ↔ IsBindingId (valueAt view .objectBindingId) := by
  rw [checkBindingId, IsBindingId]
  cases parseObjectBindingId (valueAt view .objectBindingId) with
  | error err => exact iff_of_false nofun nofun
  | ok bindingId => exact iff_of_true rfl ⟨bindingId, rfl⟩

theorem checkFallback_eq_ok_iff :
    checkFallback view = .ok () ↔ (valueAt view .fallbackVersion = "3".toList →
      valueAt view .objectFormatVersion = bufferedFallbackV2Text ∧
        IsBindingId (valueAt view .objectBindingId)) := by
  rw [checkFallback]
  split
  · rename_i hversion
    rw [forall_prop_of_true hversion]
    split
    · rename_i hmarker
      exact iff_of_false nofun fun h => hmarker h.1
    · rename_i hmarker
      rw [checkBindingId_eq_ok_iff, and_iff_right (not_not.mp hmarker)]
  · rename_i hversion
    exact iff_of_true rfl fun h => absurd h hversion

/-- The marker is absent, or it is the one of the format and comes with a binding id. -/
theorem checkMarker_eq_ok_iff :
    checkMarker view = .ok () ↔
      valueAt view .objectFormatVersion = [] ∨
        valueAt view .objectFormatVersion =
          (if isChunkedFormat view then chunkedV2Text else bufferedV2Text) ∧
        IsBindingId (valueAt view .objectBindingId) := by
  have hapart : bufferedV2Text ≠ chunkedV2Text := by decide
  have hfull : bufferedV2Text ≠ [] ∧ chunkedV2Text ≠ [] := by decide
  rw [checkMarker]
  generalize valueAt view .objectFormatVersion = marker
  by_cases hnone : marker = []
  · simp [hnone]
  by_cases hbuffered : marker = bufferedV2Text
  · subst hbuffered
    cases isChunkedFormat view <;> simp [hfull, hapart, checkBindingId_eq_ok_iff]
  by_cases hchunked : marker = chunkedV2Text
  · subst hchunked
    cases isChunkedFormat view <;> simp [hfull, hapart.symm, checkBindingId_eq_ok_iff]
  · simp only [if_neg hnone, if_neg hbuffered, if_neg hchunked]
    refine iff_of_false nofun ?_
    rintro (h | ⟨h, -⟩)
    · exact hnone h
    · split at h
      · exact hchunked h
      · exact hbuffered h

/-- **The choice of the reader.** -/
theorem selectReader_eq_ok_iff {reader : BodyReader} :
    selectReader lib view = .ok reader ↔ Selects lib view reader := by
  rw [selectReader]
  cases hfallback : isFallbackMode view with
  | true =>
    rw [if_pos rfl, bind_eq_ok_iff]
    constructor
    · rintro ⟨_, hcheck, hreader⟩
      cases hreader
      exact ⟨hfallback, checkFallback_eq_ok_iff.mp hcheck⟩
    · intro hselects
      cases reader with
      | fallback => exact ⟨(), checkFallback_eq_ok_iff.mpr hselects.2, rfl⟩
      | passThrough => exact hselects.elim
      | chunked | buffered => exact absurd (hselects.1.symm.trans hfallback) nofun
  | false =>
    rw [if_neg nofun, bind_eq_ok_iff]
    cases hchunked : isChunkedFormat view with
    | true =>
      simp only [if_pos, bind_eq_ok_iff, mapError_eq_ok_iff]
      constructor
      · rintro ⟨_, hcheck, version, hversion, hreader⟩
        cases hreader
        rw [checkMarker_eq_ok_iff, hchunked, if_pos rfl] at hcheck
        exact ⟨hfallback, hchunked, hcheck, version, hversion⟩
      · intro hselects
        cases reader with
        | chunked =>
          obtain ⟨-, -, hmarker, version, hversion⟩ := hselects
          refine ⟨(), ?_, version, hversion, rfl⟩
          rwa [checkMarker_eq_ok_iff, hchunked, if_pos rfl]
        | passThrough => exact hselects.elim
        | fallback => exact absurd (hselects.1.symm.trans hfallback) nofun
        | buffered => exact absurd (hselects.2.1.symm.trans hchunked) nofun
    | false =>
      constructor
      · rintro ⟨_, hcheck, hreader⟩
        rw [if_neg nofun] at hreader
        cases hreader
        rw [checkMarker_eq_ok_iff, hchunked, if_neg nofun] at hcheck
        exact ⟨hfallback, hchunked, hcheck⟩
      · intro hselects
        cases reader with
        | buffered =>
          refine ⟨(), ?_, if_neg nofun⟩
          rw [checkMarker_eq_ok_iff, hchunked, if_neg nofun]
          exact hselects.2.2
        | passThrough => exact hselects.elim
        | fallback => exact absurd (hselects.1.symm.trans hfallback) nofun
        | chunked => exact absurd (hselects.2.1.symm.trans hchunked) nofun

end Tests

/-! ## The view of the handlers -/

section View

variable {lib : Libraries} {e : Engine} {metadata view view' : Map Str Str}

/-- `Decrypt` works with the view of the handlers; only the marker may differ. -/
theorem Engine.openSealed_expandMetadata :
    e.openSealed lib (expandMetadata lib.choose metadata) =
      (e.apiExpandedMetadata lib metadata).map
        (if e.metadataKey.isSome then markEncrypted else id) := by
  have hcompact : MetaName.encryptedMetadata.compact ∉ expandMetadata lib.choose metadata := by
    have hkey : isCompactedKey MetaName.encryptedMetadata.compact = true := by decide +kernel
    exact fun hmem => absurd (hkey.symm.trans (expanded_expandMetadata _ hmem)) nofun
  have hkey : blobKey (expandMetadata lib.choose metadata) = MetaName.encryptedMetadata.text :=
    if_neg hcompact
  have hapi : apiBlobKey (expandMetadata lib.choose metadata) =
      MetaName.encryptedMetadata.text := by
    rw [apiBlobKey, Finmap.lookup_eq_none.mpr hcompact]
    rfl
  unfold openSealed apiExpandedMetadata
  dsimp only
  rw [hkey, hapi]
  cases hmetadata : e.metadataKey with
  | none => simp [Except.map]
  | some key =>
    dsimp only
    by_cases hblob : ((expandMetadata lib.choose metadata).lookup
      MetaName.encryptedMetadata.text).getD [] = []
    · simp [hblob, Except.map]
    rw [if_neg hblob, if_pos (Option.isSome_some (a := key)),
      if_pos (And.intro hblob (Option.isSome_some (a := key)))]
    cases e.decryptMetadata lib _ with
    | error err => rfl
    | ok opened =>
      rw [ok_bind, ok_bind]
      cases mergeSealed _ _ opened <;> rfl

theorem selectReader_congr (hsame : ∀ name : MetaName, name ≠ .encrypted →
    view.lookup name.text = view'.lookup name.text) :
    selectReader lib view = selectReader lib view' := by
  have hvalue : ∀ name : MetaName, name ≠ .encrypted → valueAt view name = valueAt view' name := by
    intro name hname
    rw [valueAt, hsame name hname, valueAt]
  have hversion : (rangeMetadataOf lib view).chunkedFormatVersion =
      (rangeMetadataOf lib view').chunkedFormatVersion := by
    simp only [rangeMetadataOf, RangeMetadata.chunkedFormatVersion, RangeMetadata.loadManifest,
      hsame .manifest (by decide)]
  have hbinding : checkBindingId view = checkBindingId view' := by
    rw [checkBindingId, checkBindingId, hvalue .objectBindingId (by decide)]
  have hfallback : checkFallback view = checkFallback view' := by
    rw [checkFallback, checkFallback, hvalue .fallbackVersion (by decide),
      hvalue .objectFormatVersion (by decide), hbinding]
  have hchunked : isChunkedFormat view = isChunkedFormat view' := by
    rw [isChunkedFormat, isChunkedFormat, hvalue .chunkedFormat (by decide)]
  have hmarker : checkMarker view = checkMarker view' := by
    rw [checkMarker, checkMarker, hvalue .objectFormatVersion (by decide), hchunked, hbinding]
  have hmode : isFallbackMode view = isFallbackMode view' := by
    rw [isFallbackMode, isFallbackMode, hvalue .fallbackMode (by decide)]
  rw [selectReader, selectReader, hmode, hfallback, hmarker, hchunked, hversion]

theorem lookup_markEncrypted {name : MetaName} (hname : name ≠ .encrypted) :
    (Engine.markEncrypted view).lookup name.text = view.lookup name.text := by
  rw [Engine.markEncrypted]
  split
  · exact Finmap.lookup_insert_of_ne _ fun htext => hname (MetaName.text_injective htext)
  · rfl

/-- **Dispatch.**  An object that is not marked is passed through.  For the others the reader is
the one that the view of the handlers selects. -/
theorem Engine.exists_dispatch_iff {reader : BodyReader} :
    (∃ dispatch, e.dispatch lib metadata = .ok dispatch ∧ dispatch.reader = reader) ↔
      if isEncryptedMetadata metadata = false then reader = .passThrough
      else ∃ view, e.apiExpandedMetadata lib metadata = .ok view ∧ Selects lib view reader := by
  rw [dispatch]
  split
  · constructor
    · rintro ⟨dispatch, hok, rfl⟩
      cases hok
      rfl
    · rintro rfl
      exact ⟨_, rfl, rfl⟩
  · simp only [bind_eq_ok_iff, openSealed_expandMetadata]
    have hselect : ∀ view : Map Str Str,
        selectReader lib ((if e.metadataKey.isSome then markEncrypted else id) view) =
          selectReader lib view := by
      intro view
      split
      · exact selectReader_congr fun name hname => lookup_markEncrypted hname
      · rfl
    cases hview : e.apiExpandedMetadata lib metadata with
    | error err =>
      refine iff_of_false ?_ ?_
      · rintro ⟨dispatch, ⟨view, hmap, -⟩, -⟩
        cases hmap
      · rintro ⟨view, hok, -⟩
        cases hok
    | ok view =>
      constructor
      · rintro ⟨dispatch, ⟨opened, hmap, reader', hreader, hok⟩, rfl⟩
        cases hmap
        cases hok
        rw [hselect] at hreader
        exact ⟨view, rfl, selectReader_eq_ok_iff.mp hreader⟩
      · rintro ⟨view', hok, hselects⟩
        cases hok
        refine ⟨_, ⟨_, rfl, reader, ?_, rfl⟩, rfl⟩
        rw [hselect]
        exact selectReader_eq_ok_iff.mpr hselects

end View

end S3EncryptionGateway.Crypto
