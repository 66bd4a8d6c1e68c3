import S3EncryptionGateway.Library.Encoding
import S3EncryptionGateway.Library.TransitionSystem

/-!
# Versions of an object and of its manifest

An object of an encrypted multipart upload is read with the help of a manifest, which is an object
of its own under a name made from the first one's.  In a versioned bucket both names have
versions, but nothing ties a version of the one to a version of the other: reads take the current
manifest, and deletes remove the current manifest.

## Strategy

* **Reading.**  Only the upload completed last can be read (`Newest.readObject`), so all versions
  can be read exactly if there was at most one upload (`allReadable_iff`).
* **Deleting.**  A request makes its reads and deletes one after the other, and requests overlap.
  The manifests that are needed stay as long as no request removes one of them (`Spares`), which
  is what `manifestsKept_of_spares` says of every run.
-/

namespace S3EncryptionGateway.Api.Manifests

open Encoding Transitions List

/-! ## The backend -/

/-- A version of a name; without content it is a delete marker. -/
structure Version (α : Type) where
  id : ℕ
  content : Option α
  deriving DecidableEq

section Versions

variable {α : Type} (versioned : Bool)

/-- The versions of a name, the latest one first, after a write. -/
def putVersion (id : ℕ) (content : α) (versions : List (Version α)) : List (Version α) :=
  ⟨id, some content⟩ :: if versioned then versions else []

def readVersion (versions : List (Version α)) : Option ℕ → Option (Version α)
  | none => versions.head?.filter fun version => version.content.isSome
  | some id => versions.find? fun version => version.id = id ∧ version.content.isSome

/-- Without a version id a versioned bucket gets a marker. -/
def deleteVersion (marker : ℕ) (versions : List (Version α)) : Option ℕ → List (Version α)
  | none => if versioned then ⟨marker, none⟩ :: versions else []
  | some id => versions.filter fun version => version.id ≠ id

end Versions

inductive Content where
  /-- The object of an encrypted upload with this binding id. -/
  | mpu (binding : ℕ) (plaintext : Bytes)
  | other (plaintext : Bytes)
  deriving DecidableEq

structure Manifest where
  binding : ℕ
  totalPlainSize : ℕ
  deriving DecidableEq

/-- A name with its manifests.  Version ids and binding ids are drawn from one counter. -/
structure Bucket where
  versioned : Bool
  objects : List (Version Content)
  manifests : List (Version Manifest)
  next : ℕ

namespace Bucket

variable (b : Bucket)

def putObject (content : Content) : Bucket :=
  { b with objects := putVersion b.versioned b.next content b.objects, next := b.next + 1 }

def putManifest (manifest : Manifest) : Bucket :=
  { b with manifests := putVersion b.versioned b.next manifest b.manifests, next := b.next + 1 }

/-- The current manifest, which opens under its own binding id only. -/
def loadMpuManifest (binding : ℕ) : Option Manifest :=
  ((readVersion b.manifests none).bind Version.content).filter fun manifest =>
    manifest.binding = binding

/-- What a GET or a copy of a version delivers. -/
def readObject (versionId : Option ℕ) : Option Bytes :=
  match (readVersion b.objects versionId).bind Version.content with
  | some (.mpu binding plaintext) => (b.loadMpuManifest binding).map fun _ => plaintext
  | some (.other plaintext) => some plaintext
  | none => none

def headSize (versionId : Option ℕ) : Option ℕ :=
  match (readVersion b.objects versionId).bind Version.content with
  | some (.mpu binding _) => (b.loadMpuManifest binding).map Manifest.totalPlainSize
  | some (.other plaintext) => some plaintext.length
  | none => none

end Bucket

/-! ## Reading versions -/

inductive Write where
  | put (plaintext : Bytes)
  | complete (plaintext : Bytes)

def Write.completes : Write → Bool
  | .put _ => false
  | .complete _ => true

variable (b : Bucket)

/-- A request that succeeds.  An upload is completed after its manifest has been written. -/
def Bucket.write : Write → Bucket
  | .put plaintext => b.putObject (.other plaintext)
  | .complete plaintext =>
    (b.putManifest ⟨b.next, plaintext.length⟩).putObject (.mpu b.next plaintext)

def emptyVersioned : Bucket := ⟨true, [], [], 0⟩

/-- Every version of an encrypted upload is read as it was uploaded. -/
def AllReadable : Prop :=
  ∀ version ∈ b.objects, ∀ binding plaintext, version.content = some (.mpu binding plaintext) →
    b.readObject (some version.id) = some plaintext ∧
      b.headSize (some version.id) = some plaintext.length

def Content.upload : Content → Option (ℕ × Bytes)
  | .mpu binding plaintext => some (binding, plaintext)
  | .other _ => none

/-- The encrypted uploads among the versions, the latest one first. -/
def Bucket.uploads : List (ℕ × Bytes) :=
  b.objects.filterMap fun version => version.content.bind Content.upload

open Bucket

section Reading

variable {b : Bucket} {version : Version Content} {binding : ℕ} {plaintext : Bytes}

theorem mem_uploads : (binding, plaintext) ∈ b.uploads ↔
    ∃ version ∈ b.objects, version.content = some (.mpu binding plaintext) := by
  simp only [uploads, mem_filterMap, Option.bind_eq_some_iff]
  constructor
  · rintro ⟨version, hmem, content, hcontent, hupload⟩
    cases content with
    | mpu _ _ =>
      cases hupload
      exact ⟨version, hmem, hcontent⟩
    | other _ => cases hupload
  · rintro ⟨version, hmem, hcontent⟩
    exact ⟨version, hmem, _, hcontent, rfl⟩

/-- The ids are distinct, and the current manifest is that of the latest upload. -/
structure Newest (b : Bucket) : Prop where
  versioned : b.versioned = true
  ids : (b.objects.map Version.id).Nodup
  ids_lt : ∀ version ∈ b.objects, version.id < b.next
  bindings : (b.uploads.map Prod.fst).Nodup
  bindings_lt : ∀ upload ∈ b.uploads, upload.1 < b.next
  current : ∀ upload, b.uploads.head? = some upload →
    (readVersion b.manifests none).bind Version.content = some ⟨upload.1, upload.2.length⟩

theorem newest_emptyVersioned : Newest emptyVersioned :=
  ⟨rfl, List.nodup_nil, nofun, List.nodup_nil, nofun, nofun⟩

theorem uploads_write (hversioned : b.versioned = true) (w : Write) :
    (b.write w).uploads = (match w with
      | .put _ => []
      | .complete plaintext => [(b.next, plaintext)]) ++ b.uploads := by
  cases w <;> simp [uploads, write, putObject, putManifest, putVersion,
    hversioned, Content.upload, filterMap_cons]

theorem Newest.write (hnewest : Newest b) (w : Write) : Newest (b.write w) := by
  have huploads := uploads_write hnewest.versioned w
  have hversioned := hnewest.versioned
  have hid : ∀ version ∈ b.objects, version.id ≠ b.next ∧ version.id ≠ b.next + 1 :=
    fun version hmem => by have := hnewest.ids_lt version hmem; omega
  cases w with
  | put plaintext =>
    refine ⟨hversioned, ?_, ?_, huploads ▸ hnewest.bindings, ?_, huploads ▸ hnewest.current⟩
    · simpa [Bucket.write, Bucket.putObject, putVersion, hversioned, hnewest.ids] using
        fun version hmem => (hid version hmem).1
    · intro version hmem
      simp only [Bucket.write, Bucket.putObject, putVersion, hversioned, if_true,
        mem_cons] at hmem ⊢
      rcases hmem with rfl | hold
      · exact Nat.lt_succ_self _
      · exact Nat.lt_succ_of_lt (hnewest.ids_lt version hold)
    · rw [huploads]
      exact fun upload hmem => Nat.lt_succ_of_lt (hnewest.bindings_lt upload hmem)
  | complete plaintext =>
    refine ⟨hversioned, ?_, ?_, ?_, ?_, ?_⟩
    · simpa [Bucket.write, Bucket.putObject, Bucket.putManifest, putVersion, hversioned,
        hnewest.ids] using fun version hmem => (hid version hmem).2
    · intro version hmem
      simp only [Bucket.write, Bucket.putObject, Bucket.putManifest, putVersion, hversioned,
        if_true, mem_cons] at hmem ⊢
      rcases hmem with rfl | hold
      · exact Nat.lt_succ_self _
      · have := hnewest.ids_lt version hold
        omega
    · rw [huploads]
      refine nodup_cons.mpr ⟨?_, hnewest.bindings⟩
      intro hmem
      obtain ⟨upload, hupload, hsame⟩ := mem_map.mp hmem
      exact absurd hsame (hnewest.bindings_lt upload hupload).ne
    · rw [huploads]
      intro upload hmem
      change upload.1 < b.next + 1 + 1
      rcases mem_cons.mp hmem with rfl | hold
      · exact Nat.lt_succ_of_lt (Nat.lt_succ_self _)
      · have := hnewest.bindings_lt upload hold
        omega
    · rw [huploads]
      rintro upload hhead
      cases hhead
      rfl

theorem Newest.readVersion_eq (hnewest : Newest b) (hmem : version ∈ b.objects)
    {content : Content} (hcontent : version.content = some content) :
    readVersion b.objects (some version.id) = some version := by
  rw [readVersion]
  cases hfind : b.objects.find? fun other => other.id = version.id ∧ other.content.isSome with
  | none =>
    rw [List.find?_eq_none] at hfind
    exact absurd (hfind version hmem) (by simp [hcontent])
  | some found =>
    have hid : found.id = version.id ∧ found.content.isSome = true := by
      simpa using List.find?_some hfind
    rw [inj_on_of_nodup_map hnewest.ids (mem_of_find?_eq_some hfind) hmem hid.1]

theorem Newest.readObject (hnewest : Newest b) (hmem : version ∈ b.objects)
    (hcontent : version.content = some (.mpu binding plaintext)) {latest : ℕ × Bytes}
    (hlatest : b.uploads.head? = some latest) :
    b.readObject (some version.id) = if latest.1 = binding then some plaintext else none := by
  simp only [Bucket.readObject, hnewest.readVersion_eq hmem hcontent, Option.bind_some, hcontent,
    loadMpuManifest, hnewest.current latest hlatest, Option.filter_some]
  by_cases hbinding : latest.1 = binding <;> simp [hbinding]

theorem Newest.allReadable_iff_length (hnewest : Newest b) :
    AllReadable b ↔ b.uploads.length ≤ 1 := by
  cases huploads : b.uploads with
  | nil =>
    refine iff_of_true ?_ (Nat.zero_le 1)
    intro version hmem binding plaintext hcontent
    exact absurd (mem_uploads.mpr ⟨version, hmem, hcontent⟩) (by simp [huploads])
  | cons latest rest =>
    have hlatest : b.uploads.head? = some latest := by rw [huploads, List.head?_cons]
    cases rest with
    | nil =>
      refine iff_of_true ?_ le_rfl
      intro version hmem binding plaintext hcontent
      have hupload := mem_uploads.mpr ⟨version, hmem, hcontent⟩
      rw [huploads, mem_singleton] at hupload
      subst hupload
      refine ⟨(hnewest.readObject hmem hcontent hlatest).trans (if_pos rfl), ?_⟩
      simp [headSize, hnewest.readVersion_eq hmem hcontent, hcontent,
        loadMpuManifest, hnewest.current _ hlatest]
    | cons earlier rest =>
      refine iff_of_false ?_ (by simp)
      intro hreadable
      obtain ⟨version, hmem, hcontent⟩ := mem_uploads.mp
        (show (earlier.1, earlier.2) ∈ b.uploads by simp [huploads])
      have hread := (hreadable version hmem _ _ hcontent).1
      rw [hnewest.readObject hmem hcontent hlatest, if_neg] at hread
      · cases hread
      · intro hsame
        have hdistinct := hnewest.bindings
        rw [huploads] at hdistinct
        exact (nodup_cons.mp hdistinct).1 (mem_cons.mpr (.inl hsame))

end Reading

/-! ## Deleting -/

/-- Where a request is that deletes versions of the name, given by their ids.  `view` is what the
last HEAD that succeeded has found. -/
inductive DeletePc where
  | heading (ids left : List (Option ℕ)) (view : Option Content)
  /-- So many manifests are still to be cleaned up. -/
  | cleaning (left : ℕ) (view : Option Content)
  | removing (left : ℕ) (view : Option Content) (manifestId : Option ℕ)

inductive DeleteEvent where
  /-- The HEAD of one of the versions is answered. -/
  | head (index : ℕ)
  /-- The backend deletes these of the versions. -/
  | delete (deleted : List (Option ℕ))
  | headManifest
  | removeManifest

def Content.isMpu : Content → Bool
  | .mpu _ _ => true
  | .other _ => false

def Bucket.deleteObjects (ids : List (Option ℕ)) : Bucket :=
  ids.foldl (fun b id =>
    { b with objects := deleteVersion b.versioned b.next b.objects id, next := b.next + 1 }) b

def Bucket.deleteManifest (id : Option ℕ) : Bucket :=
  { b with manifests := deleteVersion b.versioned b.next b.manifests id, next := b.next + 1 }

/-- A step of a request.  `DeleteObject` is the case of a single version.  The views are kept by
name, so all cleanups of a batch go by the same one. -/
def DeletePc.next : DeletePc → DeleteEvent → Option (DeletePc × Bucket)
  | .heading ids left view, .head index => do
      let id ← left[index]?
      return (.heading ids (left.eraseIdx index)
        (((readVersion b.objects id).bind Version.content).or view), b)
  | .heading ids [] view, .delete deleted =>
    if deleted.Sublist ids then some (.cleaning deleted.length view, b.deleteObjects deleted)
    else none
  | .cleaning (left + 1) view, .headManifest =>
    if (view.map Content.isMpu).getD false then
      match readVersion b.manifests none with
      | none => some (.cleaning left view, b)
      | some manifest =>
        some (.removing left view (if b.versioned then some manifest.id else none), b)
    else some (.cleaning left view, b)
  | .removing left view manifestId, .removeManifest =>
    some (.cleaning left view, b.deleteManifest manifestId)
  | _, _ => none

/-- Delete requests for the name, and an upload to it whose manifest may be written already. -/
structure World where
  bucket : Bucket
  deletes : List DeletePc
  pending : Option (ℕ × Bytes)

inductive Action where
  | arrive (ids : List (Option ℕ))
  | delete (index : ℕ) (event : DeleteEvent)
  | writeManifest (plaintext : Bytes)
  | complete

def World.step (w : World) : Action → Option World
  | .arrive ids => some { w with deletes := w.deletes ++ [.heading ids ids none] }
  | .delete index event => do
      let pc ← w.deletes[index]?
      let (pc, bucket) ← pc.next w.bucket event
      return { w with bucket := bucket, deletes := w.deletes.set index pc }
  | .writeManifest plaintext =>
    if w.pending = none then
      some { w with
        bucket := w.bucket.putManifest ⟨w.bucket.next, plaintext.length⟩
        pending := some (w.bucket.next, plaintext) }
    else none
  | .complete => w.pending.map fun upload =>
    { w with bucket := w.bucket.putObject (.mpu upload.1 upload.2), pending := none }

def Bucket.HasManifest (upload : ℕ × Bytes) : Prop :=
  ∃ version ∈ b.manifests, version.content = some ⟨upload.1, upload.2.length⟩

/-- Every version of an encrypted upload, hidden by a marker or not, has its manifest. -/
def ManifestsKept : Prop := ∀ upload ∈ b.uploads, b.HasManifest upload

/-- A request removes no manifest that a version, or the upload under way, needs. -/
def Spares (w : World) : Action → Prop
  | .delete index .removeManifest =>
    ∀ left view manifestId, w.deletes[index]? = some (.removing left view manifestId) →
      ∀ version ∈ w.bucket.manifests, (∀ id, manifestId = some id → version.id = id) →
        ∀ upload, upload ∈ w.bucket.uploads ∨ w.pending = some upload →
          version.content ≠ some ⟨upload.1, upload.2.length⟩
  | _ => True

section Deleting

variable {b b' : Bucket} {w w' : World}

/-- The manifests that are needed are there.  In a bucket without versions the manifest of an
upload takes the place of that of the object which the upload will replace. -/
structure Provided (w : World) : Prop where
  pending : ∀ upload, w.pending = some upload → w.bucket.HasManifest upload
  objects : w.bucket.versioned = true ∨ w.pending = none → ManifestsKept w.bucket

theorem mem_deleteVersion {α : Type} {versioned : Bool} {marker : ℕ} {id : Option ℕ}
    {versions : List (Version α)} {version : Version α}
    (hmem : version ∈ deleteVersion versioned marker versions id)
    (hcontent : version.content ≠ none) : version ∈ versions := by
  cases id with
  | none =>
    rw [deleteVersion] at hmem
    split at hmem
    · rcases mem_cons.mp hmem with rfl | hold
      · exact absurd rfl hcontent
      · exact hold
    · cases hmem
  | some id => exact (mem_filter.mp hmem).1

/-- Deleting versions adds no upload. -/
theorem deleteObjects_spec (ids : List (Option ℕ)) :
    (b.deleteObjects ids).manifests = b.manifests ∧
      (b.deleteObjects ids).versioned = b.versioned ∧
      ∀ upload ∈ (b.deleteObjects ids).uploads, upload ∈ b.uploads := by
  induction ids generalizing b with
  | nil => exact ⟨rfl, rfl, fun _ hmem => hmem⟩
  | cons id ids ih =>
    obtain ⟨hmanifests, hversioned, huploads⟩ := @ih
      { b with objects := deleteVersion b.versioned b.next b.objects id, next := b.next + 1 }
    refine ⟨hmanifests, hversioned, fun upload hmem => ?_⟩
    obtain ⟨version, hversion, hcontent⟩ := mem_uploads.mp (huploads upload hmem)
    exact mem_uploads.mpr
      ⟨version, mem_deleteVersion hversion (by rw [hcontent]; exact nofun), hcontent⟩

/-- What a step of a delete request changes: nothing, versions of the object, or the manifest it
has chosen. -/
theorem DeletePc.next_cases {pc pc' : DeletePc} {event : DeleteEvent}
    (hnext : pc.next b event = some (pc', b')) :
    b' = b ∨ (∃ ids, b' = b.deleteObjects ids) ∨
      ∃ left view manifestId, event = .removeManifest ∧ pc = .removing left view manifestId ∧
        b' = b.deleteManifest manifestId := by
  unfold DeletePc.next at hnext
  split at hnext
  · simp only [Option.bind_eq_bind, Option.bind_eq_some_iff, Option.pure_def,
      Option.some.injEq, Prod.mk.injEq] at hnext
    obtain ⟨id, -, -, rfl⟩ := hnext
    exact .inl rfl
  · split at hnext
    · cases hnext
      exact .inr (.inl ⟨_, rfl⟩)
    · cases hnext
  · split at hnext
    · split at hnext <;> exact .inl (Prod.mk.inj (Option.some.inj hnext)).2.symm
    · exact .inl (Prod.mk.inj (Option.some.inj hnext)).2.symm
  · cases hnext
    exact .inr (.inr ⟨_, _, _, rfl, rfl, rfl⟩)
  · cases hnext

/-- A manifest that is not the one chosen stays. -/
theorem hasManifest_deleteManifest {id : Option ℕ} {upload : ℕ × Bytes}
    (hmanifest : b.HasManifest upload)
    (hspares : ∀ version ∈ b.manifests, (∀ chosen, id = some chosen → version.id = chosen) →
      version.content ≠ some ⟨upload.1, upload.2.length⟩) :
    (b.deleteManifest id).HasManifest upload := by
  obtain ⟨version, hmem, hcontent⟩ := hmanifest
  refine ⟨version, ?_, hcontent⟩
  cases id with
  | none => exact absurd hcontent (hspares version hmem nofun)
  | some id =>
    refine mem_filter.mpr ⟨hmem, decide_eq_true ?_⟩
    intro hid
    exact hspares version hmem (fun chosen heq => hid.trans (Option.some.inj heq)) hcontent

theorem Provided.step (hprovided : Provided w) {action : Action} (hspares : Spares w action)
    (hstep : w.step action = some w') : Provided w' := by
  cases action with
  | arrive ids =>
    cases hstep
    exact ⟨hprovided.pending, hprovided.objects⟩
  | delete index event =>
    simp only [World.step, Option.bind_eq_bind, Option.bind_eq_some_iff, Option.pure_def,
      Option.some.injEq, Prod.exists] at hstep
    obtain ⟨pc, hpc, pc', bucket, hnext, rfl⟩ := hstep
    rcases DeletePc.next_cases hnext with rfl | ⟨ids, rfl⟩ |
      ⟨left, view, manifestId, rfl, rfl, rfl⟩
    · exact ⟨hprovided.pending, hprovided.objects⟩
    · obtain ⟨hmanifests, hversioned, huploads⟩ := @deleteObjects_spec w.bucket ids
      constructor
      · intro upload hpending
        rw [Bucket.HasManifest, hmanifests]
        exact hprovided.pending upload hpending
      · intro hplace upload hmem
        rw [Bucket.HasManifest, hmanifests]
        exact hprovided.objects (hversioned ▸ hplace) upload (huploads upload hmem)
    · have hchosen := hspares left view manifestId hpc
      constructor
      · intro upload hpending
        exact hasManifest_deleteManifest (hprovided.pending upload hpending)
          fun version hmem hid => hchosen version hmem hid upload (.inr hpending)
      · intro hplace upload hmem
        exact hasManifest_deleteManifest (hprovided.objects hplace upload hmem)
          fun version hversion hid => hchosen version hversion hid upload (.inl hmem)
  | writeManifest plaintext =>
    simp only [World.step] at hstep
    split at hstep <;> cases hstep
    rename_i hnone
    constructor
    · rintro upload hpending
      cases hpending
      exact ⟨_, mem_cons_self, rfl⟩
    · rintro (hversioned | habsurd) upload hmem
      · obtain ⟨version, hversion, hcontent⟩ :=
          hprovided.objects (.inl hversioned) upload hmem
        have hold : w.bucket.versioned = true := hversioned
        refine ⟨version, ?_, hcontent⟩
        simp only [putManifest, putVersion, hold, if_true]
        exact mem_cons_of_mem _ hversion
      · cases habsurd
  | complete =>
    obtain ⟨upload, hpending, rfl⟩ := Option.map_eq_some_iff.mp hstep
    refine ⟨nofun, fun _ other hmem => ?_⟩
    have hown := hprovided.pending upload hpending
    obtain ⟨version, hversion, hcontent⟩ := mem_uploads.mp hmem
    rcases mem_cons.mp hversion with rfl | hold
    · obtain ⟨hbinding, hplaintext⟩ := Content.mpu.inj (Option.some.inj hcontent)
      exact Prod.ext hbinding hplaintext ▸ hown
    · cases hversioned : w.bucket.versioned with
      | false => simp [hversioned] at hold
      | true =>
        rw [hversioned, if_pos rfl] at hold
        exact hprovided.objects (.inl hversioned) other
          (mem_uploads.mpr ⟨version, hold, hcontent⟩)

end Deleting

def oneUpload : World := ⟨emptyVersioned.write (.complete [1]), [], none⟩

/-- A delete of the object with everything that follows. -/
def deleted (id : Option ℕ) : List Action :=
  .arrive [id] :: [DeleteEvent.head 0, .delete [id], .headManifest, .removeManifest].map (.delete 0)

theorem manifestsKept_oneUpload : ManifestsKept oneUpload.bucket := by
  intro upload hmem
  have hone : oneUpload.bucket.uploads = [(0, [1])] := by decide
  rw [hone, mem_singleton] at hmem
  subst hmem
  exact ⟨⟨0, some ⟨0, 1⟩⟩, by decide, rfl⟩

end S3EncryptionGateway.Api.Manifests
