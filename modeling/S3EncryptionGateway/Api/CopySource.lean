import S3EncryptionGateway.Library.UriEncoding

/-!
# The header that names the source of a copy

The header is the bucket and the key with a slash between them, and a version if there is one.
The writer escapes the three parts one by one.  The reader takes off the version, decodes the
rest once and splits it at the first slash.

A decoded bucket has no slash and nothing that is decoded is empty (`isSource_of_parse`), so what
the reader returns is something the writer can write, and what the writer writes is read back
(`parse_header`).
-/

namespace S3EncryptionGateway.Api.CopySource

open Text List

inductive CopySourceError where
  /-- "invalid copy source path: %w" -/
  | path
  /-- "invalid copy source format" -/
  | format
  /-- "invalid copy source version: %w" -/
  | version
  deriving DecidableEq

/-- The text before and after the first occurrence of a text. -/
def cutAt (separator : Str) : Str → Str × Option Str
  | [] => ([], none)
  | c :: rest =>
    if separator <+: c :: rest then ([], some ((c :: rest).drop separator.length))
    else (c :: (cutAt separator rest).1, (cutAt separator rest).2)

def versionMarker : Str := "?versionId=".toList

def copySourceHeader (bucket key : Str) (versionId : Option Str) : Str :=
  let escape := fun value => replaceAll '+' "%20".toList (queryEscape value)
  let header := escape bucket ++ '/' :: escape key
  match versionId with
  | none | some [] => header
  | some version => header ++ (versionMarker ++ escape version)

def parseCopySource (copySource : Str) : Except CopySourceError (Str × Str × Option Str) :=
  let (path, rawVersion) := cutAt versionMarker copySource
  match pathUnescape path with
  | none => .error .path
  | some decodedPath =>
    -- only the slash in front of the header is left out; later ones belong to the key
    match cut '/' (if decodedPath.head? = some '/' then decodedPath.tail else decodedPath) with
    | (_, none) => .error .format
    | (bucket, some key) =>
      if bucket = [] ∨ key = [] then .error .format
      else
        match rawVersion with
        | none | some [] => .ok (bucket, key, none)
        | some raw =>
          match pathUnescape raw with
          | none => .error .version
          | some version => .ok (bucket, key, some version)

/-- What a copy can name: bytes, with no part empty and no slash in the bucket. -/
structure IsSource (bucket key : Str) (versionId : Option Str) : Prop where
  bytes : IsBytes bucket ∧ IsBytes key ∧ ∀ version ∈ versionId, IsBytes version
  bucket_ne : bucket ≠ []
  no_slash : '/' ∉ bucket
  key_ne : key ≠ []
  version_ne : ∀ version ∈ versionId, version ≠ []

variable {text bucket key : Str} {versionId : Option Str}

theorem cutAt_versionMarker (htext : '?' ∉ text) :
    cutAt versionMarker text = (text, none) ∧
      ∀ raw, cutAt versionMarker (text ++ (versionMarker ++ raw)) = (text, some raw) := by
  induction text with
  | nil => exact ⟨rfl, fun raw => if_pos (prefix_append _ _)⟩
  | cons c text ih =>
    obtain ⟨hnone, hsome⟩ := ih fun hmem => htext (mem_cons_of_mem _ hmem)
    have hnot : ∀ rest, ¬ versionMarker <+: c :: rest := fun rest hmarker =>
      htext (mem_cons.mpr (.inl (cons_prefix_cons.mp hmarker).1))
    refine ⟨?_, fun raw => ?_⟩
    · rw [cutAt, if_neg (hnot _), hnone]
    · rw [cons_append, cutAt, if_neg (hnot _), hsome]

theorem cut_eq_some_iff : cut '/' text = (bucket, some key) ↔
    '/' ∉ bucket ∧ text = bucket ++ '/' :: key := by
  constructor
  · intro hcut
    have happend := text.takeWhile_append_dropWhile (p := (· ≠ '/'))
    unfold cut at hcut
    split at hcut <;> cases hcut
    rename_i c hdrop
    refine ⟨fun hmem => by simpa using mem_takeWhile_imp hmem, ?_⟩
    have hc := head?_dropWhile_not (· ≠ '/') text
    rw [hdrop] at hc happend
    obtain rfl : c = '/' := by simpa using hc
    exact happend.symm
  · rintro ⟨hbucket, rfl⟩
    have hall : ∀ c ∈ bucket, (decide (c ≠ '/')) = true := fun c hc =>
      decide_eq_true fun heq => hbucket (heq ▸ hc)
    rw [cut, dropWhile_append_of_pos hall, takeWhile_append_of_pos hall]
    simp

theorem parse_header (hsource : IsSource bucket key versionId) :
    parseCopySource (copySourceHeader bucket key versionId) = .ok (bucket, key, versionId) := by
  obtain ⟨⟨hbucket, hkey, hversion⟩, hbucket_ne, hslash, hkey_ne, hversion_ne⟩ := hsource
  obtain ⟨c, rest, rfl⟩ := exists_cons_of_ne_nil hbucket_ne
  have hmark : '?' ∉ percentEncode (c :: rest) ++ '/' :: percentEncode key := by
    simp only [mem_append, mem_cons, not_or]
    exact ⟨separator_notMem_percentEncode (by simp) hbucket, by decide,
      separator_notMem_percentEncode (by simp) hkey⟩
  have hcut := cutAt_versionMarker hmark
  have hdecoded : pathUnescape (percentEncode (c :: rest) ++ '/' :: percentEncode key) =
      some (c :: rest ++ '/' :: key) := by
    rw [pathUnescape_percentEncode_append hbucket, pathUnescape.eq_4 _ _ (by simp) (by simp),
      pathUnescape_percentEncode hkey]
    rfl
  have hhead : (c :: rest ++ '/' :: key).head? ≠ some '/' := fun h =>
    hslash (by cases h; exact mem_cons_self)
  have hsplit : cut '/' (c :: rest ++ '/' :: key) = _ := cut_eq_some_iff.mpr ⟨hslash, rfl⟩
  unfold parseCopySource copySourceHeader
  simp only [replaceAll_queryEscape hbucket, replaceAll_queryEscape hkey]
  cases versionId with
  | none =>
    simp only [hcut.1, hdecoded, if_neg hhead, hsplit, hkey_ne, reduceCtorEq, or_self, if_false]
  | some version =>
    obtain ⟨d, version, rfl⟩ := exists_cons_of_ne_nil (hversion_ne version rfl)
    have hbytes := hversion _ rfl
    have hraw := pathUnescape_percentEncode hbytes
    simp only [replaceAll_queryEscape hbytes, hcut.2, hdecoded, if_neg hhead, hsplit, hkey_ne,
      reduceCtorEq, or_self, if_false]
    generalize percentEncode (d :: version) = raw at hraw ⊢
    cases raw with
    | nil => cases hraw
    | cons e raw => simp only [hraw]

theorem mem_of_mem_cutAt {separator : Str} {c : Char} :
    (c ∈ (cutAt separator text).1 → c ∈ text) ∧
      ∀ raw, (cutAt separator text).2 = some raw → c ∈ raw → c ∈ text := by
  induction text with
  | nil => exact ⟨id, nofun⟩
  | cons d text ih =>
    rw [cutAt]
    split_ifs
    · refine ⟨nofun, fun raw hraw hc => ?_⟩
      cases hraw
      exact mem_of_mem_drop hc
    · refine ⟨fun hc => ?_, fun raw hraw hc => mem_cons_of_mem _ (ih.2 raw hraw hc)⟩
      exact mem_cons.mpr ((mem_cons.mp hc).imp_right ih.1)

theorem isSource_of_parse (hbytes : IsBytes text)
    (hparse : parseCopySource text = .ok (bucket, key, versionId)) :
    IsSource bucket key versionId := by
  unfold parseCopySource at hparse
  dsimp only at hparse
  split at hparse
  · cases hparse
  rename_i decodedPath hpath
  have hdecoded := isBytes_pathUnescape (fun c hc => hbytes c (mem_of_mem_cutAt.1 hc)) hpath
  split at hparse
  · cases hparse
  rename_i bucket' key' hcut
  split at hparse
  · cases hparse
  rename_i hsome
  obtain ⟨hslash, hsplit⟩ := cut_eq_some_iff.mp hcut
  have hboth : IsBytes (bucket' ++ '/' :: key') := by
    rw [← hsplit]
    split
    · exact fun c hc => hdecoded c (mem_of_mem_tail hc)
    · exact hdecoded
  have hsource : ∀ versionId : Option Str, (∀ version ∈ versionId, IsBytes version) →
      (∀ version ∈ versionId, version ≠ []) → IsSource bucket' key' versionId :=
    fun versionId hversion hne => ⟨⟨fun c hc => hboth c (mem_append_left _ hc),
      fun c hc => hboth c (mem_append_right _ (mem_cons_of_mem _ hc)), hversion⟩,
      fun h => hsome (.inl h), hslash, fun h => hsome (.inr h), hne⟩
  split at hparse
  · cases hparse
    exact hsource none nofun nofun
  · cases hparse
    exact hsource none nofun nofun
  · rename_i raw hraw hrest
    split at hparse <;> cases hparse
    rename_i version hversion
    refine hsource (some version) ?_ ?_
    · rintro _ ⟨⟩
      exact isBytes_pathUnescape (fun c hc => hbytes c (mem_of_mem_cutAt.2 raw hrest hc)) hversion
    · rintro _ ⟨⟩ rfl
      obtain ⟨c, raw, rfl⟩ := exists_cons_of_ne_nil hraw
      exact pathUnescape_cons_ne c raw hversion

/-- **The header is read back as it was written**, and reading any header gives something whose
own header is read the same way. -/
theorem copySource_round_trip :
    (∀ bucket key versionId, IsSource bucket key versionId →
      parseCopySource (copySourceHeader bucket key versionId) = .ok (bucket, key, versionId)) ∧
    ∀ text bucket key versionId, IsBytes text →
      parseCopySource text = .ok (bucket, key, versionId) →
      parseCopySource (copySourceHeader bucket key versionId) = .ok (bucket, key, versionId) :=
  ⟨fun _ _ _ hsource => parse_header hsource,
    fun _ _ _ _ hbytes hparse => parse_header (isSource_of_parse hbytes hparse)⟩

theorem copySource_round_trip_marker :
    parseCopySource (copySourceHeader "b".toList "/?versionId=%+".toList (some "1".toList)) =
        .ok ("b".toList, "/?versionId=%+".toList, some "1".toList) ∧
      parseCopySource "/b//k?versionId=".toList = .ok ("b".toList, "/k".toList, none) ∧
      parseCopySource (copySourceHeader "b".toList "/k".toList none) =
        .ok ("b".toList, "/k".toList, none) :=
  ⟨copySource_round_trip.1 _ _ _ ⟨by decide, by decide, by decide, by decide, by decide⟩,
    by decide,
    copySource_round_trip.2 "/b//k?versionId=".toList _ _ _ (by decide) (by decide)⟩

end S3EncryptionGateway.Api.CopySource
