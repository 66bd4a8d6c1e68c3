import S3EncryptionGateway.Crypto.Engine.Dispatch

/-!
# Metadata in front of the ciphertext

A chunked object whose metadata do not fit the headers has all of them in the clear in front of
the ciphertext, as a length and a JSON object.  Reading takes exactly these bytes.  Nothing
authenticates them, so only ordinary fields are taken over, and never one that the headers have in
some spelling.

## Strategy

The merge is a loop over the fields.  `mergeField` is its body, and every statement about the loop
is an induction over the fields visited that uses one of two facts about a single step: it changes
no key that is there already, and it never adds a second spelling of a name
(`eq_of_mem_mergeFields`).
-/

namespace S3EncryptionGateway.Crypto

open Text Encoding MapRange Metadata Streams

/-! ## Reading -/

/-- The bound on the prefix, with the four bytes of its length. -/
def maxFallbackPrefixBytes : ℕ := 2 ^ 20 + 4

/-- The metadata in front of the ciphertext, and the source behind them. -/
def readFallbackV2Prefix (lib : Libraries) (source : Script UInt8 CryptoError) :
    Except EngineError (Map Str Str × Script UInt8 CryptoError) :=
  match source.readFull 4 with
  | (_, some err, _) => .error (.prefixFraming err)
  | (length, none, source) =>
    if maxFallbackPrefixBytes - 4 < ofBigEndian length then
      .error (.prefixLength (ofBigEndian length))
    else
      match source.readFull (ofBigEndian length) with
      | (_, some err, _) => .error (.prefixTruncated err)
      | (data, none, source) =>
        match lib.json.unmarshal data with
        | some (some metadata) => .ok (metadata, source)
        | _ => .error .prefixJson

theorem readFallbackV2Prefix_of_clean {lib : Libraries} {source : Script UInt8 CryptoError}
    {encoded rest : Bytes} {metadata : Map Str Str} (hclean : source.Clean)
    (hbytes : source.bytes = lengthPrefixed 4 encoded ++ rest)
    (hsize : encoded.length ≤ maxFallbackPrefixBytes - 4)
    (hjson : lib.json.unmarshal encoded = some (some metadata)) :
    ∃ left, readFallbackV2Prefix lib source = .ok (metadata, left) ∧ left.Clean ∧
      left.bytes = rest := by
  have hframed : source.bytes = bigEndian 4 encoded.length ++ (encoded ++ rest) := by
    rw [hbytes, lengthPrefixed, List.append_assoc]
  obtain ⟨middle, hfirst, hmiddle, hrest⟩ := @Script.readFull_of_clean_of_le _ _ 4 _ hclean (by
    rw [hframed, List.length_append, length_bigEndian]
    omega)
  rw [hframed, List.take_left' (length_bigEndian 4 _)] at hfirst
  rw [hframed, List.drop_left' (length_bigEndian 4 _)] at hrest
  have hlength : ofBigEndian (bigEndian 4 encoded.length) = encoded.length := by
    apply ofBigEndian_bigEndian_of_lt
    rw [maxFallbackPrefixBytes] at hsize
    omega
  obtain ⟨left, hsecond, hleft, hlast⟩ :=
    @Script.readFull_of_clean_of_le _ _ encoded.length _ hmiddle (by
      rw [hrest, List.length_append]
      omega)
  rw [hrest, List.take_left] at hsecond
  rw [hrest, List.drop_left] at hlast
  refine ⟨left, ?_, hleft, hlast⟩
  rw [readFallbackV2Prefix]
  simp only [hfirst, hlength, if_neg (not_lt.mpr hsize), hsecond, hjson]

/-! ## Merging -/

/-- Fields that are neither headers nor the gateway's. -/
def isOrdinaryField (key : Str) : Bool := amzMeta <+: lowerAscii key ∧ !isGatewayReservedKey key

/-- Some spelling of the name is there. -/
def Spelled (metadata : Map Str Str) (key : Str) : Prop :=
  ∃ key' ∈ metadata.keys, lowerAscii key' = lowerAscii key

instance (metadata : Map Str Str) (key : Str) : Decidable (Spelled metadata key) :=
  inferInstanceAs (Decidable (∃ key' ∈ metadata.keys, _))

/-- A field is taken over if it is ordinary and not there. -/
def mergeField (out : Map Str Str) (entry : Str × Str) : Map Str Str :=
  if isOrdinaryField entry.1 ∧ ¬ Spelled out entry.1 then out.insert entry.1 entry.2 else out

def mergeFields (header : Map Str Str) (entries : List (Str × Str)) : Map Str Str :=
  entries.foldl mergeField header

def mergeFallbackV2Metadata (header : Map Str Str) {embedded : Map Str Str}
    (order : Order embedded) : Map Str Str :=
  mergeFields header order.entries

open Finmap

section Merge

variable {header out : Map Str Str} {entry : Str × Str} {entries : List (Str × Str)}
  {key key' value : Str}

theorem spelled_iff : Spelled out key ↔ ∃ key' ∈ out, lowerAscii key' = lowerAscii key := by
  simp only [Spelled, mem_keys]

theorem isOrdinaryField_congr (hlower : lowerAscii key = lowerAscii key') :
    isOrdinaryField key = isOrdinaryField key' := by
  rw [isOrdinaryField, isOrdinaryField, hlower, isGatewayReservedKey_congr hlower]

theorem not_reserved_of_ordinary (hordinary : isOrdinaryField key = true) :
    isGatewayReservedKey key = false := by
  have hboth := of_decide_eq_true hordinary
  simpa using hboth.2

/-- A key that is there keeps its value. -/
theorem lookup_mergeField_of_mem (hmem : key ∈ out) :
    (mergeField out entry).lookup key = out.lookup key := by
  rw [mergeField]
  split_ifs with htake
  · apply lookup_insert_of_ne
    rintro rfl
    exact htake.2 (spelled_iff.mpr ⟨_, hmem, rfl⟩)
  · rfl

theorem mem_mergeField (hmem : key ∈ out) : key ∈ mergeField out entry := by
  obtain ⟨value, hvalue⟩ := mem_iff.mp hmem
  exact mem_iff.mpr ⟨value, (lookup_mergeField_of_mem hmem).trans hvalue⟩

theorem mem_or_of_mem_mergeField (hmem : key ∈ mergeField out entry) :
    key ∈ out ∨ key = entry.1 ∧ isOrdinaryField key = true ∧ ¬ Spelled out key := by
  rw [mergeField] at hmem
  split_ifs at hmem with htake
  · rcases mem_insert.mp hmem with rfl | hold
    · exact .inr ⟨rfl, htake⟩
    · exact .inl hold
  · exact .inl hmem

theorem lookup_mergeFields_of_mem (hmem : key ∈ header) :
    (mergeFields header entries).lookup key = header.lookup key := by
  induction entries generalizing header with
  | nil => rfl
  | cons entry entries ih =>
    calc (mergeFields header (entry :: entries)).lookup key
        = (mergeField header entry).lookup key := ih (mem_mergeField hmem)
      _ = header.lookup key := lookup_mergeField_of_mem hmem

theorem mem_mergeFields (hmem : key ∈ header) : key ∈ mergeFields header entries := by
  obtain ⟨value, hvalue⟩ := mem_iff.mp hmem
  exact mem_iff.mpr ⟨value, (lookup_mergeFields_of_mem hmem).trans hvalue⟩

/-- **Nothing but ordinary fields comes from the body.** -/
theorem lookup_mergeFields_other (hkey : isOrdinaryField key = false) :
    (mergeFields header entries).lookup key = header.lookup key := by
  induction entries generalizing header with
  | nil => rfl
  | cons entry entries ih =>
    refine (ih : (mergeFields (mergeField header entry) entries).lookup key = _).trans ?_
    rw [mergeField]
    split_ifs with htake
    · apply lookup_insert_of_ne
      rintro rfl
      exact absurd (hkey.symm.trans htake.1) nofun
    · rfl

/-- A key that is not in the headers has no other spelling in the result. -/
theorem eq_of_mem_mergeFields (hnot : key ∉ header) (hmem : key ∈ mergeFields header entries)
    (hmem' : key' ∈ mergeFields header entries) (hlower : lowerAscii key' = lowerAscii key) :
    key' = key := by
  -- the invariant: a key added later than the headers is the only spelling of its name
  suffices hinv : ∀ out : Map Str Str,
      (∀ k ∈ out, ∀ k' ∈ out, k ∉ header → lowerAscii k' = lowerAscii k → k' = k) →
      ∀ k ∈ mergeFields out entries, ∀ k' ∈ mergeFields out entries, k ∉ header →
        lowerAscii k' = lowerAscii k → k' = k from
    hinv header (fun k hk _ _ hk' => absurd hk hk') key hmem key' hmem' hnot hlower
  clear hmem hmem'
  induction entries with
  | nil => exact fun out hout => hout
  | cons entry entries ih =>
    intro out hout
    refine ih (mergeField out entry) ?_
    intro k hk k' hk' hk_not hsame
    rcases mem_or_of_mem_mergeField hk with hk | ⟨rfl, -, hk⟩ <;>
      rcases mem_or_of_mem_mergeField hk' with hk' | ⟨rfl, -, hk'⟩
    · exact hout k hk k' hk' hk_not hsame
    · exact absurd (spelled_iff.mpr ⟨k, hk, hsame.symm⟩) hk'
    · exact absurd (spelled_iff.mpr ⟨k', hk', hsame⟩) hk
    · rfl

/-- A field that the body alone has comes from there. -/
theorem mem_of_lookup_mergeFields (hnot : key ∉ header)
    (hlookup : (mergeFields header entries).lookup key = some value) : (key, value) ∈ entries := by
  induction entries generalizing header with
  | nil => exact (hnot (mem_iff.mpr ⟨value, hlookup⟩)).elim
  | cons entry entries ih =>
    by_cases hmem : key ∈ mergeField header entry
    · -- it has been added in this step
      have hvalue : (mergeField header entry).lookup key = some value :=
        (lookup_mergeFields_of_mem hmem).symm.trans hlookup
      rw [mergeField] at hvalue
      split at hvalue
      · by_cases hkey : key = entry.1
        · rw [hkey, lookup_insert] at hvalue
          rw [hkey, ← Option.some.inj hvalue]
          exact List.mem_cons_self
        · rw [lookup_insert_of_ne _ hkey] at hvalue
          exact (hnot (mem_iff.mpr ⟨value, hvalue⟩)).elim
      · exact (hnot (mem_iff.mpr ⟨value, hvalue⟩)).elim
    · exact List.mem_cons_of_mem _ (ih hmem hlookup)

/-- An ordinary field of which there is one spelling is taken over. -/
theorem lookup_mergeFields_of_single (hordinary : isOrdinaryField key = true)
    (hnot : ¬ Spelled header key) (hmem : (key, value) ∈ entries)
    (hsingle : ∀ entry ∈ entries, lowerAscii entry.1 = lowerAscii key → entry = (key, value)) :
    (mergeFields header entries).lookup key = some value := by
  induction entries generalizing header with
  | nil => exact absurd hmem List.not_mem_nil
  | cons entry entries ih =>
    by_cases hentry : entry = (key, value)
    · have hstep : mergeField header entry = header.insert key value := by
        rw [hentry, mergeField, if_pos ⟨hordinary, hnot⟩]
      have hmem : key ∈ mergeField header entry := by
        rw [hstep]
        exact mem_insert.mpr (.inl rfl)
      calc (mergeFields header (entry :: entries)).lookup key
          = (mergeField header entry).lookup key := lookup_mergeFields_of_mem hmem
        _ = some value := by rw [hstep, lookup_insert]
    · refine ih ?_ ?_ fun entry' hentry' => hsingle entry' (List.mem_cons_of_mem _ hentry')
      · rw [spelled_iff]
        rintro ⟨key', hkey', hlower⟩
        rcases mem_or_of_mem_mergeField hkey' with hold | ⟨rfl, -⟩
        · exact hnot (spelled_iff.mpr ⟨key', hold, hlower⟩)
        · exact hentry (hsingle entry List.mem_cons_self hlower)
      · exact (List.mem_cons.mp hmem).resolve_left fun heq => hentry heq.symm

/-- Of two spellings the one visited first is in the way of the other. -/
theorem notMem_mergeFields_of_first (hordinary : isOrdinaryField key = true)
    (hlower : lowerAscii entry.1 = lowerAscii key) (hother : entry.1 ≠ key) (hnot : key ∉ header) :
    key ∉ mergeFields header (entry :: entries) := by
  intro hmem
  by_cases hspelled : Spelled header entry.1
  · obtain ⟨key', hkey', hsame⟩ := spelled_iff.mp hspelled
    have heq := eq_of_mem_mergeFields hnot hmem (mem_mergeFields hkey') (hsame.trans hlower)
    exact hnot (heq ▸ hkey')
  · have hstep : mergeField header entry = header.insert entry.1 entry.2 :=
      if_pos ⟨(isOrdinaryField_congr hlower).trans hordinary, hspelled⟩
    have htaken : entry.1 ∈ mergeField header entry := by
      rw [hstep]
      exact mem_insert.mpr (.inl rfl)
    have hkept : entry.1 ∈ mergeFields (mergeField header entry) entries := mem_mergeFields htaken
    exact hother (eq_of_mem_mergeFields hnot hmem hkept hlower)

end Merge

/-! ## Old objects -/

end S3EncryptionGateway.Crypto
