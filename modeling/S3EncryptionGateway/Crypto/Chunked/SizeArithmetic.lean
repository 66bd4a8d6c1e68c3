import S3EncryptionGateway.Crypto.RangeHeader
import S3EncryptionGateway.Crypto.Chunked.RangePlan

/-!
# The size equation in machine integers

`chunkedCiphertextSize` and `chunkedPlaintextSize` compute with integers of any size.  Here
they are once more as the machine runs them, every operation reduced to 64 bits
(`toInt64`, `toUint64`), and two things are shown.

* The reductions change nothing: no operation leaves its range.
* The two functions are inverse to each other.  `chunkedPlaintextSize_eq` is one direction;
  for the other, whatever candidate is accepted has the length of its own records
  (`plaintextSizeFor_eq_some`).

The same is done for the byte ranges of records.  They lie end to end (`Tiles`), as long as the
last record would fit an `int64` at full length.
-/

namespace S3EncryptionGateway.Crypto

/-- The result of a `uint64` operation whose exact value is `n`. -/
def toUint64 (n : ℕ) : ℕ := n % 18446744073709551616

namespace Machine

def chunkedDataChunkCount (plaintextSize : ℤ) (chunkSize : ℕ) : Except CryptoError ℕ := do
  if plaintextSize < 0 then .error .negativePlaintextSize
  else
    validateChunkSize chunkSize
    if plaintextSize = 0 then return 0
    else
      let count := toInt64 (toInt64 ((toInt64 (plaintextSize - 1)).tdiv chunkSize) + 1)
      if count < 0 then .error .chunkCountOverflow else return toUint64 count.toNat

def chunkedCiphertextSize (plaintextSize : ℤ) (chunkSize version : ℕ) :
    Except CryptoError ℤ := do
  validateChunkedVersion version
  let count ← Machine.chunkedDataChunkCount plaintextSize chunkSize
  if (maxInt64 - chunkedTerminalSize) / tagSize < count then .error .ciphertextSizeOverflow
  else
    let overhead := toUint64 (count * tagSize)
    if version = chunkedFormatV2 ∧ maxInt64 - chunkedTerminalSize < overhead then
      .error .ciphertextSizeOverflow
    else
      let overhead :=
        if version = chunkedFormatV2 then toUint64 (overhead + chunkedTerminalSize) else overhead
      if maxInt64 < overhead ∨ toInt64 (maxInt64 - toInt64 overhead) < plaintextSize then
        .error .ciphertextSizeOverflow
      else return toInt64 (plaintextSize + toInt64 overhead)

def plaintextSizeFor (dataSize : ℤ) (chunkSize count : ℕ) : Option (ℤ × ℕ) :=
  if maxInt64 / tagSize < count then none
  else
    let plain := toInt64 (dataSize - toInt64 (toUint64 (count * tagSize)))
    if plain < 0 then none
    else
      match Machine.chunkedDataChunkCount plain chunkSize with
      | .error _ => none
      | .ok actual => if actual = count then some (plain, count) else none

def chunkedPlaintextSize (ciphertextSize : ℤ) (chunkSize version : ℕ) :
    Except RangeError (ℤ × ℕ) := do
  liftCrypto (validateChunkedVersion version)
  liftCrypto (validateChunkSize chunkSize)
  if ciphertextSize < 0 then .error .negativeCiphertextSize
  else
    let overhead : ℤ := if version = chunkedFormatV2 then chunkedTerminalSize else 0
    if ciphertextSize < overhead then .error .shorterThanTerminal
    else
      let dataSize := toInt64 (ciphertextSize - overhead)
      if dataSize = 0 then return (0, 0)
      else if version = chunkedFormatV2 ∧ dataSize < tagSize then .error .nonCanonicalSize
      else
        let candidate := toUint64 (toInt64 (dataSize.tdiv (toInt64 (chunkSize + tagSize)))).toNat
        let candidate := if candidate = 0 then 1 else candidate
        match Machine.plaintextSizeFor dataSize chunkSize candidate with
        | some found => return found
        | none =>
          match Machine.plaintextSizeFor dataSize chunkSize (toUint64 (candidate + 1)) with
          | some found => return found
          | none => .error .nonCanonicalSize

def chunkedEncryptedDataRange (startChunk endChunk chunkSize version : ℕ) :
    Except RangeError (ℤ × ℤ) := do
  liftCrypto (validateChunkedVersion version)
  liftCrypto (validateChunkSize chunkSize)
  if endChunk < startChunk then .error .invalidChunkRange
  else
    let unit := toUint64 (chunkSize + tagSize)
    if endChunk = maxUint64 ∨ maxInt64 / unit < startChunk ∨ maxInt64 / unit ≤ endChunk then
      .error .encryptedRangeOverflow
    else
      let first := toUint64 (startChunk * unit)
      -- subtracting one is adding the largest value
      let last := toUint64 (toUint64 (toUint64 (endChunk + 1) * unit) + maxUint64)
      if maxInt64 < last then .error .encryptedRangeOverflow
      else return (toInt64 first, toInt64 last)

def chunkedEncryptedDataRangeForPlaintextSize (startChunk endChunk : ℕ) (plaintextSize : ℤ)
    (chunkSize version : ℕ) : Except RangeError (ℤ × ℤ) := do
  let count ← liftCrypto (Machine.chunkedDataChunkCount plaintextSize chunkSize)
  if count = 0 ∨ endChunk < startChunk ∨ count ≤ endChunk then .error .invalidChunkRange
  else
    let (first, last) ← Machine.chunkedEncryptedDataRange startChunk endChunk chunkSize version
    let canonical ← liftCrypto (Machine.chunkedCiphertextSize plaintextSize chunkSize version)
    let dataEnd :=
      if version = chunkedFormatV2 then toInt64 (canonical - chunkedTerminalSize) else canonical
    return (first, if dataEnd ≤ last then toInt64 (dataEnd - 1) else last)

/-! ## No operation leaves its range -/

variable {chunkSize version : ℕ}

/-- A quotient of nonnegative numbers lies between them. -/
theorem tdiv_fits {n : ℤ} (hzero : 0 ≤ n) (unit : ℕ) :
    n.tdiv unit = n / unit ∧ 0 ≤ n / unit ∧ n / unit ≤ n :=
  ⟨Int.tdiv_eq_ediv_of_nonneg hzero, Int.ediv_nonneg hzero (Int.natCast_nonneg _),
    Int.ediv_le_self _ hzero⟩

theorem chunkedDataChunkCount_eq {size : ℤ} (hmax : size ≤ maxInt64) :
    Machine.chunkedDataChunkCount size chunkSize = Crypto.chunkedDataChunkCount size chunkSize := by
  unfold Machine.chunkedDataChunkCount Crypto.chunkedDataChunkCount
  rcases lt_trichotomy size 0 with hneg | rfl | hpos
  · rw [if_pos hneg, if_pos hneg]
  · rfl
  · obtain ⟨hdiv, hnonneg, hle⟩ := tdiv_fits (n := size - 1) (by omega) chunkSize
    have hfits : ∀ n : ℤ, 0 ≤ n → n ≤ size → toInt64 n = n := fun n hzero hle =>
      toInt64_of_fits (by omega) (by omega)
    have hcount : toUint64 ((size - 1) / chunkSize + 1).toNat =
        ((size - 1) / chunkSize + 1).toNat := by
      simp only [maxInt64, toUint64] at hmax ⊢
      omega
    simp only [hfits (size - 1) (by omega) (by omega), hdiv,
      hfits ((size - 1) / chunkSize) hnonneg (by omega),
      hfits ((size - 1) / chunkSize + 1) (by omega) (by omega), hcount]

theorem chunkedCiphertextSize_eq {size : ℤ} (hmin : -9223372036854775808 ≤ size)
    (hmax : size ≤ maxInt64) : Machine.chunkedCiphertextSize size chunkSize version =
      Crypto.chunkedCiphertextSize size chunkSize version := by
  unfold Machine.chunkedCiphertextSize Crypto.chunkedCiphertextSize
  rw [chunkedDataChunkCount_eq hmax]
  refine bind_congr fun _ => bind_congr fun count => ?_
  simp only [maxInt64, chunkedTerminalSize, tagSize, toInt64, toUint64] at hmax ⊢
  -- on every path the reduced values are the exact ones
  by_cases hversion : version = chunkedFormatV2 <;>
    simp only [hversion, true_and, false_and, if_true, if_false]
  all_goals split_ifs
  all_goals first
    | rfl
    | omega
    | exact congrArg Except.ok (by omega)

theorem plaintextSizeFor_eq {dataSize : ℤ} (hzero : 0 ≤ dataSize) (hmax : dataSize ≤ maxInt64)
    (count : ℕ) : Machine.plaintextSizeFor dataSize chunkSize count =
      Crypto.plaintextSizeFor dataSize chunkSize count := by
  unfold Machine.plaintextSizeFor Crypto.plaintextSizeFor
  by_cases hmany : maxInt64 / tagSize < count
  · rw [if_pos hmany, if_pos hmany]
  have hplain : toInt64 (dataSize - toInt64 (toUint64 (count * tagSize))) =
      dataSize - (count * tagSize : ℕ) := by
    simp only [maxInt64, tagSize, toInt64, toUint64] at hmax hmany ⊢
    omega
  have hsame : Machine.chunkedDataChunkCount (dataSize - (count * tagSize : ℕ)) chunkSize =
      Crypto.chunkedDataChunkCount (dataSize - (count * tagSize : ℕ)) chunkSize :=
    chunkedDataChunkCount_eq (by omega)
  cases hcount : Crypto.chunkedDataChunkCount (dataSize - (count * tagSize : ℕ)) chunkSize <;>
    simp only [if_neg hmany, hplain, hsame, hcount]

theorem chunkedPlaintextSize_eq (hvalid : ValidChunkSize chunkSize) {size : ℤ}
    (hmax : size ≤ maxInt64) : Machine.chunkedPlaintextSize size chunkSize version =
      Crypto.chunkedPlaintextSize size chunkSize version := by
  unfold Machine.chunkedPlaintextSize Crypto.chunkedPlaintextSize
  refine bind_congr fun _ => bind_congr fun _ => ?_
  have hunit : toInt64 ((chunkSize : ℤ) + tagSize) = (chunkSize + tagSize : ℕ) := by
    have := hvalid.le_max
    simp only [maxChunkSize, toInt64, tagSize] at this ⊢
    omega
  generalize hterminal : (if version = chunkedFormatV2 then (chunkedTerminalSize : ℤ) else 0) =
    overhead
  have hoverhead : 0 ≤ overhead := by
    rw [← hterminal]
    split <;> simp
  by_cases hshort : size < overhead
  · simp only [if_pos hshort]
  obtain ⟨hdiv, hnonneg, hle⟩ := tdiv_fits (n := size - overhead) (by omega) (chunkSize + tagSize)
  have hdata : toInt64 (size - overhead) = size - overhead :=
    toInt64_of_fits (by omega) (by omega)
  simp only [hunit, hdata, hdiv]
  generalize (size - overhead) / ((chunkSize + tagSize : ℕ) : ℤ) = guess at hnonneg hle ⊢
  have hguess : toUint64 (toInt64 guess).toNat = guess.toNat := by
    simp only [maxInt64, toInt64, toUint64] at hmax ⊢
    omega
  have hnext : toUint64 ((if guess.toNat = 0 then 1 else guess.toNat) + 1) =
      (if guess.toNat = 0 then 1 else guess.toNat) + 1 := by
    simp only [maxInt64, toUint64] at hmax ⊢
    split <;> omega
  have hsame : ∀ count, Machine.plaintextSizeFor (size - overhead) chunkSize count =
      Crypto.plaintextSizeFor (size - overhead) chunkSize count :=
    plaintextSizeFor_eq (by omega) (by omega)
  simp only [hguess, hnext]
  generalize (if guess.toNat = 0 then 1 else guess.toNat) = count
  cases hfirst : Crypto.plaintextSizeFor (size - overhead) chunkSize count <;>
    cases hsecond : Crypto.plaintextSizeFor (size - overhead) chunkSize (count + 1) <;>
    simp only [hsame, hfirst, hsecond]

theorem fits_of_le {n : ℕ} (hn : n ≤ maxInt64) : toUint64 n = n ∧ toInt64 n = n := by
  simp only [maxInt64, toUint64, toInt64] at hn ⊢
  omega

theorem chunkedEncryptedDataRange_eq (hvalid : ValidChunkSize chunkSize) (startChunk endChunk : ℕ) :
    Machine.chunkedEncryptedDataRange startChunk endChunk chunkSize version =
      Crypto.chunkedEncryptedDataRange startChunk endChunk chunkSize version := by
  have hpos : 0 < chunkSize + tagSize := by simp [tagSize]
  have hunit : toUint64 (chunkSize + tagSize) = chunkSize + tagSize := by
    have := hvalid.le_max
    simp only [maxChunkSize, toUint64, tagSize] at this ⊢
    omega
  unfold Machine.chunkedEncryptedDataRange Crypto.chunkedEncryptedDataRange
  simp only [hunit]
  refine bind_congr fun _ => bind_congr fun _ => ?_
  by_cases hswapped : endChunk < startChunk
  · rw [if_pos hswapped, if_pos hswapped]
  by_cases hover : endChunk = maxUint64 ∨ maxInt64 / (chunkSize + tagSize) < startChunk ∨
      maxInt64 / (chunkSize + tagSize) ≤ endChunk
  · rw [if_neg hswapped, if_neg hswapped, if_pos hover, if_pos hover]
  -- the products fit, as the quotients say
  have hstart : startChunk * (chunkSize + tagSize) ≤ maxInt64 :=
    (Nat.le_div_iff_mul_le hpos).mp (by omega)
  have hstop : (endChunk + 1) * (chunkSize + tagSize) ≤ maxInt64 :=
    (Nat.le_div_iff_mul_le hpos).mp (by omega)
  have hnext := (fits_of_le ((Nat.le_mul_of_pos_right (endChunk + 1) hpos).trans hstop)).1
  have hlast : toUint64 ((endChunk + 1) * (chunkSize + tagSize) + maxUint64) =
      (endChunk + 1) * (chunkSize + tagSize) - 1 := by
    have hsome : 0 < (endChunk + 1) * (chunkSize + tagSize) := by positivity
    simp only [maxInt64, maxUint64, toUint64] at hstop ⊢
    omega
  simp only [hnext, (fits_of_le hstart).1, (fits_of_le hstop).1, hlast, (fits_of_le hstart).2,
    (fits_of_le ((Nat.sub_le _ 1).trans hstop)).2]

theorem chunkedEncryptedDataRangeForPlaintextSize_eq (hversion : SupportedVersion version)
    (hvalid : ValidChunkSize chunkSize) {size : ℕ}
    (hfits : dataLength size chunkSize + terminalLength version ≤ maxInt64)
    (startChunk endChunk : ℕ) :
    Machine.chunkedEncryptedDataRangeForPlaintextSize startChunk endChunk size chunkSize version =
      Crypto.chunkedEncryptedDataRangeForPlaintextSize startChunk endChunk size chunkSize
        version := by
  have hle : size ≤ dataLength size chunkSize := Nat.le_add_right _ _
  have hexact : ∀ n : ℤ, -32 ≤ n → n ≤ maxInt64 → toInt64 n = n := fun n hmin hmax =>
    toInt64_of_fits (by omega) hmax
  unfold Machine.chunkedEncryptedDataRangeForPlaintextSize
    Crypto.chunkedEncryptedDataRangeForPlaintextSize
  rw [chunkedDataChunkCount_eq (by omega), chunkedCiphertextSize_eq (by omega) (by omega),
    chunkedEncryptedDataRange_eq hvalid,
    (chunkedCiphertextSize_eq_ok_iff hversion hvalid).mpr ⟨hfits, rfl⟩]
  refine bind_congr fun count => if_congr Iff.rfl rfl (bind_congr fun ⟨first, last⟩ => ?_)
  show Except.ok (_, if (if version = chunkedFormatV2 then toInt64 _ else _) ≤ last then toInt64 _
    else _) = Except.ok _
  rw [hexact (_ - chunkedTerminalSize) (by simp only [chunkedTerminalSize]; omega) (by omega),
    dataEnd_eq, hexact _ (by omega) (by omega)]

end Machine

/-! ## The size equation -/

variable {chunkSize version : ℕ}

/-- The plaintext size and record count whose ciphertext has the given length. -/
structure Encodes (ciphertextSize : ℤ) (chunkSize version : ℕ) (plain : ℤ) (count : ℕ) : Prop where
  nonneg : 0 ≤ plain
  size_eq : chunkedCiphertextSize plain chunkSize version = .ok ciphertextSize
  count_eq : chunkedDataChunkCount plain chunkSize = .ok count

/-- A candidate that is accepted has the length of its own records. -/
theorem plaintextSizeFor_eq_some (hvalid : ValidChunkSize chunkSize) {dataSize plain : ℤ}
    {count count' : ℕ} (hfound : plaintextSizeFor dataSize chunkSize count = some (plain, count')) :
    ∃ size : ℕ, plain = size ∧ count' = recordCount size chunkSize ∧
      dataSize = dataLength size chunkSize := by
  unfold plaintextSizeFor at hfound
  split at hfound
  · cases hfound
  dsimp only at hfound
  split at hfound
  · cases hfound
  rename_i hneg
  obtain ⟨size, hsize⟩ := Int.eq_ofNat_of_zero_le (not_lt.mp hneg)
  rw [hsize, chunkedDataChunkCount_natCast hvalid] at hfound
  dsimp only at hfound
  split at hfound <;> cases hfound
  rename_i hcount
  refine ⟨size, rfl, hcount.symm, ?_⟩
  rw [dataLength, hcount]
  push_cast at hsize ⊢
  omega

theorem exists_of_chunkedPlaintextSize (hversion : SupportedVersion version)
    (hvalid : ValidChunkSize chunkSize) {ciphertextSize plain : ℤ} {count : ℕ}
    (hsize : chunkedPlaintextSize ciphertextSize chunkSize version = .ok (plain, count)) :
    ∃ size : ℕ, plain = size ∧ count = recordCount size chunkSize ∧
      ciphertextSize = (dataLength size chunkSize + terminalLength version : ℕ) := by
  have hoverhead : (if version = chunkedFormatV2 then (chunkedTerminalSize : ℤ) else 0) =
      terminalLength version := by
    rw [terminalLength]
    split <;> rfl
  have hlength : ∀ {size : ℕ}, ciphertextSize - terminalLength version = dataLength size chunkSize →
      ciphertextSize = (dataLength size chunkSize + terminalLength version : ℕ) := by
    intro size hdata
    push_cast
    omega
  simp only [chunkedPlaintextSize, validateChunkedVersion_of_supported hversion,
    validateChunkSize_of_valid hvalid, hoverhead] at hsize
  change (if _ then _ else _) = _ at hsize
  repeat' split at hsize
  all_goals cases hsize
  · rename_i hzero
    exact ⟨0, rfl, rfl, hlength (by rw [hzero]; rfl)⟩
  all_goals
    rename_i hfound
    obtain ⟨size, hplain, hcount, hdata⟩ := plaintextSizeFor_eq_some hvalid hfound
    exact ⟨size, hplain, hcount, hlength hdata⟩

theorem encodes_natCast_iff (hversion : SupportedVersion version)
    (hvalid : ValidChunkSize chunkSize) {ciphertextSize : ℤ} (hmax : ciphertextSize ≤ maxInt64)
    {size count : ℕ} : Encodes ciphertextSize chunkSize version size count ↔
      ciphertextSize = (dataLength size chunkSize + terminalLength version : ℕ) ∧
        count = recordCount size chunkSize := by
  constructor
  · rintro ⟨-, hsize, hcount⟩
    rw [chunkedDataChunkCount_natCast hvalid] at hcount
    cases hcount
    exact ⟨((chunkedCiphertextSize_eq_ok_iff hversion hvalid).mp hsize).2, rfl⟩
  · rintro ⟨rfl, rfl⟩
    have hsize := (chunkedCiphertextSize_eq_ok_iff hversion hvalid).mpr
      ⟨by exact_mod_cast hmax, rfl⟩
    exact ⟨Int.natCast_nonneg _, hsize, chunkedDataChunkCount_natCast hvalid _⟩

/-- **The size equation is inverted exactly**, for every length an `int64` can hold, and no
operation of either function overflows. -/
theorem chunkedPlaintextSize_inverts (hversion : SupportedVersion version)
    (hvalid : ValidChunkSize chunkSize) {ciphertextSize : ℤ} (hmax : ciphertextSize ≤ maxInt64) :
    (∀ plain count, chunkedPlaintextSize ciphertextSize chunkSize version = .ok (plain, count) ↔
      Encodes ciphertextSize chunkSize version plain count) ∧
    (∀ plain count plain' count', Encodes ciphertextSize chunkSize version plain count →
      Encodes ciphertextSize chunkSize version plain' count' → plain = plain') ∧
    Machine.chunkedPlaintextSize ciphertextSize chunkSize version =
      chunkedPlaintextSize ciphertextSize chunkSize version ∧
    ∀ plain : ℤ, -9223372036854775808 ≤ plain → plain ≤ maxInt64 →
      Machine.chunkedCiphertextSize plain chunkSize version =
        chunkedCiphertextSize plain chunkSize version := by
  have hiff : ∀ plain count,
      chunkedPlaintextSize ciphertextSize chunkSize version = .ok (plain, count) ↔
        Encodes ciphertextSize chunkSize version plain count := by
    intro plain count
    constructor
    · intro hsize
      obtain ⟨size, rfl, hcount, hlength⟩ := exists_of_chunkedPlaintextSize hversion hvalid hsize
      exact (encodes_natCast_iff hversion hvalid hmax).mpr ⟨hlength, hcount⟩
    · intro hencodes
      obtain ⟨size, rfl⟩ := Int.eq_ofNat_of_zero_le hencodes.nonneg
      obtain ⟨rfl, rfl⟩ := (encodes_natCast_iff hversion hvalid hmax).mp hencodes
      exact chunkedPlaintextSize_eq hversion hvalid (by push_cast at hmax; omega)
  refine ⟨hiff, ?_, Machine.chunkedPlaintextSize_eq hvalid hmax, ?_⟩
  · intro plain count plain' count' hfirst hsecond
    have heq := ((hiff _ _).mpr hfirst).symm.trans ((hiff _ _).mpr hsecond)
    cases heq
    rfl
  · intro plain hmin hmax'
    exact Machine.chunkedCiphertextSize_eq hmin hmax'

theorem chunkedPlaintextSize_largest :
    chunkedPlaintextSize maxInt64 maxChunkSize chunkedFormatV2 =
      .ok (9223231301513871327, 8795958806528) ∧
    Encodes maxInt64 maxChunkSize chunkedFormatV2 9223231301513871327 8795958806528 := by
  have hexact := chunkedPlaintextSize_inverts (show SupportedVersion chunkedFormatV2 from .inr rfl)
    (show ValidChunkSize maxChunkSize from ⟨by decide, le_rfl⟩) (le_refl (maxInt64 : ℤ))
  have hsize : chunkedPlaintextSize maxInt64 maxChunkSize chunkedFormatV2 =
      .ok (9223231301513871327, 8795958806528) := by
    decide +kernel
  exact ⟨hsize, (hexact.1 _ _).mp hsize⟩

/-! ## The ranges of records -/

/-- The ranges lie end to end; record `i` begins at `start i`. -/
structure Tiles (plaintextSize ciphertextSize : ℤ) (chunkSize version count : ℕ) (start : ℕ → ℤ) :
    Prop where
  first : start 0 = 0
  last : start count = ciphertextSize - terminalLength version
  length : ∀ i < count,
    start (i + 1) = start i + (min (chunkSize : ℤ) (plaintextSize - i * chunkSize) + tagSize)
  range : ∀ i j, i ≤ j → j < count →
    chunkedEncryptedDataRangeForPlaintextSize i j plaintextSize chunkSize version =
      .ok (start i, start (j + 1) - 1)

theorem exists_of_chunkedCiphertextSize {plaintextSize ciphertextSize : ℤ}
    (hsize : chunkedCiphertextSize plaintextSize chunkSize version = .ok ciphertextSize) :
    SupportedVersion version ∧ ValidChunkSize chunkSize ∧ ∃ size : ℕ, plaintextSize = size := by
  obtain ⟨_, hversion, hrest⟩ := Fallible.bind_eq_ok_iff.mp hsize
  obtain ⟨count, hcount, -⟩ := Fallible.bind_eq_ok_iff.mp hrest
  refine ⟨?_, ?_⟩
  · by_contra hneither
    rw [validateChunkedVersion, if_pos (not_or.mp hneither)] at hversion
    cases hversion
  · unfold chunkedDataChunkCount at hcount
    split at hcount
    · cases hcount
    rename_i hneg
    obtain ⟨_, hvalid, -⟩ := Fallible.bind_eq_ok_iff.mp hcount
    exact ⟨validateChunkSize_eq_ok_iff.mp hvalid, Int.eq_ofNat_of_zero_le (not_lt.mp hneg)⟩

variable {size : ℕ}

/-- The last record ends where its plaintext does. -/
theorem recordEnd_mul (hpos : 0 < chunkSize) {j : ℕ} (hj : j < recordCount size chunkSize) :
    recordEnd size chunkSize (j * chunkSize) =
      min ((j + 1) * chunkSize) size + (j + 1) * tagSize := by
  rw [recordEnd, Nat.mul_div_cancel _ hpos, Nat.mul_add, dataLength]
  rcases Nat.lt_or_ge (j + 1) (recordCount size chunkSize) with hmore | hlast
  · have hlt := (lt_recordCount_iff hpos).mp hmore
    have hle := Nat.add_le_add hlt.le (Nat.mul_le_mul_right tagSize hmore.le)
    rw [min_eq_left hlt.le, min_eq_left hle]
  · rw [show recordCount size chunkSize = j + 1 by omega, Nat.add_min_add_right]

theorem tiles_of_le (hversion : SupportedVersion version) (hvalid : ValidChunkSize chunkSize)
    (hfits : dataLength size chunkSize + terminalLength version ≤ maxInt64)
    (hcount : recordCount size chunkSize ≤ maxInt64 / (chunkSize + tagSize)) :
    Tiles size (dataLength size chunkSize + terminalLength version : ℕ) chunkSize version
      (recordCount size chunkSize)
      fun i => (min (i * chunkSize) size + i * tagSize : ℕ) := by
  have hpos := hvalid.pos
  refine ⟨by simp, ?_, fun i hi => ?_, fun i j hle hj => ?_⟩
  · rw [min_eq_right ((recordCount_le_iff hpos).mp le_rfl), ← dataLength]
    push_cast
    omega
  · have hlt := (lt_recordCount_iff hpos).mp hi
    rw [Nat.succ_mul, Nat.succ_mul]
    push_cast
    omega
  · have hlast := (lt_recordCount_iff hpos).mp hj
    have hrange := chunkedEncryptedDataRangeForPlaintextSize_eq hversion hvalid
      (Nat.mul_le_mul_right chunkSize hle) hlast hfits
    rw [Nat.mul_div_cancel _ hpos, Nat.mul_div_cancel _ hpos, if_neg (by omega),
      recordEnd_mul hpos hj, Nat.mul_add] at hrange
    rw [hrange, min_eq_left ((Nat.mul_le_mul_right chunkSize hle).trans hlast.le)]

/-- **The ranges of records tile the data area** exactly when the last record would fit an `int64`
at full length.  All other pairs of indices are refused, and no operation overflows. -/
theorem tiles_iff {plaintextSize ciphertextSize : ℤ} {count : ℕ}
    (hsize : chunkedCiphertextSize plaintextSize chunkSize version = .ok ciphertextSize)
    (hcount : chunkedDataChunkCount plaintextSize chunkSize = .ok count) (hsome : 1 ≤ count) :
    ((∃ start, Tiles plaintextSize ciphertextSize chunkSize version count start) ∧
      (∀ i j, ¬ (i ≤ j ∧ j < count) → ∃ err,
        chunkedEncryptedDataRangeForPlaintextSize i j plaintextSize chunkSize version =
          .error err) ∧
      ∀ i j, Machine.chunkedEncryptedDataRangeForPlaintextSize i j plaintextSize chunkSize version =
        chunkedEncryptedDataRangeForPlaintextSize i j plaintextSize chunkSize version) ↔
      count ≤ maxInt64 / (chunkSize + tagSize) := by
  obtain ⟨hversion, hvalid, size, rfl⟩ := exists_of_chunkedCiphertextSize hsize
  obtain ⟨hfits, rfl⟩ := (chunkedCiphertextSize_eq_ok_iff hversion hvalid).mp hsize
  rw [chunkedDataChunkCount_natCast hvalid] at hcount
  cases hcount
  refine ⟨fun ⟨⟨start, htiles⟩, _⟩ => ?_, fun hle => ⟨⟨_, tiles_of_le hversion hvalid hfits hle⟩,
    fun i j hout => ?_, Machine.chunkedEncryptedDataRangeForPlaintextSize_eq hversion hvalid hfits⟩⟩
  · -- the range of the last record is refused otherwise
    by_contra hover
    obtain ⟨last, hlast⟩ := Nat.exists_eq_add_of_le' hsome
    have hinside : last * chunkSize < size := (lt_recordCount_iff hvalid.pos).mp (by omega)
    have hrange := chunkedEncryptedDataRangeForPlaintextSize_eq hversion hvalid le_rfl hinside hfits
    rw [Nat.mul_div_cancel _ hvalid.pos, if_pos (by omega),
      htiles.range last last le_rfl (by omega)] at hrange
    cases hrange
  · refine ⟨.invalidChunkRange, ?_⟩
    rw [chunkedEncryptedDataRangeForPlaintextSize, chunkedDataChunkCount_natCast hvalid]
    exact if_pos (by omega)

theorem tiles_two_records :
    ∃ start, Tiles 65537 65601 65536 chunkedFormatV2 2 start :=
  ((tiles_iff (by decide +kernel) (by decide +kernel) (by decide)).mpr (by decide +kernel)).1

/-- Of a version 1 object just below the limit, the range of the last record is refused. -/
theorem last_range_refused :
    chunkedCiphertextSize 9221120786662686721 65536 chunkedFormatV1 = .ok 9223372036854743057 ∧
    chunkedDataChunkCount 9221120786662686721 65536 = .ok 140703137003521 ∧
    chunkedEncryptedDataRangeForPlaintextSize 140703137003520 140703137003520 9221120786662686721
      65536 chunkedFormatV1 = .error .encryptedRangeOverflow := by
  decide +kernel

end S3EncryptionGateway.Crypto
