import S3EncryptionGateway.Library.Encoding
import S3EncryptionGateway.Library.MapSearch
import S3EncryptionGateway.Library.Utf8

/-!
# Maps of texts as JSON

A map is written as a JSON object, its entries in an order that the encoder fixes.  Keys and
values are coerced to UTF-8 on the way, so what is read back may differ from what was written:
a value can change, and if two keys become equal only the entry written last is left.

For keys of ASCII characters none of this happens but for the value, see `lookup_readBack`.
-/

namespace MapRange

open Text Encoding

/-- The entries written in some order, with keys and values coerced, as they are read back. -/
def coerced {m : Map Str Str} (order : Order m) : Map Str Str :=
  renameKeys toValidUtf8 (order.entries.map fun entry => (entry.1, toValidUtf8 entry.2))

/-- An encoder and a decoder of maps. -/
structure JsonCodec where
  /-- The order in which the entries of a map are written. -/
  order : ∀ m : Map Str Str, Order m
  marshal : Map Str Str → Bytes
  /-- The decoder fails, or reads the `null` object, or reads a map. -/
  unmarshal : Bytes → Option (Option (Map Str Str))
  unmarshal_marshal : ∀ m, unmarshal (marshal m) = some (some (coerced (order m)))

namespace JsonCodec

variable (json : JsonCodec)

/-- The map that is read back when `m` has been written. -/
def readBack (m : Map Str Str) : Map Str Str := coerced (json.order m)

variable {json} {m : Map Str Str} {key value : Str}

/-! ## A codec -/

/-- There is an encoding in which one map is short. -/
theorem exists_encoding (short : Map Str Str) :
    ∃ encode : Map Str Str → Bytes, Function.Injective encode ∧ encode short = [] := by
  have hchar : Countable Char :=
    Function.Injective.countable (f := Char.toNat) fun c c' heq => Char.toNat_inj.mp heq
  have hentries : Countable (Multiset ((_ : Str) × Str)) :=
    inferInstanceAs (Countable (Quotient (List.isSetoid ((_ : Str) × Str))))
  have hcountable : Countable (Map Str Str) :=
    Function.Injective.countable (f := Finmap.entries) fun m m' heq => Finmap.ext heq
  obtain ⟨number, hnumber⟩ := hcountable.exists_injective_nat
  classical
  refine ⟨fun m => if m = short then [] else List.replicate (number m + 1) 0, ?_, if_pos rfl⟩
  intro m m' heq
  by_cases hm : m = short <;> by_cases hm' : m' = short
  · rw [hm, hm']
  · simp [hm, hm'] at heq
  · simp [hm, hm'] at heq
  · simp only [if_neg hm, if_neg hm'] at heq
    exact hnumber (by simpa using congrArg List.length heq)

/-- A codec that writes one map in few bytes. -/
theorem exists_short (m : Map Str Str) : ∃ json : JsonCodec, json.marshal m = [] := by
  classical
  let order : ∀ m : Map Str Str, Order m := fun m => (nonempty_order m).some
  obtain ⟨encode, hinjective, hshort⟩ := exists_encoding m
  refine ⟨⟨order, encode, fun bytes => if h : ∃ m, encode m = bytes then
    some (some (coerced (order h.choose))) else none, ?_⟩, hshort⟩
  intro m'
  have hexists : ∃ m, encode m = encode m' := ⟨m', rfl⟩
  rw [dif_pos hexists, hinjective hexists.choose_spec]

end JsonCodec

end MapRange
