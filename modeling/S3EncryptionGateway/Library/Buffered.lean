import S3EncryptionGateway.Library.Source

/-!
# Buffered readers

A buffered reader hands out the data of its source in order, whatever pieces they arrived in,
and reports an error of the source when everything before it was handed out.  Up to its first
error it is given by the data still to come and that error.

`Reads r got r'` says what every successful read does: `got` is the front of the data of `r`, and
`r'` has the rest.  The reads of a protocol are composed with `Reads.trans`.
-/

namespace Streams

open List

variable {β ε : Type*}

/-- The data still to come, and the error behind them. -/
structure Buffered (β ε : Type*) where
  data : List β
  ending : ReadError ε
  deriving DecidableEq

namespace Buffered

/-- A buffered reader of a source. -/
def ofScript : Script β ε → Buffered β ε
  | [] => ⟨[], .eof⟩
  | result :: rest =>
    match result.err with
    | some err => ⟨result.data, err⟩
    | none => ⟨result.data ++ (ofScript rest).data, (ofScript rest).ending⟩

/-- `got` was read of `r`, and `r'` is left. -/
structure Reads (r : Buffered β ε) (got : List β) (r' : Buffered β ε) : Prop where
  data_eq : r.data = got ++ r'.data
  ending_eq : r.ending = r'.ending

namespace Reads

variable {r r' r'' : Buffered β ε} {got got' : List β}

theorem refl (r : Buffered β ε) : Reads r [] r := ⟨rfl, rfl⟩

theorem trans (h : Reads r got r') (h' : Reads r' got' r'') : Reads r (got ++ got') r'' where
  data_eq := by rw [h.data_eq, h'.data_eq, List.append_assoc]
  ending_eq := h.ending_eq.trans h'.ending_eq

theorem isPrefix (h : Reads r got r') : got <+: r.data := ⟨r'.data, h.data_eq.symm⟩

end Reads

def readByte (r : Buffered β ε) : Except (ReadError ε) (β × Buffered β ε) :=
  match r.data with
  | [] => .error r.ending
  | b :: rest => .ok (b, ⟨rest, r.ending⟩)

def readFull (want : ℕ) (r : Buffered β ε) : Except (ReadError ε) (List β × Buffered β ε) :=
  if want ≤ r.data.length then .ok (r.data.take want, ⟨r.data.drop want, r.ending⟩)
  else .error (Script.stopError r.data r.ending)

/-- Why there is no line. -/
inductive LineError (ε : Type*) where
  | tooLong
  | read (err : ReadError ε)

/-- Read up to the first delimiter, which belongs to the line, but no more than `limit` items. -/
def readLine [DecidableEq β] (delimiter : β) (limit : ℕ) (r : Buffered β ε) :
    Except (LineError ε) (List β × Buffered β ε) :=
  let front := r.data.takeWhile (· ≠ delimiter)
  match r.data.dropWhile (· ≠ delimiter) with
  | [] => .error (if limit < front.length then .tooLong else .read r.ending)
  | _ :: rest =>
    if limit < front.length + 1 then .error .tooLong
    else .ok (front ++ [delimiter], ⟨rest, r.ending⟩)

section Reads

variable {r r' : Buffered β ε} {got : List β}

theorem reads_of_readFull {want : ℕ} (hread : r.readFull want = .ok (got, r')) :
    Reads r got r' ∧ got.length = want := by
  rw [readFull] at hread
  split at hread <;> cases hread
  rename_i hle
  exact ⟨⟨(take_append_drop want r.data).symm, rfl⟩, length_take_of_le hle⟩

theorem reads_of_readLine [DecidableEq β] {delimiter : β} {limit : ℕ}
    (hread : r.readLine delimiter limit = .ok (got, r')) :
    Reads r got r' ∧ got ≠ [] ∧ got.length ≤ limit := by
  rw [readLine] at hread
  have hsplit := takeWhile_append_dropWhile (p := (· ≠ delimiter)) (l := r.data)
  split at hread
  · cases hread
  rename_i c rest hrest
  rw [hrest] at hsplit
  have hc : c = delimiter := by
    have hhead := List.head?_dropWhile_not (· ≠ delimiter) r.data
    rw [hrest] at hhead
    simpa using hhead
  split at hread <;> cases hread
  rename_i hlimit
  refine ⟨⟨?_, rfl⟩, by simp, ?_⟩
  · rw [hc] at hsplit
    rw [append_assoc]
    exact hsplit.symm
  · rw [length_append]
    exact not_lt.mp hlimit

end Reads

end Buffered

end Streams
