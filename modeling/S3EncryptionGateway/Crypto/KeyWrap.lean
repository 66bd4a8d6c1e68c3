import S3EncryptionGateway.Library.Encoding

/-!
# AES key wrap

The key manager in memory wraps keys with six rounds over registers of eight bytes.  Every
step of a round is a permutation of the integrity register and one other register, and a step
of `aesKeyUnwrap` undoes the step of `aesKeyWrap` with the same counter.  A round of the one
therefore undoes the same round of the other, by induction on the registers: wrapping goes
through them forwards, unwrapping backwards.  `aesKeyUnwrap_eq_ok_iff` says what is unwrapped,
and both directions of `keyWrap_exact` are read off from it.
-/

namespace S3EncryptionGateway.Crypto.KeyWrap

open Encoding

abbrev Register := Vector UInt8 8

/-- A block of the cipher, by its halves. -/
abbrev BlockCipher := Equiv.Perm (Register × Register)

inductive KeyWrapError where
  /-- The error of `aes.NewCipher`. -/
  | cipher
  /-- "keymanager/memory: invalid wrapped key length" -/
  | length
  /-- "keymanager/memory: integrity check failed" -/
  | integrity

/-- A copy of up to eight bytes; the rest stays zero. -/
def register (bytes : Bytes) : Register := Vector.ofFn fun i => bytes.getD i 0

/-- Register `i` is a copy of the bytes from `8 * i` on. -/
def registers : ℕ → Bytes → List Register
  | 0, _ => []
  | n + 1, bytes => register bytes :: registers n (bytes.drop 8)

def bytesOf (r : List Register) : Bytes := r.flatMap Vector.toList

/-- The number in a register with the bits of the counter flipped. -/
def xorCounter (a : Register) (t : ℕ) : Register :=
  Vector.zipWith (· ^^^ ·) a (register (bigEndian 8 t))

/-- A round over the registers behind the first `t` steps. -/
def wrapRound (block : BlockCipher) (t : ℕ) (a : Register) :
    List Register → Register × List Register
  | [] => (a, [])
  | r :: rest =>
    let buf := block (a, r)
    let later := wrapRound block (t + 1) (xorCounter buf.1 (t + 1)) rest
    (later.1, buf.2 :: later.2)

/-- The same round backwards. -/
def unwrapRound (block : BlockCipher) (t : ℕ) (a : Register) :
    List Register → Register × List Register
  | [] => (a, [])
  | r :: rest =>
    let later := unwrapRound block (t + 1) a rest
    let buf := block.symm (xorCounter later.1 (t + 1), r)
    (buf.1, buf.2 :: later.2)

/-- The six rounds over `n` registers. -/
def wrapRounds (block : BlockCipher) (n : ℕ) (s : Register × List Register) :
    Register × List Register :=
  (List.range 6).foldl (fun s j => wrapRound block (n * j) s.1 s.2) s

def unwrapRounds (block : BlockCipher) (n : ℕ) (s : Register × List Register) :
    Register × List Register :=
  (List.range 6).foldr (fun j s => unwrapRound block (n * j) s.1 s.2) s

def defaultIv : Register := Vector.replicate 8 0xA6

/-- A plaintext of another length is filled up with zeros. -/
def pad (plaintext : Bytes) : Bytes :=
  if plaintext.length % 8 ≠ 0 ∨ plaintext.length < 16 then
    let padded := plaintext ++ .replicate ((plaintext.length + 7) / 8 * 8 - plaintext.length) 0
    if padded.length < 16 then padded ++ .replicate (16 - padded.length) 0 else padded
  else plaintext

section

variable (newCipher : Bytes → Except KeyWrapError BlockCipher) (kek : Bytes)

def aesKeyWrap (plaintext : Bytes) : Except KeyWrapError Bytes := do
  let block ← newCipher kek
  let n := (pad plaintext).length / 8
  let wrapped := wrapRounds block n (defaultIv, registers n (pad plaintext))
  return bytesOf (wrapped.1 :: wrapped.2)

def aesKeyUnwrap (ciphertext : Bytes) : Except KeyWrapError Bytes :=
  if ciphertext.length < 24 ∨ ciphertext.length % 8 ≠ 0 then .error .length
  else do
    let block ← newCipher kek
    let n := ciphertext.length / 8 - 1
    let unwrapped := unwrapRounds block n (register ciphertext, registers n (ciphertext.drop 8))
    if unwrapped.1 ≠ defaultIv then .error .integrity else return bytesOf unwrapped.2

end

/-! ## Registers and bytes -/

variable {bytes : Bytes} {n : ℕ} (r : List Register)

theorem toList_register (hlength : 8 ≤ bytes.length) : (register bytes).toList = bytes.take 8 := by
  apply List.ext_getElem
  · simp [hlength]
  · intro i hi _
    have hlt : i < bytes.length := by simp at hi; omega
    simp [register, hlt]

variable (a : Register)

theorem bytesOf_cons : bytesOf (a :: r) = a.toList ++ bytesOf r := List.flatMap_cons

theorem bytesOf_registers (hlength : bytes.length = 8 * n) :
    bytesOf (registers n bytes) = bytes := by
  induction n generalizing bytes with
  | zero => exact (List.length_eq_zero_iff.mp hlength).symm
  | succ n ih =>
    rw [registers, bytesOf_cons, toList_register (by omega), ih (by rw [List.length_drop]; omega),
      List.take_append_drop]

theorem registers_bytesOf : registers r.length (bytesOf r) = r := by
  induction r with
  | nil => rfl
  | cons a r ih =>
    have hfirst : register (a.toList ++ bytesOf r) = a := by
      ext i hi
      simp [register, List.getElem?_append_left, hi]
    rw [List.length_cons, registers, bytesOf_cons, hfirst, List.drop_left' (by simp), ih]

theorem length_bytesOf : (bytesOf r).length = 8 * r.length := by
  induction r with
  | nil => rfl
  | cons a r ih =>
    rw [bytesOf_cons, List.length_append, List.length_cons, ih, Vector.length_toList]
    omega

/-! ## Rounds -/

variable (block : BlockCipher)

theorem xorCounter_xorCounter (t : ℕ) : xorCounter (xorCounter a t) t = a := by
  ext i hi
  simp [xorCounter, UInt8.xor_assoc]

theorem unwrapRound_wrapRound (t : ℕ) :
    unwrapRound block t (wrapRound block t a r).1 (wrapRound block t a r).2 = (a, r) := by
  induction r generalizing t a with
  | nil => rfl
  | cons first r ih => simp [wrapRound, unwrapRound, ih, xorCounter_xorCounter]

theorem wrapRound_unwrapRound (t : ℕ) :
    wrapRound block t (unwrapRound block t a r).1 (unwrapRound block t a r).2 = (a, r) := by
  induction r generalizing t with
  | nil => rfl
  | cons first r ih => simp [wrapRound, unwrapRound, ih, xorCounter_xorCounter]

theorem length_wrapRound (t : ℕ) : (wrapRound block t a r).2.length = r.length := by
  induction r generalizing t a with
  | nil => rfl
  | cons first r ih => simp [wrapRound, ih]

variable (n) (s : Register × List Register)

theorem unwrapRounds_wrapRounds : unwrapRounds block n (wrapRounds block n s) = s := by
  simp [unwrapRounds, wrapRounds, List.range, List.range.loop, unwrapRound_wrapRound]

theorem wrapRounds_unwrapRounds : wrapRounds block n (unwrapRounds block n s) = s := by
  simp [unwrapRounds, wrapRounds, List.range, List.range.loop, wrapRound_unwrapRound]

theorem length_wrapRounds : (wrapRounds block n s).2.length = s.2.length := by
  simp [wrapRounds, List.range, List.range.loop, length_wrapRound]

/-! ## Wrapping and unwrapping -/

theorem pad_of_length (hmod : bytes.length % 8 = 0) (hlength : 16 ≤ bytes.length) :
    pad bytes = bytes := if_neg (by omega)

theorem exists_pad_eq (plaintext : Bytes) : ∃ count, pad plaintext =
    plaintext ++ .replicate count 0 ∧ (pad plaintext).length % 8 = 0 ∧
      16 ≤ (pad plaintext).length := by
  unfold pad
  dsimp only
  split_ifs with hother hshort
  · refine ⟨_, by rw [List.append_assoc, ← List.replicate_add], ?_⟩
    simp only [List.length_append, List.length_replicate] at hshort ⊢
    omega
  · refine ⟨_, rfl, ?_⟩
    simp only [List.length_append, List.length_replicate] at hshort ⊢
    omega
  · exact ⟨0, (List.append_nil _).symm, by omega⟩

def wrapped (block : BlockCipher) (r : List Register) : Bytes :=
  bytesOf ((wrapRounds block r.length (defaultIv, r)).1 ::
    (wrapRounds block r.length (defaultIv, r)).2)

variable {block} {newCipher : Bytes → Except KeyWrapError BlockCipher} {kek : Bytes}
  (hcipher : newCipher kek = .ok block)

include hcipher

theorem aesKeyWrap_bytesOf (hlength : 2 ≤ r.length) :
    aesKeyWrap newCipher kek (bytesOf r) = .ok (wrapped block r) := by
  have hsize := length_bytesOf r
  rw [aesKeyWrap, hcipher, pad_of_length (by omega) (by omega),
    show (bytesOf r).length / 8 = r.length by omega]
  simp only [registers_bytesOf]
  rfl

theorem aesKeyUnwrap_eq_ok_iff {ciphertext plaintext : Bytes} :
    aesKeyUnwrap newCipher kek ciphertext = .ok plaintext ↔
      ∃ r, 2 ≤ r.length ∧ plaintext = bytesOf r ∧ ciphertext = wrapped block r := by
  rw [aesKeyUnwrap, hcipher]
  constructor
  · intro hunwrap
    split at hunwrap
    · cases hunwrap
    · obtain ⟨n, hn⟩ : ∃ n, ciphertext.length = 8 * (n + 1) :=
        ⟨ciphertext.length / 8 - 1, by omega⟩
      rw [show ciphertext.length / 8 - 1 = n by omega] at hunwrap
      have hrounds := wrapRounds_unwrapRounds n block
        (register ciphertext, registers n (ciphertext.drop 8))
      have hbytes : bytesOf (register ciphertext :: registers n (ciphertext.drop 8)) =
        ciphertext := bytesOf_registers hn
      change (if (unwrapRounds block n _).1 ≠ _ then _ else _) = _ at hunwrap
      generalize unwrapRounds block n (register ciphertext, registers n (ciphertext.drop 8)) =
        s at hunwrap hrounds
      split at hunwrap <;> cases hunwrap
      rename_i hiv
      have hcount := length_bytesOf (register ciphertext :: registers n (ciphertext.drop 8))
      have hlength := length_wrapRounds n block s
      rw [hrounds] at hlength
      rw [hbytes, List.length_cons, hlength] at hcount
      have hsame : s.2.length = n := by omega
      refine ⟨s.2, by omega, rfl, ?_⟩
      rw [wrapped, hsame, ← not_not.mp hiv, hrounds, hbytes]
  · rintro ⟨r, hlength, rfl, rfl⟩
    have hrounds := unwrapRounds_wrapRounds r.length block (defaultIv, r)
    have hcount : (wrapRounds block r.length (defaultIv, r)).2.length = r.length :=
      length_wrapRounds _ _ _
    rw [wrapped]
    generalize wrapRounds block r.length (defaultIv, r) = w at hrounds hcount ⊢
    have hsize := length_bytesOf (w.1 :: w.2)
    have hback := registers_bytesOf (w.1 :: w.2)
    rw [List.length_cons, hcount] at hsize hback
    obtain ⟨hfirst, hrest⟩ := List.cons.inj hback
    rw [if_neg (by omega), show (bytesOf (w.1 :: w.2)).length / 8 - 1 = r.length by omega]
    change (if (unwrapRounds block r.length (register _, registers _ _)).1 ≠ _ then _
      else Except.ok (bytesOf (unwrapRounds block r.length (register _, registers _ _)).2)) = _
    rw [hfirst, hrest, hrounds, if_neg (by simp)]

/-- **Key wrap.**  Unwrapping gives back what was wrapped, and only what wrapping gives is
unwrapped.  A plaintext of another length is filled up with zeros before. -/
theorem keyWrap_exact :
    (∀ plaintext : Bytes, plaintext.length % 8 = 0 → 16 ≤ plaintext.length →
      (aesKeyWrap newCipher kek plaintext).bind (aesKeyUnwrap newCipher kek) = .ok plaintext) ∧
    (∀ ciphertext plaintext : Bytes, aesKeyUnwrap newCipher kek ciphertext = .ok plaintext →
      aesKeyWrap newCipher kek plaintext = .ok ciphertext) ∧
    (∀ ciphertext : Bytes, ciphertext.length < 24 ∨ ciphertext.length % 8 ≠ 0 →
      aesKeyUnwrap newCipher kek ciphertext = .error .length) ∧
    ∀ plaintext : Bytes, ∃ count, (plaintext.length + count) % 8 = 0 ∧
      16 ≤ plaintext.length + count ∧ aesKeyWrap newCipher kek plaintext =
        aesKeyWrap newCipher kek (plaintext ++ .replicate count 0) := by
  refine ⟨?_, ?_, ?_, ?_⟩
  · intro plaintext hmod hlength
    obtain ⟨n, hn⟩ := Nat.dvd_of_mod_eq_zero hmod
    have hsize := length_bytesOf (registers n plaintext)
    rw [bytesOf_registers hn] at hsize
    rw [← bytesOf_registers hn, aesKeyWrap_bytesOf _ hcipher (by omega)]
    exact (aesKeyUnwrap_eq_ok_iff hcipher).mpr ⟨_, by omega, rfl, rfl⟩
  · intro ciphertext plaintext hunwrap
    obtain ⟨r, hlength, rfl, rfl⟩ := (aesKeyUnwrap_eq_ok_iff hcipher).mp hunwrap
    exact aesKeyWrap_bytesOf r hcipher hlength
  · intro ciphertext hlength
    exact if_pos hlength
  · intro plaintext
    obtain ⟨count, heq, hmod, hlength⟩ := exists_pad_eq plaintext
    have hpad := pad_of_length hmod hlength
    rw [heq] at hmod hlength hpad
    rw [List.length_append, List.length_replicate] at hmod hlength
    refine ⟨count, hmod, hlength, ?_⟩
    rw [aesKeyWrap, aesKeyWrap, heq, hpad]

omit hcipher

def swapHalves (_ : Bytes) : Except KeyWrapError BlockCipher := .ok (Equiv.prodComm _ _)

theorem keyWrap_exact_swap : ∃ ciphertext,
    aesKeyWrap swapHalves [] (.replicate 16 7) = .ok ciphertext ∧
      aesKeyUnwrap swapHalves [] ciphertext = .ok (.replicate 16 7) :=
  have hcipher : swapHalves [] = .ok (Equiv.prodComm _ _) := rfl
  ⟨_, rfl, (keyWrap_exact hcipher).1 (.replicate 16 7) (by decide) (by decide)⟩

/-- A plaintext of one byte is wrapped. -/
theorem aesKeyWrap_one_byte : ∃ ciphertext, aesKeyWrap swapHalves [] [7] = .ok ciphertext :=
  ⟨_, rfl⟩

end S3EncryptionGateway.Crypto.KeyWrap
