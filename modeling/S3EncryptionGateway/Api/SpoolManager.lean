import Mathlib
import S3EncryptionGateway.Library.TransitionSystem

/-!
# The budget of the spool files

Bodies that have to be verified before they are used are written to temporary files.  A manager
reserves room for them: every reservation has a limit of its own, and together they stay within a
capacity that can be changed while they are held.  A file is written only after its reservation
has grown to cover what is written.

All numbers are machine integers, and the arguments of the calls are arbitrary.

## Strategy

* `Accounted` is the invariant of the manager, in integers: the total is the sum of what is held,
  each reservation is within its limit, and if there are reservations the total is within the
  capacity.  Under it the guards of the calls say what they would say without overflow
  (`acquire_cases`, `grow_cases`).
* `Sustains` is what a call does to the manager, and it composes.  `Backed` says that a file is
  covered by its reservation; it only needs that reservations never shrink.
* `spool_budget` follows by induction over the calls.
-/

namespace S3EncryptionGateway.Api

/-! ## The manager -/

inductive SpoolError where
  /-- "verified spool request limit exceeded" -/
  | requestLimit
  /-- "verified spool aggregate capacity exhausted" -/
  | capacity
  | context (code : ℕ)
  /-- The temporary file cannot be created, secured or written. -/
  | spool
  /-- The file of a form upload is too large. -/
  | entityTooLarge

structure SpoolReservation where
  limit : Int64
  used : Int64
  released : Bool

/-- The manager, with all the reservations that it has given out. -/
structure SpoolManager where
  current : Int64
  capacity : Int64
  reservations : List SpoolReservation

namespace SpoolManager

def new (capacity : Int64) : SpoolManager := ⟨0, capacity, []⟩

section Calls

variable (m : SpoolManager)

def reconfigureCapacity (capacity : Int64) : SpoolManager × Except SpoolError Unit :=
  if capacity ≤ 0 then (m, .error .capacity)
  else if capacity < m.current then (m, .error .capacity)
  else ({ m with capacity := capacity }, .ok ())

/-- A reservation is named by the number of reservations before it. -/
def acquire (ctxErr : Option ℕ) (n limit : Int64) : SpoolManager × Except SpoolError ℕ :=
  if n < 0 ∨ limit < 0 ∨ limit < n then (m, .error .requestLimit)
  else
    match ctxErr with
    | some code => (m, .error (.context code))
    | none =>
      if m.current < 0 ∨ m.capacity < n ∨ m.capacity - n < m.current then (m, .error .capacity)
      else
        ({ m with
          current := m.current + n
          reservations := m.reservations ++ [⟨limit, n, false⟩] }, .ok m.reservations.length)

/-- There is nothing to grow if there is no reservation of that name. -/
def grow (i : ℕ) (delta : Int64) : SpoolManager × Except SpoolError Unit :=
  if delta < 0 then (m, .error .requestLimit)
  else
    match m.reservations[i]? with
    | none => (m, .error .requestLimit)
    | some r =>
      if r.released then (m, .error .requestLimit)
      else if r.limit - r.used < delta then (m, .error .requestLimit)
      else if r.limit - delta < r.used ∨ m.capacity - delta < m.current then
        if m.current ≤ m.capacity - delta then (m, .error .requestLimit)
        else (m, .error .capacity)
      else
        ({ m with
          current := m.current + delta
          reservations := m.reservations.set i { r with used := r.used + delta } }, .ok ())

def release (i : ℕ) : SpoolManager :=
  match m.reservations[i]? with
  | none => m
  | some r =>
    if r.released then m
    else
      { m with
        current := m.current - r.used
        reservations := m.reservations.set i { r with released := true } }

end Calls

end SpoolManager

/-! ## The files -/

/-- A temporary file.  The credit is what the reservation holds and is not written yet. -/
structure SpoolFile where
  reservation : ℕ
  credit : Int64
  maximum : Int64
  length : Int64
  written : ℕ
  removed : Bool

structure SliceLength where
  val : ℕ
  isLt : val < 2 ^ 63

def SliceLength.int64 (n : SliceLength) : Int64 := Int64.ofNat n.val

namespace SpoolFile

variable (m : SpoolManager) (file : SpoolFile)

/-- The file is removed before its reservation is given back. -/
def cleanup : SpoolManager × SpoolFile :=
  (m.release file.reservation, { file with removed := true })

/-- A request that declares no length declares nothing. -/
def declaredBytes (declared : Int64) : Int64 := if declared < 0 then 0 else declared

/-- Reserves what the request declares and creates the file, unless that fails.  A form upload
declares nothing, and its limit is the most that the file may hold. -/
def create (ctxErr : Option ℕ) (declared limit : Int64) (created : Bool) :
    SpoolManager × Except SpoolError SpoolFile :=
  match m.acquire ctxErr (declaredBytes declared) limit with
  | (m, .error err) => (m, .error err)
  | (m, .ok i) =>
    if created then (m, .ok ⟨i, declaredBytes declared, limit, 0, 0, false⟩)
    else (m.release i, .error .spool)

/-- What a write of `n` bytes takes beyond the credit. -/
def extra (n : Int64) : Int64 := if n ≤ file.credit then 0 else n - file.credit

def creditAfter (n : Int64) : Int64 := if n ≤ file.credit then file.credit - n else 0

/-- `reservingWriter.Write` of `n` bytes, of which the file takes `taken`. -/
def reservingWrite (n : SliceLength) (taken : ℕ) :
    (SpoolManager × SpoolFile) × Except SpoolError ℕ :=
  if file.extra n.int64 < 0 then ((m, file), .error .requestLimit)
  else
    match m.grow file.reservation (file.extra n.int64) with
    | (m, .error err) => ((m, file), .error err)
    | (m, .ok ()) =>
      ((m, { file with
        credit := file.creditAfter n.int64
        written := file.written + min taken n.val }), .ok (min taken n.val))

/-- The file takes `taken` of `n` bytes; if that is not all of them, it is given up. -/
def append (n : SliceLength) (taken : ℕ) : (SpoolManager × SpoolFile) × Except SpoolError Unit :=
  if taken < n.val then
    (cleanup m { file with written := file.written + taken }, .error .spool)
  else
    ((m, { file with
      written := file.written + n.val
      length := file.length + n.int64 }), .ok ())

/-- The growth in one round of `verifyAndSpoolV4Payload`: there is none if the declared bytes
cover the round. -/
def payloadGrow (n : Int64) : SpoolManager × Except SpoolError Unit :=
  if 0 < n - file.credit then m.grow file.reservation (n - file.credit) else (m, .ok ())

/-- The declared bytes that are left after the round. -/
def declaredAfter (n : Int64) : Int64 := if n < file.credit then file.credit - n else 0

/-- One round of `verifyAndSpoolV4Payload`, with `n` bytes of the body. -/
def payloadWrite (n : SliceLength) (taken : ℕ) :
    (SpoolManager × SpoolFile) × Except SpoolError Unit :=
  match file.payloadGrow m n.int64 with
  | (m, .error err) => (file.cleanup m, .error err)
  | (m, .ok ()) => append m { file with credit := file.declaredAfter n.int64 } n taken

/-- One round of the loops that spool form uploads, with `n` bytes. -/
def postWrite (n : SliceLength) (taken : ℕ) :
    (SpoolManager × SpoolFile) × Except SpoolError Unit :=
  if file.maximum - file.length < n.int64 then (file.cleanup m, .error .entityTooLarge)
  else
    match m.grow file.reservation n.int64 with
    | (m, .error err) => (file.cleanup m, .error err)
    | (m, .ok ()) => append m file n taken

end SpoolFile

/-! ## Runs -/

structure SpoolWorld where
  manager : SpoolManager
  files : List SpoolFile

/-- A call of the manager, or a file that is created, written or closed. -/
inductive SpoolAction where
  | reconfigureCapacity (capacity : Int64)
  | acquire (ctxErr : Option ℕ) (n limit : Int64)
  | grow (reservation : ℕ) (delta : Int64)
  | release (reservation : ℕ)
  | create (ctxErr : Option ℕ) (declared limit : Int64) (created : Bool)
  | reservingWrite (file : ℕ) (n : SliceLength) (taken : ℕ)
  | payloadWrite (file : ℕ) (n : SliceLength) (taken : ℕ)
  | postWrite (file : ℕ) (n : SliceLength) (taken : ℕ)
  | close (file : ℕ)

namespace SpoolWorld

def init (capacity : Int64) : SpoolWorld := ⟨.new capacity, []⟩

/-- A file that is not removed is used. -/
def withFile (w : SpoolWorld) (j : ℕ)
    (use : SpoolManager → SpoolFile → SpoolManager × SpoolFile) : Option SpoolWorld := do
  let file ← w.files[j]?
  if file.removed then none
  else some ⟨(use w.manager file).1, w.files.set j (use w.manager file).2⟩

/-- A file that was created is added to the others. -/
def addFile (w : SpoolWorld) (result : SpoolManager × Except SpoolError SpoolFile) : SpoolWorld :=
  match result.2 with
  | .error _ => ⟨result.1, w.files⟩
  | .ok file => ⟨result.1, w.files ++ [file]⟩

def step (w : SpoolWorld) : SpoolAction → Option SpoolWorld
  | .reconfigureCapacity capacity =>
    some { w with manager := (w.manager.reconfigureCapacity capacity).1 }
  | .acquire ctxErr n limit => some { w with manager := (w.manager.acquire ctxErr n limit).1 }
  | .grow i delta => some { w with manager := (w.manager.grow i delta).1 }
  | .release i => some { w with manager := w.manager.release i }
  | .create ctxErr declared limit created =>
    some (w.addFile (SpoolFile.create w.manager ctxErr declared limit created))
  | .reservingWrite j n taken => w.withFile j fun m file => (file.reservingWrite m n taken).1
  | .payloadWrite j n taken => w.withFile j fun m file => (file.payloadWrite m n taken).1
  | .postWrite j n taken => w.withFile j fun m file => (file.postWrite m n taken).1
  | .close j => w.withFile j fun m file => file.cleanup m

end SpoolWorld

/-! ## The accounts -/

section Arithmetic

variable {a b : Int64}

theorem toInt_add_of_nonneg (ha : 0 ≤ a.toInt) (hb : 0 ≤ b.toInt) {c : Int64}
    (hsum : a.toInt + b.toInt ≤ c.toInt) : (a + b).toInt = a.toInt + b.toInt := by
  have hc := c.toInt_lt
  rw [Int64.toInt_add, Int.bmod_eq_of_le] <;> omega

theorem toInt_sub_of_nonneg (ha : 0 ≤ a.toInt) (hb : 0 ≤ b.toInt) :
    (a - b).toInt = a.toInt - b.toInt := by
  have hmax := a.toInt_lt
  have hmin := b.toInt_lt
  rw [Int64.toInt_sub, Int.bmod_eq_of_le] <;> omega

@[simp] theorem SliceLength.toInt_int64 (n : SliceLength) : n.int64.toInt = n.val :=
  Int64.toInt_ofNat_of_lt n.isLt

end Arithmetic

/-- What a reservation holds of the budget. -/
def SpoolReservation.held (r : SpoolReservation) : ℤ := if r.released then 0 else r.used.toInt

open SpoolReservation List

namespace SpoolManager

/-- The sum of the sizes of the unreleased reservations. -/
def reserved (m : SpoolManager) : ℤ := (m.reservations.map SpoolReservation.held).sum

structure Accounted (m : SpoolManager) : Prop where
  total : m.current.toInt = m.reserved
  within : ∀ r ∈ m.reservations, 0 ≤ r.used.toInt ∧ r.used.toInt ≤ r.limit.toInt
  headroom : m.reservations ≠ [] → m.current.toInt ≤ m.capacity.toInt

variable {m m' m'' : SpoolManager}

theorem held_nonneg (haccounted : m.Accounted) {r : SpoolReservation}
    (hmem : r ∈ m.reservations) : 0 ≤ r.held := by
  unfold held
  split
  · exact le_rfl
  · exact (haccounted.within r hmem).1

theorem Accounted.nonneg (haccounted : m.Accounted) : 0 ≤ m.current.toInt := by
  rw [haccounted.total]
  apply sum_nonneg
  intro held hheld
  obtain ⟨r, hmem, rfl⟩ := mem_map.mp hheld
  exact held_nonneg haccounted hmem

/-- A reservation that changes changes the sum by what it changes. -/
theorem sum_held_set {l : List SpoolReservation} {i : ℕ} {r : SpoolReservation}
    (hget : l[i]? = some r) (r' : SpoolReservation) :
    ((l.set i r').map held).sum =
      (l.map held).sum - r.held + r'.held := by
  induction l generalizing i with
  | nil => cases hget
  | cons first rest ih =>
    cases i with
    | zero =>
      cases hget
      simp only [set_cons_zero, map_cons, sum_cons]
      omega
    | succ i =>
      simp only [set_cons_succ, map_cons, sum_cons]
      rw [ih hget]
      omega

/-! ### What the calls do -/

/-- A call of `Acquire` fails and changes nothing, or there is room for `n`. -/
theorem acquire_cases (m : SpoolManager) (ctxErr : Option ℕ) (n limit : Int64) :
    (∃ err, m.acquire ctxErr n limit = (m, .error err)) ∨
      (0 ≤ n.toInt ∧ n.toInt ≤ limit.toInt ∧ m.current.toInt + n.toInt ≤ m.capacity.toInt ∧
        m.acquire ctxErr n limit =
          (⟨m.current + n, m.capacity, m.reservations ++ [⟨limit, n, false⟩]⟩,
            .ok m.reservations.length)) := by
  unfold acquire
  split
  · exact .inl ⟨_, rfl⟩
  rename_i hargs
  simp only [not_or, Int64.lt_iff_toInt_lt, not_lt, Int64.toInt_zero] at hargs
  split
  · exact .inl ⟨_, rfl⟩
  split
  · exact .inl ⟨_, rfl⟩
  rename_i hroom
  simp only [not_or, Int64.lt_iff_toInt_lt, not_lt, Int64.toInt_zero] at hroom
  obtain ⟨hn, -, hlimit⟩ := hargs
  obtain ⟨-, hcapacity, hcurrent⟩ := hroom
  rw [toInt_sub_of_nonneg (hn.trans hcapacity) hn] at hcurrent
  exact .inr ⟨hn, hlimit, by omega, rfl⟩

/-- A call of `Grow` fails and changes nothing, or there is room for `delta`. -/
theorem grow_cases (haccounted : m.Accounted) (i : ℕ) (delta : Int64) :
    (∃ err, m.grow i delta = (m, .error err)) ∨
      ∃ r, m.reservations[i]? = some r ∧ r.released = false ∧ 0 ≤ delta.toInt ∧
        r.used.toInt + delta.toInt ≤ r.limit.toInt ∧
        m.current.toInt + delta.toInt ≤ m.capacity.toInt ∧
        m.grow i delta =
          (⟨m.current + delta, m.capacity,
            m.reservations.set i { r with used := r.used + delta }⟩, .ok ()) := by
  unfold grow
  split
  · exact .inl ⟨_, rfl⟩
  rename_i hdelta
  rw [Int64.lt_iff_toInt_lt, not_lt, Int64.toInt_zero] at hdelta
  split
  · exact .inl ⟨_, rfl⟩
  rename_i r hget
  have hmem := mem_of_getElem? hget
  obtain ⟨hused, hlimit⟩ := haccounted.within r hmem
  have hcapacity := haccounted.nonneg.trans (haccounted.headroom (ne_nil_of_mem hmem))
  split
  · exact .inl ⟨_, rfl⟩
  rename_i hreleased
  split
  · exact .inl ⟨_, rfl⟩
  rename_i hwithin
  rw [Int64.lt_iff_toInt_lt, not_lt, toInt_sub_of_nonneg (hused.trans hlimit) hused]
    at hwithin
  split
  · split
    · exact .inl ⟨_, rfl⟩
    · exact .inl ⟨_, rfl⟩
  · rename_i hroom
    simp only [not_or, Int64.lt_iff_toInt_lt, not_lt] at hroom
    have hcurrent := hroom.2
    rw [toInt_sub_of_nonneg hcapacity hdelta] at hcurrent
    exact .inr ⟨r, hget, Bool.not_eq_true _ ▸ hreleased, hdelta, by omega, by omega, rfl⟩

/-- What `Release` does to a reservation that is held. -/
theorem release_cases (m : SpoolManager) (i : ℕ) :
    m.release i = m ∨
      ∃ r, m.reservations[i]? = some r ∧ r.released = false ∧
        m.release i =
          ⟨m.current - r.used, m.capacity, m.reservations.set i { r with released := true }⟩ := by
  unfold release
  split
  · exact .inl rfl
  rename_i r hget
  split_ifs with hreleased
  · exact .inl rfl
  · exact .inr ⟨r, hget, Bool.not_eq_true _ ▸ hreleased, rfl⟩

theorem reconfigureCapacity_cases (m : SpoolManager) (capacity : Int64) :
    (∃ err, m.reconfigureCapacity capacity = (m, .error err)) ∨
      (m.current.toInt ≤ capacity.toInt ∧
        m.reconfigureCapacity capacity = ({ m with capacity := capacity }, .ok ())) := by
  unfold reconfigureCapacity
  split
  · exact .inl ⟨_, rfl⟩
  split_ifs with hfits
  · exact .inl ⟨_, rfl⟩
  · rw [Int64.lt_iff_toInt_lt, not_lt] at hfits
    exact .inr ⟨hfits, rfl⟩

/-! ### What the calls keep -/

/-- What a call does to the manager: the accounts stay in order, reservations do not shrink, and
if the total rises it stays within the capacity. -/
structure Sustains (m m' : SpoolManager) : Prop where
  accounted : m'.Accounted
  larger : ∀ (i : ℕ) (r : SpoolReservation), m.reservations[i]? = some r →
    ∃ r' : SpoolReservation, m'.reservations[i]? = some r' ∧ r.used.toInt ≤ r'.used.toInt
  capacity_eq : m'.capacity = m.capacity
  rises : m'.current.toInt ≤ m.current.toInt ∨ m'.current.toInt ≤ m.capacity.toInt

theorem Sustains.refl (haccounted : m.Accounted) : Sustains m m :=
  ⟨haccounted, fun _ r hget => ⟨r, hget, le_rfl⟩, rfl, .inl le_rfl⟩

theorem Sustains.trans (hfirst : Sustains m m') (hsecond : Sustains m' m'') : Sustains m m'' where
  accounted := hsecond.accounted
  larger := by
    intro i r hget
    obtain ⟨r', hget', hle⟩ := hfirst.larger i r hget
    obtain ⟨r'', hget'', hle'⟩ := hsecond.larger i r' hget'
    exact ⟨r'', hget'', hle.trans hle'⟩
  capacity_eq := hsecond.capacity_eq.trans hfirst.capacity_eq
  rises := by
    rcases hsecond.rises with hless | hwithin
    · rcases hfirst.rises with hless' | hwithin'
      · exact .inl (hless.trans hless')
      · exact .inr (hless.trans hwithin')
    · rw [hfirst.capacity_eq] at hwithin
      exact .inr hwithin

section

variable (haccounted : m.Accounted)

include haccounted

/-- One reservation is replaced by one that is no smaller. -/
theorem Sustains.of_set {i : ℕ} {r r' : SpoolReservation} (hget : m.reservations[i]? = some r)
    (hlarger : r.used.toInt ≤ r'.used.toInt) (hlimit : r'.used.toInt ≤ r'.limit.toInt)
    {current : Int64} (hcurrent : current.toInt = m.current.toInt - r.held + r'.held)
    (hrises : current.toInt ≤ m.current.toInt ∨ current.toInt ≤ m.capacity.toInt) :
    Sustains m ⟨current, m.capacity, m.reservations.set i r'⟩ := by
  have hmem := mem_of_getElem? hget
  refine ⟨⟨?_, ?_, fun _ => ?_⟩, ?_, rfl, hrises⟩
  · show current.toInt = _
    rw [hcurrent, reserved, sum_held_set hget, haccounted.total, reserved]
  · intro s hs
    rcases mem_or_eq_of_mem_set hs with hold | rfl
    · exact haccounted.within s hold
    · exact ⟨(haccounted.within r hmem).1.trans hlarger, hlimit⟩
  · exact hrises.elim (fun hle => hle.trans (haccounted.headroom (ne_nil_of_mem hmem))) id
  · intro k s hs
    by_cases hik : i = k
    · subst hik
      rw [hget] at hs
      cases hs
      exact ⟨r', List.getElem?_set_self (List.getElem?_eq_some_iff.mp hget).1, hlarger⟩
    · exact ⟨s, (List.getElem?_set_ne hik).trans hs, le_rfl⟩

theorem acquire_sustains (ctxErr : Option ℕ) (n limit : Int64) :
    Sustains m (m.acquire ctxErr n limit).1 := by
  rcases acquire_cases m ctxErr n limit with ⟨err, hfail⟩ | ⟨hn, hlimit, hroom, hok⟩
  · rw [hfail]
    exact .refl haccounted
  · rw [hok]
    have hsum := toInt_add_of_nonneg haccounted.nonneg hn hroom
    refine ⟨⟨?_, ?_, ?_⟩, ?_, rfl, .inr ?_⟩
    · show (m.current + n).toInt = _
      rw [hsum, haccounted.total, reserved, reserved, map_append, sum_append]
      simp [held]
    · intro r hmem
      rcases mem_append.mp hmem with hold | hnew
      · exact haccounted.within r hold
      · rw [mem_singleton] at hnew
        subst hnew
        exact ⟨hn, hlimit⟩
    · intro _
      exact hsum.trans_le hroom
    · intro i r hget
      refine ⟨r, ?_, le_rfl⟩
      rw [List.getElem?_append_left (List.getElem?_eq_some_iff.mp hget).1, hget]
    · exact hsum.trans_le hroom

theorem grow_sustains (i : ℕ) (delta : Int64) : Sustains m (m.grow i delta).1 := by
  rcases grow_cases haccounted i delta with
    ⟨err, hfail⟩ | ⟨r, hget, hheld, hdelta, hwithin, hroom, hok⟩
  · rw [hfail]
    exact .refl haccounted
  · rw [hok]
    obtain ⟨hused, -⟩ := haccounted.within r (mem_of_getElem? hget)
    have hsum := toInt_add_of_nonneg haccounted.nonneg hdelta hroom
    have hgrown := toInt_add_of_nonneg hused hdelta hwithin
    refine .of_set haccounted hget ?_ ?_ ?_ (.inr (hsum.trans_le hroom))
    · show r.used.toInt ≤ (r.used + delta).toInt
      omega
    · exact hgrown.trans_le hwithin
    · simp only [held, hheld, Bool.false_eq_true, if_false, hsum, hgrown]
      omega

theorem release_sustains (i : ℕ) : Sustains m (m.release i) := by
  rcases release_cases m i with hsame | ⟨r, hget, hheld, hok⟩
  · rw [hsame]
    exact .refl haccounted
  · rw [hok]
    obtain ⟨hused, hlimit⟩ := haccounted.within r (mem_of_getElem? hget)
    have hdiff := toInt_sub_of_nonneg haccounted.nonneg hused
    refine .of_set haccounted hget ?_ ?_ ?_ (.inl ?_)
    · exact le_rfl
    · exact hlimit
    · simp only [held, hheld, Bool.false_eq_true, if_false, if_true, hdiff, Int.add_zero]
    · omega

end

theorem release_release (m : SpoolManager) (i : ℕ) : (m.release i).release i = m.release i := by
  rcases release_cases m i with hsame | ⟨r, hget, -, hok⟩
  · rw [hsame, hsame]
  · rw [hok, release, List.getElem?_set_self (List.getElem?_eq_some_iff.mp hget).1]
    exact if_pos rfl

end SpoolManager

/-! ## The files are covered -/

open SpoolManager

open SliceLength

namespace SpoolFile

variable {m m' : SpoolManager} {file : SpoolFile}

/-- The reservation covers what the file holds and what it may still hold without growing. -/
structure Backed (m : SpoolManager) (file : SpoolFile) : Prop where
  credit_nonneg : 0 ≤ file.credit.toInt
  length_nonneg : 0 ≤ file.length.toInt
  length_le : file.length.toInt ≤ file.written
  covered : ∃ r, m.reservations[file.reservation]? = some r ∧
    file.written + file.credit.toInt ≤ r.used.toInt

/-- Reservations do not shrink, so a file stays covered. -/
theorem Backed.sustain (hbacked : file.Backed m) (hsustains : m.Sustains m') : file.Backed m' := by
  obtain ⟨r, hget, hcovered⟩ := hbacked.covered
  obtain ⟨r', hget', hle⟩ := hsustains.larger _ r hget
  exact ⟨hbacked.credit_nonneg, hbacked.length_nonneg, hbacked.length_le,
    ⟨r', hget', hcovered.trans hle⟩⟩

/-- A call that uses a file. -/
def Keeps (m : SpoolManager) (result : SpoolManager × SpoolFile) : Prop :=
  m.Sustains result.1 ∧ result.2.Backed result.1

theorem cleanup_keeps (haccounted : m.Accounted) (hbacked : file.Backed m) :
    Keeps m (file.cleanup m) := by
  have hsustains := release_sustains haccounted file.reservation
  have hstill := hbacked.sustain hsustains
  exact ⟨hsustains, hstill.credit_nonneg, hstill.length_nonneg, hstill.length_le, hstill.covered⟩

theorem create_sustains (haccounted : m.Accounted) (ctxErr : Option ℕ) (declared limit : Int64)
    (created : Bool) : m.Sustains (create m ctxErr declared limit created).1 := by
  have hsustains := acquire_sustains haccounted ctxErr (declaredBytes declared) limit
  unfold create
  split
  · rename_i hacquire
    rw [hacquire] at hsustains
    exact hsustains
  · rename_i m' i hacquire
    rw [hacquire] at hsustains
    split
    · exact hsustains
    · exact hsustains.trans (release_sustains hsustains.accounted i)

theorem create_backed {ctxErr : Option ℕ} {declared limit : Int64} {created : Bool}
    (hcreate : create m ctxErr declared limit created = (m', .ok file)) : file.Backed m' := by
  unfold create at hcreate
  rcases acquire_cases m ctxErr (declaredBytes declared) limit with
    ⟨err, hfail⟩ | ⟨hn, -, -, hok⟩
  · rw [hfail] at hcreate
    cases hcreate
  rw [hok] at hcreate
  simp only at hcreate
  split at hcreate
  · obtain ⟨rfl, hfile⟩ := Prod.mk.inj hcreate
    rw [← Except.ok.inj hfile]
    refine ⟨hn, le_rfl, le_rfl, _, List.getElem?_concat_length, ?_⟩
    exact (zero_add _).le
  · cases (Prod.mk.inj hcreate).2

/-- The reservation has grown by `extra`, so that the file may take `n` more bytes if the credit
makes up for the rest. -/
theorem covered_of_grow (haccounted : m.Accounted) (hbacked : file.Backed m) {extra : Int64}
    (hgrow : m.grow file.reservation extra = (m', .ok ())) :
    ∃ r, m'.reservations[file.reservation]? = some r ∧
      file.written + file.credit.toInt + extra.toInt ≤ r.used.toInt := by
  rcases grow_cases haccounted file.reservation extra with
    ⟨err, hfail⟩ | ⟨r, hget, -, hextra, hwithin, -, hok⟩
  · rw [hfail] at hgrow
    cases hgrow
  rw [hok] at hgrow
  cases hgrow
  obtain ⟨hused, -⟩ := haccounted.within r (mem_of_getElem? hget)
  refine ⟨_, List.getElem?_set_self (List.getElem?_eq_some_iff.mp hget).1, ?_⟩
  obtain ⟨r', hget', hcovered⟩ := hbacked.covered
  rw [hget] at hget'
  cases hget'
  show _ ≤ (r.used + extra).toInt
  rw [toInt_add_of_nonneg hused hextra hwithin]
  omega

theorem int64_nonneg (n : SliceLength) : 0 ≤ n.int64.toInt := by
  rw [toInt_int64]
  exact Int.natCast_nonneg _

theorem toInt_extra (hcredit : 0 ≤ file.credit.toInt) (n : SliceLength) :
    (file.extra n.int64).toInt = max (n.val - file.credit.toInt) 0 := by
  simp only [extra, Int64.le_iff_toInt_le, toInt_int64]
  split_ifs with hle
  · rw [Int64.toInt_zero]
    omega
  · rw [toInt_sub_of_nonneg (int64_nonneg n) hcredit, toInt_int64]
    omega

theorem toInt_creditAfter (hcredit : 0 ≤ file.credit.toInt) (n : SliceLength) :
    (file.creditAfter n.int64).toInt = max (file.credit.toInt - n.val) 0 := by
  simp only [creditAfter, Int64.le_iff_toInt_le, toInt_int64]
  split_ifs with hle
  · rw [toInt_sub_of_nonneg hcredit (int64_nonneg n), toInt_int64]
    omega
  · rw [Int64.toInt_zero]
    omega

/-- The two ways of counting down agree. -/
theorem declaredAfter_eq (n : Int64) : file.declaredAfter n = file.creditAfter n := by
  unfold declaredAfter creditAfter
  by_cases hlt : n < file.credit
  · rw [if_pos hlt, if_pos (Int64.le_of_lt hlt)]
  rw [if_neg hlt]
  split_ifs with hle
  · have heq : n = file.credit := Int64.le_antisymm hle (Int64.not_lt.mp hlt)
    rw [heq, Int64.sub_self]
  · rfl

theorem reservingWrite_keeps (haccounted : m.Accounted) (hbacked : file.Backed m)
    (n : SliceLength) (taken : ℕ) : Keeps m (file.reservingWrite m n taken).1 := by
  have hcredit := hbacked.credit_nonneg
  have hsustains := grow_sustains haccounted file.reservation (file.extra n.int64)
  unfold reservingWrite
  split
  · exact ⟨.refl haccounted, hbacked⟩
  split
  · rename_i hgrow
    rw [hgrow] at hsustains
    exact ⟨hsustains, hbacked.sustain hsustains⟩
  · rename_i m' hgrow
    rw [hgrow] at hsustains
    obtain ⟨r, hget, hcovered⟩ := covered_of_grow haccounted hbacked hgrow
    rw [toInt_extra hcredit] at hcovered
    have hlength := hbacked.length_le
    have htaken : min taken n.val ≤ n.val := min_le_right _ _
    refine ⟨hsustains, ?_, hbacked.length_nonneg, ?_, r, hget, ?_⟩
    · show 0 ≤ (file.creditAfter n.int64).toInt
      rw [toInt_creditAfter hcredit]
      exact le_max_right _ _
    · show file.length.toInt ≤ ((file.written + min taken n.val : ℕ) : ℤ)
      omega
    · -- the bytes come out of the credit as far as it goes
      show ((file.written + min taken n.val : ℕ) : ℤ) + (file.creditAfter n.int64).toInt ≤
        r.used.toInt
      rw [toInt_creditAfter hcredit]
      omega

/-- The file takes bytes that its reservation covers. -/
theorem append_keeps (haccounted : m.Accounted) {n : SliceLength} {taken : ℕ}
    (hcredit : 0 ≤ file.credit.toInt) (hlength : 0 ≤ file.length.toInt)
    (hle : file.length.toInt ≤ file.written)
    (hcovered : ∃ r, m.reservations[file.reservation]? = some r ∧
      file.written + n.val + file.credit.toInt ≤ r.used.toInt) :
    Keeps m (file.append m n taken).1 := by
  obtain ⟨r, hget, hcovered⟩ := hcovered
  unfold append
  split_ifs with hshort
  · refine cleanup_keeps haccounted ⟨hcredit, hlength, ?_, r, hget, ?_⟩
    · show file.length.toInt ≤ ((file.written + taken : ℕ) : ℤ)
      omega
    · show ((file.written + taken : ℕ) : ℤ) + file.credit.toInt ≤ r.used.toInt
      omega
  · have hsum : (file.length + n.int64).toInt = file.length.toInt + n.val := by
      rw [← toInt_int64 n]
      refine toInt_add_of_nonneg hlength (int64_nonneg n) (c := r.used) ?_
      rw [toInt_int64]
      omega
    refine ⟨.refl haccounted, hcredit, ?_, ?_, r, hget, ?_⟩
    · show 0 ≤ (file.length + n.int64).toInt
      omega
    · show (file.length + n.int64).toInt ≤ ((file.written + n.val : ℕ) : ℤ)
      omega
    · show ((file.written + n.val : ℕ) : ℤ) + file.credit.toInt ≤ r.used.toInt
      omega

theorem Keeps.of_sustains (hsustains : m.Sustains m') {result : SpoolManager × SpoolFile}
    (hkeeps : Keeps m' result) : Keeps m result :=
  ⟨hsustains.trans hkeeps.1, hkeeps.2⟩

section

variable (haccounted : m.Accounted) (hbacked : file.Backed m) (n : SliceLength)

include haccounted hbacked n

/-- The growth of a round makes up for what the declared bytes do not cover. -/
theorem payloadGrow_spec :
    m.Sustains (file.payloadGrow m n.int64).1 ∧
      ∀ m', file.payloadGrow m n.int64 = (m', .ok ()) →
        ∃ r, m'.reservations[file.reservation]? = some r ∧
          file.written + n.val + max (file.credit.toInt - n.val) 0 ≤ r.used.toInt := by
  have hcredit := hbacked.credit_nonneg
  have hextra : (n.int64 - file.credit).toInt = n.val - file.credit.toInt := by
    rw [toInt_sub_of_nonneg (int64_nonneg n) hcredit, toInt_int64]
  unfold payloadGrow
  split_ifs with hpos
  · rw [Int64.lt_iff_toInt_lt, Int64.toInt_zero] at hpos
    refine ⟨grow_sustains haccounted _ _, fun m' hgrow => ?_⟩
    obtain ⟨r, hget, hcovered⟩ := covered_of_grow haccounted hbacked hgrow
    exact ⟨r, hget, by omega⟩
  · rw [Int64.lt_iff_toInt_lt, Int64.toInt_zero] at hpos
    refine ⟨.refl haccounted, fun m' hsame => ?_⟩
    cases hsame
    obtain ⟨r, hget, hcovered⟩ := hbacked.covered
    exact ⟨r, hget, by omega⟩

theorem payloadWrite_keeps (taken : ℕ) : Keeps m (file.payloadWrite m n taken).1 := by
  obtain ⟨hsustains, hcovered⟩ := payloadGrow_spec haccounted hbacked n
  unfold payloadWrite
  split
  · rename_i m' err hgrow
    rw [hgrow] at hsustains
    exact .of_sustains hsustains (cleanup_keeps hsustains.accounted (hbacked.sustain hsustains))
  · rename_i m' hgrow
    rw [hgrow] at hsustains
    have hafter : (file.declaredAfter n.int64).toInt = max (file.credit.toInt - n.val) 0 := by
      rw [declaredAfter_eq, toInt_creditAfter hbacked.credit_nonneg]
    refine .of_sustains hsustains (append_keeps hsustains.accounted ?_ hbacked.length_nonneg
      hbacked.length_le ?_)
    · show 0 ≤ (file.declaredAfter n.int64).toInt
      rw [hafter]
      exact le_max_right _ _
    · show ∃ r, m'.reservations[file.reservation]? = some r ∧
        file.written + n.val + (file.declaredAfter n.int64).toInt ≤ r.used.toInt
      rw [hafter]
      exact hcovered m' hgrow

theorem postWrite_keeps (taken : ℕ) : Keeps m (file.postWrite m n taken).1 := by
  have hsustains := grow_sustains haccounted file.reservation n.int64
  unfold postWrite
  split
  · exact cleanup_keeps haccounted hbacked
  split
  · rename_i m' err hgrow
    rw [hgrow] at hsustains
    exact .of_sustains hsustains (cleanup_keeps hsustains.accounted (hbacked.sustain hsustains))
  · rename_i m' hgrow
    rw [hgrow] at hsustains
    obtain ⟨r, hget, hcovered⟩ := covered_of_grow haccounted hbacked hgrow
    rw [toInt_int64] at hcovered
    exact .of_sustains hsustains (append_keeps hsustains.accounted hbacked.credit_nonneg
      hbacked.length_nonneg hbacked.length_le ⟨r, hget, by omega⟩)

end

end SpoolFile

/-! ## Whole runs -/

namespace SpoolWorld

/-- The accounts are in order and every file is covered by its reservation. -/
structure Budgeted (w : SpoolWorld) : Prop where
  accounted : w.manager.Accounted
  backed : ∀ file ∈ w.files, file.Backed w.manager

/-- A step rises above nothing, and it keeps the budget. -/
structure Holds (w w' : SpoolWorld) : Prop where
  budgeted : w'.Budgeted
  rises : w.manager.current.toInt < w'.manager.current.toInt →
    w'.manager.capacity = w.manager.capacity ∧ w'.manager.current.toInt ≤ w.manager.capacity.toInt

variable {w w' : SpoolWorld}

theorem Budgeted.manager (hbudgeted : w.Budgeted) {m : SpoolManager}
    (hsustains : w.manager.Sustains m) : Holds w { w with manager := m } where
  budgeted :=
    ⟨hsustains.accounted, fun file hmem => (hbudgeted.backed file hmem).sustain hsustains⟩
  rises hrise := ⟨hsustains.capacity_eq, hsustains.rises.resolve_left (not_le.mpr hrise)⟩

theorem Budgeted.withFile (hbudgeted : w.Budgeted) {j : ℕ}
    {use : SpoolManager → SpoolFile → SpoolManager × SpoolFile}
    (huse : ∀ file, file.Backed w.manager → SpoolFile.Keeps w.manager (use w.manager file))
    (hstep : w.withFile j use = some w') : Holds w w' := by
  unfold SpoolWorld.withFile at hstep
  obtain ⟨file, hget, hrest⟩ := Option.bind_eq_some_iff.mp hstep
  split at hrest
  · cases hrest
  cases hrest
  obtain ⟨hsustains, hbacked⟩ := huse file (hbudgeted.backed file (mem_of_getElem? hget))
  refine ⟨⟨hsustains.accounted, ?_⟩, (hbudgeted.manager hsustains).rises⟩
  intro other hmem
  rcases mem_or_eq_of_mem_set hmem with hold | rfl
  · exact (hbudgeted.backed other hold).sustain hsustains
  · exact hbacked

/-- **The step lemma.** -/
theorem Budgeted.step {action : SpoolAction} (hbudgeted : w.Budgeted)
    (hstep : w.step action = some w') : Holds w w' := by
  have haccounted := hbudgeted.accounted
  cases action with
  | reconfigureCapacity capacity =>
    cases hstep
    rcases reconfigureCapacity_cases w.manager capacity with
      ⟨err, hfail⟩ | ⟨hfits, hok⟩
    · rw [hfail]
      exact hbudgeted.manager (.refl haccounted)
    · rw [hok]
      refine ⟨⟨⟨haccounted.total, haccounted.within, fun _ => hfits⟩, ?_⟩,
        fun hrise => absurd hrise (lt_irrefl _)⟩
      intro file hmem
      obtain ⟨hcredit, hlength, hle, hcovered⟩ := hbudgeted.backed file hmem
      exact ⟨hcredit, hlength, hle, hcovered⟩
  | acquire ctxErr n limit =>
    cases hstep
    exact hbudgeted.manager (acquire_sustains haccounted ctxErr n limit)
  | grow i delta =>
    cases hstep
    exact hbudgeted.manager (grow_sustains haccounted i delta)
  | release i =>
    cases hstep
    exact hbudgeted.manager (release_sustains haccounted i)
  | create ctxErr declared limit created =>
    have hsustains := SpoolFile.create_sustains haccounted ctxErr declared limit created
    cases hstep
    unfold SpoolWorld.addFile
    split
    · exact hbudgeted.manager hsustains
    rename_i file hcreate
    refine ⟨⟨hsustains.accounted, ?_⟩, (hbudgeted.manager hsustains).rises⟩
    intro other hmem
    rcases mem_append.mp hmem with hold | hnew
    · exact (hbudgeted.backed other hold).sustain hsustains
    · rw [mem_singleton] at hnew
      subst hnew
      exact SpoolFile.create_backed (Prod.ext rfl hcreate)
  | reservingWrite j n taken =>
    rw [SpoolWorld.step] at hstep
    refine hbudgeted.withFile (fun file hbacked => ?_) hstep
    exact SpoolFile.reservingWrite_keeps haccounted hbacked n taken
  | payloadWrite j n taken =>
    rw [SpoolWorld.step] at hstep
    refine hbudgeted.withFile (fun file hbacked => ?_) hstep
    exact SpoolFile.payloadWrite_keeps haccounted hbacked n taken
  | postWrite j n taken =>
    rw [SpoolWorld.step] at hstep
    refine hbudgeted.withFile (fun file hbacked => ?_) hstep
    exact SpoolFile.postWrite_keeps haccounted hbacked n taken
  | close j =>
    rw [SpoolWorld.step] at hstep
    exact hbudgeted.withFile (fun file hbacked => SpoolFile.cleanup_keeps haccounted hbacked)
      hstep

/-- What is said of the next call. -/
structure Careful (m : SpoolManager) : Prop where
  acquire_failed : ∀ ctxErr n limit m' err, m.acquire ctxErr n limit = (m', .error err) → m' = m
  grow_failed : ∀ i delta m' err, m.grow i delta = (m', .error err) → m' = m
  reconfigure_failed : ∀ capacity m' err,
    m.reconfigureCapacity capacity = (m', .error err) → m' = m
  release_idempotent : ∀ i, (m.release i).release i = m.release i
  acquire_exact : ∀ ctxErr n limit m' i, m.acquire ctxErr n limit = (m', .ok i) →
    (m.current + n).toInt = m.current.toInt + n.toInt
  grow_exact : ∀ i delta m' (r : SpoolReservation), m.grow i delta = (m', .ok ()) →
    m.reservations[i]? = some r →
    (r.used + delta).toInt = r.used.toInt + delta.toInt ∧
      (m.current + delta).toInt = m.current.toInt + delta.toInt

theorem careful_of_accounted {m : SpoolManager} (haccounted : m.Accounted) : Careful m where
  acquire_failed := by
    intro ctxErr n limit m' err hacquire
    rcases acquire_cases m ctxErr n limit with ⟨_, hfail⟩ | ⟨-, -, -, hok⟩
    · rw [hfail] at hacquire
      exact (Prod.mk.inj hacquire).1.symm
    · rw [hok] at hacquire
      cases hacquire
  grow_failed := by
    intro i delta m' err hgrow
    rcases grow_cases haccounted i delta with ⟨_, hfail⟩ | ⟨r, -, -, -, -, -, hok⟩
    · rw [hfail] at hgrow
      exact (Prod.mk.inj hgrow).1.symm
    · rw [hok] at hgrow
      cases hgrow
  reconfigure_failed := by
    intro capacity m' err hreconfigure
    rcases reconfigureCapacity_cases m capacity with ⟨_, hfail⟩ | ⟨-, hok⟩
    · rw [hfail] at hreconfigure
      exact (Prod.mk.inj hreconfigure).1.symm
    · rw [hok] at hreconfigure
      cases hreconfigure
  release_idempotent := m.release_release
  acquire_exact := by
    intro ctxErr n limit m' i hacquire
    rcases acquire_cases m ctxErr n limit with ⟨_, hfail⟩ | ⟨hn, -, hroom, -⟩
    · rw [hfail] at hacquire
      cases hacquire
    · exact toInt_add_of_nonneg haccounted.nonneg hn hroom
  grow_exact := by
    intro i delta m' r hgrow hget
    rcases grow_cases haccounted i delta with
      ⟨_, hfail⟩ | ⟨r', hget', -, hdelta, hwithin, hroom, -⟩
    · rw [hfail] at hgrow
      cases hgrow
    rw [hget] at hget'
    cases hget'
    exact ⟨toInt_add_of_nonneg (haccounted.within r (mem_of_getElem? hget)).1 hdelta hwithin,
      toInt_add_of_nonneg haccounted.nonneg hdelta hroom⟩

/-- **The spool budget.**  After any calls with any arguments the total is the sum of the sizes of
the unreleased reservations and not negative, each reservation is within its limit, and no file
holds more than its reservation.  The next call changes nothing if it fails, its additions do not
overflow, releasing twice is releasing once, and a total that rises stays within the capacity in
force. -/
theorem spool_budget {capacity : Int64} {actions : List SpoolAction}
    (hrun : Transitions.run step (init capacity) actions = some w) :
    w.manager.current.toInt = w.manager.reserved ∧ 0 ≤ w.manager.current.toInt ∧
      (∀ r ∈ w.manager.reservations, r.used.toInt ≤ r.limit.toInt) ∧
      (∀ file ∈ w.files, ∃ r, w.manager.reservations[file.reservation]? = some r ∧
        file.written ≤ r.used.toInt) ∧
      Careful w.manager ∧
      ∀ action w', w.step action = some w' →
        w.manager.current.toInt < w'.manager.current.toInt →
          w'.manager.capacity = w.manager.capacity ∧
            w'.manager.current.toInt ≤ w.manager.capacity.toInt := by
  have hbudgeted : w.Budgeted := Transitions.run_keeps step Budgeted
    (fun _ _ _ hbudgeted hstep => (hbudgeted.step hstep).budgeted)
    ⟨⟨rfl, fun _ hmem => absurd hmem List.not_mem_nil, fun hne => absurd rfl hne⟩,
      fun _ hmem => absurd hmem List.not_mem_nil⟩ hrun
  have haccounted := hbudgeted.accounted
  refine ⟨haccounted.total, haccounted.nonneg, fun r hmem => (haccounted.within r hmem).2, ?_,
    careful_of_accounted haccounted, fun action w' hstep => (hbudgeted.step hstep).rises⟩
  intro file hmem
  obtain ⟨hcredit, -, -, r, hget, hcovered⟩ := hbudgeted.backed file hmem
  exact ⟨r, hget, by omega⟩

/-- A file outgrows what was declared, another reservation is taken and released, and the capacity
is lowered. -/
def sampleActions : List SpoolAction :=
  [.create none 10 50 true, .reservingWrite 0 ⟨15, by decide⟩ 15, .acquire none 20 20,
    .reconfigureCapacity 40, .release 1]

theorem spool_budget_sample :
    ∃ w, Transitions.run step (init 100) sampleActions = some w ∧ w.manager.current = 15 ∧
      w.manager.current.toInt = w.manager.reserved := by
  have hrun : (Transitions.run step (init 100) sampleActions).map (fun w => w.manager.current) =
      some 15 := by
    decide +kernel
  obtain ⟨w, hw, hcurrent⟩ := Option.map_eq_some_iff.mp hrun
  exact ⟨w, hw, hcurrent, (spool_budget hw).1⟩

end SpoolWorld

end S3EncryptionGateway.Api
