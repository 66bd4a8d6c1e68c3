import S3EncryptionGateway.Api.EngineCache

/-!
# The lifetime of policy engines

An engine must not be closed while a request may still derive keys through it, and must be
closed exactly once in the end.  Nothing in the cache knows which engines are in use: an
expired entry is closed by the sweep or by the next `Get`, and `Stop` closes all.  An
expired entry that `GetOrStore` finds is overwritten and never closed.

## Strategy

* **Ownership.**  `Owned` says who answers for each engine.  An open engine that was passed
  to `GetOrStore` is in the cache, a closed one was closed once, and whoever holds or still
  has to store an engine finds it open.
* **One lemma for each way the heap changes.**  `Owned.evict` closes cached engines that
  nobody holds; it serves the second section of `Get`, the sweep and `Stop`.
  `Owned.build`, `Owned.closeOrphan` and `Owned.storeOrphan` are the ways a new engine goes.
* **Runs.**  `ownersRespected` is the condition under which every step keeps `Owned`.
-/

namespace S3EncryptionGateway.Api

open Encoding Text Crypto Transitions

/-- **Keys come from the right password, and every stored engine is closed exactly once**
by the time `Stop` has returned. -/
structure KeysIntact (config : EngineConfig) (s : EngineSystem) : Prop where
  passwords : ∀ derivation ∈ s.derivations,
    derivation.password = config.passwordOf derivation.policy
  objects : ∀ object ∈ s.objects, decryptFresh config object = some object.plaintext
  closedOnce : s.stopped = true → ∀ engine ∈ s.engines, engine.stored = true → engine.closes = 1

variable {policy : Str}

variable {id : ℕ}

namespace EngineSystem

def held (s : EngineSystem) (engine : ℕ) : Bool :=
  s.requests.any fun r => r.use = .holding engine

/-- No engine is closed while a request holds it, no expired entry is overwritten, and
nothing is stored once `Stop` has returned. -/
def ownersRespected (s : EngineSystem) : EngineAction → Bool
  | .fetch index =>
    s.requests[index]?.all fun r =>
      match r.use with
      | .expired => (s.entries.lookup r.policy).all fun entry =>
        !(entry.expiresAt < s.now && s.held entry.engine)
      | .storing _ =>
        !s.stopped && (s.entries.lookup r.policy).all fun entry => s.now < entry.expiresAt
      | _ => true
  | .sweep => (s.entries.expired s.now).all fun entry => !s.held entry.2.engine
  | .stopReturns => s.entries.entries.all fun entry => !s.held entry.2.engine
  | _ => true

/-- The engine is open and belongs to the policy. -/
def Open (s : EngineSystem) (id : ℕ) (policy : Str) (stored : Bool) : Prop :=
  ∃ engine, s.engines[id]? = some engine ∧ engine.policy = policy ∧ engine.closes = 0 ∧
    engine.stored = stored

theorem Open.stored_ne {s : EngineSystem} {policy' : Str} {stored stored' : Bool}
    (hopen : s.Open id policy stored) (hopen' : s.Open id policy' stored')
    (hne : stored = !stored') : False := by
  obtain ⟨engine, hengine, -, -, rfl⟩ := hopen
  obtain ⟨engine', hengine', -, -, rfl⟩ := hopen'
  cases hengine.symm.trans hengine'
  simp at hne

end EngineSystem

theorem EngineSystem.setUse_setUse (s : EngineSystem) (index : ℕ) (use use' : EngineUse) :
    (s.setUse index use).setUse index use' = s.setUse index use' := by
  unfold EngineSystem.setUse
  congr 1
  apply List.ext_getElem?
  intro i
  by_cases heq : index = i
  · simp [heq, Function.comp_def]
  · simp [heq]

variable {r : EngineRequest} {index : ℕ}

theorem EngineSystem.getElem?_setUse {s : EngineSystem} (hr : s.requests[index]? = some r)
    {use : EngineUse} {i : ℕ} {r' : EngineRequest}
    (hr' : (s.setUse index use).requests[i]? = some r') :
    (i = index ∧ r' = { r with use := use }) ∨ (i ≠ index ∧ s.requests[i]? = some r') := by
  simp only [EngineSystem.setUse, List.getElem?_modify] at hr'
  by_cases heq : index = i
  · subst heq
    rw [hr] at hr'
    simp only [if_true, Option.map_eq_map, Option.map_some] at hr'
    exact .inl ⟨rfl, (Option.some.inj hr').symm⟩
  · simp only [heq, if_false, Option.map_eq_map, Option.map_id'] at hr'
    exact .inr ⟨Ne.symm heq, hr'⟩

/-! ## The invariant -/

structure Owned (config : EngineConfig) (s : EngineSystem) : Prop where
  pristine : ∀ (id : ℕ) (engine : Engine), s.engines[id]? = some engine → engine.closes = 0 →
    engine.password = config.passwordOf engine.policy
  cached : ∀ policy entry, s.entries.lookup policy = some entry → s.Open entry.engine policy true
  holding : ∀ (i : ℕ) (r : EngineRequest) (id : ℕ), s.requests[i]? = some r →
    r.use = .holding id → s.Open id r.policy true
  storing : ∀ (i : ℕ) (r : EngineRequest) (id : ℕ), s.requests[i]? = some r →
    r.use = .storing id → s.Open id r.policy false
  storingAlone : ∀ (i j : ℕ) (r r' : EngineRequest) (id : ℕ), s.requests[i]? = some r →
    s.requests[j]? = some r' → r.use = .storing id → r'.use = .storing id → i = j
  accounted : ∀ (id : ℕ) (engine : Engine), s.engines[id]? = some engine → engine.stored = true →
    engine.closes = 1 ∨ ∃ policy entry, s.entries.lookup policy = some entry ∧ entry.engine = id
  emptied : s.stopped = true ∨ s.started = false → s.entries = ∅
  passwords : ∀ derivation ∈ s.derivations,
    derivation.password = config.passwordOf derivation.policy
  objects : ∀ object ∈ s.objects, decryptFresh config object = some object.plaintext

open AList

namespace Owned

variable {config : EngineConfig} {s s' : EngineSystem}

theorem initial (config : EngineConfig) : Owned config EngineSystem.initial where
  pristine := nofun
  cached := nofun
  holding := nofun
  storing := nofun
  storingAlone := nofun
  accounted := nofun
  emptied _ := rfl
  passwords := nofun
  objects := nofun

section

variable (howned : Owned config s)

include howned

theorem keysIntact : KeysIntact config s where
  passwords := howned.passwords
  objects := howned.objects
  closedOnce := by
    intro hstopped engine hmem hstored
    obtain ⟨id, hid⟩ := List.mem_iff_getElem?.mp hmem
    rcases howned.accounted id engine hid hstored with honce | ⟨policy, entry, hentry, -⟩
    · exact honce
    · rw [howned.emptied (.inl hstopped), lookup_empty] at hentry
      cases hentry

/-- Ownership concerns the engines, the entries and the requests; the clock and the flags
of the sweeper may change, and the histories may grow by what is right. -/
theorem of_same_heap (hengines : s'.engines = s.engines) (hentries : s'.entries = s.entries)
    (hrequests : s'.requests = s.requests)
    (hemptied : s'.stopped = true ∨ s'.started = false → s'.entries = ∅)
    (hpasswords : ∀ derivation ∈ s'.derivations,
      derivation.password = config.passwordOf derivation.policy)
    (hobjects : ∀ object ∈ s'.objects, decryptFresh config object = some object.plaintext) :
    Owned config s' := by
  obtain ⟨now, entries, started, stop, done, stopped, engines, requests, derivations, objects⟩ := s'
  dsimp only at hengines hentries hrequests hemptied hpasswords hobjects
  subst hengines hentries hrequests
  exact ⟨howned.pristine, howned.cached, howned.holding, howned.storing, howned.storingAlone,
    howned.accounted, hemptied, hpasswords, hobjects⟩

theorem setUse (hr : s.requests[index]? = some r) {use : EngineUse}
    (hholding : ∀ id, use = .holding id → s.Open id r.policy true)
    (hstoring : ∀ id, use = .storing id → s.Open id r.policy false ∧
      ∀ (j : ℕ) (r' : EngineRequest), s.requests[j]? = some r' → r'.use ≠ .storing id) :
    Owned config (s.setUse index use) := by
  refine ⟨howned.pristine, howned.cached, ?_, ?_, ?_, howned.accounted, howned.emptied,
    howned.passwords, howned.objects⟩
  · intro i r' id hr' huse
    rcases EngineSystem.getElem?_setUse hr hr' with ⟨-, rfl⟩ | ⟨-, hold⟩
    · exact hholding id huse
    · exact howned.holding i r' id hold huse
  · intro i r' id hr' huse
    rcases EngineSystem.getElem?_setUse hr hr' with ⟨-, rfl⟩ | ⟨-, hold⟩
    · exact (hstoring id huse).1
    · exact howned.storing i r' id hold huse
  · intro i j r₁ r₂ id hr₁ hr₂ huse₁ huse₂
    rcases EngineSystem.getElem?_setUse hr hr₁ with ⟨hi, rfl⟩ | ⟨hi, hold₁⟩ <;>
      rcases EngineSystem.getElem?_setUse hr hr₂ with ⟨hj, rfl⟩ | ⟨hj, hold₂⟩
    · rw [hi, hj]
    · exact absurd huse₂ ((hstoring id huse₁).2 j r₂ hold₂)
    · exact absurd huse₁ ((hstoring id huse₂).2 i r₁ hold₁)
    · exact howned.storingAlone i j r₁ r₂ id hold₁ hold₂ huse₁ huse₂

/-! ### Engines leave the cache -/

/-- Different entries have different engines, since each engine belongs to one policy. -/
theorem nodup_engines : (s.entries.entries.map fun entry => entry.2.engine).Nodup := by
  have hpolicies : (s.entries.entries.map fun entry => entry.2.engine).map
      (fun id => (s.engines[id]?).map Engine.policy) = s.entries.keys.map some := by
    rw [List.map_map, keys, List.keys, List.map_map]
    apply List.map_congr_left
    rintro ⟨policy, entry⟩ hmem
    obtain ⟨engine, hengine, hpolicy, -⟩ := howned.cached policy entry (mem_lookup_iff.mpr hmem)
    simp only [Function.comp_apply, hengine, Option.map_some, hpolicy]
  apply List.Nodup.of_map
  rw [hpolicies]
  exact s.entries.nodupKeys.map (Option.some_injective _)

/-- **The heap changes** at engines that no request holds or has yet to store. -/
theorem of_changed (changed : ℕ → Prop)
    (hkept : ∀ id, ¬changed id → s'.engines[id]? = s.engines[id]?)
    (hunused : ∀ (i : ℕ) (r : EngineRequest) (id : ℕ), s.requests[i]? = some r →
      r.use = .holding id ∨ r.use = .storing id → ¬changed id)
    (hchanged : ∀ (id : ℕ) (engine : Engine), changed id → s'.engines[id]? = some engine →
      (engine.closes = 0 → engine.password = config.passwordOf engine.policy) ∧
      (engine.stored = true → engine.closes = 1 ∨
        ∃ policy entry, s'.entries.lookup policy = some entry ∧ entry.engine = id))
    (hcached : ∀ policy entry, s'.entries.lookup policy = some entry →
      s.entries.lookup policy = some entry ∧ ¬changed entry.engine ∨
        s'.Open entry.engine policy true)
    (hremain : ∀ policy entry, s.entries.lookup policy = some entry → ¬changed entry.engine →
      s'.entries.lookup policy = some entry) (hrequests : s'.requests = s.requests)
    (hemptied : s'.stopped = true ∨ s'.started = false → s'.entries = ∅)
    (hderivations : s'.derivations = s.derivations) (hobjects : s'.objects = s.objects) :
    Owned config s' := by
  have hopen : ∀ id policy stored, ¬changed id → s.Open id policy stored →
      s'.Open id policy stored := by
    rintro id policy stored hnot ⟨engine, hengine, hopen⟩
    exact ⟨engine, (hkept id hnot).trans hengine, hopen⟩
  refine ⟨?_, ?_, ?_, ?_, hrequests ▸ howned.storingAlone, ?_, hemptied,
    hderivations ▸ howned.passwords, hobjects ▸ howned.objects⟩
  · intro id engine hengine
    by_cases hid : changed id
    · exact (hchanged id engine hid hengine).1
    · exact howned.pristine id engine (hkept id hid ▸ hengine)
  · intro policy entry hentry
    rcases hcached policy entry hentry with ⟨hold, hnot⟩ | hnew
    · exact hopen _ _ _ hnot (howned.cached policy entry hold)
    · exact hnew
  · intro i r id hr huse
    rw [hrequests] at hr
    exact hopen _ _ _ (hunused i r id hr (.inl huse)) (howned.holding i r id hr huse)
  · intro i r id hr huse
    rw [hrequests] at hr
    exact hopen _ _ _ (hunused i r id hr (.inr huse)) (howned.storing i r id hr huse)
  · intro id engine hengine hmarked
    by_cases hid : changed id
    · exact (hchanged id engine hid hengine).2 hmarked
    · refine (howned.accounted id engine (hkept id hid ▸ hengine) hmarked).imp_right ?_
      rintro ⟨policy, entry, hentry, rfl⟩
      exact ⟨policy, entry, hremain policy entry hentry hid, rfl⟩

/-- Cached engines that no request holds are closed and leave the cache. -/
theorem evict {ids : List ℕ} (hnodup : ids.Nodup)
    (hids : ∀ id ∈ ids, ∃ policy entry, s.entries.lookup policy = some entry ∧ entry.engine = id)
    (hunheld : ∀ id ∈ ids, s.held id = false) (hengines : s'.engines = closeAll ids s.engines)
    (hentries : ∀ policy entry, s'.entries.lookup policy = some entry ↔
      s.entries.lookup policy = some entry ∧ entry.engine ∉ ids)
    (hrequests : s'.requests = s.requests)
    (hemptied : s'.stopped = true ∨ s'.started = false → s'.entries = ∅)
    (hderivations : s'.derivations = s.derivations) (hobjects : s'.objects = s.objects) :
    Owned config s' := by
  have hlookup : ∀ id : ℕ, s'.engines[id]? =
      if id ∈ ids then s.engines[id]?.map Engine.close else s.engines[id]? :=
    fun id => hengines ▸ getElem?_closeAll hnodup s.engines id
  have hstored : ∀ id ∈ ids, ∃ policy, s.Open id policy true := by
    intro id hid
    obtain ⟨policy, entry, hentry, rfl⟩ := hids id hid
    exact ⟨policy, howned.cached policy entry hentry⟩
  refine howned.of_changed (· ∈ ids) (fun id hnot => (hlookup id).trans (if_neg hnot))
    ?_ ?_ (fun policy entry hentry => .inl ((hentries policy entry).mp hentry))
    (fun policy entry hentry hnot => (hentries policy entry).mpr ⟨hentry, hnot⟩) hrequests hemptied
    hderivations hobjects
  · rintro i r id hr (huse | huse) hid
    · have hheld : s.held id = true := by
        apply List.any_eq_true.mpr
        exact ⟨r, List.mem_of_getElem? hr, decide_eq_true huse⟩
      exact absurd ((hunheld id hid).symm.trans hheld) nofun
    · obtain ⟨policy, hopen⟩ := hstored id hid
      exact hopen.stored_ne (howned.storing i r id hr huse) rfl
  · intro id engine hid hengine
    obtain ⟨policy, engine', hengine', -, hzero, -⟩ := hstored id hid
    rw [hlookup, if_pos hid, hengine'] at hengine
    cases hengine
    exact ⟨fun hopen => absurd hopen (Nat.succ_ne_zero _), fun _ => .inl (congrArg (· + 1) hzero)⟩

theorem policy_eq_of_engine_eq {policy' : Str} {entry entry' : CacheEntry}
    (hentry : s.entries.lookup policy = some entry)
    (hentry' : s.entries.lookup policy' = some entry') (heq : entry.engine = entry'.engine) :
    policy = policy' := by
  obtain ⟨engine, hengine, rfl, -⟩ := howned.cached policy entry hentry
  obtain ⟨engine', hengine', rfl, -⟩ := howned.cached policy' entry' hentry'
  rw [← heq, hengine] at hengine'
  rw [Option.some.inj hengine']

theorem getExpired
    (hunheld : ∀ entry, s.entries.lookup policy = some entry → entry.expiresAt < s.now →
      s.held entry.engine = false) : Owned config (s.getExpired policy) := by
  unfold EngineSystem.getExpired
  rcases hentry : s.entries.lookup policy with - | entry
  · exact howned
  dsimp only
  split_ifs with hexpired
  · refine howned.evict (List.nodup_singleton entry.engine) ?_ ?_ rfl ?_ rfl ?_ rfl rfl
    · intro id hid
      exact ⟨policy, entry, hentry, (List.mem_singleton.mp hid).symm⟩
    · intro id hid
      rw [List.mem_singleton.mp hid]
      exact hunheld entry hentry hexpired
    · intro policy' entry'
      by_cases hpolicy : policy' = policy
      · subst hpolicy
        simp [lookup_erase, hentry]
        intro heq
        rw [heq]
      · rw [lookup_erase_ne hpolicy, List.mem_singleton]
        constructor
        · intro hentry'
          exact ⟨hentry', fun heq => hpolicy (howned.policy_eq_of_engine_eq hentry' hentry heq)⟩
        · exact And.left
    · intro hstopped
      rw [howned.emptied hstopped, lookup_empty] at hentry
      cases hentry
  · exact howned

theorem sweep (hunheld : ∀ entry ∈ s.entries.expired s.now, s.held entry.2.engine = false) :
    Owned config s.sweep := by
  have hmem : ∀ entry ∈ s.entries.expired s.now,
      s.entries.lookup entry.1 = some entry.2 ∧ entry.2.expiresAt < s.now := by
    intro entry hentry
    obtain ⟨hentry, hexpired⟩ := List.mem_filter.mp hentry
    exact ⟨mem_lookup_iff.mpr hentry, of_decide_eq_true hexpired⟩
  refine howned.evict ?_ ?_ ?_ rfl ?_ rfl ?_ rfl rfl
  · exact howned.nodup_engines.sublist (List.filter_sublist.map _)
  · intro id hid
    obtain ⟨entry, hentry, rfl⟩ := List.mem_map.mp hid
    exact ⟨entry.1, entry.2, (hmem entry hentry).1, rfl⟩
  · intro id hid
    obtain ⟨entry, hentry, rfl⟩ := List.mem_map.mp hid
    exact hunheld entry hentry
  · intro policy entry
    have hkept : s.sweep.entries.lookup policy = some entry ↔
        s.entries.lookup policy = some entry ∧ ¬entry.expiresAt < s.now := by
      rw [← Option.mem_def, ← Option.mem_def, mem_lookup_iff, mem_lookup_iff]
      simp [EngineSystem.sweep, CacheEntries.unexpired]
    rw [hkept]
    apply and_congr_right
    intro hentry
    rw [not_iff_not]
    constructor
    · intro hexpired
      apply List.mem_map.mpr
      refine ⟨⟨policy, entry⟩, List.mem_filter.mpr ⟨mem_lookup_iff.mp hentry, ?_⟩, rfl⟩
      exact decide_eq_true hexpired
    · intro hid
      obtain ⟨⟨policy', entry'⟩, hentry', heq⟩ := List.mem_map.mp hid
      obtain ⟨hlookup, hexpired⟩ := hmem _ hentry'
      obtain rfl := howned.policy_eq_of_engine_eq hlookup hentry heq
      rw [hentry] at hlookup
      rwa [Option.some.inj hlookup]
  · intro hstopped
    have hempty : s.entries = ∅ := howned.emptied hstopped
    simp only [EngineSystem.sweep, hempty]
    rfl

theorem closeRemaining (hunheld : ∀ entry ∈ s.entries.entries, s.held entry.2.engine = false) :
    Owned config s.closeRemaining := by
  refine howned.evict howned.nodup_engines ?_ ?_ rfl ?_ rfl (fun _ => rfl) rfl rfl
  · intro id hid
    obtain ⟨entry, hentry, rfl⟩ := List.mem_map.mp hid
    exact ⟨entry.1, entry.2, mem_lookup_iff.mpr hentry, rfl⟩
  · intro id hid
    obtain ⟨entry, hentry, rfl⟩ := List.mem_map.mp hid
    exact hunheld entry hentry
  · intro policy entry
    constructor
    · intro hentry
      cases hentry
    · rintro ⟨hentry, hnot⟩
      exact absurd (List.mem_map.mpr ⟨_, mem_lookup_iff.mp hentry, rfl⟩) hnot

/-! ### New engines -/

theorem build (policy : Str) : Owned config (s.build config policy) := by
  have hinside : ∀ {id : ℕ} {policy : Str} {stored : Bool}, s.Open id policy stored →
      id ≠ s.engines.length := by
    rintro id policy stored ⟨engine, hengine, -⟩
    exact (List.getElem?_eq_some_iff.mp hengine).1.ne
  refine howned.of_changed (· = s.engines.length) ?_ ?_ ?_ ?_
    (fun _ _ hentry _ => hentry) rfl howned.emptied rfl rfl
  · intro id hne
    rw [EngineSystem.build, List.getElem?_append]
    split
    · rfl
    · rw [List.getElem?_eq_none (by simp; omega), List.getElem?_eq_none (by omega)]
  · rintro i r id hr (huse | huse)
    · exact hinside (howned.holding i r id hr huse)
    · exact hinside (howned.storing i r id hr huse)
  · rintro id engine rfl hengine
    rw [EngineSystem.build, List.getElem?_append_right le_rfl, Nat.sub_self] at hengine
    cases hengine
    exact ⟨fun _ => rfl, nofun⟩
  · intro policy' entry hentry
    exact .inl ⟨hentry, hinside (howned.cached policy' entry hentry)⟩

end

/-- The engine was never stored, and no request has yet to store it. -/
structure Orphan (s : EngineSystem) (id : ℕ) (policy : Str) : Prop where
  built : s.Open id policy false
  unclaimed : ∀ (i : ℕ) (r : EngineRequest), s.requests[i]? = some r → r.use ≠ .storing id

section

variable (howned : Owned config s)

include howned

theorem changeOrphan (horphan : Orphan s id policy) {change : Engine → Engine}
    (hengines : s'.engines = s.engines.modify id change)
    (hchanged : ∀ engine, s.engines[id]? = some engine → engine.closes = 0 →
      ((change engine).closes = 0 →
        (change engine).password = config.passwordOf (change engine).policy) ∧
      ((change engine).closes = 1 ∨
        ∃ policy entry, s'.entries.lookup policy = some entry ∧ entry.engine = id))
    (hentries : ∀ policy entry, s.entries.lookup policy = some entry →
      s'.entries.lookup policy = some entry)
    (hnew : ∀ policy entry, s'.entries.lookup policy = some entry →
      s.entries.lookup policy = some entry ∨ s'.Open entry.engine policy true)
    (hrequests : s'.requests = s.requests)
    (hemptied : s'.stopped = true ∨ s'.started = false → s'.entries = ∅)
    (hderivations : s'.derivations = s.derivations) (hobjects : s'.objects = s.objects) :
    Owned config s' := by
  have hother : ∀ {id' policy'}, s.Open id' policy' true → id' ≠ id := by
    rintro id' policy' hopen rfl
    exact hopen.stored_ne horphan.built rfl
  refine howned.of_changed (· = id) ?_ ?_ ?_ ?_
    (fun policy' entry hentry _ => hentries policy' entry hentry) hrequests hemptied hderivations
    hobjects
  · intro id' hne
    simp [hengines, List.getElem?_modify, Ne.symm hne]
  · rintro i r id' hr (huse | huse)
    · exact hother (howned.holding i r id' hr huse)
    · rintro rfl
      exact horphan.unclaimed i r hr huse
  · rintro id' engine rfl hengine
    obtain ⟨built, hbuilt, -, hzero, -⟩ := horphan.built
    simp only [hengines, List.getElem?_modify, if_true, hbuilt] at hengine
    cases hengine
    exact ⟨(hchanged built hbuilt hzero).1, fun _ => (hchanged built hbuilt hzero).2⟩
  · intro policy' entry hentry
    refine (hnew policy' entry hentry).imp_left fun hold => ⟨hold, ?_⟩
    exact hother (howned.cached policy' entry hold)

theorem storeOrphan (horphan : Orphan s id policy) (hentry : s.entries.lookup policy = none)
    (hstopped : s.stopped = false) :
    Owned config ((s.markStored id).storeNew config policy id) ∧
      ((s.markStored id).storeNew config policy id).Open id policy true := by
  obtain ⟨engine, hengine, hpolicy, hzero, -⟩ := horphan.built
  have hcached : ((s.markStored id).storeNew config policy id).Open id policy true := by
    refine ⟨{ engine with stored := true }, ?_, hpolicy, hzero, rfl⟩
    simp [EngineSystem.storeNew, EngineSystem.markStored, hengine]
  refine ⟨howned.changeOrphan horphan rfl ?_ ?_ ?_ rfl ?_ rfl rfl, hcached⟩
  · intro engine' hengine' hzero'
    exact ⟨fun _ => howned.pristine id engine' hengine' hzero',
      .inr ⟨policy, _, lookup_insert _, rfl⟩⟩
  · intro policy' entry hold
    have hne : policy' ≠ policy := by
      rintro rfl
      exact absurd (hentry.symm.trans hold) nofun
    exact (lookup_insert_ne hne).trans hold
  · intro policy' entry hlookup
    by_cases hne : policy' = policy
    · subst hne
      have hinsert := (lookup_insert _).symm.trans hlookup
      rw [← Option.some.inj hinsert]
      exact .inr hcached
    · exact .inl ((lookup_insert_ne hne).symm.trans hlookup)
  · rintro (htrue | hfalse)
    · exact absurd (hstopped.symm.trans htrue) nofun
    · cases hfalse

theorem closeOrphan (horphan : Orphan s id policy) :
    Owned config { s.markStored id with
      started := true
      engines := closeAll [id] (s.markStored id).engines } := by
  have hengines : closeAll [id] (s.markStored id).engines =
      s.engines.modify id fun engine => { engine with stored := true }.close := by
    apply List.ext_getElem?
    intro i
    simp only [EngineSystem.markStored, closeAll, List.foldl_cons, List.foldl_nil,
      List.getElem?_modify]
    by_cases heq : id = i <;> simp [heq, Function.comp_def]
  refine howned.changeOrphan horphan hengines ?_ (fun _ _ hold => hold)
    (fun _ _ hold => .inl hold) rfl ?_ rfl rfl
  · intro engine hengine hzero
    exact ⟨fun hopen => absurd hopen (Nat.succ_ne_zero _), .inl (congrArg (· + 1) hzero)⟩
  · rintro (hstopped | hfalse)
    · exact howned.emptied (.inl hstopped)
    · cases hfalse

theorem store (hr : s.requests[index]? = some r) (huse : r.use = .storing id)
    (hstopped : s.stopped = false)
    (hfresh : ∀ entry, s.entries.lookup r.policy = some entry → s.now < entry.expiresAt) :
    Owned config (((s.markStored id).getOrStore config r.policy id).1.setUse index
      (.holding ((s.markStored id).getOrStore config r.policy id).2)) := by
  -- while it is being stored, the engine is the request's no more
  have hhandedOver : Owned config (s.setUse index .fetching) := howned.setUse hr nofun nofun
  have horphan : Orphan (s.setUse index .fetching) id r.policy := by
    refine ⟨howned.storing index r id hr huse, ?_⟩
    intro i r' hr' huse'
    rcases EngineSystem.getElem?_setUse hr hr' with ⟨-, rfl⟩ | ⟨hne, hold⟩
    · cases huse'
    · exact hne (howned.storingAlone i index r' r id hold hr huse' huse)
  have hindex : (s.setUse index .fetching).requests[index]? =
      some { r with use := .fetching } := by
    simp [EngineSystem.setUse, hr]
  have hresume : ∀ {stored : EngineSystem} {returned : ℕ},
      Owned config (stored.setUse index .fetching) →
      (stored.setUse index .fetching).requests[index]? = some { r with use := .fetching } →
      (stored.setUse index .fetching).Open returned r.policy true →
      Owned config (stored.setUse index (.holding returned)) := by
    intro stored returned hstored hrequest hreturned
    rw [← EngineSystem.setUse_setUse stored index .fetching]
    refine hstored.setUse hrequest ?_ nofun
    rintro _ ⟨⟩
    exact hreturned
  rcases hentry : s.entries.lookup r.policy with - | old
  · have hstored : (s.markStored id).getOrStore config r.policy id =
        ((s.markStored id).storeNew config r.policy id, id) := by
      simp [EngineSystem.getOrStore, EngineSystem.markStored, hentry]
    obtain ⟨hnew, hcached⟩ := hhandedOver.storeOrphan horphan hentry hstopped
    rw [hstored]
    exact hresume hnew hindex hcached
  · have hstored : (s.markStored id).getOrStore config r.policy id =
        ({ s.markStored id with
            started := true
            engines := closeAll [id] (s.markStored id).engines }, old.engine) := by
      simp [EngineSystem.getOrStore, EngineSystem.markStored, hentry, hfresh old hentry]
    have hclosed := hhandedOver.closeOrphan horphan
    rw [hstored]
    exact hresume hclosed hindex (hclosed.cached r.policy old hentry)

/-! ### Keys -/

variable {engine : Engine}

/-- A request that holds an engine finds the password of its policy there. -/
theorem password_of_heldBy (hr : s.requests[index]? = some r) (hheld : s.heldBy r = some engine) :
    engine.policy = r.policy ∧ engine.password = config.passwordOf r.policy := by
  unfold EngineSystem.heldBy at hheld
  split at hheld
  · rename_i id huse
    obtain ⟨engine', hengine', hpolicy, hzero, -⟩ := howned.holding index r id hr huse
    rw [hheld] at hengine'
    cases hengine'
    exact ⟨hpolicy, hpolicy ▸ howned.pristine id engine hheld hzero⟩
  · cases hheld

theorem derive (hr : s.requests[index]? = some r) (hheld : s.heldBy r = some engine) :
    Owned config (s.derive engine) := by
  obtain ⟨hpolicy, hpassword⟩ := howned.password_of_heldBy hr hheld
  refine howned.of_same_heap rfl rfl rfl howned.emptied ?_ howned.objects
  intro derivation hmem
  rcases List.mem_cons.mp hmem with rfl | hold
  · rw [hpassword, hpolicy]
  · exact howned.passwords derivation hold

theorem encrypt (hr : s.requests[index]? = some r) (hheld : s.heldBy r = some engine) (salt : Bytes)
    (params : KdfParams) (plaintext : Bytes) :
    Owned config (s.encrypt config r.policy engine salt params plaintext) := by
  have hderived := howned.derive hr hheld
  obtain ⟨-, hpassword⟩ := howned.password_of_heldBy hr hheld
  unfold EngineSystem.encrypt
  split
  · exact hderived
  rename_i key hkey
  refine hderived.of_same_heap rfl rfl rfl howned.emptied hderived.passwords ?_
  intro object hmem
  rcases List.mem_cons.mp hmem with rfl | hold
  · rw [hpassword] at hkey
    simp only [decryptFresh, hkey]
    exact config.cipher.decrypt_encrypt key plaintext
  · exact howned.objects object hold

/-! ### Steps and runs -/

theorem fetch (hr : s.requests[index]? = some r)
    (hrespected : s.ownersRespected (.fetch index) = true)
    (hstep : s.fetch config index r = some s') : Owned config s' := by
  simp only [EngineSystem.ownersRespected, hr, Option.all_some] at hrespected
  unfold EngineSystem.fetch at hstep
  split at hstep
  -- the first section of Get
  · cases hstep
    unfold EngineSystem.get
    split
    · exact howned.setUse hr nofun nofun
    rename_i entry hentry
    split
    · refine howned.setUse hr ?_ nofun
      rintro _ ⟨⟩
      exact howned.cached r.policy entry hentry
    · exact howned.setUse hr nofun nofun
  -- the second section of Get
  · rename_i huse
    cases hstep
    have hunheld : ∀ entry, s.entries.lookup r.policy = some entry → entry.expiresAt < s.now →
        s.held entry.engine = false := by
      intro entry hentry hexpired
      simpa [huse, hentry, hexpired] using hrespected
    have hrequests : (s.getExpired r.policy).requests = s.requests := by
      unfold EngineSystem.getExpired
      split
      · rfl
      · split <;> rfl
    exact (howned.getExpired hunheld).setUse (hrequests ▸ hr) nofun nofun
  -- a new engine
  · cases hstep
    refine (howned.build r.policy).setUse hr nofun ?_
    rintro _ ⟨⟩
    refine ⟨⟨⟨r.policy, config.passwordOf r.policy, 0, false⟩, ?_, rfl, rfl, rfl⟩, ?_⟩
    · simp [EngineSystem.build]
    · intro j r' hr' huse'
      obtain ⟨engine, hengine, -⟩ := howned.storing j r' _ hr' huse'
      exact absurd (List.getElem?_eq_some_iff.mp hengine).1 (Nat.lt_irrefl _)
  -- GetOrStore
  · rename_i id huse
    cases hstep
    simp only [huse, Bool.and_eq_true, Bool.not_eq_true'] at hrespected
    apply howned.store hr huse hrespected.1
    intro entry hentry
    simpa [hentry] using hrespected.2
  · cases hstep
  · cases hstep

theorem step {action : EngineAction} (hrespected : s.ownersRespected action = true)
    (hstep : s.step config action = some s') : Owned config s' := by
  cases action with
  | advance time =>
    cases hstep
    exact howned.of_same_heap rfl rfl rfl howned.emptied howned.passwords howned.objects
  | arrive policy =>
    cases hstep
    have hcases : ∀ (i : ℕ) (r : EngineRequest),
        (s.requests ++ [⟨policy, .fetching⟩])[i]? = some r → r.use ≠ .fetching →
        s.requests[i]? = some r := by
      intro i r hr huse
      rw [List.getElem?_append] at hr
      split at hr
      · exact hr
      · exact absurd (List.mem_singleton.mp (List.mem_of_getElem? hr) ▸ rfl) huse
    refine ⟨howned.pristine, howned.cached, ?_, ?_, ?_, howned.accounted, howned.emptied,
      howned.passwords, howned.objects⟩
    · intro i r id hr huse
      exact howned.holding i r id (hcases i r hr (huse ▸ nofun)) huse
    · intro i r id hr huse
      exact howned.storing i r id (hcases i r hr (huse ▸ nofun)) huse
    · intro i j r r' id hr hr' huse huse'
      exact howned.storingAlone i j r r' id (hcases i r hr (huse ▸ nofun))
        (hcases j r' hr' (huse' ▸ nofun)) huse huse'
  | fetch index =>
    obtain ⟨r, hr, hfetch⟩ := Option.bind_eq_some_iff.mp hstep
    exact howned.fetch hr hrespected hfetch
  | buildFails index =>
    obtain ⟨r, hr, hfails⟩ := Option.bind_eq_some_iff.mp hstep
    split at hfails <;> cases hfails
    exact howned.setUse hr nofun nofun
  | encrypt index salt params plaintext =>
    obtain ⟨r, hr, hrest⟩ := Option.bind_eq_some_iff.mp hstep
    obtain ⟨engine, hheld, hdone⟩ := Option.bind_eq_some_iff.mp hrest
    cases hdone
    exact howned.encrypt hr hheld salt params plaintext
  | decrypt index =>
    obtain ⟨r, hr, hrest⟩ := Option.bind_eq_some_iff.mp hstep
    obtain ⟨engine, hheld, hdone⟩ := Option.bind_eq_some_iff.mp hrest
    cases hdone
    exact howned.derive hr hheld
  | finish index =>
    obtain ⟨r, hr, hrest⟩ := Option.bind_eq_some_iff.mp hstep
    obtain ⟨engine, -, hdone⟩ := Option.bind_eq_some_iff.mp hrest
    cases hdone
    exact howned.setUse hr nofun nofun
  | sweep =>
    simp only [EngineSystem.step] at hstep
    split at hstep <;> cases hstep
    apply howned.sweep
    simpa [EngineSystem.ownersRespected] using hrespected
  | sweeperReturns =>
    simp only [EngineSystem.step] at hstep
    split at hstep <;> cases hstep
    exact howned.of_same_heap rfl rfl rfl howned.emptied howned.passwords howned.objects
  | stop =>
    simp only [EngineSystem.step] at hstep
    split at hstep
    · rename_i hstarted
      cases hstep
      refine howned.of_same_heap rfl rfl rfl ?_ howned.passwords howned.objects
      intro _
      exact howned.emptied (.inr (by simpa using hstarted))
    · split at hstep <;> cases hstep
      exact howned.of_same_heap rfl rfl rfl howned.emptied howned.passwords howned.objects
  | stopReturns =>
    simp only [EngineSystem.step] at hstep
    split at hstep <;> cases hstep
    apply howned.closeRemaining
    simpa [EngineSystem.ownersRespected] using hrespected

end

end Owned

/-- **In every run in which no engine is closed while held, no expired entry is overwritten
and nothing is stored after `Stop`, the keys are intact.** -/
theorem keysIntact_of_ownersRespected (config : EngineConfig) {actions : List EngineAction}
    {s : EngineSystem}
    (hmeets : Meets (EngineSystem.step config)
      (fun s action => s.ownersRespected action = true) EngineSystem.initial actions)
    (hrun : run (EngineSystem.step config) EngineSystem.initial actions = some s) :
    KeysIntact config s := by
  have howned : Owned config s := by
    refine run_invariant (EngineSystem.step config) ?_ (Owned.initial config) hmeets hrun
    intro s action s' howned hrespected hstep
    exact howned.step hrespected hstep
  exact howned.keysIntact

/-! ## Three runs -/

/-- A cipher that shows its key. -/
def plainCipher : Cipher where
  encrypt key plaintext := key ++ plaintext
  decrypt key ciphertext :=
    if key <+: ciphertext then some (ciphertext.drop key.length) else none
  decrypt_encrypt := by
    intro key plaintext
    rw [if_pos (List.prefix_append key plaintext), List.drop_left]

def sampleConfig : EngineConfig where
  ttl := 10
  passwordOf _ := [7]
  limits := defaultKdfLimits
  kdf := ⟨fun password _ _ _ => .ok password, fun password _ _ _ _ _ => password⟩
  cipher := plainCipher

def sampleEncrypt (request : ℕ) : EngineAction :=
  .encrypt request (List.replicate 32 0) (defaultKdfParams defaultPbkdf2Iterations) [1, 2, 3]

/-- Two requests share an engine; after its time a third gets a new one, and all stops. -/
def politeRun : List EngineAction :=
  [.arrive ['p'], .fetch 0, .fetch 0, .fetch 0, .arrive ['p'], .fetch 1, sampleEncrypt 0,
    .finish 0, sampleEncrypt 1, .finish 1, .advance 11, .sweep, .arrive ['p'], .fetch 2, .fetch 2,
    .fetch 2, sampleEncrypt 2, .finish 2, .stop, .sweeperReturns, .stopReturns]

theorem keysIntact_politeRun :
    ∃ s, run (EngineSystem.step sampleConfig) EngineSystem.initial politeRun = some s ∧
      KeysIntact sampleConfig s ∧ s.objects.length = 3 ∧ s.stopped = true := by
  have hend : (run (EngineSystem.step sampleConfig) EngineSystem.initial politeRun).map
      (fun s => (s.objects.length, s.stopped)) = some (3, true) := by
    decide
  obtain ⟨s, hrun, hobserved⟩ := Option.map_eq_some_iff.mp hend
  refine ⟨s, hrun, keysIntact_of_ownersRespected sampleConfig ?_ hrun, ?_, ?_⟩
  · decide
  · exact congrArg Prod.fst hobserved
  · exact congrArg Prod.snd hobserved

/-- A request holds its engine until after the entry's time, and the sweep comes first. -/
def sweptRun : List EngineAction :=
  [.arrive ['p'], .fetch 0, .fetch 0, .fetch 0, .advance 11, .sweep, sampleEncrypt 0]

/-- A second request comes at the very end of the first engine's time: its entry is not
yet to be removed, but it is overwritten. -/
def overwrittenRun : List EngineAction :=
  [.arrive ['p'], .fetch 0, .fetch 0, .fetch 0, .finish 0, .advance 10, .arrive ['p'], .fetch 1,
    .fetch 1, .fetch 1, .fetch 1, .finish 1, .stop, .sweeperReturns, .stopReturns]

/-- In the first run the request derives a key from zeros, and the object it encrypts
cannot be decrypted by a new engine of its policy.  In the second an engine is never
closed. -/
theorem not_keysIntact_sweptRun :
    (∃ s, run (EngineSystem.step sampleConfig) EngineSystem.initial sweptRun = some s ∧
      s.derivations = [⟨['p'], [0]⟩] ∧
      (∃ object ∈ s.objects, decryptFresh sampleConfig object = none) ∧
      ¬KeysIntact sampleConfig s) ∧
    (∃ s, run (EngineSystem.step sampleConfig) EngineSystem.initial overwrittenRun = some s ∧
      s.stopped = true ∧ (∃ engine ∈ s.engines, engine.stored = true ∧ engine.closes = 0) ∧
      ¬KeysIntact sampleConfig s) := by
  constructor
  · have hend : (run (EngineSystem.step sampleConfig) EngineSystem.initial sweptRun).map
        (fun s => (s.derivations, s.objects.map (decryptFresh sampleConfig))) =
          some ([⟨['p'], [0]⟩], [none]) := by
      decide
    obtain ⟨s, hrun, hobserved⟩ := Option.map_eq_some_iff.mp hend
    have hderivations : s.derivations = [⟨['p'], [0]⟩] := congrArg Prod.fst hobserved
    have hobjects : s.objects.map (decryptFresh sampleConfig) = [none] :=
      congrArg Prod.snd hobserved
    refine ⟨s, hrun, hderivations, ?_, ?_⟩
    · apply List.mem_map.mp
      rw [hobjects]
      exact List.mem_singleton.mpr rfl
    · intro hintact
      have hpassword := hintact.passwords ⟨['p'], [0]⟩ (hderivations ▸ List.mem_singleton.mpr rfl)
      exact absurd hpassword (by decide)
  · have hend : (run (EngineSystem.step sampleConfig) EngineSystem.initial overwrittenRun).map
        (fun s => (s.stopped, s.engines.any fun engine => engine.stored && engine.closes = 0)) =
          some (true, true) := by
      decide
    obtain ⟨s, hrun, hobserved⟩ := Option.map_eq_some_iff.mp hend
    have hstopped : s.stopped = true := congrArg Prod.fst hobserved
    have hleaked : ∃ engine ∈ s.engines, engine.stored = true ∧ engine.closes = 0 := by
      simpa using congrArg Prod.snd hobserved
    refine ⟨s, hrun, hstopped, hleaked, ?_⟩
    intro hintact
    obtain ⟨engine, hmem, hstored, hzero⟩ := hleaked
    rw [hintact.closedOnce hstopped engine hmem hstored] at hzero
    exact absurd hzero (by decide)

end S3EncryptionGateway.Api
