import FleetServer.Fleet.EnrollFlow

/-!
# FleetServer.Fleet.KeyCache

The enrollment keys in the cache over a whole run: `fetchEnrollmentKeyRecord` called again and
again, at a clock that moves forward, for any ids, against a store whose records change
arbitrarily between calls (each call's store answer is free), while the cache may drop any
entry at any time. Only `fetchEnrollmentKeyRecord` writes enrollment keys to the cache.

`KeySys` carries, besides the cache and the clock, what the store and the function returned so
far, read off the calls each step made; they are there for the statement only.

* `KeySys.run_inv`: every cached record is active and is a record the store returned for its
  id, expiring `kCacheEnrollmentTTL` after that; every record returned is active and is a
  record the store returned for that id at most `kCacheEnrollmentTTL` before the call.
* `inactive_keys_never_used`: so no record the function returns is inactive, and an enrollment
  creates an agent only for the policy of the active record its resolution returned.
* `enrollment_ordered_and_failure_safe`: so on every cache a run reaches, an enrollment's
  calls are ordered and failure-safe (`OrderedAndFailureSafe`), the key minted only after an
  active record.
-/

namespace FleetServer
namespace Fleet

/-- The outcomes one call of `fetchEnrollmentKeyRecord` reads: the store's answer and the clock.
The other collaborators do not matter to it. -/
def Env.ofFetch (find : Except StoreError EnrollmentApiKey) (now : Nat) : Env :=
  { acquire := .ok (), authApiKey := .error "", validateUserAgent := .ok (),
    findEnrollmentApiKey := find, body := none, newV4 := .error "",
    createApiKey := .error "", createAgent := .ok (), now := now }

/-- The records the store returned in the calls, at time `now`. -/
def storeReads (now : Nat) : List Call → List (Nat × String × EnrollmentApiKey)
  | [] => []
  | .findEnrollmentApiKey id (some r) :: calls => (now, id, r) :: storeReads now calls
  | _ :: calls => storeReads now calls

/-- The cache and the clock, with what the store and `fetchEnrollmentKeyRecord` returned so
far, each with the time and the id. -/
structure KeySys where
  cache : Cache
  clock : Nat
  reads : List (Nat × String × EnrollmentApiKey)
  returned : List (Nat × String × EnrollmentApiKey)

/-- An empty cache at time `0`. -/
def KeySys.init : KeySys := ⟨[], 0, [], []⟩

/-- A step of the run. -/
inductive KeyStep where
  /-- `fetchEnrollmentKeyRecord(ctx, id)`, `dt` seconds after the previous step; on a miss the
  store answers `find`. -/
  | fetch (dt : Nat) (id : String) (find : Except StoreError EnrollmentApiKey)
  /-- The cache drops the entry of `id`: an eviction, an expiry, or a set it did not admit. -/
  | evict (id : String)

/-- One step. -/
def KeySys.step (S : KeySys) : KeyStep → KeySys
  | .fetch dt id find =>
    let now := S.clock + dt
    let s := fetchEnrollmentKeyRecord (Env.ofFetch find now) S.cache id
    { cache := S.cache.apply now s.calls, clock := now,
      reads := S.reads ++ storeReads now s.calls,
      returned := S.returned ++ (s.result.toOption.map fun r => (now, id, r)).toList }
  | .evict id => { S with cache := S.cache.filter (·.1 ≠ id) }

/-- The steps one after another. -/
def KeySys.run (S : KeySys) (steps : List KeyStep) : KeySys := steps.foldl KeySys.step S

/-- Every cached record is active, a record the store returned for its id no later than the
clock, expiring `kCacheEnrollmentTTL` after that; every record returned is active, a record the
store returned for that id at most `kCacheEnrollmentTTL` before. -/
structure KeySys.Inv (S : KeySys) : Prop where
  cached : ∀ id r expires, (id, r, expires) ∈ S.cache → r.active = true ∧
    ∃ t, (t, id, r) ∈ S.reads ∧ expires = t + kCacheEnrollmentTTL ∧ t ≤ S.clock
  returned : ∀ now id r, (now, id, r) ∈ S.returned → r.active = true ∧
    ∃ t, (t, id, r) ∈ S.reads ∧ t ≤ now ∧ now ≤ t + kCacheEnrollmentTTL

theorem KeySys.init_inv : KeySys.init.Inv :=
  ⟨fun _ _ _ h => (nomatch h), fun _ _ _ h => (nomatch h)⟩

theorem mem_of_getEnrollmentApiKey {c : Cache} {id : String} {now : Nat} {r : EnrollmentApiKey}
    (h : c.getEnrollmentApiKey id now = some r) :
    ∃ expires, (id, r, expires) ∈ c ∧ now ≤ expires := by
  unfold Cache.getEnrollmentApiKey at h
  split at h
  · rename_i expires hl
    split at h
    · cases h
      obtain ⟨l₁, l₂, hc, -⟩ := List.lookup_eq_some_iff.1 hl
      exact ⟨expires, hc ▸ List.mem_append_right _ (List.mem_cons_self _ _), ‹_›⟩
    · cases h
  · cases h

theorem mem_setEnrollmentApiKey {c : Cache} {id id' : String} {r r' : EnrollmentApiKey}
    {ttl now expires : Nat} (h : (id', r', expires) ∈ c.setEnrollmentApiKey id r ttl now) :
    (id', r', expires) = (id, r, now + ttl) ∨ (id', r', expires) ∈ c := by
  rcases List.mem_cons.1 h with h | h
  · exact .inl h
  · exact .inr (List.mem_filter.1 h).1

section Step

variable {S : KeySys} (hS : S.Inv)
include hS

theorem KeySys.Inv.later {now : Nat} (hnow : S.clock ≤ now) {id : String} {r : EnrollmentApiKey}
    {expires : Nat} (h : (id, r, expires) ∈ S.cache) :
    r.active = true ∧
      ∃ t, (t, id, r) ∈ S.reads ∧ expires = t + kCacheEnrollmentTTL ∧ t ≤ now := by
  obtain ⟨ha, t, ht, he, hle⟩ := hS.cached id r expires h
  exact ⟨ha, t, ht, he, hle.trans hnow⟩

/-- **A fetch keeps the invariant.** -/
theorem KeySys.fetch_inv (dt : Nat) (id : String) (find : Except StoreError EnrollmentApiKey) :
    (S.step (.fetch dt id find)).Inv := by
  have hnow : S.clock ≤ S.clock + dt := Nat.le_add_right _ _
  rcases fetchEnrollmentKeyRecord_cases (Env.ofFetch find (S.clock + dt)) S.cache id with
    ⟨r, hg, hc, hr⟩ |
      ⟨-, ⟨e, -, hc, hr⟩ | ⟨r, -, -, hc, hr⟩ | ⟨r, hf, ha, hc, hr⟩⟩
  · obtain ⟨expires, hm, hle⟩ := mem_of_getEnrollmentApiKey hg
    obtain ⟨hact, t, ht, rfl, htle⟩ := hS.later hnow hm
    refine ⟨fun id' r' e' h => ?_, fun now' id' r' h => ?_⟩
    · simp only [KeySys.step, hc, Cache.apply, storeReads, List.append_nil] at h ⊢
      exact hS.later hnow h
    · simp only [KeySys.step, hc, hr, storeReads, List.append_nil, Except.toOption,
        Option.map_some', Option.toList_some, List.mem_append, List.mem_singleton,
        Prod.mk.injEq] at h ⊢
      rcases h with h | ⟨rfl, rfl, rfl⟩
      · exact hS.returned _ _ _ h
      · exact ⟨hact, t, ht, htle, hle⟩
  all_goals
    refine ⟨fun id' r' e' h => ?_, fun now' id' r' h => ?_⟩
    all_goals simp only [KeySys.step, hc, hr, Cache.apply, storeReads, List.append_nil,
      Except.toOption, Option.map_some', Option.map_none', Option.toList_some,
      Option.toList_none, List.mem_append, List.mem_singleton, List.mem_cons,
      List.not_mem_nil, or_false, Prod.mk.injEq] at h ⊢
  · exact hS.later hnow h
  · exact hS.returned _ _ _ h
  · obtain ⟨ha', t, ht, he, hle⟩ := hS.later hnow h
    exact ⟨ha', t, .inl ht, he, hle⟩
  · obtain ⟨ha', t, ht, h'⟩ := hS.returned _ _ _ h
    exact ⟨ha', t, .inl ht, h'⟩
  · rcases mem_setEnrollmentApiKey h with h | h
    · simp only [Prod.mk.injEq] at h
      obtain ⟨rfl, rfl, rfl⟩ := h
      exact ⟨ha, _, .inr ⟨rfl, rfl, rfl⟩, rfl, le_rfl⟩
    · obtain ⟨ha', t, ht, he, hle⟩ := hS.later hnow h
      exact ⟨ha', t, .inl ht, he, hle⟩
  · rcases h with h | ⟨rfl, rfl, rfl⟩
    · obtain ⟨ha', t, ht, h'⟩ := hS.returned _ _ _ h
      exact ⟨ha', t, .inl ht, h'⟩
    · exact ⟨ha, _, .inr ⟨rfl, rfl, rfl⟩, le_rfl, Nat.le_add_right _ _⟩

theorem KeySys.evict_inv (id : String) : (S.step (.evict id)).Inv :=
  ⟨fun id' r e h => hS.cached id' r e (List.mem_filter.1 h).1, hS.returned⟩

theorem KeySys.step_inv : ∀ k : KeyStep, (S.step k).Inv
  | .fetch dt id find => KeySys.fetch_inv hS dt id find
  | .evict id => KeySys.evict_inv hS id

end Step

theorem KeySys.run_inv {S : KeySys} (hS : S.Inv) : ∀ steps, (S.run steps).Inv
  | [] => hS
  | k :: steps => KeySys.run_inv (KeySys.step_inv hS k) steps

/-- On a cache of active records, a resolution returns only active records. -/
theorem fetchEnrollmentKeyRecord_active {env : Env} {cache : Cache} {id : String}
    {r : EnrollmentApiKey} (hc : ∀ id r e, (id, r, e) ∈ cache → r.active = true)
    (h : (fetchEnrollmentKeyRecord env cache id).result = .ok r) : r.active = true := by
  rcases fetchEnrollmentKeyRecord_cases env cache id with ⟨r', hg, -, hr⟩ |
    ⟨-, ⟨e, -, -, hr⟩ | ⟨r', -, -, -, hr⟩ | ⟨r', -, ha, -, hr⟩⟩ <;> rw [hr] at h <;> cases h
  · obtain ⟨expires, hm, -⟩ := mem_of_getEnrollmentApiKey hg
    exact hc _ _ _ hm
  · exact ha

/-- **Inactive enrollment keys are never usable, even through the cache.** Over every run from
an empty cache: every record `fetchEnrollmentKeyRecord` returned is active and is a record the
store returned for that id at most `kCacheEnrollmentTTL` before the call; and from every state
reached, an enrollment creates an agent only for the policy of the record the resolution of its
authenticated key returned, which is active. -/
theorem inactive_keys_never_used (steps : List KeyStep) :
    (∀ now id r, (now, id, r) ∈ (KeySys.init.run steps).returned → r.active = true ∧
      ∃ t, (t, id, r) ∈ (KeySys.init.run steps).reads ∧ t ≤ now ∧
        now ≤ t + kCacheEnrollmentTTL) ∧
    ∀ env i id ag r o,
      .createAgent i id ag r o ∈ (handleEnroll env (KeySys.init.run steps).cache).calls →
      ∃ keyId erec, env.authApiKey = .ok keyId ∧
        (fetchEnrollmentKeyRecord env (KeySys.init.run steps).cache keyId).result = .ok erec ∧
        erec.active = true ∧ ag.policyId = erec.policyId := by
  have hinv := KeySys.run_inv KeySys.init_inv steps
  refine ⟨hinv.returned, fun env i id ag r o h => ?_⟩
  obtain ⟨keyId, erec, req, -, ha, hf, -, hm, -⟩ :=
    handleEnroll_enroll_call env _ h (by simp [Call.rank]) (by simp [Call.rank])
  exact ⟨keyId, erec, ha, hf,
    fetchEnrollmentKeyRecord_active (fun _ _ _ hc => (hinv.cached _ _ _ hc).1) hf,
    _enroll_createAgent_policyId hm⟩

/-- **Enrollment side effects are ordered and failure-safe**, for every outcome of every
collaborator call, on every cache a run of `fetchEnrollmentKeyRecord` reaches. -/
theorem enrollment_ordered_and_failure_safe (steps : List KeyStep) (env : Env) :
    OrderedAndFailureSafe env (handleEnroll env (KeySys.init.run steps).cache) where
  acquire_fails := handleEnroll_acquire_fails env _
  release_last := handleEnroll_release_last env _
  mint := fun _ _ _ _ _ hl => by
    obtain ⟨hone, hrec, hreq⟩ := handleEnroll_mint env _ hl
    refine ⟨hone, ?_, hreq⟩
    rcases hrec with ⟨id, r, hg, hc⟩ | ⟨id, r, hc, ha⟩
    · obtain ⟨expires, hm, -⟩ := mem_of_getEnrollmentApiKey hg
      exact ⟨id, r, ((KeySys.run_inv KeySys.init_inv steps).cached _ _ _ hm).1, .inl hc⟩
    · exact ⟨id, r, ha, .inr hc⟩
  create := fun _ _ _ _ _ _ _ hl => handleEnroll_create env _ hl
  cache_after_create := fun _ _ _ _ hl => handleEnroll_cache_after_create env _ hl
  error_iff := handleEnroll_error_iff env _

end Fleet
end FleetServer
