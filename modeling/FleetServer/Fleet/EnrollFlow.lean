import FleetServer.Fleet.Enroll

/-!
# FleetServer.Fleet.EnrollFlow

What one enrollment does, over every outcome of every collaborator call and every cache state.

Each stage has one lemma saying everything it can do (`fetchEnrollmentKeyRecord_cases`,
`_enroll_cases`): its calls and its result on each exit path. The calls of a whole enrollment
come in a fixed order, each at most once (`handleEnroll_inOrder`, by `Call.rank`), so that
"after" in the properties below is read off the rank.

* `OrderedAndFailureSafe`: the limiter's slot is released last and once, and nothing else is
  called when it is not given; at most one key is minted, after the record was resolved active,
  the body decoded with a valid type and an empty shared id; at most one agent is created, after
  the mint and the local-metadata patch; the access key is cached after that create; and the
  result is an error exactly when no agent was created. The lemmas here give each part for
  every cache, with the record resolved from the cache as it is; `Fleet.KeyCache` shows the
  cache holds active records only, whence `enrollment_ordered_and_failure_safe`.
* `enroll_without_request_writes_nothing`: a body that is malformed, of an unknown type or with a
  shared id leads to no mint, no create and no cached key, and to an error.
* `enroll_drops_user_provided_metadata`: the request's user-provided metadata reaches neither
  the record `_enroll` creates nor the response.
-/

namespace FleetServer
namespace Fleet

open Steps

section Steps

variable {α β : Type}

theorem mem_bind_calls {s : Steps α} {f : α → Steps β} {c : Call}
    (h : c ∈ (s.bind f).calls) :
    c ∈ s.calls ∨ ∃ a, s.result = .ok a ∧ c ∈ (f a).calls := by
  unfold Steps.bind at h
  split at h
  · exact .inl h
  · rcases List.mem_append.1 h with h | h
    · exact .inl h
    · exact .inr ⟨_, ‹_›, h⟩

theorem bind_result_ok {s : Steps α} {f : α → Steps β} {b : β}
    (h : (s.bind f).result = .ok b) :
    ∃ a, s.result = .ok a ∧ (f a).result = .ok b := by
  unfold Steps.bind at h
  split at h
  · cases h
  · exact ⟨_, ‹_›, h⟩

end Steps

/-! ## Each stage -/

section Stages

variable (env : Env) (cache : Cache)

/-- Everything `fetchEnrollmentKeyRecord` can do. -/
theorem fetchEnrollmentKeyRecord_cases (id : String) :
    let s := fetchEnrollmentKeyRecord env cache id
    (∃ r, cache.getEnrollmentApiKey id env.now = some r ∧
      s.calls = [.getEnrollmentApiKey id (some r)] ∧ s.result = .ok r) ∨
    cache.getEnrollmentApiKey id env.now = none ∧
      ((∃ e, env.findEnrollmentApiKey = .error e ∧
          s.calls = [.getEnrollmentApiKey id none, .findEnrollmentApiKey id none] ∧
          s.result = .error (.store e)) ∨
        (∃ r, env.findEnrollmentApiKey = .ok r ∧ r.active = false ∧
          s.calls = [.getEnrollmentApiKey id none, .findEnrollmentApiKey id (some r)] ∧
          s.result = .error .inactive) ∨
        (∃ r, env.findEnrollmentApiKey = .ok r ∧ r.active = true ∧
          s.calls = [.getEnrollmentApiKey id none, .findEnrollmentApiKey id (some r),
            .setEnrollmentApiKey id r r.apiKey.utf8ByteSize kCacheEnrollmentTTL] ∧
          s.result = .ok r)) := by
  intro s
  cases hc : cache.getEnrollmentApiKey id env.now with
  | some r => exact .inl ⟨r, rfl, by simp [s, fetchEnrollmentKeyRecord, hc, call]⟩
  | none =>
    refine .inr ⟨rfl, ?_⟩
    cases hf : env.findEnrollmentApiKey with
    | error e =>
      exact .inl ⟨e, rfl, by simp [s, fetchEnrollmentKeyRecord, hc, hf, call, Steps.bind]⟩
    | ok r =>
      cases ha : r.active
      · exact .inr (.inl ⟨r, rfl, ha, by
          simp [s, fetchEnrollmentKeyRecord, hc, hf, ha, call, check, Steps.bind]⟩)
      · exact .inr (.inr ⟨r, rfl, ha, by
          simp [s, fetchEnrollmentKeyRecord, hc, hf, ha, call, check, Steps.bind]⟩)

/-- Everything `_enroll` can do. -/
theorem _enroll_cases (req : EnrollRequest) (erec : EnrollmentApiKey) :
    let s := _enroll env req erec
    ((req.sharedId ≠ "" ∨ ∃ e, env.newV4 = .error e) ∧ s.calls = [] ∧
      ∃ e, s.result = .error e) ∨
    ∃ agentId, req.sharedId = "" ∧ env.newV4 = .ok agentId ∧
      (((∃ e, env.createApiKey = .error e) ∧ s.calls = [.createApiKey agentId agentId none] ∧
          ∃ e, s.result = .error e) ∨
        ∃ key, env.createApiKey = .ok key ∧
          (((∃ e, updateLocalMetaAgentId req.meta.«local» agentId = .error e) ∧
              s.calls = [.createApiKey agentId agentId (some key)] ∧
                ∃ e, s.result = .error e) ∨
            ∃ localMeta, updateLocalMetaAgentId req.meta.«local» agentId = .ok localMeta ∧
              (((∃ e, env.createAgent = .error e) ∧
                  s.calls = [.createApiKey agentId agentId (some key),
                    .createAgent fleetAgents agentId (agentData env req erec localMeta key) true
                      false] ∧
                  ∃ e, s.result = .error e) ∨
                (env.createAgent = .ok () ∧
                  s.calls = [.createApiKey agentId agentId (some key),
                    .createAgent fleetAgents agentId (agentData env req erec localMeta key) true
                      true,
                    .setApiKey key kCacheAccessInitTTL] ∧
                  s.result = .ok (enrollResponse agentId (agentData env req erec localMeta key)
                    key))))) := by
  intro s
  by_cases hs : req.sharedId = ""
  · cases hu : env.newV4 with
    | error e =>
      exact .inl ⟨.inr ⟨e, rfl⟩, by simp [s, _enroll, hs, hu, Steps.bind, check]⟩
    | ok agentId =>
      refine .inr ⟨agentId, hs, rfl, ?_⟩
      cases hk : env.createApiKey with
      | error e =>
        exact .inl ⟨⟨e, rfl⟩, by
          simp [s, _enroll, hs, hu, hk, Steps.bind, check, call, generateAccessApiKey]⟩
      | ok key =>
        refine .inr ⟨key, rfl, ?_⟩
        cases hm : updateLocalMetaAgentId req.meta.«local» agentId with
        | error e =>
          exact .inl ⟨⟨e, rfl⟩, by
            simp [s, _enroll, hs, hu, hk, hm, Steps.bind, check, call, generateAccessApiKey]⟩
        | ok localMeta =>
          refine .inr ⟨localMeta, rfl, ?_⟩
          cases hc : env.createAgent with
          | error e =>
            exact .inl ⟨⟨e, rfl⟩, by simp [s, _enroll, hs, hu, hk, hm, hc, Steps.bind, check,
              call, generateAccessApiKey, createFleetAgent]⟩
          | ok u =>
            exact .inr ⟨rfl, by simp [s, _enroll, hs, hu, hk, hm, hc, Steps.bind, check, call,
              generateAccessApiKey, createFleetAgent]⟩
  · exact .inl ⟨.inl hs, by simp [s, _enroll, hs, Steps.bind, check]⟩

theorem decodeEnrollRequest_type {body : Option Json} {req : EnrollRequest}
    (h : decodeEnrollRequest body = .ok req) :
    req.type ∈ ["EPHEMERAL", "PERMANENT", "TEMPORARY"] := by
  unfold decodeEnrollRequest at h
  split at h
  · cases h
  · split at h
    · cases h
    · split at h
      · cases h
        assumption
      · cases h

/-- The calls of an enrollment that got past the body: the authentication, the record's
resolution and `_enroll`'s calls. -/
theorem enrollAcquired_of_ok {keyId : String} {erec : EnrollmentApiKey} {req : EnrollRequest}
    (ha : env.authApiKey = .ok keyId) (hu : env.validateUserAgent = .ok ())
    (hf : (fetchEnrollmentKeyRecord env cache keyId).result = .ok erec)
    (hd : decodeEnrollRequest env.body = .ok req) :
    enrollAcquired env cache =
      ⟨.authApiKey (some keyId) :: (fetchEnrollmentKeyRecord env cache keyId).calls ++
        (_enroll env req erec).calls, (_enroll env req erec).result⟩ := by
  simp [enrollAcquired, ha, hu, Steps.bind, call, check, hf, hd]

/-- A call of an enrollment is its authentication, a call of the record's resolution, or a call
of `_enroll` once the record was resolved and the body decoded. -/
theorem mem_enrollAcquired {c : Call} (h : c ∈ (enrollAcquired env cache).calls) :
    c = .authApiKey env.authApiKey.toOption ∨
      ∃ keyId, env.authApiKey = .ok keyId ∧ env.validateUserAgent = .ok () ∧
      (c ∈ (fetchEnrollmentKeyRecord env cache keyId).calls ∨
        ∃ erec req, (fetchEnrollmentKeyRecord env cache keyId).result = .ok erec ∧
          decodeEnrollRequest env.body = .ok req ∧ c ∈ (_enroll env req erec).calls) := by
  simp only [enrollAcquired, bind_eq] at h
  rcases mem_bind_calls h with h | ⟨keyId, hk, h⟩
  · exact .inl (List.mem_singleton.1 h)
  · have ha : env.authApiKey = .ok keyId := by
      cases h' : env.authApiKey <;> simp_all [call]
    rcases mem_bind_calls h with h | ⟨u, hu, h⟩
    · simp [check] at h
    · have hu' : env.validateUserAgent = .ok () := by
        cases h' : env.validateUserAgent <;> simp_all [check]
      rcases mem_bind_calls h with h | ⟨erec, hf, h⟩
      · exact .inr ⟨keyId, ha, hu', .inl h⟩
      · rcases mem_bind_calls h with h | ⟨req, hd, h⟩
        · simp [check] at h
        · exact .inr ⟨keyId, ha, hu', .inr ⟨erec, req, hf, by simpa [check] using hd, h⟩⟩

theorem enrollAcquired_result_ok {resp : EnrollResponse}
    (h : (enrollAcquired env cache).result = .ok resp) :
    ∃ keyId erec req, env.authApiKey = .ok keyId ∧ env.validateUserAgent = .ok () ∧
      (fetchEnrollmentKeyRecord env cache keyId).result = .ok erec ∧
      decodeEnrollRequest env.body = .ok req ∧ (_enroll env req erec).result = .ok resp := by
  simp only [enrollAcquired, bind_eq] at h
  obtain ⟨keyId, hk, h⟩ := bind_result_ok h
  obtain ⟨u, hu, h⟩ := bind_result_ok h
  obtain ⟨erec, hf, h⟩ := bind_result_ok h
  obtain ⟨req, hd, h⟩ := bind_result_ok h
  refine ⟨keyId, erec, req, ?_, ?_, hf, by simpa [check] using hd, h⟩
  · cases h' : env.authApiKey <;> simp_all [call]
  · cases h' : env.validateUserAgent <;> simp_all [check]

end Stages

/-! ## The order of the calls -/

/-- The place of each collaborator in the order `handleEnroll` calls them. -/
def Call.rank : Call → Nat
  | .acquire _ => 0
  | .authApiKey _ => 1
  | .getEnrollmentApiKey .. => 2
  | .findEnrollmentApiKey .. => 3
  | .setEnrollmentApiKey .. => 4
  | .createApiKey .. => 5
  | .createAgent .. => 6
  | .setApiKey .. => 7
  | .release => 8

/-- The calls are in that order, each kind at most once, with places in `[lo, hi)`. -/
def InOrder (lo hi : Nat) (l : List Call) : Prop :=
  l.Pairwise (fun a b => a.rank < b.rank) ∧ ∀ c ∈ l, lo ≤ c.rank ∧ c.rank < hi

namespace InOrder

variable {lo mid hi : Nat} {l l₁ l₂ pre post : List Call}

theorem nil : InOrder lo hi [] := ⟨List.Pairwise.nil, fun _ h => nomatch h⟩

/-- The order of a list of calls is the order of its places. -/
theorem of_ranks
    (h : (l.map Call.rank).Pairwise (· < ·) ∧ ∀ n ∈ l.map Call.rank, lo ≤ n ∧ n < hi) :
    InOrder lo hi l :=
  ⟨List.pairwise_map.1 h.1, fun _ hc => h.2 _ (List.mem_map_of_mem _ hc)⟩

theorem append (hlo : lo ≤ mid) (hhi : mid ≤ hi) (h₁ : InOrder lo mid l₁)
    (h₂ : InOrder mid hi l₂) :
    InOrder lo hi (l₁ ++ l₂) := by
  refine ⟨List.pairwise_append.2 ⟨h₁.1, h₂.1, fun a ha b hb => ?_⟩, fun c hc => ?_⟩
  · have := h₁.2 a ha
    have := h₂.2 b hb
    omega
  · rcases List.mem_append.1 hc with hc | hc
    · have := h₁.2 c hc
      omega
    · have := h₂.2 c hc
      omega

theorem mono (h : InOrder lo hi l) {lo' hi' : Nat} (hlo : lo' ≤ lo) (hhi : hi ≤ hi') :
    InOrder lo' hi' l :=
  ⟨h.1, fun c hc => by have := h.2 c hc; omega⟩

/-- A call of a lower place comes before. -/
theorem before (h : InOrder lo hi l) (hl : l = pre ++ y :: post) {x : Call} (hx : x ∈ l)
    (hr : x.rank < y.rank) : x ∈ pre := by
  subst hl
  have hp := (List.pairwise_append.1 h.1).2.1
  rcases List.mem_append.1 hx with hx | hx
  · exact hx
  · rcases List.mem_cons.1 hx with rfl | hx
    · exact absurd hr (lt_irrefl _)
    · exact absurd ((List.pairwise_cons.1 hp).1 x hx) (not_lt.2 hr.le)

/-- Every call after `y` has a higher place. -/
theorem after (h : InOrder lo hi l) (hl : l = pre ++ y :: post) {c : Call} (hc : c ∈ post) :
    y.rank < c.rank := by
  subst hl
  exact (List.pairwise_cons.1 (List.pairwise_append.1 h.1).2.1).1 c hc

end InOrder

theorem bind_inOrder {α β : Type} {lo hi : Nat} (mid : Nat) (hlo : lo ≤ mid) (hhi : mid ≤ hi)
    {s : Steps α} {f : α → Steps β} (hs : InOrder lo mid s.calls)
    (hf : ∀ a, s.result = .ok a → InOrder mid hi (f a).calls) :
    InOrder lo hi (s.bind f).calls := by
  unfold Steps.bind
  split
  · exact hs.mono le_rfl hhi
  · exact InOrder.append hlo hhi hs (hf _ ‹_›)

section Order

variable (env : Env) (cache : Cache)

theorem fetchEnrollmentKeyRecord_inOrder (id : String) :
    InOrder 2 5 (fetchEnrollmentKeyRecord env cache id).calls := by
  rcases fetchEnrollmentKeyRecord_cases env cache id with
    ⟨r, -, hc, -⟩ | ⟨-, ⟨e, -, hc, -⟩ | ⟨r, -, -, hc, -⟩ | ⟨r, -, -, hc, -⟩⟩ <;>
    rw [hc] <;> exact InOrder.of_ranks (by simp only [List.map, Call.rank]; decide)

theorem _enroll_inOrder (req : EnrollRequest) (erec : EnrollmentApiKey) :
    InOrder 5 8 (_enroll env req erec).calls := by
  rcases _enroll_cases env req erec with
    ⟨-, hc, -⟩ | ⟨a, -, -, ⟨-, hc, -⟩ | ⟨k, -, ⟨-, hc, -⟩ | ⟨m, -, ⟨-, hc, -⟩ | ⟨-, hc, -⟩⟩⟩⟩ <;>
    rw [hc] <;> exact InOrder.of_ranks (by simp only [List.map, Call.rank]; decide)

theorem enrollAcquired_inOrder : InOrder 1 8 (enrollAcquired env cache).calls := by
  simp only [enrollAcquired, bind_eq]
  refine bind_inOrder 2 (by omega) (by omega)
    (InOrder.of_ranks (by simp only [call, List.map, Call.rank]; decide)) fun keyId _ => ?_
  refine bind_inOrder 2 le_rfl (by omega) InOrder.nil fun _ _ => ?_
  refine bind_inOrder 5 (by omega) (by omega) (fetchEnrollmentKeyRecord_inOrder env cache keyId)
    fun erec _ => ?_
  exact bind_inOrder 5 le_rfl (by omega) InOrder.nil fun req _ => _enroll_inOrder env req erec

/-- **The calls of an enrollment come in a fixed order, each at most once.** -/
theorem handleEnroll_inOrder : InOrder 0 9 (handleEnroll env cache).calls := by
  unfold handleEnroll
  split
  · exact InOrder.of_ranks (by simp only [call, List.map, Call.rank]; decide)
  · have hfirst : InOrder 0 1 [.acquire true] := InOrder.of_ranks (by decide)
    have hlast : InOrder 8 9 [.release] := InOrder.of_ranks (by decide)
    exact InOrder.append (by omega) (by omega)
      (InOrder.append (by omega) (by omega) hfirst (enrollAcquired_inOrder env cache)) hlast

end Order

/-! ## `_enroll`'s calls -/

section Enroll

variable {env : Env} {req : EnrollRequest} {erec : EnrollmentApiKey}

theorem _enroll_createApiKey {n a : String} {k : Option AccessApiKey}
    (h : .createApiKey n a k ∈ (_enroll env req erec).calls) : req.sharedId = "" := by
  rcases _enroll_cases env req erec with ⟨-, hc, -⟩ | ⟨_, hs, -⟩
  · rw [hc] at h
    cases h
  · exact hs

theorem _enroll_createAgent {i id : String} {ag : Agent} {r o : Bool}
    (h : .createAgent i id ag r o ∈ (_enroll env req erec).calls) :
    i = fleetAgents ∧ (∃ key, .createApiKey id id (some key) ∈ (_enroll env req erec).calls) ∧
      updateLocalMetaAgentId req.meta.«local» id = .ok ag.localMetadata := by
  rcases _enroll_cases env req erec with
    ⟨-, hc, -⟩ | ⟨a, -, -, ⟨-, hc, -⟩ | ⟨k, -, ⟨-, hc, -⟩ | ⟨m, hm, ⟨-, hc, -⟩ | ⟨-, hc, -⟩⟩⟩⟩ <;>
    rw [hc] at h ⊢ <;> simp at h
  all_goals
    obtain ⟨rfl, rfl, rfl, -⟩ := h
    exact ⟨rfl, ⟨k, by simp⟩, by simpa [agentData] using hm⟩

theorem _enroll_createAgent_policyId {i id : String} {ag : Agent} {r o : Bool}
    (h : .createAgent i id ag r o ∈ (_enroll env req erec).calls) :
    ag.policyId = erec.policyId := by
  rcases _enroll_cases env req erec with
    ⟨-, hc, -⟩ | ⟨a, -, -, ⟨-, hc, -⟩ | ⟨k, -, ⟨-, hc, -⟩ | ⟨m, -, ⟨-, hc, -⟩ | ⟨-, hc, -⟩⟩⟩⟩ <;>
    rw [hc] at h <;> simp at h
  all_goals
    obtain ⟨-, -, rfl, -⟩ := h
    rfl

theorem _enroll_setApiKey {k : AccessApiKey} {t : Nat}
    (h : .setApiKey k t ∈ (_enroll env req erec).calls) :
    ∃ i id ag r, .createAgent i id ag r true ∈ (_enroll env req erec).calls := by
  rcases _enroll_cases env req erec with
    ⟨-, hc, -⟩ | ⟨a, -, -, ⟨-, hc, -⟩ | ⟨k, -, ⟨-, hc, -⟩ | ⟨m, -, ⟨-, hc, -⟩ | ⟨-, hc, -⟩⟩⟩⟩ <;>
    rw [hc] at h ⊢ <;> simp at h
  exact ⟨fleetAgents, a, agentData env req erec m k, true, by simp⟩

theorem _enroll_ok_iff :
    (∃ resp, (_enroll env req erec).result = .ok resp) ↔
      ∃ i id ag r, .createAgent i id ag r true ∈ (_enroll env req erec).calls := by
  rcases _enroll_cases env req erec with ⟨-, hc, e, he⟩ | ⟨a, -, -, ⟨-, hc, e, he⟩ |
    ⟨k, -, ⟨-, hc, e, he⟩ | ⟨m, -, ⟨-, hc, e, he⟩ | ⟨-, hc, he⟩⟩⟩⟩ <;>
    rw [hc, he] <;> simp

end Enroll

/-! ## A whole enrollment -/

section Handle

variable (env : Env) (cache : Cache)

/-- A call of `_enroll`'s kinds in an enrollment was made by `_enroll`, after the record was
resolved and the body decoded. -/
theorem handleEnroll_enroll_call {c : Call} (h : c ∈ (handleEnroll env cache).calls)
    (hr : 5 ≤ c.rank) (hr' : c.rank < 8) :
    ∃ keyId erec req, env.acquire = .ok () ∧ env.authApiKey = .ok keyId ∧
      (fetchEnrollmentKeyRecord env cache keyId).result = .ok erec ∧
      decodeEnrollRequest env.body = .ok req ∧ c ∈ (_enroll env req erec).calls ∧
      (handleEnroll env cache).calls = .acquire true :: .authApiKey (some keyId) ::
        (fetchEnrollmentKeyRecord env cache keyId).calls ++ (_enroll env req erec).calls ++
        [.release] := by
  unfold handleEnroll at h ⊢
  split at h
  · simp only [call, List.mem_singleton] at h
    subst h
    exact absurd hr (by simp [Call.rank])
  · rename_i hacq
    simp only [List.cons_append, List.mem_cons, List.mem_append, List.not_mem_nil,
      or_false] at h
    rcases h with rfl | h | rfl
    · exact absurd hr (by simp [Call.rank])
    · rcases mem_enrollAcquired env cache h with
        rfl | ⟨keyId, ha, hu, h | ⟨erec, req, hf, hd, h⟩⟩
      · exact absurd hr (by simp [Call.rank])
      · have := ((fetchEnrollmentKeyRecord_inOrder env cache keyId).2 c h).2
        omega
      · refine ⟨keyId, erec, req, hacq, ha, hf, hd, h, ?_⟩
        simp [enrollAcquired_of_ok env cache ha hu hf hd]
    · exact absurd hr' (by simp [Call.rank])

/-- The order and failures of one enrollment's calls `s`, as `handleEnroll` is to make them. -/
structure OrderedAndFailureSafe (s : Steps EnrollResponse) : Prop where
  /-- Nothing but `Acquire` when it gives no slot. -/
  acquire_fails : ∀ e, env.acquire = .error e → s.calls = [.acquire false]
  /-- Otherwise `Acquire` first, and the release last and once. -/
  release_last : env.acquire = .ok () →
    s.calls.head? = some (.acquire true) ∧ s.calls.getLast? = some .release ∧
    s.calls.count .release = 1
  /-- At most one key minted, after the record was resolved active and the body decoded with a
  valid type and an empty shared id. -/
  mint : ∀ pre post name agentId key, s.calls = pre ++ .createApiKey name agentId key :: post →
    (∀ n a k, .createApiKey n a k ∉ post) ∧
    (∃ id r, r.active = true ∧
      (.getEnrollmentApiKey id (some r) ∈ pre ∨ .findEnrollmentApiKey id (some r) ∈ pre)) ∧
    ∃ req, decodeEnrollRequest env.body = .ok req ∧
      req.type ∈ ["EPHEMERAL", "PERMANENT", "TEMPORARY"] ∧ req.sharedId = ""
  /-- At most one create, on the agents index, after the mint and the local-metadata patch
  succeeded. -/
  create : ∀ pre post index id agent refresh ok,
    s.calls = pre ++ .createAgent index id agent refresh ok :: post →
    index = fleetAgents ∧ (∀ i d a r o, .createAgent i d a r o ∉ post) ∧
    (∃ key, .createApiKey id id (some key) ∈ pre) ∧
    ∃ req, decodeEnrollRequest env.body = .ok req ∧
      updateLocalMetaAgentId req.meta.«local» id = .ok agent.localMetadata
  /-- The access key is cached only after a create succeeded. -/
  cache_after_create : ∀ pre post key ttl, s.calls = pre ++ .setApiKey key ttl :: post →
    ∃ index id agent refresh, .createAgent index id agent refresh true ∈ pre
  /-- An error exactly when no agent was created. -/
  error_iff : (∃ resp, s.result = .ok resp) ↔
    ∃ index id agent refresh, .createAgent index id agent refresh true ∈ s.calls

theorem handleEnroll_acquire_fails (e : String) (h : env.acquire = .error e) :
    (handleEnroll env cache).calls = [.acquire false] := by
  simp [handleEnroll, h, call]

theorem handleEnroll_release_last (h : env.acquire = .ok ()) :
    (handleEnroll env cache).calls.head? = some (.acquire true) ∧
    (handleEnroll env cache).calls.getLast? = some .release ∧
    (handleEnroll env cache).calls.count .release = 1 := by
  have hno : Call.release ∉ (enrollAcquired env cache).calls := fun hm => by
    have := ((enrollAcquired_inOrder env cache).2 _ hm).2
    simp [Call.rank] at this
  refine ⟨by simp [handleEnroll, h], ?_, by
    simp [handleEnroll, h, List.count_cons, List.count_eq_zero_of_not_mem hno]⟩
  simp only [handleEnroll, h]
  rw [List.getLast?_concat]

theorem handleEnroll_mint {pre post : List Call} {name agentId : String}
    {key : Option AccessApiKey}
    (hl : (handleEnroll env cache).calls = pre ++ .createApiKey name agentId key :: post) :
    (∀ n a k, .createApiKey n a k ∉ post) ∧
    ((∃ id r, cache.getEnrollmentApiKey id env.now = some r ∧
        .getEnrollmentApiKey id (some r) ∈ pre) ∨
      ∃ id r, .findEnrollmentApiKey id (some r) ∈ pre ∧ r.active = true) ∧
    ∃ req, decodeEnrollRequest env.body = .ok req ∧
      req.type ∈ ["EPHEMERAL", "PERMANENT", "TEMPORARY"] ∧ req.sharedId = "" := by
  have ho := handleEnroll_inOrder env cache
  obtain ⟨keyId, erec, req, -, -, hf, hd, hm, heq⟩ :=
    handleEnroll_enroll_call env cache (hl ▸ List.mem_append_right _ (List.mem_cons_self _ _))
      (by simp [Call.rank]) (by simp [Call.rank])
  refine ⟨fun n a k hk => absurd (ho.after hl hk) (lt_irrefl _), ?_,
    req, hd, decodeEnrollRequest_type hd, _enroll_createApiKey hm⟩
  have hmem : ∀ c ∈ (fetchEnrollmentKeyRecord env cache keyId).calls,
      c ∈ (handleEnroll env cache).calls := fun c hc => by simp [heq, hc]
  rcases fetchEnrollmentKeyRecord_cases env cache keyId with ⟨r, hg, hc, -⟩ |
    ⟨-, ⟨e, -, -, he⟩ | ⟨r, -, -, -, he⟩ | ⟨r, -, ha, hc, hr⟩⟩
  · exact .inl ⟨keyId, r, hg, ho.before hl (hmem _ (by simp [hc])) (by simp [Call.rank])⟩
  · exact nomatch he.symm.trans hf
  · exact nomatch he.symm.trans hf
  · exact .inr ⟨keyId, r, ho.before hl (hmem _ (by simp [hc])) (by simp [Call.rank]), ha⟩

theorem handleEnroll_create {pre post : List Call} {index id : String} {agent : Agent}
    {refresh ok : Bool}
    (hl : (handleEnroll env cache).calls = pre ++ .createAgent index id agent refresh ok :: post) :
    index = fleetAgents ∧ (∀ i d a r o, .createAgent i d a r o ∉ post) ∧
    (∃ key, .createApiKey id id (some key) ∈ pre) ∧
    ∃ req, decodeEnrollRequest env.body = .ok req ∧
      updateLocalMetaAgentId req.meta.«local» id = .ok agent.localMetadata := by
  have ho := handleEnroll_inOrder env cache
  obtain ⟨keyId, erec, req, -, -, -, hd, hm, heq⟩ :=
    handleEnroll_enroll_call env cache (hl ▸ List.mem_append_right _ (List.mem_cons_self _ _))
      (by simp [Call.rank]) (by simp [Call.rank])
  obtain ⟨hi, ⟨key, hk⟩, hpatch⟩ := _enroll_createAgent hm
  exact ⟨hi, fun i d a r o h => absurd (ho.after hl h) (lt_irrefl _),
    ⟨key, ho.before hl (by simp [heq, hk]) (by simp [Call.rank])⟩, req, hd, hpatch⟩

theorem handleEnroll_cache_after_create {pre post : List Call} {key : AccessApiKey} {ttl : Nat}
    (hl : (handleEnroll env cache).calls = pre ++ .setApiKey key ttl :: post) :
    ∃ index id agent refresh, .createAgent index id agent refresh true ∈ pre := by
  have ho := handleEnroll_inOrder env cache
  obtain ⟨keyId, erec, req, -, -, -, -, hm, heq⟩ :=
    handleEnroll_enroll_call env cache (hl ▸ List.mem_append_right _ (List.mem_cons_self _ _))
      (by simp [Call.rank]) (by simp [Call.rank])
  obtain ⟨i, d, a, r, hc⟩ := _enroll_setApiKey hm
  exact ⟨i, d, a, r, ho.before hl (by simp [heq, hc]) (by simp [Call.rank])⟩

theorem handleEnroll_error_iff :
    (∃ resp, (handleEnroll env cache).result = .ok resp) ↔
      ∃ index id agent refresh, .createAgent index id agent refresh true ∈
        (handleEnroll env cache).calls := by
  constructor
  · rintro ⟨resp, h⟩
    unfold handleEnroll at h
    split at h
    · cases h
    · obtain ⟨keyId, erec, req, ha, hu, hf, hd, he⟩ := enrollAcquired_result_ok env cache h
      obtain ⟨i, d, a, r, hc⟩ := _enroll_ok_iff.1 ⟨resp, he⟩
      refine ⟨i, d, a, r, ?_⟩
      simp [handleEnroll, *, enrollAcquired_of_ok env cache ha hu hf hd]
  · rintro ⟨i, d, a, r, h⟩
    obtain ⟨keyId, erec, req, hacq, ha, hf, hd, hm, -⟩ :=
      handleEnroll_enroll_call env cache h (by simp [Call.rank]) (by simp [Call.rank])
    have hu : env.validateUserAgent = .ok () := by
      unfold handleEnroll at h
      rw [hacq] at h
      simp only [List.cons_append, List.mem_cons, List.mem_append, List.not_mem_nil,
        or_false] at h
      rcases h with h | h | h
      · cases h
      · rcases mem_enrollAcquired env cache h with h | ⟨_, _, hu, _⟩
        · cases h
        · exact hu
      · cases h
    obtain ⟨resp, hr⟩ := _enroll_ok_iff.2 ⟨i, d, a, r, hm⟩
    refine ⟨resp, ?_⟩
    simp [handleEnroll, hacq, enrollAcquired_of_ok env cache ha hu hf hd, hr]

/-- **Without a request to enroll, nothing is written**: when the body does not decode to a
request with an empty shared id (it is malformed, its type is not one of the three, or it asks
for a pre-existing install), the enrollment mints no key, creates no agent, caches no access key,
and fails. -/
theorem enroll_without_request_writes_nothing
    (hb : ∀ req, decodeEnrollRequest env.body = .ok req → req.sharedId ≠ "") :
    (∀ c ∈ (handleEnroll env cache).calls, c.rank < 5 ∨ 8 ≤ c.rank) ∧
      ∀ resp, (handleEnroll env cache).result ≠ .ok resp := by
  have hnone : ∀ c ∈ (handleEnroll env cache).calls, ¬ (5 ≤ c.rank ∧ c.rank < 8) := by
    rintro c hc ⟨h₁, h₂⟩
    obtain ⟨keyId, erec, req, -, -, -, hd, hm, -⟩ :=
      handleEnroll_enroll_call env cache hc h₁ h₂
    rcases _enroll_cases env req erec with ⟨-, hcalls, -⟩ | ⟨-, hs, -⟩
    · rw [hcalls] at hm
      cases hm
    · exact hb req hd hs
  refine ⟨fun c hc => ?_, fun resp hr => ?_⟩
  · have := hnone c hc
    omega
  · obtain ⟨i, d, a, r, h⟩ := (handleEnroll_error_iff env cache).1 ⟨resp, hr⟩
    exact hnone _ h ⟨by simp [Call.rank], by simp [Call.rank]⟩

end Handle

/-- A body of type `BOGUS`: no request to enroll, and nothing written. -/
theorem enroll_without_request_writes_nothing_example :
    let env : Env :=
      { acquire := .ok (), authApiKey := .ok "k", validateUserAgent := .ok (),
        findEnrollmentApiKey := .ok ⟨"secret", "policy-1", true⟩,
        body := some (.object [("type", .string "BOGUS")]), newV4 := .ok "agent-1",
        createApiKey := .ok ⟨"key-1", "tok"⟩, createAgent := .ok (), now := 5 }
    (∀ req, decodeEnrollRequest env.body = .ok req → req.sharedId ≠ "") ∧
      (∀ c ∈ (handleEnroll env []).calls, c.rank < 5 ∨ 8 ≤ c.rank) ∧
      ∀ resp, (handleEnroll env []).result ≠ .ok resp := by
  intro env
  have hd : decodeEnrollRequest env.body = .error .unknownEnrollType := rfl
  have hb : ∀ req, decodeEnrollRequest env.body = .ok req → req.sharedId ≠ "" := by
    intro req h
    rw [hd] at h
    cases h
  exact ⟨hb, enroll_without_request_writes_nothing env [] hb⟩

/-- A request carrying user-provided metadata: the created record and the response have none. -/
theorem enroll_drops_user_provided_metadata :
    let env : Env :=
      { acquire := .ok (), authApiKey := .ok "k", validateUserAgent := .ok (),
        findEnrollmentApiKey := .error .notFound, body := none, newV4 := .ok "agent-1",
        createApiKey := .ok ⟨"key-1", "tok"⟩, createAgent := .ok (), now := 5 }
    let req : EnrollRequest := ⟨"PERMANENT", "", ⟨some (.object [("a", .bool true)]), none⟩⟩
    let erec : EnrollmentApiKey := ⟨"secret", "policy-1", true⟩
    (_enroll env req erec).calls =
      [.createApiKey "agent-1" "agent-1" (some ⟨"key-1", "tok"⟩),
        .createAgent fleetAgents "agent-1"
          ⟨true, "policy-1", "PERMANENT", enrolledAtText 5, none, none, "key-1", [undefinedSeqNo]⟩
          true true,
        .setApiKey ⟨"key-1", "tok"⟩ kCacheAccessInitTTL] ∧
    (_enroll env req erec).result.toOption.map (·.item.userMeta) = some none := by
  decide

end Fleet
end FleetServer
