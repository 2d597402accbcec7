import FleetServer.Dl.PolicyLeader

/-!
# FleetServer.Dl.LeaseSeq

The lease calls run one after another, each alone, from an empty index, with every store call
succeeding: what the lease of a policy is after any sequence of them.

The lease of one policy follows a small machine, `LeaseCall.lease`: a take of the policy sets it
to the taker's claim, a release of it by the server holding it re-times it, anything else leaves
it as it is. The documents the functions write are the encodings of that machine's leases
(`runCalls_lookup`), and the machine is solved for every sequence by `leaseAfter_eq_none` and
`leaseAfter_take`.

* `sequential_lease`: the document of a policy is absent iff the policy was never taken;
  otherwise it names the server and version of the last take, with the time of the last
  release by that server after the take, or else of the take; a call on another policy, a
  release by another server and a release of a policy without a lease change nothing.
-/

namespace FleetServer
namespace Dl

/-- The calls run one after another from `ix`. -/
def runCalls (ix : Index) (calls : List LeaseCall) : Index := calls.foldl LeaseCall.run ix

/-- The policy a call is about. -/
def LeaseCall.policyId : LeaseCall → String
  | .take p .. | .release p .. => p

/-- What the call does to the lease of `p`, `cur` before it. -/
def LeaseCall.lease (p : String) : LeaseCall → Option PolicyLeader → Option PolicyLeader
  | .take p' s v now, cur => if p' = p then some ⟨some ⟨s, v⟩, timeText now⟩ else cur
  | .release p' s d now, cur => if p' = p then cur.map (releaseLease s (now - d)) else cur

/-- The lease of `p` after the calls, starting from `cur`. -/
def leaseFrom (p : String) (cur : Option PolicyLeader) (calls : List LeaseCall) :
    Option PolicyLeader :=
  calls.foldl (fun cur c => c.lease p cur) cur

/-- The lease of `p` after the calls, from an empty index. -/
def leaseAfter (p : String) (calls : List LeaseCall) : Option PolicyLeader :=
  leaseFrom p none calls

example : leaseAfter "p" [.take "p" "a" "1" 5, .release "p" "b" 1 8, .release "p" "a" 2 9] =
    some ⟨some ⟨"a", "1"⟩, timeText 7⟩ := by decide

/-! ## The documents are the machine's leases -/

/-- A call changes no other policy's document, from any index. -/
theorem LeaseCall.run_frame (ix : Index) {p : String} :
    ∀ c : LeaseCall, c.policyId ≠ p → (c.run ix).lookup p = ix.lookup p
  | .take _ s v now, h => take_run_frame ix (Ne.symm h) s v now
  | .release _ s d now, h => release_run_frame ix (Ne.symm h) s d now

theorem LeaseCall.lease_full (p : String) {cur : Option PolicyLeader} (h : ∀ l ∈ cur, l.Full) :
    ∀ c : LeaseCall, ∀ l ∈ c.lease p cur, l.Full
  | .take p' s v now => by
    by_cases hp : p' = p
    · simp only [LeaseCall.lease, if_pos hp, Option.mem_def, Option.some.injEq, forall_eq']
      exact claim_full .zero s v now
    · simpa only [LeaseCall.lease, if_neg hp] using h
  | .release p' s d now => by
    by_cases hp : p' = p
    · simp only [LeaseCall.lease, if_pos hp, Option.mem_def, Option.map_eq_some']
      rintro _ ⟨l, hl, rfl⟩
      exact releaseLease_full (h l hl) s _
    · simpa only [LeaseCall.lease, if_neg hp] using h

/-- **One call refines the machine**: on an index of full leases whose document for `p` encodes
`cur`, the call leaves the encoding of `c.lease p cur`. -/
theorem LeaseCall.run_lookup {ix : Index} (hix : LeaseIndex ix) {p : String}
    {cur : Option PolicyLeader} (hcur : ix.lookup p = cur.map PolicyLeader.encode)
    (hfull : ∀ l ∈ cur, l.Full) :
    ∀ c : LeaseCall, (c.run ix).lookup p = (c.lease p cur).map PolicyLeader.encode
  | .take p' s v now => by
    by_cases hp : p' = p
    · subst hp
      rw [take_run_lookup hix, LeaseCall.lease, if_pos rfl, claim_eq]
      rfl
    · rw [LeaseCall.run_frame ix (.take p' s v now) hp, hcur, LeaseCall.lease, if_neg hp]
  | .release p' s d now => by
    by_cases hp : p' = p
    · subst hp
      rw [LeaseCall.lease, if_pos rfl]
      cases cur with
      | none => rw [release_run_missing hcur, hcur]; rfl
      | some l => rw [release_run_lookup hcur (hfull l rfl)]; rfl
    · rw [LeaseCall.run_frame ix (.release p' s d now) hp, hcur, LeaseCall.lease, if_neg hp]

/-- Every run keeps every document a full lease. -/
theorem runCalls_leaseIndex {ix : Index} (hix : LeaseIndex ix) :
    ∀ calls, LeaseIndex (runCalls ix calls)
  | [] => hix
  | c :: calls => runCalls_leaseIndex (run_leaseIndex hix c) calls

/-- A run refines the machine, from any index of full leases. -/
theorem runCalls_lookup_from {ix : Index} (hix : LeaseIndex ix) {p : String}
    {cur : Option PolicyLeader} (hcur : ix.lookup p = cur.map PolicyLeader.encode)
    (hfull : ∀ l ∈ cur, l.Full) :
    ∀ calls, (runCalls ix calls).lookup p = (leaseFrom p cur calls).map PolicyLeader.encode
  | [] => hcur
  | c :: calls =>
    runCalls_lookup_from (run_leaseIndex hix c) (LeaseCall.run_lookup hix hcur hfull c)
      (LeaseCall.lease_full p hfull c) calls

/-- Every run keeps the ids distinct. -/
theorem runCalls_nodup {ix : Index} (hnd : (ix.map Prod.fst).Nodup) :
    ∀ calls, ((runCalls ix calls).map Prod.fst).Nodup
  | [] => hnd
  | c :: calls => runCalls_nodup (run_nodup hnd c) calls

theorem leaseIndex_nil : LeaseIndex [] := fun _ _ h => nomatch h

/-- **The documents a run from an empty index leaves are the machine's leases.** -/
theorem runCalls_lookup (calls : List LeaseCall) (p : String) :
    (runCalls [] calls).lookup p = (leaseAfter p calls).map PolicyLeader.encode :=
  @runCalls_lookup_from [] leaseIndex_nil p none rfl (by simp) calls

/-! ## The machine solved -/

/-- The call is a take of `p`. -/
def LeaseCall.IsTakeOf (p : String) : LeaseCall → Prop
  | .take p' .. => p' = p
  | .release .. => False

/-- The call is a release of `p` by `s`. -/
def LeaseCall.IsReleaseBy (p s : String) : LeaseCall → Prop
  | .take .. => False
  | .release p' s' .. => p' = p ∧ s' = s

/-- `ts` is the time a lease of `p` taken by `s` at `t` shows after the calls `post`: `t` when
none of them is a release of `p` by `s`, else `now - d` of the last. -/
def LastReleaseTime (p s : String) (t : Int) (post : List LeaseCall) (ts : String) : Prop :=
  ((∀ c ∈ post, ¬ c.IsReleaseBy p s) ∧ ts = timeText t) ∨
  ∃ mid d now rest, post = mid ++ .release p s d now :: rest ∧
    (∀ c ∈ rest, ¬ c.IsReleaseBy p s) ∧ ts = timeText (now - d)

theorem leaseFrom_cons (p : String) (cur : Option PolicyLeader) (c : LeaseCall)
    (calls : List LeaseCall) : leaseFrom p cur (c :: calls) = leaseFrom p (c.lease p cur) calls :=
  rfl

theorem leaseFrom_append (p : String) (cur : Option PolicyLeader) (xs ys : List LeaseCall) :
    leaseFrom p cur (xs ++ ys) = leaseFrom p (leaseFrom p cur xs) ys :=
  List.foldl_append _ _ _ _

/-- Without a take of `p`, no lease of `p` appears. -/
theorem leaseFrom_none {p : String} :
    ∀ calls : List LeaseCall, (∀ c ∈ calls, ¬ c.IsTakeOf p) → leaseFrom p none calls = none
  | [], _ => rfl
  | .take p' _ _ _ :: calls, h => by
    have hp : p' ≠ p := h _ (List.mem_cons_self _ _)
    simp only [leaseFrom, List.foldl_cons, LeaseCall.lease, if_neg hp]
    exact leaseFrom_none calls fun c hc => h c (List.mem_cons_of_mem _ hc)
  | .release p' _ _ _ :: calls, h => by
    simp only [leaseFrom, List.foldl_cons, LeaseCall.lease, Option.map_none', ite_self]
    exact leaseFrom_none calls fun c hc => h c (List.mem_cons_of_mem _ hc)

/-- A lease, once there, stays. -/
theorem leaseFrom_isSome {p : String} {cur : Option PolicyLeader} (h : cur.isSome) :
    ∀ calls, (leaseFrom p cur calls).isSome
  | [] => h
  | c :: calls => leaseFrom_isSome (by cases c <;> simp only [LeaseCall.lease] <;> split <;>
      simp [h]) calls

theorem leaseAfter_eq_none (p : String) (calls : List LeaseCall) :
    leaseAfter p calls = none ↔ ∀ c ∈ calls, ¬ c.IsTakeOf p := by
  refine ⟨fun h c hc htake => ?_, leaseFrom_none calls⟩
  obtain ⟨pre, post, rfl⟩ := List.append_of_mem hc
  cases c with
  | release => exact htake
  | take p' s v now =>
    have hp : p' = p := htake
    have hlease : (LeaseCall.take p' s v now).lease p (leaseFrom p none pre) =
        some ⟨some ⟨s, v⟩, timeText now⟩ := if_pos hp
    have hsome := @leaseFrom_isSome p (some ⟨some ⟨s, v⟩, timeText now⟩) rfl post
    rw [leaseAfter, leaseFrom_append, leaseFrom_cons, hlease] at h
    rw [h] at hsome
    exact Bool.false_ne_true hsome

section Held

variable {p s v : String} {t : Int} {ts : String}

theorem lastReleaseTime_nil : LastReleaseTime p s t [] (timeText t) :=
  .inl ⟨fun _ h => (nomatch h), rfl⟩

/-- A call that is not a release by the holder keeps the time. -/
theorem lastReleaseTime_append {post : List LeaseCall} (h : LastReleaseTime p s t post ts)
    {c : LeaseCall} (hc : ¬ c.IsReleaseBy p s) : LastReleaseTime p s t (post ++ [c]) ts := by
  rcases h with ⟨hn, rfl⟩ | ⟨mid, d, now, rest, rfl, hn, rfl⟩
  · refine .inl ⟨fun c' hc' => ?_, rfl⟩
    rcases List.mem_append.1 hc' with hc' | hc'
    · exact hn c' hc'
    · rwa [List.mem_singleton.1 hc']
  · refine .inr ⟨mid, d, now, rest ++ [c], by simp, fun c' hc' => ?_, rfl⟩
    rcases List.mem_append.1 hc' with hc' | hc'
    · exact hn c' hc'
    · rwa [List.mem_singleton.1 hc']

/-- A call that is neither a take of `p` nor a release of it by the holder keeps the lease. -/
theorem lease_held_other {c : LeaseCall} (ht : ¬ c.IsTakeOf p) (hr : ¬ c.IsReleaseBy p s) :
    c.lease p (some ⟨some ⟨s, v⟩, ts⟩) = some ⟨some ⟨s, v⟩, ts⟩ := by
  cases c with
  | take p' => simp only [LeaseCall.lease, if_neg (show p' ≠ p from ht)]
  | release p' s' d now =>
    by_cases hp : p' = p
    · have hs : s' ≠ s := fun hs => hr ⟨hp, hs⟩
      simp [LeaseCall.lease, hp, releaseLease, Ne.symm hs]
    · simp only [LeaseCall.lease, if_neg hp]

/-- Solving the machine after a take: its server and version, and the time of the last release
by it. -/
theorem leaseFrom_held :
    ∀ post : List LeaseCall, (∀ c ∈ post, ¬ c.IsTakeOf p) → ∃ ts,
      leaseFrom p (some ⟨some ⟨s, v⟩, timeText t⟩) post = some ⟨some ⟨s, v⟩, ts⟩ ∧
      LastReleaseTime p s t post ts := by
  intro post
  induction post using List.reverseRecOn with
  | nil => exact fun _ => ⟨_, rfl, lastReleaseTime_nil⟩
  | append_singleton post c ih =>
    intro h
    obtain ⟨ts, hts, hlast⟩ := ih fun c hc => h c (List.mem_append_left _ hc)
    have ht : ¬ c.IsTakeOf p := h c (List.mem_append_right _ (List.mem_singleton_self c))
    rw [leaseFrom_append, hts]
    by_cases hr : c.IsReleaseBy p s
    · obtain ⟨p', s', d, now⟩ | ⟨p', s', d, now⟩ := c
      · exact absurd hr id
      · obtain ⟨rfl, rfl⟩ := hr
        refine ⟨timeText (now - d), ?_,
          .inr ⟨post, d, now, [], rfl, fun _ h => (nomatch h), rfl⟩⟩
        simp [leaseFrom, LeaseCall.lease, releaseLease, PolicyLeader.setTime]
    · exact ⟨ts, by simp [leaseFrom, lease_held_other ht hr], lastReleaseTime_append hlast hr⟩

end Held

/-- The machine after the last take of `p`. -/
theorem leaseAfter_take {p : String} {calls pre post : List LeaseCall} {s v : String} {t : Int}
    (hcalls : calls = pre ++ .take p s v t :: post) (hpost : ∀ c ∈ post, ¬ c.IsTakeOf p) :
    ∃ ts, leaseAfter p calls = some ⟨some ⟨s, v⟩, ts⟩ ∧
      LastReleaseTime p s t post ts := by
  subst hcalls
  rw [leaseAfter, leaseFrom_append]
  simpa [leaseFrom, LeaseCall.lease] using leaseFrom_held post hpost

/-- **Sequential lease semantics.** After any sequence of calls run one at a time from an empty
index: the document of `p` is absent iff `p` was never taken; after the last take of `p` it
decodes to that take's server and version with the time `LastReleaseTime` gives; and from the
index reached, a call on another policy leaves `p`'s document as it is, while a release of `p`
by a server not holding it, or of `p` without a document, changes nothing. -/
theorem sequential_lease (calls : List LeaseCall) (p : String) :
    ((runCalls [] calls).lookup p = none ↔ ∀ c ∈ calls, ¬ c.IsTakeOf p) ∧
    (∀ pre s v t post, calls = pre ++ .take p s v t :: post → (∀ c ∈ post, ¬ c.IsTakeOf p) →
      ∃ doc ts, (runCalls [] calls).lookup p = some doc ∧
        decodeLeader doc = .ok ⟨some ⟨s, v⟩, ts⟩ ∧ LastReleaseTime p s t post ts) ∧
    (∀ c : LeaseCall, c.policyId ≠ p →
      (c.run (runCalls [] calls)).lookup p = (runCalls [] calls).lookup p) ∧
    (∀ doc l s d now, (runCalls [] calls).lookup p = some doc → decodeLeader doc = .ok l →
      l.server.map (·.id) ≠ some s →
      (LeaseCall.release p s d now).run (runCalls [] calls) = runCalls [] calls) ∧
    (∀ s d now, (runCalls [] calls).lookup p = none →
      (LeaseCall.release p s d now).run (runCalls [] calls) = runCalls [] calls) := by
  have hix := runCalls_leaseIndex leaseIndex_nil calls
  refine ⟨?absent, ?taken, fun c hc => LeaseCall.run_frame _ c hc, ?other, ?missing⟩
  case absent =>
    rw [runCalls_lookup, Option.map_eq_none', leaseAfter_eq_none]
  case taken =>
    intro pre s v t post hcalls hpost
    obtain ⟨ts, hl, hlast⟩ := leaseAfter_take hcalls hpost
    exact ⟨_, ts, by rw [runCalls_lookup, hl]; rfl, decodeLeader_encode _, hlast⟩
  case other =>
    intro doc l s d now hdoc hdec hs
    obtain ⟨l', -, rfl⟩ := hix p doc hdoc
    rw [decodeLeader_encode, Except.ok.injEq] at hdec
    subst hdec
    exact release_run_other hdoc hs d now
  case missing =>
    exact fun s d now h => release_run_missing h s d now

end Dl
end FleetServer
