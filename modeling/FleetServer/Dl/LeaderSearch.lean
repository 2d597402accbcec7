import FleetServer.Dl.LeaseSeq
import Mathlib.Data.List.Dedup

/-!
# FleetServer.Dl.LeaderSearch

`SearchPolicyLeaders` renders the query `{"query": {"terms": {"_id": ids}}}`, with no size, so
the store answers with at most `defaultSearchSize` hits, and stores each decoded hit under its id.

* `searchPolicyLeaders_exact`: when at most `defaultSearchSize` documents match (and the list
  has at most `maxTermsCount` ids), the result maps exactly the listed ids that have a document
  to their decoded lease; with more, some are lost (`search_drops_leaders_past_ten`).
* `search_reports_sequential_leases`: after any sequence of lease calls run one at a time,
  `SearchPolicyLeaders` succeeds, reports for a policy only the lease the calls left it, and,
  when at most `defaultSearchSize` of the listed policies were ever taken, reports every one.
-/

namespace FleetServer
namespace Dl

/-- The hits of the `terms` query on `ids` before the page cut: the matching documents in index
order. -/
def matchingHits (ix : Index) (ids : List String) : List Hit :=
  (ix.filter fun p => p.1 ∈ ids).map fun p => ⟨p.1, p.2⟩

theorem searchIds_ok {ix : Index} {ids : List String} (h : ids.length ≤ maxTermsCount) :
    ix.searchIds ids = .ok ((matchingHits ix ids).take defaultSearchSize) := by
  simp [Index.searchIds, matchingHits, Nat.not_lt.2 h]

/-- The lease a found document decodes to, as a map entry. -/
def foundLease (ids : List String) (ix : Index) (q : String) (acc : Option PolicyLeader) :
    Option PolicyLeader :=
  match (if q ∈ ids then ix.lookup q else none) with
  | some d => (decodeLeader d).toOption
  | none => acc

/-- Decoding the matching documents of an index whose documents all decode and whose ids are
distinct: each matching id is stored with its decoded lease, over the map started from. -/
theorem go_matchingHits (ids : List String) :
    ∀ (ix : Index) (acc : List (String × PolicyLeader)),
      (∀ e ∈ ix, ∃ l, decodeLeader e.2 = .ok l) → (ix.map Prod.fst).Nodup →
      ∃ m, searchPolicyLeaders.go (matchingHits ix ids) acc = .ok m ∧
        ∀ q, m.lookup q = foundLease ids ix q (acc.lookup q)
  | [], acc, _, _ => ⟨acc, rfl, fun q => by simp [foundLease]⟩
  | (k, d) :: ix, acc, hdec, hnd => by
    obtain ⟨l, hl⟩ := hdec (k, d) (List.mem_cons_self _ _)
    have hdec' : ∀ e ∈ ix, ∃ l, decodeLeader e.2 = .ok l :=
      fun e he => hdec e (List.mem_cons_of_mem _ he)
    rw [List.map_cons, List.nodup_cons] at hnd
    have hk : ix.lookup k = none := lookup_eq_none_of_not_mem hnd.1
    by_cases hin : k ∈ ids
    · obtain ⟨m, hm, hlook⟩ := go_matchingHits ids ix (mapInsert k l acc) hdec' hnd.2
      refine ⟨m, ?_, fun q => ?_⟩
      · simpa [matchingHits, hin, searchPolicyLeaders.go, hl] using hm
      · rw [hlook, mapInsert_lookup]
        by_cases hq : q = k
        · subst hq
          simp [foundLease, hin, hk, hl, Except.toOption]
        · simp [foundLease, hq, lookup_cons_ne hq]
    · obtain ⟨m, hm, hlook⟩ := go_matchingHits ids ix acc hdec' hnd.2
      refine ⟨m, by simpa [matchingHits, hin] using hm, fun q => ?_⟩
      rw [hlook]
      by_cases hq : q = k
      · subst hq
        simp [foundLease, hin]
      · simp [foundLease, lookup_cons_ne hq]

/-- **Exact when one page holds every match**: for an index whose documents all decode and
whose ids are distinct, when at most `maxTermsCount` ids are asked and at most
`defaultSearchSize` documents match, `SearchPolicyLeaders` succeeds with a map holding exactly
the listed ids that have a document, each with its decoded lease. -/
theorem searchPolicyLeaders_exact {ix : Index} {ids : List String}
    (hdec : ∀ e ∈ ix, ∃ l, decodeLeader e.2 = .ok l) (hnd : (ix.map Prod.fst).Nodup)
    (hids : ids.length ≤ maxTermsCount)
    (hfew : (ix.filter fun e => e.1 ∈ ids).length ≤ defaultSearchSize) :
    ∃ m, searchPolicyLeaders ix ids = .ok m ∧
      ∀ q, m.lookup q = if q ∈ ids then (ix.lookup q).bind fun d => (decodeLeader d).toOption
        else none := by
  obtain ⟨m, hm, hlook⟩ := go_matchingHits ids ix [] hdec hnd
  have htake : (matchingHits ix ids).take defaultSearchSize = matchingHits ix ids :=
    List.take_of_length_le (by simpa [matchingHits] using hfew)
  refine ⟨m, by rw [searchPolicyLeaders, searchIds_ok hids, htake]; exact hm, fun q => ?_⟩
  rw [hlook, foundLease]
  by_cases hq : q ∈ ids
  · simp only [if_pos hq]
    cases ix.lookup q <;> rfl
  · simp only [if_neg hq]
    rfl

theorem searchPolicyLeaders_exact_example :
    let ix : Index := [("p", (⟨some ⟨"s", "1"⟩, timeText 0⟩ : PolicyLeader).encode)]
    (∀ e ∈ ix, ∃ l, decodeLeader e.2 = .ok l) ∧ (ix.map Prod.fst).Nodup ∧
      ["p", "q"].length ≤ maxTermsCount ∧
      (ix.filter fun e => e.1 ∈ ["p", "q"]).length ≤ defaultSearchSize ∧
      ∃ m, searchPolicyLeaders ix ["p", "q"] = .ok m ∧
        ∀ q, m.lookup q = if q ∈ ["p", "q"] then
          (ix.lookup q).bind fun d => (decodeLeader d).toOption else none := by
  intro ix
  have hdec : ∀ e ∈ ix, ∃ l, decodeLeader e.2 = .ok l := by
    simp only [ix, List.mem_singleton, forall_eq]
    exact ⟨_, decodeLeader_encode _⟩
  have hnd : (ix.map Prod.fst).Nodup := by decide
  have hids : ["p", "q"].length ≤ maxTermsCount := by decide
  have hfew : (ix.filter fun e => e.1 ∈ ["p", "q"]).length ≤ defaultSearchSize := by decide
  exact ⟨hdec, hnd, hids, hfew, searchPolicyLeaders_exact hdec hnd hids hfew⟩

/-- Eleven policies `"0"` to `"10"`, each with a lease, all asked for: the result holds the
first ten, and `"10"`, which has a lease, is missing. -/
theorem search_drops_leaders_past_ten :
    let ix : Index := (List.range 11).map fun i =>
      (toString i, (⟨some ⟨"s", "1"⟩, timeText 0⟩ : PolicyLeader).encode)
    (searchPolicyLeaders ix (ix.map Prod.fst)).toOption.map (List.map Prod.fst) =
      some ((ix.map Prod.fst).take 10) ∧ (ix.lookup "10").isSome := by
  decide

/-! ## What a search reports after a run -/

/-- `SearchPolicyLeaders`' loop over any hits that all decode: it succeeds, and each lease it
stores under an id is one it started with or the decoding of a hit with that id. -/
theorem go_sound : ∀ (hits : List Hit) (acc : List (String × PolicyLeader)),
    (∀ h ∈ hits, ∃ l, decodeLeader h.source = .ok l) →
    ∃ m, searchPolicyLeaders.go hits acc = .ok m ∧
      ∀ q l, m.lookup q = some l →
        acc.lookup q = some l ∨ ∃ h ∈ hits, h.id = q ∧ decodeLeader h.source = .ok l
  | [], acc, _ => ⟨acc, rfl, fun _ _ h => .inl h⟩
  | hit :: hits, acc, hdec => by
    obtain ⟨l₀, hl₀⟩ := hdec hit (List.mem_cons_self _ _)
    obtain ⟨m, hm, hsound⟩ :=
      go_sound hits (mapInsert hit.id l₀ acc) fun h hh => hdec h (List.mem_cons_of_mem _ hh)
    refine ⟨m, by simp only [searchPolicyLeaders.go, hl₀, hm], fun q l hq => ?_⟩
    rcases hsound q l hq with h | ⟨h, hh, rfl, hd⟩
    · rw [mapInsert_lookup] at h
      split at h
      · cases h
        rename_i hqid
        exact .inr ⟨hit, List.mem_cons_self _ _, hqid.symm, hl₀⟩
      · exact .inl h
    · exact .inr ⟨h, List.mem_cons_of_mem _ hh, rfl, hd⟩

/-- The documents of an index with distinct ids that match a list of ids, counted by the
distinct listed ids that have a document. -/
theorem filter_ids_length_eq {ix : Index} (hnd : (ix.map Prod.fst).Nodup) (ids : List String) :
    (ix.filter fun e => e.1 ∈ ids).length =
      (ids.dedup.filter fun q => (ix.lookup q).isSome).length := by
  have h₁ : ((ix.filter fun e => e.1 ∈ ids).map Prod.fst).Nodup :=
    hnd.sublist ((List.filter_sublist _).map _)
  have h₂ : (ids.dedup.filter fun q => (ix.lookup q).isSome).Nodup :=
    (List.nodup_dedup ids).filter _
  rw [← List.length_map _ Prod.fst]
  refine ((List.perm_ext_iff_of_nodup h₁ h₂).2 fun q => ?_).length_eq
  simp only [List.mem_map, List.mem_filter, decide_eq_true_eq, List.mem_dedup,
    lookup_isSome_iff]
  constructor
  · rintro ⟨e, ⟨he, hq⟩, rfl⟩
    exact ⟨hq, e, he, rfl⟩
  · rintro ⟨hq, e, he, rfl⟩
    exact ⟨e, ⟨he, hq⟩, rfl⟩

/-- **A search reads back the sequential semantics**: after any sequence of lease calls run one
at a time from an empty index, `SearchPolicyLeaders` on at most `maxTermsCount` ids succeeds;
every lease it reports is for a listed policy and is the lease the calls left that policy; and
when at most `defaultSearchSize` of the distinct listed policies were ever taken, it reports
each listed policy's lease, and no lease for a listed policy never taken. -/
theorem search_reports_sequential_leases (calls : List LeaseCall) {ids : List String}
    (hids : ids.length ≤ maxTermsCount) :
    ∃ m, searchPolicyLeaders (runCalls [] calls) ids = .ok m ∧
      (∀ q l, m.lookup q = some l → q ∈ ids ∧ leaseAfter q calls = some l) ∧
      ((ids.dedup.filter fun q => (leaseAfter q calls).isSome).length ≤ defaultSearchSize →
        ∀ q ∈ ids, m.lookup q = leaseAfter q calls) := by
  have hnd := @runCalls_nodup [] List.nodup_nil calls
  have hlook := runCalls_lookup calls
  have hmatch : ∀ h ∈ matchingHits (runCalls [] calls) ids,
      h.id ∈ ids ∧ (runCalls [] calls).lookup h.id = some h.source := by
    intro h hh
    obtain ⟨e, he, rfl⟩ := List.mem_map.1 hh
    obtain ⟨he, hq⟩ := List.mem_filter.1 he
    exact ⟨of_decide_eq_true hq, (lookup_eq_some_iff_mem hnd).2 he⟩
  have hdec : ∀ h ∈ (matchingHits (runCalls [] calls) ids).take defaultSearchSize,
      ∃ l, leaseAfter h.id calls = some l ∧ h.source = l.encode := by
    intro h hh
    have hs := (hmatch h (List.mem_of_mem_take hh)).2
    rw [hlook] at hs
    obtain ⟨l, hl, he⟩ := Option.map_eq_some'.1 hs
    exact ⟨l, hl, he.symm⟩
  obtain ⟨m, hm, hsound⟩ := go_sound _ [] fun h hh => by
    obtain ⟨l, -, he⟩ := hdec h hh
    exact ⟨l, he ▸ decodeLeader_encode l⟩
  have hsearch : searchPolicyLeaders (runCalls [] calls) ids = .ok m := by
    rw [searchPolicyLeaders, searchIds_ok hids]
    exact hm
  refine ⟨m, hsearch, fun q l hq => ?_, fun hfew q hq => ?_⟩
  · rcases hsound q l hq with h | ⟨h, hh, rfl, hd⟩
    · cases h
    · obtain ⟨l', hl', he⟩ := hdec h hh
      rw [he, decodeLeader_encode, Except.ok.injEq] at hd
      exact ⟨(hmatch h (List.mem_of_mem_take hh)).1, hd ▸ hl'⟩
  · have hfew' : (matchingHits (runCalls [] calls) ids).length ≤ defaultSearchSize := by
      rw [matchingHits, List.length_map, filter_ids_length_eq hnd]
      simpa only [hlook, Option.isSome_map'] using hfew
    have hall : ∀ e ∈ runCalls [] calls, ∃ l, decodeLeader e.2 = .ok l := by
      intro e he
      obtain ⟨l, -, hl⟩ := (runCalls_leaseIndex leaseIndex_nil calls) e.1 e.2
        ((lookup_eq_some_iff_mem hnd).2 he)
      exact ⟨l, hl ▸ decodeLeader_encode l⟩
    obtain ⟨m', hm', hexact⟩ := go_matchingHits ids _ [] hall hnd
    rw [List.take_of_length_le hfew', hm', Except.ok.injEq] at hm
    subst hm
    rw [hexact, foundLease, if_pos hq, hlook]
    cases leaseAfter q calls with
    | none => rfl
    | some l => simp [decodeLeader_encode, Except.toOption]

theorem search_reports_sequential_leases_example :
    let calls : List LeaseCall := [.take "p" "A" "1" 0, .release "p" "A" 5 10]
    ["p", "q"].length ≤ maxTermsCount ∧
    ∃ m, searchPolicyLeaders (runCalls [] calls) ["p", "q"] = .ok m ∧
      (∀ q l, m.lookup q = some l → q ∈ ["p", "q"] ∧ leaseAfter q calls = some l) ∧
      ((["p", "q"].dedup.filter fun q => (leaseAfter q calls).isSome).length ≤
          defaultSearchSize →
        ∀ q ∈ ["p", "q"], m.lookup q = leaseAfter q calls) :=
  ⟨by decide, search_reports_sequential_leases _ (by decide)⟩

end Dl
end FleetServer
