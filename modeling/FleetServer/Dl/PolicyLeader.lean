import FleetServer.Dl.Store
import Mathlib.Data.Nat.Digits

/-!
# FleetServer.Dl.PolicyLeader

The policy-leadership lease of `dl/policies_leader.go`. The lease of a policy is the document
of the policy's id in the `FleetPoliciesLeader` index, decoded into a `model.PolicyLeader`.

`TakePolicyLeadership` and `ReleasePolicyLeadership` each read the lease and then write it.
They are modelled as that pair of steps, so that the calls of several servers can interleave
(`Dl.LeaseRuns`): `takeAfterRead` and `releaseAfterRead` are what a call does with what its read
returned, and `Write.apply` is its write reaching the store. A call run alone is the two in a
row (`takePolicyLeadership`, `releasePolicyLeadership`).

`ReleasePolicyLeadership` reads `l.Server.Id` without checking `l.Server`, so a lease without a
server is a nil dereference there: `ReleaseStep.panic`.
-/

set_option exponentiation.threshold 2200

namespace FleetServer
namespace Dl

/-- Modelled from the spec: `model.ServerMetadata`, a server's identity, its id and version
(`json:"id"`, `json:"version"`). -/
structure ServerMetadata where
  id : String
  version : String
  deriving DecidableEq, Repr

/-- Modelled from the spec: `model.PolicyLeader`, the lease of one policy, whose id is the
document id: the server holding it, nil when absent (`json:"server,omitempty"`), and the time
it was last asserted (`json:"@timestamp,omitempty"`). The Go struct declares the time first,
and its encoding and fields follow that order. -/
structure PolicyLeader where
  server : Option ServerMetadata
  timestamp : String
  deriving DecidableEq, Repr

/-- Modelled from the spec: the text `SetTime` records for a time, here in nanoseconds. -/
def timeText (t : Int) : String := toString t

namespace PolicyLeader

/-- `var l model.PolicyLeader`. -/
def zero : PolicyLeader := ⟨none, ""⟩

/-- `l.SetTime(t)`. -/
def setTime (l : PolicyLeader) (t : Int) : PolicyLeader := { l with timestamp := timeText t }

end PolicyLeader

/-- The fields of `model.ServerMetadata`. -/
def ServerMetadata.fields : List (Field ServerMetadata) :=
  [.ofPart "id" (·.id) (fun m s => { m with id := s }) decodeString,
   .ofPart "version" (·.version) (fun m s => { m with version := s }) decodeString]

/-- A `*model.ServerMetadata` field: `null` sets it nil, an object is decoded into the
`ServerMetadata` it points to, allocated when nil. -/
def decodeServerPtr : Json → Option ServerMetadata → Except DecodeError (Option ServerMetadata)
  | .null, _ => .ok none
  | j, cur =>
    (decodeStruct "model.ServerMetadata" ServerMetadata.fields j (cur.getD ⟨"", ""⟩)).map some

/-- The fields of `model.PolicyLeader`. -/
def PolicyLeader.fields : List (Field PolicyLeader) :=
  [.ofPart "@timestamp" (·.timestamp) (fun l s => { l with timestamp := s }) decodeString,
   .ofPart "server" (·.server) (fun l m => { l with server := m }) decodeServerPtr]

/-- `json.Unmarshal(data, &l)` into a fresh `model.PolicyLeader`. -/
def decodeLeader (data : Json) : Except DecodeError PolicyLeader :=
  unmarshalInto (decodeStruct "model.PolicyLeader" PolicyLeader.fields) data PolicyLeader.zero

/-- `json.Marshal` of a `model.ServerMetadata`. -/
def ServerMetadata.encode (m : ServerMetadata) : Json :=
  .object [("id", .string m.id), ("version", .string m.version)]

/-- `json.Marshal(&l)`: fields in declaration order, empty ones omitted. -/
def PolicyLeader.encode (l : PolicyLeader) : Json :=
  .object ((if l.timestamp = "" then [] else [("@timestamp", .string l.timestamp)]) ++
    (match l.server with | some m => [("server", m.encode)] | none => []))

/-- The update body `{"doc": l}`. -/
def docBody (l : PolicyLeader) : Json := .object [("doc", l.encode)]

/-- The errors the lease functions return. -/
inductive LeaseError where
  | store (e : StoreError)
  | decode (e : DecodeError)
  deriving DecidableEq, Repr

/-- The write a lease call issues after its read. -/
inductive Write where
  | create (policyId : String) (body : Json)
  | update (policyId : String) (body : Json)
  deriving DecidableEq, Repr

/-- The write reaching the store. -/
def Write.apply (ix : Index) : Write → Except StoreError Index
  | .create p body => ix.create p body
  | .update p body => ix.update p body

/-- The lease `TakePolicyLeadership` writes over `l`: this server, its version, the time `now`. -/
def claim (l : PolicyLeader) (serverId version : String) (now : Int) : PolicyLeader :=
  { l with server := some ⟨serverId, version⟩ }.setTime now

/-- `TakePolicyLeadership` after its read returned `data`: a create when there was no lease, a
partial update of the decoded lease otherwise; there is no condition on either. -/
def takeAfterRead (policyId serverId version : String) (now : Int)
    (data : Except StoreError Json) : Except LeaseError Write :=
  match data with
  | .error .notFound => .ok (.create policyId (claim .zero serverId version now).encode)
  | .error e => .error (.store e)
  | .ok d =>
    match decodeLeader d with
    | .error e => .error (.decode e)
    | .ok l => .ok (.update policyId (docBody (claim l serverId version now)))

/-- What `ReleasePolicyLeadership` does after its read. -/
inductive ReleaseStep where
  /-- It returns without writing. -/
  | done (r : Except LeaseError Unit)
  /-- `l.Server.Id` on a nil `l.Server`. -/
  | panic
  /-- It issues this write. -/
  | write (w : Write)

/-- `ReleasePolicyLeadership` after its read returned `data`: nothing to do without a lease or
when another server holds it; otherwise the lease, timed `releaseInterval` before `now`, is
written back by an update that carries no version from the read. -/
def releaseAfterRead (policyId serverId : String) (releaseInterval now : Int)
    (data : Except StoreError Json) : ReleaseStep :=
  match data with
  | .error .notFound => .done (.ok ())
  | .error e => .done (.error (.store e))
  | .ok d =>
    match decodeLeader d with
    | .error e => .done (.error (.decode e))
    | .ok l =>
      match l.server with
      | none => .panic
      | some m =>
        if m.id ≠ serverId then .done (.ok ())
        else .write (.update policyId (docBody (l.setTime (now - releaseInterval))))

/-- `ReleasePolicyLeadership`'s result once its update returned: a version conflict is
success. -/
def releaseAfterWrite {α : Type} : Except StoreError α → Except LeaseError Unit
  | .ok _ => .ok ()
  | .error .versionConflict => .ok ()
  | .error e => .error (.store e)

/-- `TakePolicyLeadership(ctx, bulker, policyId, serverId, version)` run alone at time `now`:
its result and the index after it. -/
def takePolicyLeadership (ix : Index) (policyId serverId version : String) (now : Int) :
    Except LeaseError Unit × Index :=
  match takeAfterRead policyId serverId version now (ix.read policyId) with
  | .error e => (.error e, ix)
  | .ok w =>
    match w.apply ix with
    | .ok ix' => (.ok (), ix')
    | .error e => (.error (.store e), ix)

/-- `ReleasePolicyLeadership(ctx, bulker, policyId, serverId, releaseInterval)` run alone at
time `now`: its result (`none` for the nil dereference) and the index after it. -/
def releasePolicyLeadership (ix : Index) (policyId serverId : String) (releaseInterval now : Int) :
    Option (Except LeaseError Unit) × Index :=
  match releaseAfterRead policyId serverId releaseInterval now (ix.read policyId) with
  | .done r => (some r, ix)
  | .panic => (none, ix)
  | .write w => (some (releaseAfterWrite (w.apply ix)), (w.apply ix).toOption.getD ix)

/-- `SearchPolicyLeaders(ctx, bulker, ids)`: the hits of the `terms` query on the ids, each
decoded and stored under its id. -/
def searchPolicyLeaders (ix : Index) (ids : List String) :
    Except LeaseError (List (String × PolicyLeader)) :=
  match ix.searchIds ids with
  | .error e => .error (.store e)
  | .ok hits => go hits []
where
  go : List Hit → List (String × PolicyLeader) → Except LeaseError (List (String × PolicyLeader))
  | [], leaders => .ok leaders
  | hit :: hits, leaders =>
    match decodeLeader hit.source with
    | .error e => .error (.decode e)
    | .ok l => go hits (mapInsert hit.id l leaders)

/-- A call of one of the two lease functions, by a server, at a time. -/
inductive LeaseCall where
  | take (policyId serverId version : String) (now : Int)
  | release (policyId serverId : String) (releaseInterval now : Int)
  deriving DecidableEq, Repr

/-- The index after the call, run alone. -/
def LeaseCall.run (ix : Index) : LeaseCall → Index
  | .take p s v now => (takePolicyLeadership ix p s v now).2
  | .release p s d now => (releasePolicyLeadership ix p s d now).2

/-! ## The lease documents the functions write -/

theorem toDigitsCore_ne_nil (b n : Nat) (ds : List Char) :
    ∀ fuel, 0 < fuel → Nat.toDigitsCore b fuel n ds ≠ []
  | fuel + 1, _ => by
    induction fuel generalizing n ds with
    | zero => simp only [Nat.toDigitsCore]; split <;> simp
    | succ f ih =>
      simp only [Nat.toDigitsCore]
      split
      · simp
      · exact ih _ _ (by omega)

theorem timeText_ne_empty (t : Int) : timeText t ≠ "" := by
  intro h
  have h' := congrArg String.data h
  cases t with
  | ofNat n => exact toDigitsCore_ne_nil 10 n [] (n + 1) (by omega) h'
  | negSucc n => cases h'

theorem decodeLeader_encode (l : PolicyLeader) : decodeLeader l.encode = .ok l := by
  obtain ⟨_ | m, ts⟩ := l <;> by_cases h : ts = "" <;>
    simp [decodeLeader, unmarshalInto, PolicyLeader.encode, h, Json.depth,
      Json.depth.depthMembers, maxNestingDepth, decodeStruct, decodeMembersInto, lookupField,
      PolicyLeader.fields, decodeString, PolicyLeader.zero, ServerMetadata.encode,
      decodeServerPtr, ServerMetadata.fields, Field.ofPart]

/-- A lease as the lease functions write it: with a server and a time. -/
def PolicyLeader.Full (l : PolicyLeader) : Prop := l.server.isSome ∧ l.timestamp ≠ ""

theorem claim_full (l : PolicyLeader) (serverId version : String) (now : Int) :
    (claim l serverId version now).Full :=
  ⟨rfl, timeText_ne_empty now⟩

theorem setTime_full {l : PolicyLeader} (h : l.server.isSome) (t : Int) : (l.setTime t).Full :=
  ⟨h, timeText_ne_empty t⟩

/-- The merge of one full lease into another is the second: every member is replaced. -/
theorem mergeSource_encode {l l' : PolicyLeader} (hl : l.Full) (hl' : l'.Full) :
    mergeSource l.encode l'.encode = l'.encode := by
  obtain ⟨_ | m, ts⟩ := l
  · simp [PolicyLeader.Full] at hl
  obtain ⟨_ | m', ts'⟩ := l'
  · simp [PolicyLeader.Full] at hl'
  simp only [PolicyLeader.Full, Option.isSome_some, true_and] at hl hl'
  simp [mergeSource, mergeValue, mergeMembers, PolicyLeader.encode, ServerMetadata.encode, hl,
    hl', setMember, List.lookup_cons]

/-- A document as the lease functions write it. -/
def LeaseDoc (d : Json) : Prop := ∃ l : PolicyLeader, l.Full ∧ d = l.encode

/-- Every document of the index encodes a lease that satisfies `P` for its policy. -/
def Index.Holds (P : String → PolicyLeader → Prop) (ix : Index) : Prop :=
  ∀ p d, ix.lookup p = some d → ∃ l, P p l ∧ d = l.encode

/-- Every document of the index is a lease with a server. -/
def LeaseIndex (ix : Index) : Prop := Index.Holds (fun _ l => l.Full) ix

/-- The lease a write carries satisfies `P` for its policy: a create's document, an update's
change. -/
def Write.Carries (P : String → PolicyLeader → Prop) : Write → Prop
  | .create p b => ∃ l, P p l ∧ b = l.encode
  | .update p b => ∃ l, P p l ∧ b = docBody l

/-- A write as the lease functions issue it: a full lease, or an update to one. -/
def Write.Ok (w : Write) : Prop := w.Carries fun _ l => l.Full

theorem Write.Carries.mono {P Q : String → PolicyLeader → Prop} (hPQ : ∀ p l, P p l → Q p l) :
    ∀ {w : Write}, w.Carries P → w.Carries Q
  | .create _ _, ⟨l, hl, h⟩ => ⟨l, hPQ _ _ hl, h⟩
  | .update _ _, ⟨l, hl, h⟩ => ⟨l, hPQ _ _ hl, h⟩

/-- The policy a write goes to. -/
def Write.policyId : Write → String
  | .create p _ | .update p _ => p

/-- A write changes no other policy's document. -/
theorem Write.apply_frame {ix ix' : Index} {w : Write} (h : w.apply ix = .ok ix') {q : String}
    (hq : q ≠ w.policyId) : ix'.lookup q = ix.lookup q := by
  cases w with
  | create p b =>
    simp only [Write.policyId] at hq
    cases hp : ix.lookup p with
    | none =>
      rw [Write.apply, Index.create_ok hp] at h
      cases h
      rw [Index.lookup_append_new hp, if_neg hq]
    | some _ => rw [Write.apply, Index.create_taken hp] at h; cases h
  | update p b =>
    simp only [Write.policyId] at hq
    obtain ⟨src, -, rfl⟩ := Index.update_eq_replace h
    rw [Index.lookup_replace, if_neg hq]

/-- What an update of the lease `l` by a full lease leaves in its place. -/
theorem Write.apply_update {ix ix' : Index} {p : String} {l l' : PolicyLeader}
    (hp : ix.lookup p = some l.encode) (hl : l.Full) (hl' : l'.Full)
    (h : (Write.update p (docBody l')).apply ix = .ok ix') : ix'.lookup p = some l'.encode := by
  rw [Write.apply, docBody, Index.update_ok hp] at h
  cases h
  simp [Index.lookup_replace, hp, mergeSource_encode hl hl']

/-- What a create leaves when it succeeds. -/
theorem Write.apply_create {ix ix' : Index} {p : String} {b : Json}
    (h : (Write.create p b).apply ix = .ok ix') : ix'.lookup p = some b := by
  cases hp : ix.lookup p with
  | none =>
    rw [Write.apply, Index.create_ok hp] at h
    cases h
    rw [Index.lookup_append_new hp, if_pos rfl]
  | some _ => rw [Write.apply, Index.create_taken hp] at h; cases h

section Holds

variable {P : String → PolicyLeader → Prop} (hP : ∀ p l, P p l → l.Full) {ix : Index}
  (hix : Index.Holds P ix)
include hP hix

/-- The first step of an update carrying `P` merges its change into a full lease, which leaves
the change. -/
theorem prepareUpdate_holds {p : String} {b src : Json} (hw : (Write.update p b).Carries P)
    (h : ix.prepareUpdate p b = .ok src) : ∃ l, P p l ∧ src = l.encode := by
  obtain ⟨l', hl', rfl⟩ := hw
  obtain ⟨old, doc, hold, hb, rfl⟩ := Index.prepareUpdate_eq h
  rw [docBody] at hb
  cases hb
  obtain ⟨l, hl, rfl⟩ := hix p old hold
  exact ⟨l', hl', mergeSource_encode (hP _ _ hl) (hP _ _ hl')⟩

omit hP in
theorem Index.holds_replace {p : String} {src : Json} (hsrc : ∃ l, P p l ∧ src = l.encode) :
    Index.Holds P (Index.replace p src ix) := by
  intro q d hq
  rw [Index.lookup_replace] at hq
  split at hq
  · rename_i hqp
    subst hqp
    obtain ⟨-, -, rfl⟩ := Option.map_eq_some'.1 hq
    exact hsrc
  · exact hix q d hq

/-- **A write carrying `P` keeps every document a lease satisfying `P`**, for a `P` only full
leases satisfy: a create adds its document, an update of a full lease by a full lease leaves
the change. -/
theorem Write.apply_holds {ix' : Index} {w : Write} (hw : w.Carries P)
    (h : w.apply ix = .ok ix') : Index.Holds P ix' := by
  cases w with
  | create p b =>
    intro q d hq
    by_cases hqp : q = p
    · subst hqp
      rw [Write.apply_create h] at hq
      cases hq
      exact hw
    · rw [Write.apply_frame h hqp] at hq
      exact hix q d hq
  | update p b =>
    obtain ⟨src, hsrc, rfl⟩ := Index.update_eq_replace h
    exact Index.holds_replace hix (prepareUpdate_holds hP hix hw hsrc)

end Holds

/-- **A write as the lease functions issue it keeps every document a full lease.** -/
theorem Write.apply_leaseIndex {ix ix' : Index} {w : Write} (hix : LeaseIndex ix) (hw : w.Ok)
    (h : w.apply ix = .ok ix') : LeaseIndex ix' :=
  Write.apply_holds (fun _ _ h => h) hix hw h

/-- A write that lands keeps the ids distinct. -/
theorem Write.apply_nodup {ix ix' : Index} {w : Write} (h : w.apply ix = .ok ix')
    (hnd : (ix.map Prod.fst).Nodup) : (ix'.map Prod.fst).Nodup := by
  cases w with
  | create p b =>
    cases hp : ix.lookup p with
    | none =>
      rw [Write.apply, Index.create_ok hp] at h
      cases h
      rw [List.map_append, List.nodup_append]
      refine ⟨hnd, List.nodup_singleton _, fun a ha hb => ?_⟩
      rw [List.map_singleton, List.mem_singleton] at hb
      subst hb
      exact absurd (lookup_isSome_iff.2 ha) (by rw [hp]; exact Bool.false_ne_true)
    | some _ => rw [Write.apply, Index.create_taken hp] at h; cases h
  | update p b =>
    obtain ⟨src, -, rfl⟩ := Index.update_eq_replace h
    rwa [Index.replace_keys]

/-! ## What a call issues after its read -/

theorem claim_eq (l : PolicyLeader) (serverId version : String) (now : Int) :
    claim l serverId version now = ⟨some ⟨serverId, version⟩, timeText now⟩ := rfl

section AfterRead

variable {p s v : String} {dt now : Int} {data : Except StoreError Json} {w : Write}

/-- What a take writes: a new lease when its read found no document, else the lease it read,
claimed. -/
theorem takeAfterRead_cases (h : takeAfterRead p s v now data = .ok w) :
    w = .create p (claim .zero s v now).encode ∨
      ∃ doc l, data = .ok doc ∧ w = .update p (docBody (claim l s v now)) := by
  unfold takeAfterRead at h
  split at h
  · cases h; exact .inl rfl
  · cases h
  · split at h
    · cases h
    · cases h; exact .inr ⟨_, _, rfl, rfl⟩

/-- Every write a take issues is a full lease, to its own policy. -/
theorem takeAfterRead_write (h : takeAfterRead p s v now data = .ok w) :
    w.Ok ∧ w.policyId = p := by
  rcases takeAfterRead_cases h with rfl | ⟨doc, l, -, rfl⟩
  · exact ⟨⟨_, claim_full .zero s v now, rfl⟩, rfl⟩
  · exact ⟨⟨_, claim_full l s v now, rfl⟩, rfl⟩

/-- What a release writes: the lease it read, of its own server, timed back. -/
theorem releaseAfterRead_cases (h : releaseAfterRead p s dt now data = .write w) :
    ∃ doc l m, data = .ok doc ∧ decodeLeader doc = .ok l ∧ l.server = some m ∧ m.id = s ∧
      w = .update p (docBody (l.setTime (now - dt))) := by
  cases data with
  | error e => cases e <;> cases h
  | ok doc =>
    cases hl : decodeLeader doc with
    | error e => simp [releaseAfterRead, hl] at h
    | ok l =>
      cases hm : l.server with
      | none => simp [releaseAfterRead, hl, hm] at h
      | some m =>
        by_cases hs : m.id = s
        · simp only [releaseAfterRead, hl, hm, hs, ne_eq, not_true_eq_false, if_false,
            ReleaseStep.write.injEq] at h
          exact ⟨doc, l, m, rfl, hl, hm, hs, h.symm⟩
        · simp [releaseAfterRead, hl, hm, hs] at h

/-- Every write a release issues is a full lease, to its own policy: it writes back only a
lease whose server it has just read. -/
theorem releaseAfterRead_write (h : releaseAfterRead p s dt now data = .write w) :
    w.Ok ∧ w.policyId = p := by
  obtain ⟨doc, l, m, -, -, hm, -, rfl⟩ := releaseAfterRead_cases h
  exact ⟨⟨_, setTime_full (by simp [hm]) _, rfl⟩, rfl⟩

/-- A release whose read returned nothing or a full lease never reads a nil server. -/
theorem releaseAfterRead_ne_panic (h : ∀ d, data = .ok d → LeaseDoc d) :
    releaseAfterRead p s dt now data ≠ .panic := by
  unfold releaseAfterRead
  split
  · nofun
  · nofun
  · rename_i d
    obtain ⟨l, ⟨hs, -⟩, rfl⟩ := h d rfl
    obtain ⟨m, hm⟩ := Option.isSome_iff_exists.1 hs
    simp only [decodeLeader_encode, hm]
    split <;> nofun

end AfterRead

/-! ## One call run alone -/

theorem read_lease {ix : Index} {p : String} {l : PolicyLeader} (h : ix.lookup p = some l.encode) :
    ix.read p = .ok l.encode := by
  simp [Index.read, h]

theorem read_missing {ix : Index} {p : String} (h : ix.lookup p = none) :
    ix.read p = .error .notFound := by
  simp [Index.read, h]

/-- Every document read from an index of full leases is one. -/
theorem read_leaseDoc {ix : Index} (hix : LeaseIndex ix) (p : String) :
    ∀ d, ix.read p = .ok d → LeaseDoc d := by
  intro d h
  unfold Index.read at h
  split at h
  · cases h
    exact hix p d ‹_›
  · cases h

/-- After a take run alone the lease of its policy is its claim, whatever was there. -/
theorem take_run_lookup {ix : Index} (hix : LeaseIndex ix) (p s v : String) (now : Int) :
    ((LeaseCall.take p s v now).run ix).lookup p = some (claim .zero s v now).encode := by
  cases hp : ix.lookup p with
  | none =>
    have hc := Index.create_ok hp (claim .zero s v now).encode
    simp [LeaseCall.run, takePolicyLeadership, takeAfterRead, read_missing hp, Write.apply, hc,
      Index.lookup_append_new hp]
  | some d =>
    obtain ⟨l, hl, rfl⟩ := hix p d hp
    have hw : (Write.update p (docBody (claim l s v now))).apply ix =
        .ok (Index.replace p (mergeSource l.encode (claim l s v now).encode) ix) := by
      rw [Write.apply, docBody, Index.update_ok hp]
    simp only [LeaseCall.run, takePolicyLeadership, takeAfterRead, read_lease hp,
      decodeLeader_encode, hw]
    rw [Write.apply_update hp hl (claim_full l s v now) hw, claim_eq, claim_eq]

/-- A take run alone changes no other policy's document. -/
theorem take_run_frame (ix : Index) {p q : String} (hq : q ≠ p) (s v : String) (now : Int) :
    ((LeaseCall.take p s v now).run ix).lookup q = ix.lookup q := by
  simp only [LeaseCall.run, takePolicyLeadership]
  split
  · rfl
  · rename_i w hw
    split
    · exact Write.apply_frame ‹_› ((takeAfterRead_write hw).2 ▸ hq)
    · rfl

/-- The lease a release by `s` leaves in place of `l`: `l` timed `t` when `s` holds it, else
`l`. -/
def releaseLease (s : String) (t : Int) (l : PolicyLeader) : PolicyLeader :=
  if l.server.map (·.id) = some s then l.setTime t else l

theorem releaseLease_full {l : PolicyLeader} (hl : l.Full) (s : String) (t : Int) :
    (releaseLease s t l).Full := by
  unfold releaseLease
  split
  · exact setTime_full hl.1 t
  · exact hl

/-- A release run alone on a policy with no lease changes nothing. -/
theorem release_run_missing {ix : Index} {p : String} (hp : ix.lookup p = none) (s : String)
    (d now : Int) : (LeaseCall.release p s d now).run ix = ix := by
  simp [LeaseCall.run, releasePolicyLeadership, releaseAfterRead, read_missing hp]

/-- A release run alone by a server that does not hold the lease changes nothing. -/
theorem release_run_other {ix : Index} {p s : String} {l : PolicyLeader}
    (hp : ix.lookup p = some l.encode) (hs : l.server.map (·.id) ≠ some s) (d now : Int) :
    (LeaseCall.release p s d now).run ix = ix := by
  simp only [LeaseCall.run, releasePolicyLeadership, releaseAfterRead, read_lease hp,
    decodeLeader_encode]
  cases hl : l.server with
  | none => rfl
  | some m =>
    rw [hl] at hs
    simp only [Option.map_some', ne_eq, Option.some.injEq] at hs
    simp [hs]

/-- After a release run alone the lease of its policy is `releaseLease`. -/
theorem release_run_lookup {ix : Index} {p : String} {l : PolicyLeader}
    (hp : ix.lookup p = some l.encode) (hl : l.Full) (s : String) (d now : Int) :
    ((LeaseCall.release p s d now).run ix).lookup p = some (releaseLease s (now - d) l).encode := by
  by_cases hs : l.server.map (·.id) = some s
  · obtain ⟨m, hm⟩ := Option.isSome_iff_exists.1 hl.1
    have hid : m.id = s := by simpa [hm] using hs
    have hw : (Write.update p (docBody (l.setTime (now - d)))).apply ix =
        .ok (Index.replace p (mergeSource l.encode (l.setTime (now - d)).encode) ix) := by
      rw [Write.apply, docBody, Index.update_ok hp]
    simp only [LeaseCall.run, releasePolicyLeadership, releaseAfterRead, read_lease hp,
      decodeLeader_encode, hm, hid, ne_eq, not_true_eq_false, if_false, hw, Except.toOption,
      Option.getD_some]
    rw [Write.apply_update hp hl (setTime_full hl.1 _) hw, releaseLease, if_pos hs]
  · rw [release_run_other hp hs, hp, releaseLease, if_neg hs]

/-- A release run alone changes no other policy's document. -/
theorem release_run_frame (ix : Index) {p q : String} (hq : q ≠ p) (s : String) (d now : Int) :
    ((LeaseCall.release p s d now).run ix).lookup q = ix.lookup q := by
  simp only [LeaseCall.run, releasePolicyLeadership]
  split
  · rfl
  · rfl
  · rename_i w hw
    cases hap : w.apply ix with
    | error e => rfl
    | ok ix' => exact Write.apply_frame hap ((releaseAfterRead_write hw).2 ▸ hq)

/-- A call run alone leaves the index as it was, or as its write, a full lease, left it. -/
theorem LeaseCall.run_cases (ix : Index) :
    ∀ c : LeaseCall, c.run ix = ix ∨ ∃ w : Write, w.Ok ∧ w.apply ix = .ok (c.run ix)
  | .take p s v now => by
    simp only [LeaseCall.run, takePolicyLeadership]
    split
    · exact .inl rfl
    · rename_i w hw
      split
      · exact .inr ⟨w, (takeAfterRead_write hw).1, ‹_›⟩
      · exact .inl rfl
  | .release p s d now => by
    simp only [LeaseCall.run, releasePolicyLeadership]
    split
    · exact .inl rfl
    · exact .inl rfl
    · rename_i w hw
      cases hap : w.apply ix with
      | error e => exact .inl rfl
      | ok ix' => exact .inr ⟨w, (releaseAfterRead_write hw).1, hap⟩

/-- Every call run alone keeps every document a full lease. -/
theorem run_leaseIndex {ix : Index} (hix : LeaseIndex ix) (c : LeaseCall) : LeaseIndex (c.run ix) := by
  rcases LeaseCall.run_cases ix c with h | ⟨w, hw, hap⟩
  · rw [h]; exact hix
  · exact Write.apply_leaseIndex hix hw hap

/-- Every call run alone keeps the ids distinct. -/
theorem run_nodup {ix : Index} (hnd : (ix.map Prod.fst).Nodup) (c : LeaseCall) :
    ((c.run ix).map Prod.fst).Nodup := by
  rcases LeaseCall.run_cases ix c with h | ⟨w, -, hap⟩
  · rw [h]; exact hnd
  · exact Write.apply_nodup hap hnd

end Dl
end FleetServer
