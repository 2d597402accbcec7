import FleetServer.Dl.LeaseSeq

/-!
# FleetServer.Dl.LeaseRuns

The lease calls of many servers at once. Each call is its read step, which decides the write
from what it read, and later its write, when it reaches the store; the steps of all calls
interleave in any order, and a write may also be lost (its store call fails). The store carries
out an update in two steps: it gets the document and merges the change into its source, then
indexes the merged source. A write of another call can land between the two; the document's
`_version` is then no longer the one the get saw, and the index fails with a version conflict.
`Sys` is the index with the writes in flight, the updates the store has begun, and the
document each write changed, which gives the versions.

* `Sys.step_cases` says once what a step can do, and `Sys.step_holds` derives from it that a
  property of leases held by every stored lease, write in flight and update begun is kept.
* `lease_server_never_nil`: every lease of every state reached has a server, so a release never
  dereferences a nil one.
* `release_overwrites_newer_claim`: the update a release sends carries no version from its read,
  so a take landing after the read and before the store's get is undone by it. Only a take
  landing between the get and the index makes the update fail, with the version conflict
  `ReleasePolicyLeadership` reads as success.
* `lease_writes_succeed_or_conflict`: the store answers every write of the lease calls with
  success or a version conflict, never with a missing document, so a release never fails on its
  write.
* `leases_are_never_forged`: the lease of a policy names a server and version that a take of the
  policy claimed, timed by such a take or by a release of the policy by that server.
-/

namespace FleetServer
namespace Dl

/-- The index, the writes of the calls that have read and not yet written, the updates the
store has begun, and the document each write changed. -/
structure Sys where
  index : Index
  inflight : List Write
  /-- Each update the store has begun: the document's id, the source its get merged the change
  into, and the document's version then. -/
  begun : List (String × Json × Nat)
  /-- The id of the document each write changed, in the order the writes landed. -/
  changes : List String

/-- No lease, nothing in flight. -/
def Sys.init : Sys := ⟨[], [], [], []⟩

/-- `_version` of a document: how many writes changed it. -/
def Sys.version (S : Sys) (p : String) : Nat := S.changes.count p

/-- A step of some call, or of the store. -/
inductive Action where
  /-- A call reads the lease; the write it decides on is then in flight. -/
  | read (c : LeaseCall)
  /-- The `i`-th write in flight reaches the store and is carried out, with nothing landing
  between an update's get and its index. -/
  | write (i : Nat)
  /-- The `i`-th write in flight is lost: its store call fails. -/
  | lose (i : Nat)
  /-- The store begins the `i`-th write in flight, an update: it gets the document and merges the
  change into its source. -/
  | get (i : Nat)
  /-- The store indexes the `j`-th update it began, if the document's version is still the one
  its get saw; otherwise the update fails with a version conflict. -/
  | index (j : Nat)
  deriving DecidableEq, Repr

/-- The write a call issues after its read returned `data`, if any. -/
def LeaseCall.afterRead (data : Except StoreError Json) : LeaseCall → Option Write
  | .take p s v now => (takeAfterRead p s v now data).toOption
  | .release p s d now =>
    match releaseAfterRead p s d now data with
    | .write w => some w
    | _ => none

/-- The index `ix'` a write to `p` left; the write counts as a change of `p` when the document is
no longer the same (an update that leaves the source as it is, is a no-op, `detect_noop`). -/
def Sys.land (S : Sys) (p : String) (ix' : Index) : Sys :=
  { S with index := ix',
           changes := if ix'.lookup p = S.index.lookup p then S.changes else S.changes ++ [p] }

/-- One step. A write the store refuses (a version conflict, a missing document) changes
nothing, as a lost one does. -/
def Sys.step (S : Sys) : Action → Sys
  | .read c =>
    match c.afterRead (S.index.read c.policyId) with
    | some w => { S with inflight := S.inflight ++ [w] }
    | none => S
  | .write i =>
    match S.inflight[i]? with
    | some w => ({ S with inflight := S.inflight.eraseIdx i } : Sys).land w.policyId
        ((w.apply S.index).toOption.getD S.index)
    | none => S
  | .lose i => { S with inflight := S.inflight.eraseIdx i }
  | .get i =>
    match S.inflight[i]? with
    | some (.update p body) =>
      { S with inflight := S.inflight.eraseIdx i,
               begun := S.begun ++ ((S.index.prepareUpdate p body).toOption.map
                 fun src => (p, src, S.version p)).toList }
    | _ => S
  | .index j =>
    match S.begun[j]? with
    | some (p, src, v) =>
      let S' : Sys := { S with begun := S.begun.eraseIdx j }
      if S.version p = v then S'.land p (Index.replace p src S.index) else S'
    | none => S

/-- What the store answers the call whose write a step carries out: a write reaching the store,
an update whose get fails, an update indexed or refused for a version conflict. -/
def Sys.answer (S : Sys) : Action → Option (Except StoreError Unit)
  | .write i => S.inflight[i]?.map fun w => (w.apply S.index).map fun _ => ()
  | .get i =>
    match S.inflight[i]? with
    | some (.update p body) =>
      match S.index.prepareUpdate p body with
      | .ok _ => none
      | .error e => some (.error e)
    | _ => none
  | .index j =>
    S.begun[j]?.map fun b => if S.version b.1 = b.2.2 then .ok () else .error .versionConflict
  | _ => none

/-- The steps one after another. -/
def Sys.run (S : Sys) (acts : List Action) : Sys := acts.foldl Sys.step S

/-! ## What a step can do -/

/-- **What a step can do**: the index stays, or a write in flight lands on it, or an update begun
is indexed; a write in flight was in flight before or was just issued by a read; an update begun
was begun before or is a write in flight whose get just merged it. -/
theorem Sys.step_cases (S : Sys) (a : Action) :
    ((S.step a).index = S.index ∨ (∃ w ∈ S.inflight, w.apply S.index = .ok (S.step a).index) ∨
      ∃ b ∈ S.begun, (S.step a).index = Index.replace b.1 b.2.1 S.index) ∧
    (∀ w ∈ (S.step a).inflight, w ∈ S.inflight ∨
      ∃ c, a = .read c ∧ c.afterRead (S.index.read c.policyId) = some w) ∧
    (∀ b ∈ (S.step a).begun, b ∈ S.begun ∨
      ∃ body, .update b.1 body ∈ S.inflight ∧ S.index.prepareUpdate b.1 body = .ok b.2.1) := by
  cases a with
  | read c =>
    simp only [Sys.step]
    split
    · rename_i w hw
      refine ⟨.inl rfl, fun w' h => ?_, fun b hb => .inl hb⟩
      rcases List.mem_append.1 h with h | h
      · exact .inl h
      · exact .inr ⟨c, rfl, by rw [List.mem_singleton.1 h]; exact hw⟩
    · exact ⟨.inl rfl, fun _ h => .inl h, fun _ h => .inl h⟩
  | write i =>
    simp only [Sys.step]
    split
    · rename_i w hw
      refine ⟨?_, fun w' h => .inl (List.mem_of_mem_eraseIdx h), fun b hb => .inl hb⟩
      cases hap : w.apply S.index with
      | error e => exact .inl (by simp [Sys.land, hap, Except.toOption])
      | ok ix' =>
        exact .inr (.inl ⟨w, List.getElem?_mem hw, by simp [Sys.land, hap, Except.toOption]⟩)
    · exact ⟨.inl rfl, fun _ h => .inl h, fun _ h => .inl h⟩
  | lose i => exact ⟨.inl rfl, fun _ h => .inl (List.mem_of_mem_eraseIdx h), fun _ h => .inl h⟩
  | get i =>
    simp only [Sys.step]
    split
    · rename_i p body hw
      refine ⟨.inl rfl, fun w h => .inl (List.mem_of_mem_eraseIdx h), fun b hb => ?_⟩
      rcases List.mem_append.1 hb with hb | hb
      · exact .inl hb
      · cases hp : S.index.prepareUpdate p body with
        | error e => simp [hp, Except.toOption] at hb
        | ok src =>
          simp only [hp, Except.toOption, Option.map_some', Option.toList_some,
            List.mem_singleton] at hb
          subst hb
          exact .inr ⟨body, List.getElem?_mem hw, hp⟩
    · exact ⟨.inl rfl, fun _ h => .inl h, fun _ h => .inl h⟩
  | index j =>
    simp only [Sys.step]
    split
    · rename_i p src v hb
      split
      · refine ⟨.inr (.inr ⟨(p, src, v), List.getElem?_mem hb, rfl⟩), fun w hw => .inl hw,
          fun b h => .inl (List.mem_of_mem_eraseIdx h)⟩
      · exact ⟨.inl rfl, fun _ h => .inl h, fun _ h => .inl (List.mem_of_mem_eraseIdx h)⟩
    · exact ⟨.inl rfl, fun _ h => .inl h, fun _ h => .inl h⟩

/-! ## Properties every lease of the system keeps -/

/-- Every lease of the system satisfies `P` for its policy: each stored one, the one each write
in flight carries, and the source each update begun merged. -/
structure Sys.Holds (P : String → PolicyLeader → Prop) (S : Sys) : Prop where
  index : Index.Holds P S.index
  inflight : ∀ w ∈ S.inflight, w.Carries P
  begun : ∀ b ∈ S.begun, ∃ l, P b.1 l ∧ b.2.1 = l.encode

theorem Sys.init_holds (P : String → PolicyLeader → Prop) : Sys.init.Holds P :=
  ⟨fun _ _ h => (nomatch h), fun _ h => (nomatch h), fun _ h => (nomatch h)⟩

/-- **A step keeps a property of full leases** that every write a read issues in it carries. -/
theorem Sys.step_holds {P : String → PolicyLeader → Prop} (hP : ∀ p l, P p l → l.Full)
    {S : Sys} (hS : S.Holds P) (a : Action)
    (hread : ∀ c w, a = .read c → c.afterRead (S.index.read c.policyId) = some w → w.Carries P) :
    (S.step a).Holds P := by
  obtain ⟨hix, hinf, hbeg⟩ := S.step_cases a
  refine ⟨?_, fun w hw => ?_, fun b hb => ?_⟩
  · rcases hix with h | ⟨w, hw, h⟩ | ⟨b, hb, h⟩
    · rw [h]; exact hS.index
    · exact Write.apply_holds hP hS.index (hS.inflight w hw) h
    · rw [h]; exact Index.holds_replace hS.index (hS.begun b hb)
  · rcases hinf w hw with hw | ⟨c, rfl, hc⟩
    · exact hS.inflight w hw
    · exact hread c w rfl hc
  · rcases hbeg b hb with hb | ⟨body, hw, hp⟩
    · exact hS.begun b hb
    · exact prepareUpdate_holds hP hS.index (hS.inflight _ hw) hp

/-- What a call issues after its read: a take, its claim, as a create when the read found no
document and as an update of the document it read otherwise; a release holding the lease it
read, that lease re-timed. -/
theorem LeaseCall.afterRead_cases {data : Except StoreError Json} {w : Write} :
    ∀ c : LeaseCall, c.afterRead data = some w →
      (∃ p s v now, c = .take p s v now ∧
        (w = .create p (claim .zero s v now).encode ∨
          ∃ doc l, data = .ok doc ∧ w = .update p (docBody (claim l s v now)))) ∨
      ∃ p s d now doc l m, c = .release p s d now ∧ data = .ok doc ∧ decodeLeader doc = .ok l ∧
        l.server = some m ∧ m.id = s ∧ w = .update p (docBody (l.setTime (now - d)))
  | .take p s v now, h => by
    refine .inl ⟨p, s, v, now, rfl, takeAfterRead_cases ?_⟩
    simp only [LeaseCall.afterRead, Except.toOption] at h
    split at h
    · cases h; assumption
    · cases h
  | .release p s d now, h => by
    simp only [LeaseCall.afterRead] at h
    split at h
    · cases h
      obtain ⟨doc, l, m, hd, hl, hm, hs, rfl⟩ := releaseAfterRead_cases ‹_›
      exact .inr ⟨p, s, d, now, doc, l, m, rfl, hd, hl, hm, hs, rfl⟩
    · cases h

/-! ## Every lease has a server -/

/-- Every lease of the system is full. -/
def Sys.Inv (S : Sys) : Prop := S.Holds fun _ l => l.Full

theorem LeaseCall.afterRead_ok {data : Except StoreError Json} {w : Write} (c : LeaseCall)
    (h : c.afterRead data = some w) : w.Ok := by
  rcases c.afterRead_cases h with ⟨p, s, v, now, -, rfl | ⟨doc, l, -, rfl⟩⟩ |
    ⟨p, s, d, now, doc, l, m, -, -, -, hm, -, rfl⟩
  · exact ⟨_, claim_full .zero s v now, rfl⟩
  · exact ⟨_, claim_full l s v now, rfl⟩
  · exact ⟨_, setTime_full (by simp [hm]) _, rfl⟩

theorem Sys.init_inv : Sys.init.Inv := Sys.init_holds _

/-- **Every step keeps the invariant.** -/
theorem Sys.step_inv {S : Sys} (hS : S.Inv) (a : Action) : (S.step a).Inv :=
  Sys.step_holds (fun _ _ h => h) hS a fun c _ _ hc => c.afterRead_ok hc

theorem Sys.run_inv {S : Sys} (hS : S.Inv) : ∀ acts, (S.run acts).Inv
  | [] => hS
  | a :: acts => Sys.run_inv (Sys.step_inv hS a) acts

/-- **No nil server**: in every state any interleaving reaches from an empty index, every lease
document decodes to a lease with a server, and no release's read can lead it to dereference a
nil server. -/
theorem lease_server_never_nil (acts : List Action) :
    (∀ p doc, (Sys.init.run acts).index.lookup p = some doc →
      ∃ l, decodeLeader doc = .ok l ∧ l.server.isSome) ∧
    ∀ p s d now, releaseAfterRead p s d now ((Sys.init.run acts).index.read p) ≠ .panic := by
  have hix := (Sys.run_inv Sys.init_inv acts).index
  refine ⟨fun p doc h => ?_, fun p s d now => releaseAfterRead_ne_panic (read_leaseDoc hix p)⟩
  obtain ⟨l, hl, rfl⟩ := hix p doc h
  exact ⟨l, decodeLeader_encode l, hl.1⟩

/-! ## A release's write -/

/-- A run of two servers: `A` takes `p` at 0; `A` starts releasing it at 10 with interval 5 and
reads its own lease; `B` then takes `p` at 20, read and write; `A`'s write lands last, the
store's get and index with nothing between them. `B`'s claim was stored after `A`'s read and
before the get, so the index meets no conflict, and `A`'s write replaces `B`'s claim by `A`'s
lease timed 5. -/
theorem release_overwrites_newer_claim :
    let S : Sys := Sys.init.run [.read (.take "p" "A" "1" 0), .write 0, .read (.release "p" "A" 5 10),
      .read (.take "p" "B" "1" 20), .write 1]
    S.inflight = [.update "p" (docBody ⟨some ⟨"A", "1"⟩, timeText 5⟩)] ∧
    S.index.lookup "p" = some (⟨some ⟨"B", "1"⟩, timeText 20⟩ : PolicyLeader).encode ∧
    (S.step (.write 0)).index.lookup "p" =
      some (⟨some ⟨"A", "1"⟩, timeText 5⟩ : PolicyLeader).encode := by
  decide

/-! ## What the store answers -/

theorem read_ok_lookup {ix : Index} {q : String} {d : Json} (h : ix.read q = .ok d) :
    ix.lookup q = some d := by
  unfold Index.read at h
  split at h
  · cases h; assumption
  · cases h

theorem Index.replace_isSome (p : String) (src : Json) {ix : Index} {q : String}
    (hq : (ix.lookup q).isSome) : ((Index.replace p src ix).lookup q).isSome := by
  rw [Index.lookup_replace]
  split <;> simpa using hq

/-- A write that lands keeps every document there. -/
theorem Write.apply_isSome {ix ix' : Index} {w : Write} (h : w.apply ix = .ok ix') {q : String}
    (hq : (ix.lookup q).isSome) : (ix'.lookup q).isSome := by
  cases w with
  | create p b =>
    by_cases hqp : q = p
    · subst hqp; rw [Write.apply_create h]; rfl
    · rwa [Write.apply_frame h hqp]
  | update p b =>
    obtain ⟨src, -, rfl⟩ := Index.update_eq_replace h
    exact Index.replace_isSome p src hq

/-- No step removes a document. -/
theorem Sys.step_isSome (S : Sys) (a : Action) {q : String} (hq : (S.index.lookup q).isSome) :
    ((S.step a).index.lookup q).isSome := by
  rcases (S.step_cases a).1 with h | ⟨w, -, h⟩ | ⟨b, -, h⟩
  · rwa [h]
  · exact Write.apply_isSome h hq
  · rw [h]; exact Index.replace_isSome _ _ hq

/-- Every update in flight goes to a document that is there. -/
def Sys.UpdatesFound (S : Sys) : Prop :=
  ∀ p b, Write.update p b ∈ S.inflight → (S.index.lookup p).isSome

theorem Sys.step_updatesFound {S : Sys} (hS : S.UpdatesFound) (a : Action) :
    (S.step a).UpdatesFound := by
  intro p b hw
  refine S.step_isSome a ?_
  rcases (S.step_cases a).2.1 _ hw with hw | ⟨c, -, hc⟩
  · exact hS p b hw
  · rcases c.afterRead_cases hc with ⟨p', s, v, now, rfl, h | ⟨doc, l, hd, h⟩⟩ |
      ⟨p', s, d, now, doc, l, m, rfl, hd, -, -, -, h⟩ <;> cases h
    all_goals rw [show S.index.lookup p = some doc from read_ok_lookup hd]; rfl

theorem Sys.init_updatesFound : Sys.init.UpdatesFound := by
  intro p b h
  cases h

theorem Sys.run_updatesFound : ∀ {S : Sys}, S.UpdatesFound → ∀ acts, (S.run acts).UpdatesFound
  | _, hS, [] => hS
  | S, hS, a :: acts => Sys.run_updatesFound (S.step_updatesFound hS a) acts

/-- **The store answers every lease write with success or a version conflict**: in every state an
interleaving reaches from an empty index, whatever step comes next, a write reaching the store,
the get of an update and its index are answered with success or a version conflict, never with a
missing document or a malformed update. `ReleasePolicyLeadership` reads both as success: a
release never fails on its write, while a take fails, with the conflict, when it loses a race. -/
theorem lease_writes_succeed_or_conflict (acts : List Action) (a : Action) :
    ∀ r ∈ (Sys.init.run acts).answer a,
      (r = .ok () ∨ r = .error .versionConflict) ∧ releaseAfterWrite r = .ok () := by
  have hinv := Sys.run_inv Sys.init_inv acts
  have hupd := Sys.run_updatesFound Sys.init_updatesFound acts
  have hprep : ∀ p b, Write.update p b ∈ (Sys.init.run acts).inflight →
      ∃ src, (Sys.init.run acts).index.prepareUpdate p b = .ok src := by
    intro p b hw
    obtain ⟨l, -, rfl⟩ := hinv.inflight _ hw
    obtain ⟨src, hsrc⟩ := Option.isSome_iff_exists.1 (hupd p _ hw)
    exact ⟨_, Index.prepareUpdate_ok hsrc _⟩
  intro r hr
  suffices h : r = .ok () ∨ r = .error .versionConflict by
    refine ⟨h, ?_⟩
    rcases h with rfl | rfl <;> rfl
  cases a with
  | write i =>
    simp only [Sys.answer, Option.mem_def, Option.map_eq_some'] at hr
    obtain ⟨w, hw, rfl⟩ := hr
    cases w with
    | create p b =>
      cases hp : (Sys.init.run acts).index.lookup p with
      | none => exact .inl (by simp [Write.apply, Index.create_ok hp])
      | some _ => exact .inr (by simp [Write.apply, Index.create_taken hp])
    | update p b =>
      obtain ⟨src, hsrc⟩ := hprep p b (List.getElem?_mem hw)
      exact .inl (by simp [Write.apply, Index.update, hsrc])
  | get i =>
    simp only [Sys.answer, Option.mem_def] at hr
    split at hr
    · rename_i p b hw
      obtain ⟨src, hsrc⟩ := hprep p b (List.getElem?_mem hw)
      simp [hsrc] at hr
    · cases hr
  | index j =>
    simp only [Sys.answer, Option.mem_def, Option.map_eq_some'] at hr
    obtain ⟨b, -, rfl⟩ := hr
    split <;> simp
  | read c => cases hr
  | lose i => cases hr

/-- `A` reads its lease to release it and the store gets it for `A`'s update; `B`'s take then
lands before the index. `A`'s update is refused with a version conflict, which
`ReleasePolicyLeadership` reads as success, and `B`'s claim stays. -/
theorem lease_writes_succeed_or_conflict_example :
    let acts : List Action := [.read (.take "p" "A" "1" 0), .write 0,
      .read (.release "p" "A" 5 10), .get 0, .read (.take "p" "B" "1" 20), .write 0]
    (Sys.init.run acts).answer (.index 0) = some (.error .versionConflict) ∧
      ((Sys.init.run acts).step (.index 0)).index.lookup "p" =
        some (⟨some ⟨"B", "1"⟩, timeText 20⟩ : PolicyLeader).encode ∧
      (((.error .versionConflict : Except StoreError Unit) = .ok () ∨
          (.error .versionConflict : Except StoreError Unit) = .error .versionConflict) ∧
        releaseAfterWrite (.error .versionConflict : Except StoreError Unit) = .ok ()) := by
  intro acts
  have h : (Sys.init.run acts).answer (.index 0) = some (.error .versionConflict) := rfl
  exact ⟨h, by decide, lease_writes_succeed_or_conflict acts (.index 0) _ h⟩

/-! ## Every lease comes from a take -/

/-- The lease `l` of `p` is one the calls `R` could have written: it names a server and version
that a take of `p` among them claimed, with the time of such a take or of a release of `p` by
that server among them. -/
def Claimed (R : LeaseCall → Prop) (p : String) (l : PolicyLeader) : Prop :=
  ∃ s v, l.server = some ⟨s, v⟩ ∧ (∃ t, R (.take p s v t)) ∧
    ((∃ t, R (.take p s v t) ∧ l.timestamp = timeText t) ∨
      ∃ d now, R (.release p s d now) ∧ l.timestamp = timeText (now - d))

section Claimed

variable {R : LeaseCall → Prop}

/-- A call of `R` reading a system whose leases the calls `R` could all have written issues a
write carrying such a lease: a take its own claim, a release the lease it read, re-timed. -/
theorem afterRead_claimed {S : Sys} (hS : S.Holds fun p l => l.Full ∧ Claimed R p l)
    {c : LeaseCall} (hc : R c) {w : Write} (h : c.afterRead (S.index.read c.policyId) = some w) :
    w.Carries fun p l => l.Full ∧ Claimed R p l := by
  rcases c.afterRead_cases h with ⟨p, s, v, now, rfl, rfl | ⟨doc, l, -, rfl⟩⟩ |
    ⟨p, s, d, now, doc, l, m, rfl, hd, hl, hm, hs, rfl⟩
  · exact ⟨_, ⟨claim_full _ s v now, s, v, rfl, ⟨now, hc⟩, .inl ⟨now, hc, rfl⟩⟩, rfl⟩
  · exact ⟨_, ⟨claim_full l s v now, s, v, rfl, ⟨now, hc⟩, .inl ⟨now, hc, rfl⟩⟩, rfl⟩
  · obtain ⟨l₀, ⟨hfull, s₀, v₀, hsv, htake, -⟩, rfl⟩ := hS.index p doc (read_ok_lookup hd)
    rw [decodeLeader_encode, Except.ok.injEq] at hl
    subst hl
    rw [hsv, Option.some.injEq] at hm
    subst hm
    subst hs
    exact ⟨_, ⟨setTime_full hfull.1 _, _, v₀, hsv, htake, .inr ⟨d, now, hc, rfl⟩⟩, rfl⟩

theorem Sys.run_claimed : ∀ {S : Sys} (acts : List Action),
    S.Holds (fun p l => l.Full ∧ Claimed R p l) → (∀ c, .read c ∈ acts → R c) →
    (S.run acts).Holds fun p l => l.Full ∧ Claimed R p l
  | _, [], hS, _ => hS
  | _, a :: acts, hS, hR =>
    Sys.run_claimed acts
      (Sys.step_holds (fun _ _ h => h.1) hS a fun c _ ha hw =>
        afterRead_claimed hS (hR c (ha ▸ List.mem_cons_self _ _)) hw)
      fun c hc => hR c (List.mem_cons_of_mem _ hc)

end Claimed

/-- **No lease is forged**: in every state an interleaving of lease calls reaches from an empty
index, with lost writes and version conflicts, the lease of a policy names a server and version
that a `TakePolicyLeadership` of that policy in the run claimed, and its time is that of such a
take or the release time of a `ReleasePolicyLeadership` of that policy by that server in the
run. -/
theorem leases_are_never_forged (acts : List Action) {p : String} {doc : Json}
    (h : (Sys.init.run acts).index.lookup p = some doc) :
    ∃ l s v, decodeLeader doc = .ok l ∧ l.server = some ⟨s, v⟩ ∧
      (∃ t, .read (.take p s v t) ∈ acts) ∧
      ((∃ t, .read (.take p s v t) ∈ acts ∧ l.timestamp = timeText t) ∨
        ∃ d now, .read (.release p s d now) ∈ acts ∧ l.timestamp = timeText (now - d)) := by
  obtain ⟨l, ⟨-, s, v, hsv, htake, htime⟩, rfl⟩ :=
    (@Sys.run_claimed (fun c => .read c ∈ acts) _ acts (Sys.init_holds _) fun _ h => h).index
      p doc h
  exact ⟨l, s, v, decodeLeader_encode l, hsv, htake, htime⟩

theorem leases_are_never_forged_example :
    let acts : List Action := [.read (.take "p" "A" "1" 0), .write 0, .read (.release "p" "A" 5 10),
      .write 0]
    let doc := (⟨some ⟨"A", "1"⟩, timeText 5⟩ : PolicyLeader).encode
    (Sys.init.run acts).index.lookup "p" = some doc ∧
    ∃ l s v, decodeLeader doc = .ok l ∧ l.server = some ⟨s, v⟩ ∧
      (∃ t, .read (.take "p" s v t) ∈ acts) ∧
      ((∃ t, .read (.take "p" s v t) ∈ acts ∧ l.timestamp = timeText t) ∨
        ∃ d now, .read (.release "p" s d now) ∈ acts ∧ l.timestamp = timeText (now - d)) := by
  intro acts doc
  have h : (Sys.init.run acts).index.lookup "p" = some doc := by decide
  exact ⟨h, leases_are_never_forged acts h⟩

end Dl
end FleetServer
