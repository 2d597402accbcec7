import FleetServer.Json.Struct

/-!
# FleetServer.Dl.Store

The document store as `bulk.Bulk` presents one index of it to `dl`: documents by id, each its
`_source` text, in the order they were created. The store is outside the repository; this is
what the calls made on it do in Elasticsearch.

* `read`: the source, or `ErrElasticNotFound`.
* `create`: a new document; a version conflict when the id is taken.
* `update`: a partial update `{"doc": ...}`. The store carries it out in two steps: a get of the
  document and the merge of the change into its source, member by member, objects recursively
  (`prepareUpdate`, `mergeValue`); then the index of the merged source, which fails with a version
  conflict when another write changed the document in between (`Dl.Sys`). `update` is the two
  with nothing between them. `dl` passes no version of its own.
* `search`: a `terms` query on `_id`, answered with the first `defaultSearchSize` matching
  documents when the query sets no size.
-/

namespace FleetServer

/-- The errors of the store calls that `dl` distinguishes. -/
inductive StoreError where
  /-- `es.ErrElasticNotFound`. -/
  | notFound
  /-- `es.ErrElasticVersionConflict`. -/
  | versionConflict
  /-- Any other failure, transport included. -/
  | other (reason : String)
  deriving DecidableEq, Repr

/-- One index: `(id, _source)` in creation order. -/
abbrev Index := List (String × Json)

/-- `m[k] = v` on the members of a source, in place when `k` is there, else appended (the
source is an insertion-ordered map). -/
def setMember (k : String) (v : Json) : List (String × Json) → List (String × Json)
  | [] => [(k, v)]
  | (k', v') :: kvs => if k' = k then (k, v) :: kvs else (k', v') :: setMember k v kvs

mutual

/-- The partial-update merge (`XContentHelper.update`) of the change `v` into the member's
current value `cur`: an object changed into an object is merged member by member, anything
else is replaced. -/
def mergeValue (cur : Option Json) : Json → Json
  | .object c =>
    match cur with
    | some (.object o) => .object (mergeMembers o c)
    | _ => .object c
  | v => v

/-- Merge each changed member into the members `old`. -/
def mergeMembers (old : List (String × Json)) : List (String × Json) → List (String × Json)
  | [] => old
  | (k, v) :: rest => mergeMembers (setMember k (mergeValue (old.lookup k) v) old) rest

end

/-- A source after a partial update with `doc`. -/
def mergeSource (src doc : Json) : Json := mergeValue (some src) doc

namespace Index

/-- `bulker.Read(ctx, index, id)`. -/
def read (ix : Index) (id : String) : Except StoreError Json :=
  match ix.lookup id with
  | some src => .ok src
  | none => .error .notFound

/-- `bulker.Create(ctx, index, id, body)`. -/
def create (ix : Index) (id : String) (body : Json) : Except StoreError Index :=
  match ix.lookup id with
  | some _ => .error .versionConflict
  | none => .ok (ix ++ [(id, body)])

/-- Replace the source of `id`. -/
def replace (id : String) (src : Json) : Index → Index
  | [] => []
  | (k, s) :: ix => if k = id then (k, src) :: ix else (k, s) :: replace id src ix

/-- The first step of `bulker.Update(ctx, index, id, body)` with `body = {"doc": doc}`: the
store gets the document and merges `doc` into its source (`UpdateHelper.prepare`). -/
def prepareUpdate (ix : Index) (id : String) (body : Json) : Except StoreError Json :=
  match ix.lookup id, body with
  | none, _ => .error .notFound
  | some src, .object [("doc", doc)] => .ok (mergeSource src doc)
  | some _, _ => .error (.other "action_request_validation_exception")

/-- `bulker.Update(ctx, index, id, body)` when no other write lands between the store's get and
its index: the merged source replaces the document. -/
def update (ix : Index) (id : String) (body : Json) : Except StoreError Index :=
  (ix.prepareUpdate id body).map fun src => replace id src ix

theorem lookup_replace (id q : String) (src : Json) :
    ∀ ix : Index, (replace id src ix).lookup q =
      if q = id then (ix.lookup q).map fun _ => src else ix.lookup q
  | [] => by simp [replace]
  | (k, s) :: ix => by
    by_cases hq : q = k
    · subst hq
      by_cases hk : q = id <;> simp [replace, hk]
    · by_cases hk : k = id
      · subst hk
        simp [replace, lookup_cons_ne hq, hq]
      · simp only [replace, hk, if_false, lookup_cons_ne hq, lookup_replace id q src ix]

theorem replace_keys (id : String) (src : Json) :
    ∀ ix : Index, (replace id src ix).map Prod.fst = ix.map Prod.fst
  | [] => rfl
  | (k, s) :: ix => by
    unfold replace
    split <;> simp [replace_keys id src ix]

theorem lookup_append_new {ix : Index} {id : String} (h : ix.lookup id = none) (b : Json)
    (q : String) : (ix ++ [(id, b)]).lookup q = if q = id then some b else ix.lookup q := by
  rw [List.lookup_append]
  by_cases hq : q = id
  · subst hq; simp [h]
  · cases ix.lookup q <;> simp [lookup_cons_ne hq, hq]

theorem create_ok {ix : Index} {id : String} (h : ix.lookup id = none) (b : Json) :
    ix.create id b = .ok (ix ++ [(id, b)]) := by
  simp [create, h]

theorem create_taken {ix : Index} {id : String} {src : Json} (h : ix.lookup id = some src)
    (b : Json) : ix.create id b = .error .versionConflict := by
  simp [create, h]

theorem prepareUpdate_ok {ix : Index} {id : String} {src : Json} (h : ix.lookup id = some src)
    (doc : Json) : ix.prepareUpdate id (.object [("doc", doc)]) = .ok (mergeSource src doc) := by
  simp [prepareUpdate, h]

theorem update_ok {ix : Index} {id : String} {src : Json} (h : ix.lookup id = some src)
    (doc : Json) :
    ix.update id (.object [("doc", doc)]) = .ok (replace id (mergeSource src doc) ix) := by
  simp [update, prepareUpdate_ok h]

theorem update_missing {ix : Index} {id : String} (h : ix.lookup id = none) (body : Json) :
    ix.update id body = .error .notFound := by
  simp [update, prepareUpdate, h]

/-- An update that succeeds replaces the document by the source its first step merged. -/
theorem update_eq_replace {ix ix' : Index} {id : String} {body : Json}
    (h : ix.update id body = .ok ix') :
    ∃ src, ix.prepareUpdate id body = .ok src ∧ ix' = replace id src ix := by
  unfold update at h
  cases hp : ix.prepareUpdate id body with
  | error e => rw [hp] at h; cases h
  | ok src => rw [hp] at h; cases h; exact ⟨src, rfl, rfl⟩

/-- What the first step of an update merges: the change into the source of a document that is
there. -/
theorem prepareUpdate_eq {ix : Index} {id : String} {body src : Json}
    (h : ix.prepareUpdate id body = .ok src) :
    ∃ old doc, ix.lookup id = some old ∧ body = .object [("doc", doc)] ∧ src = mergeSource old doc := by
  unfold prepareUpdate at h
  split at h
  · cases h
  · cases h; exact ⟨_, _, ‹_›, rfl, rfl⟩
  · cases h

end Index

/-- The page size Elasticsearch answers a search with when the query sets none. -/
def defaultSearchSize : Nat := 10

/-- Elasticsearch's `index.max_terms_count`: a `terms` query with more terms is refused. -/
def maxTermsCount : Nat := 65536

/-- A search hit: `_id` and `_source`. -/
structure Hit where
  id : String
  source : Json

/-- `bulker.Search` with the query `{"query": {"terms": {"_id": ids}}}` and no size: the
matching documents in index order, at most `defaultSearchSize` of them. -/
def Index.searchIds (ix : Index) (ids : List String) : Except StoreError (List Hit) :=
  if maxTermsCount < ids.length then .error (.other "too_many_clauses")
  else .ok (((ix.filter fun p => p.1 ∈ ids).map fun p => ⟨p.1, p.2⟩).take defaultSearchSize)

end FleetServer
