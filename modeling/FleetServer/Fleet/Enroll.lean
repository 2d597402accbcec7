import FleetServer.Fleet.LocalMeta
import FleetServer.Json.Struct
import FleetServer.Dl.Store

/-!
# FleetServer.Fleet.Enroll

`EnrollerT.handleEnroll` and the functions it calls: `fetchEnrollmentKeyRecord`,
`decodeEnrollRequest`, `_enroll`, `generateAccessApiKey`, `createFleetAgent` and
`updateLocalMetaAgentId` (`Fleet.LocalMeta`); and the route handler `Router.handleEnroll`
that calls it.

The collaborators are outside the code: the limiter, the API-key authentication, the cache, the
enrollment-key store, the key minting and the agents index. What each call of one enrollment
returns is given by an `Env` (the cache by its state, `Cache`), and the model records every
call it makes, with what the call returned, in the order made (`Call`). `Steps` is that record
with the result: the error of the first step that failed, or the value. Its bind stops at the
first error, as each `if err != nil { return nil, err }` does; the deferred release of the
limiter's slot is appended by `handleEnroll` on every exit after a successful `Acquire`.

The types the code takes from elsewhere (`model.Agent`, `model.EnrollmentApiKey`,
`apikey.ApiKey`, `EnrollRequest`, `EnrollResponse`) are modelled from the spec, with the fields
the code reads or writes.
-/

namespace FleetServer
namespace Fleet

/-- `kCacheAccessInitTTL`, in seconds. -/
def kCacheAccessInitTTL : Nat := 30

/-- `kCacheEnrollmentTTL`, in seconds. -/
def kCacheEnrollmentTTL : Nat := 30

/-- Modelled from the spec: `dl.FleetAgents`, the agents index. -/
def fleetAgents : String := ".fleet-agents"

/-- Modelled from the spec: `sqn.UndefinedSeqNo`, the undefined sentinel. -/
def undefinedSeqNo : Int := -1

/-- Modelled from the spec: `now.UTC().Format(time.RFC3339)`, the enrollment time's text. -/
def enrolledAtText (now : Nat) : String := toString now

/-- Modelled from the spec: `model.EnrollmentApiKey`, with the fields the enrollment reads. -/
structure EnrollmentApiKey where
  apiKey : String
  policyId : String
  active : Bool
  deriving DecidableEq, Repr

/-- Modelled from the spec: an access key `apikey.ApiKey` as minted, its id and the bearer token
`Token()` gives. -/
structure AccessApiKey where
  id : String
  token : String
  deriving DecidableEq, Repr

/-- Modelled from the spec: the request's `metadata`, two `json.RawMessage`s (`none` is nil). -/
structure EnrollMetadata where
  user : Option Json
  «local» : Option Json
  deriving DecidableEq, Repr

/-- Modelled from the spec: `EnrollRequest`. -/
structure EnrollRequest where
  type : String
  sharedId : String
  meta : EnrollMetadata
  deriving DecidableEq, Repr

/-- Modelled from the spec: `model.Agent`, with the fields `_enroll` writes or reads. -/
structure Agent where
  active : Bool
  policyId : String
  type : String
  enrolledAt : String
  userProvidedMetadata : Option Json
  localMetadata : Option Json
  accessApiKeyId : String
  actionSeqNo : List Int
  deriving DecidableEq, Repr

/-- Modelled from the spec: `EnrollResponseItem`. -/
structure EnrollResponseItem where
  id : String
  active : Bool
  policyId : String
  type : String
  enrolledAt : String
  userMeta : Option Json
  localMeta : Option Json
  accessApiKeyId : String
  accessApiKey : String
  status : String
  deriving DecidableEq, Repr

/-- Modelled from the spec: `EnrollResponse`. -/
structure EnrollResponse where
  action : String
  item : EnrollResponseItem
  deriving DecidableEq, Repr

/-- The errors `handleEnroll` returns. -/
inductive EnrollError where
  /-- The limiter's `Acquire` failed. -/
  | limit (e : String)
  /-- `authApiKey` failed. -/
  | auth (e : String)
  /-- `validateUserAgent` failed. -/
  | userAgent (e : String)
  /-- `dl.FindEnrollmentAPIKey` failed. -/
  | store (e : StoreError)
  /-- `fmt.Errorf("record is inactive")`. -/
  | inactive
  /-- The body is not a JSON text. -/
  | malformed
  /-- `decoder.Decode(&req)` failed. -/
  | decode (e : DecodeError)
  /-- `ErrUnknownEnrollType`, "unknown enroll request type". -/
  | unknownEnrollType
  /-- `errors.New("preexisting install not yet supported")`. -/
  | preexisting
  /-- `uuid.NewV4()` failed. -/
  | uuid (e : String)
  /-- `apikey.Create` failed. -/
  | apiKey (e : String)
  /-- `bulker.Create` failed. -/
  | create (e : StoreError)
  deriving DecidableEq, Repr

/-- A call of a collaborator, with what it returned. -/
inductive Call where
  /-- `et.limit.Acquire()`, and whether it gave a slot. -/
  | acquire (ok : Bool)
  /-- The release handle `limitF()`. -/
  | release
  /-- `authApiKey(r, ...)`, and the id of the key it authenticated. -/
  | authApiKey (keyId : Option String)
  /-- `et.cache.GetEnrollmentApiKey(id)`, and the record it returned. -/
  | getEnrollmentApiKey (id : String) (hit : Option EnrollmentApiKey)
  /-- `dl.FindEnrollmentAPIKey(..., id)`, and the record it found. -/
  | findEnrollmentApiKey (id : String) (found : Option EnrollmentApiKey)
  /-- `et.cache.SetEnrollmentApiKey(id, rec, cost, ttl)`. -/
  | setEnrollmentApiKey (id : String) (rec : EnrollmentApiKey) (cost ttl : Nat)
  /-- `apikey.Create(ctx, client, name, "", roles, apikey.NewMetadata(agentId, apikey.TypeAccess))`,
  and the key it minted. -/
  | createApiKey (name agentId : String) (key : Option AccessApiKey)
  /-- `bulker.Create(ctx, index, id, data, bulk.WithRefresh())` of an agent's document, and
  whether it succeeded. -/
  | createAgent (index id : String) (agent : Agent) (refresh ok : Bool)
  /-- `c.SetApiKey(key, ttl)`. -/
  | setApiKey (key : AccessApiKey) (ttl : Nat)
  deriving DecidableEq, Repr

/-- What each collaborator returns to one enrollment, and the clock, in seconds. -/
structure Env where
  acquire : Except String Unit
  authApiKey : Except String String
  validateUserAgent : Except String Unit
  findEnrollmentApiKey : Except StoreError EnrollmentApiKey
  body : Option Json
  newV4 : Except String String
  createApiKey : Except String AccessApiKey
  createAgent : Except StoreError Unit
  now : Nat

/-- The enrollment keys in the cache, each with the time it expires. -/
abbrev Cache := List (String × EnrollmentApiKey × Nat)

/-- `GetEnrollmentApiKey(id)` at time `now`: an entry is kept until its expiry has passed. -/
def Cache.getEnrollmentApiKey (c : Cache) (id : String) (now : Nat) : Option EnrollmentApiKey :=
  match c.lookup id with
  | some (rec, expires) => if now ≤ expires then some rec else none
  | none => none

/-- `SetEnrollmentApiKey(id, rec, cost, ttl)` at time `now`. -/
def Cache.setEnrollmentApiKey (c : Cache) (id : String) (rec : EnrollmentApiKey) (ttl now : Nat) :
    Cache :=
  (id, rec, now + ttl) :: c.filter (·.1 ≠ id)

/-- The cache after the calls, made at time `now`. -/
def Cache.apply (c : Cache) (now : Nat) : List Call → Cache
  | [] => c
  | .setEnrollmentApiKey id rec _ ttl :: calls =>
    (c.setEnrollmentApiKey id rec ttl now).apply now calls
  | _ :: calls => c.apply now calls

/-- What a part of the enrollment did: the calls it made, in order, and its result. -/
structure Steps (α : Type) where
  calls : List Call
  result : Except EnrollError α

namespace Steps

variable {α β : Type}

/-- The second part runs only when the first succeeded. -/
def bind (s : Steps α) (f : α → Steps β) : Steps β :=
  match s.result with
  | .error e => ⟨s.calls, .error e⟩
  | .ok a => ⟨s.calls ++ (f a).calls, (f a).result⟩

instance : Monad Steps where
  pure a := ⟨[], .ok a⟩
  bind := bind

/-- A call made, and what it returned. -/
def call (c : Call) (r : Except EnrollError α) : Steps α := ⟨[c], r⟩

/-- A step of the code itself: no call. -/
def check (r : Except EnrollError α) : Steps α := ⟨[], r⟩

@[simp] theorem bind_eq (s : Steps α) (f : α → Steps β) : s >>= f = s.bind f := rfl

@[simp] theorem pure_calls (a : α) : (pure a : Steps α).calls = [] := rfl

@[simp] theorem pure_result (a : α) : (pure a : Steps α).result = .ok a := rfl

end Steps

open Steps

/-- `fetchEnrollmentKeyRecord(ctx, id)`: the cached record, else the stored one, which must be
active and is then cached. -/
def fetchEnrollmentKeyRecord (env : Env) (cache : Cache) (id : String) : Steps EnrollmentApiKey :=
  match cache.getEnrollmentApiKey id env.now with
  | some key => call (.getEnrollmentApiKey id (some key)) (.ok key)
  | none => do
    call (.getEnrollmentApiKey id none) (.ok ())
    let r ← call (.findEnrollmentApiKey id env.findEnrollmentApiKey.toOption)
      (env.findEnrollmentApiKey.mapError .store)
    if !r.active then check (.error .inactive)
    call (.setEnrollmentApiKey id r r.apiKey.utf8ByteSize kCacheEnrollmentTTL) (.ok ())
    pure r

/-- Modelled from the spec: the fields of the request's `metadata`. -/
def EnrollMetadata.fields : List (Field EnrollMetadata) :=
  [.ofPart "user_provided" (·.user) (fun m u => { m with user := u }) decodeRaw,
   .ofPart "local" (·.«local») (fun m l => { m with «local» := l }) decodeRaw]

/-- Modelled from the spec: the fields of `EnrollRequest`. -/
def EnrollRequest.fields : List (Field EnrollRequest) :=
  [.ofPart "type" (·.type) (fun r s => { r with type := s }) decodeString,
   .ofPart "shared_id" (·.sharedId) (fun r s => { r with sharedId := s }) decodeString,
   .ofPart "metadata" (·.meta) (fun r m => { r with meta := m })
     (decodeStruct "fleet.EnrollMetadata" EnrollMetadata.fields)]

/-- `var req EnrollRequest`. -/
def EnrollRequest.zero : EnrollRequest := ⟨"", "", ⟨none, none⟩⟩

/-- `decodeEnrollRequest(body)`: `json.NewDecoder(body).Decode(&req)`, then the type must be one
of the three; `none` is a body that does not start with a JSON text. -/
def decodeEnrollRequest (body : Option Json) : Except EnrollError EnrollRequest :=
  match body with
  | none => .error .malformed
  | some t =>
    match unmarshalInto (decodeStruct "fleet.EnrollRequest" EnrollRequest.fields) t
        EnrollRequest.zero with
    | .error e => .error (.decode e)
    | .ok req =>
      if req.type ∈ ["EPHEMERAL", "PERMANENT", "TEMPORARY"] then .ok req
      else .error .unknownEnrollType

/-- `generateAccessApiKey(ctx, client, agentId)`: a key named by the agent id, with the agent id
in its metadata. -/
def generateAccessApiKey (env : Env) (agentId : String) : Steps AccessApiKey :=
  call (.createApiKey agentId agentId env.createApiKey.toOption) (env.createApiKey.mapError .apiKey)

/-- `createFleetAgent(ctx, bulker, id, agent)`: a create, with refresh, on the agents index. -/
def createFleetAgent (env : Env) (id : String) (agent : Agent) : Steps Unit :=
  call (.createAgent fleetAgents id agent true env.createAgent.toBool)
    (env.createAgent.mapError .create)

/-- The record `_enroll` creates (`agentData`). -/
def agentData (env : Env) (req : EnrollRequest) (erec : EnrollmentApiKey)
    (localMeta : Option Json) (accessApiKey : AccessApiKey) : Agent :=
  { active := true, policyId := erec.policyId, type := req.type,
    enrolledAt := enrolledAtText env.now, userProvidedMetadata := none,
    localMetadata := localMeta, accessApiKeyId := accessApiKey.id,
    actionSeqNo := [undefinedSeqNo] }

/-- The response `_enroll` returns (`resp`). -/
def enrollResponse (agentId : String) (agentData : Agent) (accessApiKey : AccessApiKey) :
    EnrollResponse :=
  { action := "created"
    item := { id := agentId
              active := agentData.active
              policyId := agentData.policyId
              type := agentData.type
              enrolledAt := agentData.enrolledAt
              userMeta := agentData.userProvidedMetadata
              localMeta := agentData.localMetadata
              accessApiKeyId := agentData.accessApiKeyId
              accessApiKey := accessApiKey.token
              status := "online" } }

/-- `_enroll(ctx, bulker, c, req, erec)`. -/
def _enroll (env : Env) (req : EnrollRequest) (erec : EnrollmentApiKey) : Steps EnrollResponse := do
  if req.sharedId ≠ "" then check (.error .preexisting)
  let agentId ← check (env.newV4.mapError .uuid)
  let accessApiKey ← generateAccessApiKey env agentId
  let localMeta ← check ((updateLocalMetaAgentId req.meta.«local» agentId).mapError .decode)
  let agent := agentData env req erec localMeta accessApiKey
  createFleetAgent env agentId agent
  let resp := enrollResponse agentId agent accessApiKey
  call (.setApiKey accessApiKey kCacheAccessInitTTL) (.ok ())
  pure resp

/-- `et.handleEnroll(r)` after `Acquire` gave a slot, up to the deferred release. -/
def enrollAcquired (env : Env) (cache : Cache) : Steps EnrollResponse := do
  let keyId ← call (.authApiKey env.authApiKey.toOption) (env.authApiKey.mapError .auth)
  check (env.validateUserAgent.mapError .userAgent)
  let erec ← fetchEnrollmentKeyRecord env cache keyId
  let req ← check (decodeEnrollRequest env.body)
  _enroll env req erec

/-- `et.handleEnroll(r)`: nothing more when `Acquire` fails; otherwise the rest, and the slot's
release on every exit. -/
def handleEnroll (env : Env) (cache : Cache) : Steps EnrollResponse :=
  match env.acquire with
  | .error e => call (.acquire false) (.error (.limit e))
  | .ok () =>
    let s := enrollAcquired env cache
    ⟨.acquire true :: s.calls ++ [.release], s.result⟩

/-- What `Router.handleEnroll` writes back. -/
inductive Reply where
  /-- `http.Error(w, "", http.StatusNotFound)`. -/
  | notFound
  /-- `WriteError(w, code, str, msg)` for the error the enrollment returned. -/
  | error (e : EnrollError)
  /-- `w.Write(data)`, `data` the response written by `json.Marshal`. -/
  | body (resp : EnrollResponse)

/-- `(rt Router) handleEnroll(w, r, ps)`: a route whose `id` parameter is not `enroll` is
answered 404 without enrolling; otherwise the enrollment runs, and its error or its response is
written back. -/
def Router.handleEnroll (id : String) (env : Env) (cache : Cache) : Steps Reply :=
  if id ≠ "enroll" then pure .notFound
  else
    let s := Fleet.handleEnroll env cache
    ⟨s.calls, .ok (match s.result with
      | .ok resp => .body resp
      | .error e => .error e)⟩

end Fleet
end FleetServer
