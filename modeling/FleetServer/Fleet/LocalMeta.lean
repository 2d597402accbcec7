import FleetServer.Json.Reencode

/-!
# FleetServer.Fleet.LocalMeta

`updateLocalMetaAgentId` of the enrollment: the agent's local metadata, a JSON text, is decoded
into a `map[string]interface{}`; when the map holds a map `elastic` holding a map `agent` with a
member `id`, that member is set to the new agent id and the whole map is encoded again,
otherwise the text is returned as it came.

* `updateLocalMetaAgentId_law`: a nil text stays nil; the result is an error exactly when the
  text does not decode into a map (it is not an object or `null`, it nests deeper than
  `maxNestingDepth`, or it holds a number out of `float64` range); without the path the text
  comes back unchanged; with it, the result decodes to the decoded text with exactly
  `elastic.agent.id` replaced (`ReplacesAgentId`). What decoding gives is the comparison: a
  number comes back as the `float64` it decoded to.
* `local_meta_out_of_range_number_errors`: an object whose only member is `1e400` is an error.
* `local_meta_rounds_untouched_numbers`: a number no `float64` holds comes back as another
  number, although the patch does not touch its member.
* `updateLocalMetaAgentId_reapply`: patching a patched text again is patching the original text
  once: the second agent id wins, and a patched text is a fixed point of its own patch.
-/

set_option exponentiation.threshold 4200

namespace FleetServer
namespace Fleet

/-- `v, ok := m[k]; sm, ok := v.(map[string]interface{})`: the member `k` of a map, when it is
itself a map. -/
def subMap (m : List (String × Value)) (k : String) : Option (List (String × Value)) :=
  match m.lookup k with
  | some (.object sm) => some sm
  | _ => none

/-- The maps `m["elastic"]` and `m["elastic"]["agent"]`, when both are maps and the second has a
member `id`. -/
def agentMaps (m : List (String × Value)) :
    Option (List (String × Value) × List (String × Value)) := do
  let elastic ← subMap m "elastic"
  let agent ← subMap elastic "agent"
  if (agent.lookup "id").isSome then some (elastic, agent) else none

/-- `sm["id"] = agentId` on the map `agent` held at `elastic.agent` of `m`: Go maps are
references, so the change shows in `m`. -/
def setAgentId (m elastic agent : List (String × Value)) (agentId : String) :
    List (String × Value) :=
  mapInsert "elastic"
    (.object (mapInsert "agent" (.object (mapInsert "id" (.string agentId) agent)) elastic)) m

/-- `updateLocalMetaAgentId(data, agentId)`; `none` is a nil `data`. -/
def updateLocalMetaAgentId (data : Option Json) (agentId : String) :
    Except DecodeError (Option Json) :=
  match data with
  | none => .ok none
  | some t =>
    match unmarshalMap t with
    | .error e => .error e
    | .ok none => .ok (some t)
    | .ok (some m) =>
      match agentMaps m with
      | some (elastic, agent) =>
        .ok (some (encodeValue (.object (setAgentId m elastic agent agentId))))
      | none => .ok (some t)

/-- A text `json.Unmarshal` can store into a map: an object or `null`. -/
def IsMapText : Json → Prop
  | .null | .object _ => True
  | _ => False

/-- `m'` is `m` with exactly the member `elastic.agent.id` set to `agentId`; every other member,
at every depth, is as in `m`. -/
def ReplacesAgentId (agentId : String) (m m' : List (String × Value)) : Prop :=
  (∀ k, k ≠ "elastic" → m'.lookup k = m.lookup k) ∧
  ∃ e e' a a', subMap m "elastic" = some e ∧ subMap m' "elastic" = some e' ∧
    (∀ k, k ≠ "agent" → e'.lookup k = e.lookup k) ∧
    subMap e "agent" = some a ∧ subMap e' "agent" = some a' ∧
    (∀ k, k ≠ "id" → a'.lookup k = a.lookup k) ∧ a'.lookup "id" = some (.string agentId)

/-! ## Decoding into a map -/

theorem unmarshalMap_ok_iff (t : Json) :
    (∃ m, unmarshalMap t = .ok m) ↔
      t.depth ≤ maxNestingDepth ∧ IsMapText t ∧
        ∀ n ∈ t.numbers, (parseFloat n).isSome := by
  unfold unmarshalMap
  by_cases hd : maxNestingDepth < t.depth
  · simp [hd]
  · rw [if_neg hd]
    cases t with
    | null => simp [IsMapText, Json.numbers, not_lt.1 hd]
    | object kvs =>
      rw [Json.numbers, ← decodeValue_ok_iff.members kvs []]
      cases h : decodeValue.decodeMembers kvs [] <;>
        simp [h, IsMapText, not_lt.1 hd]
    | _ => simp [IsMapText]

theorem subMap_wf {m sm : List (String × Value)} {k : String} (hm : (Value.object m).WF)
    (h : subMap m k = some sm) : (Value.object sm).WF := by
  unfold subMap at h
  split at h
  · cases h
    exact (Value.wfMembers_iff m).1 hm.2 _ (mem_of_lookup ‹_›)
  · cases h

theorem agentMaps_some {m e a : List (String × Value)} (h : agentMaps m = some (e, a)) :
    subMap m "elastic" = some e ∧ subMap e "agent" = some a ∧ (a.lookup "id").isSome := by
  simp only [agentMaps, Option.bind_eq_bind, Option.bind_eq_some] at h
  obtain ⟨e', he, a', ha, h⟩ := h
  split at h
  · cases h
    exact ⟨he, ha, ‹_›⟩
  · cases h

theorem subMap_mapInsert (k : String) (sm m : List (String × Value)) :
    subMap (mapInsert k (.object sm) m) k = some sm := by
  simp [subMap, mapInsert_lookup]

/-- `setAgentId` replaces exactly `elastic.agent.id`. -/
theorem setAgentId_replaces {m e a : List (String × Value)} (h : agentMaps m = some (e, a))
    (agentId : String) : ReplacesAgentId agentId m (setAgentId m e a agentId) := by
  obtain ⟨he, ha, -⟩ := agentMaps_some h
  refine ⟨fun k hk => by rw [setAgentId, mapInsert_lookup, if_neg hk], e, _, a, _, he,
    subMap_mapInsert _ _ _, fun k hk => by rw [mapInsert_lookup, if_neg hk], ha,
    subMap_mapInsert _ _ _, fun k hk => by rw [mapInsert_lookup, if_neg hk], ?_⟩
  rw [mapInsert_lookup, if_pos rfl]

theorem mapInsert_wf {k : String} {v : Value} {m : List (String × Value)}
    (hm : (Value.object m).WF) (hv : v.WF) : (Value.object (mapInsert k v m)).WF :=
  ⟨mapInsert_sorted hm.1, mapInsert_wfMembers hv hm.2⟩

theorem setAgentId_wf {m e a : List (String × Value)} (hm : (Value.object m).WF)
    (h : agentMaps m = some (e, a)) (agentId : String) :
    (Value.object (setAgentId m e a agentId)).WF := by
  obtain ⟨he, ha, -⟩ := agentMaps_some h
  have hew := subMap_wf hm he
  exact mapInsert_wf hm (mapInsert_wf hew (mapInsert_wf (subMap_wf hew ha) trivial))

/-! ## The patch -/

theorem unmarshalMap_wf {t : Json} {m : List (String × Value)}
    (h : unmarshalMap t = .ok (some m)) : (Value.object m).WF := by
  unfold unmarshalMap at h
  split at h
  · cases h
  · cases t with
    | object kvs =>
      cases hd : decodeValue.decodeMembers kvs [] with
      | error e => simp [hd] at h
      | ok m' =>
        simp only [hd, except_map_ok, Except.ok.injEq, Option.some.injEq] at h
        subst h
        exact decodeValue_wf.members hd List.Pairwise.nil trivial
    | _ => cases h

theorem updateLocalMetaAgentId_error_iff (t : Json) (agentId : String) :
    (∃ e, updateLocalMetaAgentId (some t) agentId = .error e) ↔
      ¬ ∃ m, unmarshalMap t = .ok m := by
  simp only [updateLocalMetaAgentId]
  cases unmarshalMap t with
  | error e => simp
  | ok m =>
    cases m with
    | none => simp
    | some m => rcases h : agentMaps m with _ | ⟨e, a⟩ <;> simp [h]

/-- An object whose only member is `1e400`, out of `float64` range: an error, though the text is
an object. -/
theorem local_meta_out_of_range_number_errors :
    (updateLocalMetaAgentId (some (.object [("a", .number ⟨false, 1, 0, some 400⟩)])) "x").toOption
      = none := by
  decide

/-- A text with `elastic.agent.id` and a member `n` holding `12345678901234567890`, which no
`float64` holds: the patched text holds `n` as `12345678901234567000`. -/
theorem local_meta_rounds_untouched_numbers :
    let t : Json := .object [("elastic", .object [("agent", .object [("id", .string "old")])]),
      ("n", .number ⟨false, 12345678901234567890, 0, none⟩)]
    (updateLocalMetaAgentId (some t) "new").toOption =
      some (some (.object [("elastic", .object [("agent", .object [("id", .string "new")])]),
        ("n", .number ⟨false, 12345678901234567000, 0, none⟩)])) := by
  decide

/-! ## Patching again -/

theorem subMap_lookup {m sm : List (String × Value)} {k : String} (h : subMap m k = some sm) :
    m.lookup k = some (.object sm) := by
  unfold subMap at h
  split at h
  · cases h
    assumption
  · cases h

/-- Setting a member of a map nests what `json.Marshal` writes no deeper than the map and the
new value one level down. -/
theorem depth_encode_mapInsert (k : String) (v : Value) :
    ∀ m : List (String × Value), (encodeValue (.object (mapInsert k v m))).depth ≤
      max (encodeValue (.object m)).depth ((encodeValue v).depth + 1)
  | [] => by
    simp only [encodeValue, mapInsert, encodeValue.encodeMembers, Json.depth,
      Json.depth.depthMembers]
    omega
  | (k', v') :: m => by
    have ih := depth_encode_mapInsert k v m
    simp only [encodeValue, Json.depth] at ih
    simp only [mapInsert]
    split_ifs <;>
      simp only [encodeValue, encodeValue.encodeMembers, Json.depth, Json.depth.depthMembers] <;>
      omega

theorem depth_encode_lt_of_lookup {m : List (String × Value)} {k : String} {x : Value}
    (h : m.lookup k = some x) : (encodeValue x).depth < (encodeValue (.object m)).depth := by
  refine @Json.depth_lt_of_mem _ (k, encodeValue x) ?_
  rw [encodeMembers_eq_map]
  exact List.mem_map_of_mem _ (mem_of_lookup h)

/-- Setting the agent id never nests the text deeper: it replaces a member of an object nested
two deep by a string. -/
theorem depth_encode_setAgentId {m e a : List (String × Value)} (h : agentMaps m = some (e, a))
    (agentId : String) :
    (encodeValue (.object (setAgentId m e a agentId))).depth ≤ (encodeValue (.object m)).depth := by
  obtain ⟨he, ha, -⟩ := agentMaps_some h
  have hea := depth_encode_lt_of_lookup (subMap_lookup ha)
  have hme := depth_encode_lt_of_lookup (subMap_lookup he)
  have h₁ := depth_encode_mapInsert "id" (.string agentId) a
  have h₂ := depth_encode_mapInsert "agent" (.object (mapInsert "id" (.string agentId) a)) e
  have h₃ := depth_encode_mapInsert "elastic"
    (.object (mapInsert "agent" (.object (mapInsert "id" (.string agentId) a)) e)) m
  have hs : (encodeValue (.string agentId)).depth = 0 := rfl
  have hpos : 0 < (encodeValue (.object a)).depth := Nat.succ_pos _
  rw [le_max_iff] at h₁ h₂ h₃
  rw [setAgentId]
  omega

theorem agentMaps_setAgentId (m e a : List (String × Value)) (agentId : String) :
    agentMaps (setAgentId m e a agentId) =
      some (mapInsert "agent" (.object (mapInsert "id" (.string agentId) a)) e,
        mapInsert "id" (.string agentId) a) := by
  simp only [agentMaps, setAgentId, subMap_mapInsert, Option.bind_eq_bind, Option.some_bind,
    mapInsert_lookup, if_pos, Option.isSome_some, if_true]

theorem setAgentId_setAgentId (m e a : List (String × Value)) (agentId agentId' : String) :
    setAgentId (setAgentId m e a agentId)
        (mapInsert "agent" (.object (mapInsert "id" (.string agentId) a)) e)
        (mapInsert "id" (.string agentId) a) agentId' =
      setAgentId m e a agentId' := by
  simp only [setAgentId, mapInsert_mapInsert]

/-- What `updateLocalMetaAgentId` decoded a text to, when it decoded it into a map. -/
theorem unmarshalMap_some {t : Json} {m : List (String × Value)}
    (h : unmarshalMap t = .ok (some m)) :
    decodeValue t = .ok (.object m) ∧ t.depth ≤ maxNestingDepth := by
  unfold unmarshalMap at h
  split at h
  · cases h
  · rename_i hd
    refine ⟨?_, Nat.not_lt.1 hd⟩
    split at h
    · cases h
    · rename_i kvs
      cases hm : decodeValue.decodeMembers kvs [] with
      | error e => rw [hm] at h; cases h
      | ok m' =>
        rw [hm] at h
        cases h
        simp [decodeValue, hm]
    · cases h

/-- A map `json.Marshal` wrote, within the nesting limit, decodes back into itself. -/
theorem unmarshalMap_encodeValue {m : List (String × Value)} (hw : (Value.object m).WF)
    (hd : (encodeValue (.object m)).depth ≤ maxNestingDepth) :
    unmarshalMap (encodeValue (.object m)) = .ok (some m) := by
  obtain ⟨m', hm', he⟩ := decodeValue_object_ok (decodeValue_encodeValue _ hw)
  cases he
  have hd' : ¬ maxNestingDepth < (Json.object (encodeValue.encodeMembers m)).depth :=
    Nat.not_lt.2 hd
  simp only [unmarshalMap, encodeValue, hd', if_false, hm', except_map_ok]

/-- **Patching again is patching once**: when patching `data` with one agent id succeeds,
patching the result with a second id gives what patching `data` with the second id gives. So the
patch a re-enrollment applies does not depend on an earlier patch, and a patched text is a fixed
point of the same patch. -/
theorem updateLocalMetaAgentId_reapply {data out : Option Json} {agentId : String}
    (h : updateLocalMetaAgentId data agentId = .ok out) (agentId' : String) :
    updateLocalMetaAgentId out agentId' = updateLocalMetaAgentId data agentId' := by
  cases data with
  | none =>
    cases h
    rfl
  | some t =>
    cases hu : unmarshalMap t with
    | error e => simp [updateLocalMetaAgentId, hu] at h
    | ok o =>
      cases o with
      | none =>
        simp only [updateLocalMetaAgentId, hu, Except.ok.injEq] at h
        rw [← h]
      | some m =>
        cases ha : agentMaps m with
        | none =>
          simp only [updateLocalMetaAgentId, hu, ha, Except.ok.injEq] at h
          rw [← h]
        | some p =>
          obtain ⟨e, a⟩ := p
          simp only [updateLocalMetaAgentId, hu, ha, Except.ok.injEq] at h
          subst h
          obtain ⟨hdec, hdt⟩ := unmarshalMap_some hu
          have hd : (encodeValue (.object (setAgentId m e a agentId))).depth ≤ maxNestingDepth :=
            calc _ ≤ (encodeValue (.object m)).depth := depth_encode_setAgentId ha agentId
              _ ≤ t.depth := depth_encodeValue_le hdec
              _ ≤ maxNestingDepth := hdt
          rw [updateLocalMetaAgentId,
            unmarshalMap_encodeValue (setAgentId_wf (unmarshalMap_wf hu) ha agentId) hd]
          simp only [agentMaps_setAgentId, setAgentId_setAgentId, updateLocalMetaAgentId, hu,
            ha]

theorem updateLocalMetaAgentId_reapply_example :
    let t : Json := .object [("elastic", .object [("agent", .object [("id", .string "old")])])]
    updateLocalMetaAgentId (some t) "a" =
        .ok (some (.object [("elastic", .object [("agent", .object [("id", .string "a")])])])) ∧
      updateLocalMetaAgentId
          (some (.object [("elastic", .object [("agent", .object [("id", .string "a")])])])) "b" =
        updateLocalMetaAgentId (some t) "b" := by
  intro t
  have h : updateLocalMetaAgentId (some t) "a" =
      .ok (some (.object [("elastic", .object [("agent", .object [("id", .string "a")])])])) := rfl
  exact ⟨h, updateLocalMetaAgentId_reapply h "b"⟩

end Fleet
end FleetServer
