import FleetServer.Json.Float

/-!
# FleetServer.Json.Decode

`encoding/json` with an `interface{}` target: `json.Unmarshal` into `any` or
`map[string]interface{}`, and `json.Marshal` of what that produces.

* `decodeValue`: numbers become `float64` through `strconv.ParseFloat`, so a number out of
  `float64` range is an `UnmarshalTypeError`; objects become maps where a repeated key keeps its
  last value.
* `unmarshalValue`, `unmarshalMap`: the same after the scanner's check of the whole text, which
  rejects nesting deeper than `maxNestingDepth`.
* `encodeValue`: `json.Marshal`, writing map members in key order.
* `decodeValue_encodeValue`: decoding what was encoded gives the value back, for every value
  whose maps are in key order (all that decoding produces).
-/

set_option exponentiation.threshold 2200

namespace FleetServer

/-- The errors `json.Unmarshal` reports. -/
inductive DecodeError where
  /-- The scanner's `SyntaxError` "exceeded max depth". -/
  | maxDepth
  /-- `UnmarshalTypeError`: a JSON `value` (`"array"`, `"number"`, ...) where a Go `type` was
  expected. -/
  | type (value : String) (type : String)
  /-- `UnmarshalTypeError` for the number `n`, out of the range of the Go `type`. -/
  | range (n : Number) (type : String)
  deriving DecidableEq, Repr

/-- A Go value of static type `interface{}` as `encoding/json` builds it: `nil`, `bool`,
`float64`, `string`, `[]interface{}` or `map[string]interface{}`. A map is its members in key
order, the order `json.Marshal` writes them in. -/
inductive Value where
  | null
  | bool (b : Bool)
  | number (f : Float64)
  | string (s : String)
  | array (xs : List Value)
  | object (kvs : List (String × Value))
  deriving Inhabited

section Except

variable {ε α β : Type}

@[simp] theorem except_map_ok (f : α → β) (a : α) :
    (Except.ok a : Except ε α).map f = .ok (f a) :=
  rfl

@[simp] theorem except_map_error (f : α → β) (e : ε) :
    (Except.error e : Except ε α).map f = .error e := rfl

@[simp] theorem except_bind_ok (a : α) (f : α → Except ε β) : (Except.ok a >>= f) = f a := rfl

@[simp] theorem except_bind_error (e : ε) (f : α → Except ε β) :
    (Except.error e >>= f) = .error e := rfl

@[simp] theorem except_fmap_ok (f : α → β) (a : α) :
    (f <$> (Except.ok a : Except ε α)) = .ok (f a) :=
  rfl

@[simp] theorem except_fmap_error (f : α → β) (e : ε) :
    (f <$> (Except.error e : Except ε α)) = .error e := rfl

@[simp] theorem except_mapError_ok {ε' : Type} (f : ε → ε') (a : α) :
    (Except.ok a : Except ε α).mapError f = .ok a := rfl

@[simp] theorem except_mapError_error {ε' : Type} (f : ε → ε') (e : ε) :
    (Except.error e : Except ε α).mapError f = .error (f e) := rfl

@[simp] theorem except_toOption_ok (a : α) : (Except.ok a : Except ε α).toOption = some a := rfl

@[simp] theorem except_toOption_error (e : ε) : (Except.error e : Except ε α).toOption = none :=
  rfl

@[simp] theorem except_toBool_ok (a : α) : (Except.ok a : Except ε α).toBool = true := rfl

@[simp] theorem except_toBool_error (e : ε) : (Except.error e : Except ε α).toBool = false := rfl

end Except

section Map

variable {α : Type}

/-- `m[k] = v` on a map kept in key order, the order `sort.Strings` gives (byte order, which on
UTF-8 text is code point order: the order of `String.data`). -/
def mapInsert (k : String) (v : α) : List (String × α) → List (String × α)
  | [] => [(k, v)]
  | (k', v') :: kvs =>
    if k.data < k'.data then (k, v) :: (k', v') :: kvs
    else if k = k' then (k, v) :: kvs
    else (k', v') :: mapInsert k v kvs

/-- The keys of a map are strictly increasing. -/
def KeysSorted (kvs : List (String × α)) : Prop := (kvs.map Prod.fst).Pairwise (· < ·)

theorem mapInsert_of_lt {k : String} {v : α} :
    ∀ {kvs : List (String × α)}, (∀ p ∈ kvs, p.1 < k) →
      mapInsert k v kvs = kvs ++ [(k, v)]
  | [], _ => rfl
  | (k', v') :: kvs, h => by
    have hk : k' < k := h _ (List.mem_cons_self _ _)
    have hlt : ¬ k.data < k'.data := fun h => lt_asymm hk (String.lt_iff_toList_lt.2 h)
    simp only [mapInsert, if_neg hlt, if_neg (ne_of_gt hk), List.cons_append]
    rw [mapInsert_of_lt fun p hp => h p (List.mem_cons_of_mem _ hp)]

theorem lookup_cons_ne {q k : String} {b : α} {es : List (String × α)} (h : q ≠ k) :
    ((k, b) :: es).lookup q = es.lookup q := by
  rw [List.lookup_cons, beq_false_of_ne h]

theorem lookup_eq_none_of_not_mem {m : List (String × α)} {k : String}
    (h : k ∉ m.map Prod.fst) : m.lookup k = none :=
  List.lookup_eq_none_iff.2 fun p hp => bne_iff_ne.2 fun he => by
    subst he
    exact h (List.mem_map_of_mem Prod.fst hp)

theorem mem_of_lookup {m : List (String × α)} {k : String} {v : α}
    (h : m.lookup k = some v) : (k, v) ∈ m := by
  obtain ⟨l₁, l₂, rfl, -⟩ := List.lookup_eq_some_iff.1 h
  exact List.mem_append_right _ (List.mem_cons_self _ _)

/-- Setting a key twice is setting it the second time. -/
theorem mapInsert_mapInsert (k : String) (v v' : α) :
    ∀ m : List (String × α), mapInsert k v (mapInsert k v' m) = mapInsert k v m
  | [] => by simp [mapInsert]
  | (k', v'') :: m => by
    by_cases hlt : k.data < k'.data
    · simp [mapInsert, hlt]
    · by_cases hk : k = k'
      · subst hk
        simp [mapInsert]
      · simp only [mapInsert, if_neg hlt, if_neg hk, mapInsert_mapInsert k v v' m]

theorem lookup_isSome_iff {m : List (String × α)} {k : String} :
    (m.lookup k).isSome ↔ k ∈ m.map Prod.fst := by
  constructor
  · intro h
    obtain ⟨v, hv⟩ := Option.isSome_iff_exists.1 h
    exact List.mem_map_of_mem Prod.fst (mem_of_lookup hv)
  · intro h
    cases hl : m.lookup k with
    | none =>
      obtain ⟨p, hp, rfl⟩ := List.mem_map.1 h
      have := List.lookup_eq_none_iff.1 hl p hp
      simp at this
    | some v => rfl

/-- In a list whose keys are distinct, lookup finds exactly the members. -/
theorem lookup_eq_some_iff_mem :
    ∀ {m : List (String × α)}, (m.map Prod.fst).Nodup → ∀ {k : String} {v : α},
      m.lookup k = some v ↔ (k, v) ∈ m
  | [], _, _, _ => by simp
  | (k', v') :: m, hnd, k, v => by
    rw [List.map_cons, List.nodup_cons] at hnd
    by_cases hk : k = k'
    · subst hk
      have hnot : (k, v) ∉ m := fun h =>
        hnd.1 (List.mem_map_of_mem Prod.fst h : (k, v).1 ∈ m.map Prod.fst)
      simp [hnot, eq_comm]
    · rw [lookup_cons_ne hk, lookup_eq_some_iff_mem hnd.2, List.mem_cons]
      simp [hk]

/-- Lookup in a list whose keys are distinct does not depend on the order of the list. -/
theorem lookup_perm {l l' : List (String × α)} (hp : l.Perm l') (hnd : (l.map Prod.fst).Nodup)
    (k : String) : l.lookup k = l'.lookup k := by
  have hnd' := (hp.map Prod.fst).nodup_iff.1 hnd
  cases h : l.lookup k with
  | none =>
    cases h' : l'.lookup k with
    | none => rfl
    | some v =>
      have := (lookup_eq_some_iff_mem hnd).2 (hp.mem_iff.2 ((lookup_eq_some_iff_mem hnd').1 h'))
      rw [h] at this
      cases this
  | some v => exact ((lookup_eq_some_iff_mem hnd').2 (hp.mem_iff.1 ((lookup_eq_some_iff_mem hnd).1 h))).symm

/-- After `m[k] = v`, the map has `v` at `k` and is as before elsewhere. -/
theorem mapInsert_lookup (k : String) (v : α) (q : String) :
    ∀ m : List (String × α), (mapInsert k v m).lookup q = if q = k then some v else m.lookup q
  | [] => by by_cases h : q = k <;> simp [mapInsert, h, lookup_cons_ne]
  | (k', v') :: m => by
    unfold mapInsert
    by_cases hlt : k.data < k'.data
    · rw [if_pos hlt]
      by_cases h : q = k <;> simp [h, lookup_cons_ne]
    · rw [if_neg hlt]
      by_cases hk : k = k'
      · subst hk
        by_cases h : q = k <;> simp [h, lookup_cons_ne]
      · rw [if_neg hk]
        by_cases h : q = k'
        · subst h
          simp [Ne.symm hk]
        · rw [lookup_cons_ne h, lookup_cons_ne h, mapInsert_lookup k v q m]

theorem mem_mapInsert {k : String} {v : α} {p : String × α} :
    ∀ {m : List (String × α)}, p ∈ mapInsert k v m → p = (k, v) ∨ p ∈ m
  | [], h => .inl (List.mem_singleton.1 h)
  | (k', v') :: m, h => by
    unfold mapInsert at h
    split at h
    · rcases List.mem_cons.1 h with h | h
      · exact .inl h
      · exact .inr h
    · split at h
      · rcases List.mem_cons.1 h with h | h
        · exact .inl h
        · exact .inr (List.mem_cons_of_mem _ h)
      · rcases List.mem_cons.1 h with h | h
        · exact .inr (h ▸ List.mem_cons_self _ _)
        · exact (mem_mapInsert h).imp_right (List.mem_cons_of_mem _)

theorem keysSorted_cons {k : String} {v : α} {m : List (String × α)} :
    KeysSorted ((k, v) :: m) ↔ (∀ p ∈ m, k < p.1) ∧ KeysSorted m := by
  simp [KeysSorted, List.pairwise_cons]

/-- `m[k] = v` keeps a map in key order. -/
theorem mapInsert_sorted {k : String} {v : α} :
    ∀ {m : List (String × α)}, KeysSorted m → KeysSorted (mapInsert k v m)
  | [], _ => keysSorted_cons.2 ⟨fun _ h => (nomatch h), List.Pairwise.nil⟩
  | (k', v') :: m, h => by
    obtain ⟨hk', hm⟩ := keysSorted_cons.1 h
    unfold mapInsert
    by_cases hlt : k.data < k'.data
    · rw [if_pos hlt]
      have hk : k < k' := String.lt_iff_toList_lt.2 hlt
      refine keysSorted_cons.2 ⟨fun p hp => ?_, h⟩
      rcases List.mem_cons.1 hp with rfl | hp
      · exact hk
      · exact hk.trans (hk' p hp)
    · rw [if_neg hlt]
      by_cases hk : k = k'
      · rw [if_pos hk]
        subst hk
        exact keysSorted_cons.2 ⟨hk', hm⟩
      · rw [if_neg hk]
        have hgt : k' < k := lt_of_le_of_ne
          (not_lt.1 fun h => hlt (String.lt_iff_toList_lt.1 h)) (Ne.symm hk)
        refine keysSorted_cons.2 ⟨fun p hp => ?_, mapInsert_sorted hm⟩
        rcases mem_mapInsert hp with rfl | hp
        · exact hgt
        · exact hk' p hp

end Map

namespace Value

/-- Every map in the value is in key order. -/
def WF : Value → Prop
  | .array xs => WFList xs
  | .object kvs => KeysSorted kvs ∧ WFMembers kvs
  | _ => True
where
  WFList : List Value → Prop
  | [] => True
  | x :: xs => x.WF ∧ WFList xs
  WFMembers : List (String × Value) → Prop
  | [] => True
  | (_, x) :: kvs => x.WF ∧ WFMembers kvs

end Value

/-- The kind name `UnmarshalTypeError` reports for a JSON value. -/
def Json.kind : Json → String
  | .null => "null"
  | .bool _ => "bool"
  | .number _ => "number"
  | .string _ => "string"
  | .array _ => "array"
  | .object _ => "object"

/-- `d.valueInterface()`: decode a text into an `interface{}`. -/
def decodeValue : Json → Except DecodeError Value
  | .null => .ok .null
  | .bool b => .ok (.bool b)
  | .number n =>
    match parseFloat n with
    | some f => .ok (.number f)
    | none => .error (.range n "float64")
  | .string s => .ok (.string s)
  | .array xs => (decodeList xs).map .array
  | .object kvs => (decodeMembers kvs []).map .object
where
  decodeList : List Json → Except DecodeError (List Value)
  | [] => .ok []
  | x :: xs => do
    let v ← decodeValue x
    let vs ← decodeList xs
    return v :: vs
  /-- `m[key] = value` for each member in turn, starting from the map `m`. -/
  decodeMembers : List (String × Json) → List (String × Value) →
      Except DecodeError (List (String × Value))
  | [], m => .ok m
  | (k, x) :: kvs, m => do
    let v ← decodeValue x
    decodeMembers kvs (mapInsert k v m)

section DecodeInversion

/-! What a successful decoding was made of, one lemma per shape. -/

variable {v : Value}

theorem decodeValue_number_ok {n : Number} (h : decodeValue (.number n) = .ok v) :
    ∃ f, parseFloat n = some f ∧ v = .number f := by
  simp only [decodeValue] at h
  split at h
  · cases h
    exact ⟨_, ‹_›, rfl⟩
  · cases h

theorem decodeValue_array_ok {xs : List Json} (h : decodeValue (.array xs) = .ok v) :
    ∃ vs, decodeValue.decodeList xs = .ok vs ∧ v = .array vs := by
  simp only [decodeValue] at h
  cases hl : decodeValue.decodeList xs with
  | error e => rw [hl] at h; cases h
  | ok vs => rw [hl] at h; cases h; exact ⟨vs, rfl, rfl⟩

theorem decodeValue_object_ok {kvs : List (String × Json)}
    (h : decodeValue (.object kvs) = .ok v) :
    ∃ m, decodeValue.decodeMembers kvs [] = .ok m ∧ v = .object m := by
  simp only [decodeValue] at h
  cases hm : decodeValue.decodeMembers kvs [] with
  | error e => rw [hm] at h; cases h
  | ok m => rw [hm] at h; cases h; exact ⟨m, rfl, rfl⟩

theorem decodeList_cons_ok {x : Json} {xs : List Json} {vs : List Value}
    (h : decodeValue.decodeList (x :: xs) = .ok vs) :
    ∃ v vs', decodeValue x = .ok v ∧ decodeValue.decodeList xs = .ok vs' ∧ vs = v :: vs' := by
  simp only [decodeValue.decodeList] at h
  cases hx : decodeValue x with
  | error e => rw [hx] at h; cases h
  | ok v =>
    cases hl : decodeValue.decodeList xs with
    | error e => rw [hx, hl] at h; cases h
    | ok vs' => rw [hx, hl] at h; cases h; exact ⟨v, vs', rfl, rfl, rfl⟩

theorem decodeMembers_cons_ok {k : String} {x : Json} {kvs : List (String × Json)}
    {acc m : List (String × Value)} (h : decodeValue.decodeMembers ((k, x) :: kvs) acc = .ok m) :
    ∃ v, decodeValue x = .ok v ∧ decodeValue.decodeMembers kvs (mapInsert k v acc) = .ok m := by
  simp only [decodeValue.decodeMembers] at h
  cases hx : decodeValue x with
  | error e => rw [hx] at h; cases h
  | ok v => rw [hx, except_bind_ok] at h; exact ⟨v, rfl, h⟩

end DecodeInversion

/-- `json.Unmarshal(data, &v)` with `v` of type `interface{}`. -/
def unmarshalValue (t : Json) : Except DecodeError Value :=
  if maxNestingDepth < t.depth then .error .maxDepth else decodeValue t

/-- `json.Unmarshal(data, &m)` with `m` of type `map[string]interface{}`, starting `nil`: an
object fills a map, `null` leaves `m` nil (`none`), anything else is a type error. -/
def unmarshalMap (t : Json) : Except DecodeError (Option (List (String × Value))) :=
  if maxNestingDepth < t.depth then .error .maxDepth
  else
    match t with
    | .null => .ok none
    | .object kvs => (decodeValue.decodeMembers kvs []).map some
    | t => .error (.type t.kind "map[string]interface {}")

/-- `json.Marshal` of an `interface{}`. -/
def encodeValue : Value → Json
  | .null => .null
  | .bool b => .bool b
  | .number f => .number (formatFloat f)
  | .string s => .string s
  | .array xs => .array (encodeList xs)
  | .object kvs => .object (encodeMembers kvs)
where
  encodeList : List Value → List Json
  | [] => []
  | x :: xs => encodeValue x :: encodeList xs
  encodeMembers : List (String × Value) → List (String × Json)
  | [] => []
  | (k, x) :: kvs => (k, encodeValue x) :: encodeMembers kvs

theorem keys_lt_of_sorted {acc kvs : List (String × Value)} {k : String} {x : Value}
    (h : KeysSorted (acc ++ (k, x) :: kvs)) : ∀ p ∈ acc, p.1 < k := by
  unfold KeysSorted at h
  rw [List.map_append, List.pairwise_append] at h
  exact fun p hp => h.2.2 p.1 (List.mem_map_of_mem _ hp) k (List.mem_cons_self _ _)

/-- **Decoding what was encoded gives the value back**, for every value whose maps are in key
order. Numbers come back by `parseFloat_formatFloat`. -/
theorem decodeValue_encodeValue : ∀ v : Value, v.WF → decodeValue (encodeValue v) = .ok v
  | .null, _ | .bool _, _ | .string _, _ => rfl
  | .number f, _ => by
    show decodeValue (.number (formatFloat f)) = _
    rw [decodeValue, parseFloat_formatFloat]
  | .array xs, h => by
    simp only [encodeValue, decodeValue, list xs h]
    rfl
  | .object kvs, h => by
    simp only [encodeValue, decodeValue, members kvs [] h.2 h.1, List.nil_append]
    rfl
where
  list : ∀ xs : List Value, Value.WF.WFList xs →
      decodeValue.decodeList (encodeValue.encodeList xs) = .ok xs
  | [], _ => rfl
  | x :: xs, h => by
    simp only [encodeValue.encodeList, decodeValue.decodeList,
      decodeValue_encodeValue x h.1, list xs h.2]
    rfl
  members : ∀ (kvs acc : List (String × Value)), Value.WF.WFMembers kvs →
      KeysSorted (acc ++ kvs) →
      decodeValue.decodeMembers (encodeValue.encodeMembers kvs) acc = .ok (acc ++ kvs)
  | [], acc, _, _ => by simp [decodeValue.decodeMembers, encodeValue.encodeMembers]
  | (k, x) :: kvs, acc, h, hs => by
    simp only [encodeValue.encodeMembers, decodeValue.decodeMembers,
      decodeValue_encodeValue x h.1]
    show decodeValue.decodeMembers (encodeValue.encodeMembers kvs) (mapInsert k x acc) = _
    rw [mapInsert_of_lt (keys_lt_of_sorted hs), members kvs _ h.2 (by simpa using hs)]
    simp

theorem Value.wfMembers_iff :
    ∀ kvs : List (String × Value), Value.WF.WFMembers kvs ↔ ∀ p ∈ kvs, p.2.WF
  | [] => by simp [Value.WF.WFMembers]
  | (k, x) :: kvs => by simp [Value.WF.WFMembers, Value.wfMembers_iff kvs]

theorem mapInsert_wfMembers {k : String} {v : Value} {m : List (String × Value)} (hv : v.WF)
    (hm : Value.WF.WFMembers m) : Value.WF.WFMembers (mapInsert k v m) := by
  rw [Value.wfMembers_iff] at hm ⊢
  intro p hp
  rcases mem_mapInsert hp with rfl | hp
  · exact hv
  · exact hm p hp

/-- **Decoding produces maps in key order**, at every depth. -/
theorem decodeValue_wf : ∀ {t : Json} {v : Value}, decodeValue t = .ok v → v.WF
  | .null, _, h | .bool _, _, h | .string _, _, h => by cases h; trivial
  | .number _, _, h => by
    obtain ⟨f, -, rfl⟩ := decodeValue_number_ok h
    trivial
  | .array _, _, h => by
    obtain ⟨vs, hl, rfl⟩ := decodeValue_array_ok h
    exact list hl
  | .object _, _, h => by
    obtain ⟨m, hm, rfl⟩ := decodeValue_object_ok h
    exact members hm List.Pairwise.nil trivial
where
  list : ∀ {xs : List Json} {vs : List Value}, decodeValue.decodeList xs = .ok vs →
      Value.WF.WFList vs
  | [], _, h => by cases h; trivial
  | _ :: _, _, h => by
    obtain ⟨v, vs, hx, hl, rfl⟩ := decodeList_cons_ok h
    exact ⟨decodeValue_wf hx, list hl⟩
  members : ∀ {kvs : List (String × Json)} {acc m : List (String × Value)},
      decodeValue.decodeMembers kvs acc = .ok m → KeysSorted acc → Value.WF.WFMembers acc →
      KeysSorted m ∧ Value.WF.WFMembers m
  | [], _, _, h, hs, hw => by cases h; exact ⟨hs, hw⟩
  | (_, _) :: _, _, _, h, hs, hw => by
    obtain ⟨v, hx, h⟩ := decodeMembers_cons_ok h
    exact members h (mapInsert_sorted hs) (mapInsert_wfMembers (decodeValue_wf hx) hw)

/-- **Decoding fails exactly on a number out of `float64` range.** -/
theorem decodeValue_ok_iff :
    ∀ t : Json, (∃ v, decodeValue t = .ok v) ↔ ∀ n ∈ t.numbers, (parseFloat n).isSome
  | .null | .bool _ | .string _ => by simp [decodeValue, Json.numbers]
  | .number n => by cases h : parseFloat n <;> simp [decodeValue, Json.numbers, h]
  | .array xs => by
    rw [Json.numbers, ← list xs]
    cases h : decodeValue.decodeList xs <;> simp [decodeValue, h]
  | .object kvs => by
    rw [Json.numbers, ← members kvs []]
    cases h : decodeValue.decodeMembers kvs [] <;> simp [decodeValue, h]
where
  list : ∀ xs : List Json, (∃ vs, decodeValue.decodeList xs = .ok vs) ↔
      ∀ n ∈ Json.numbers.numbersList xs, (parseFloat n).isSome
  | [] => by simp [decodeValue.decodeList, Json.numbers.numbersList]
  | x :: xs => by
    rw [Json.numbers.numbersList, List.forall_mem_append, ← decodeValue_ok_iff x, ← list xs]
    cases hx : decodeValue x <;> cases hxs : decodeValue.decodeList xs <;>
      simp [decodeValue.decodeList, hx, hxs]
  members : ∀ (kvs : List (String × Json)) (acc : List (String × Value)),
      (∃ m, decodeValue.decodeMembers kvs acc = .ok m) ↔
        ∀ n ∈ Json.numbers.numbersMembers kvs, (parseFloat n).isSome
  | [], _ => by simp [decodeValue.decodeMembers, Json.numbers.numbersMembers]
  | (k, x) :: kvs, acc => by
    rw [Json.numbers.numbersMembers, List.forall_mem_append, ← decodeValue_ok_iff x]
    cases hx : decodeValue x with
    | error e => simp [decodeValue.decodeMembers, hx]
    | ok v =>
      simp only [decodeValue.decodeMembers, hx, except_bind_ok]
      rw [members kvs]
      simp


/-- The members of an object decode exactly when each member's value decodes. -/
theorem decodeMembers_ok_iff :
    ∀ (kvs : List (String × Json)) (acc : List (String × Value)),
      (∃ m, decodeValue.decodeMembers kvs acc = .ok m) ↔ ∀ p ∈ kvs, ∃ v, decodeValue p.2 = .ok v
  | [], _ => by simp [decodeValue.decodeMembers]
  | (k, x) :: kvs, acc => by
    simp only [decodeValue.decodeMembers, List.forall_mem_cons]
    cases hx : decodeValue x with
    | error e => simp
    | ok v =>
      simp only [except_bind_ok]
      rw [decodeMembers_ok_iff kvs]
      simp

end FleetServer
