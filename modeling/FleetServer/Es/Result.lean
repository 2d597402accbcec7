import FleetServer.Json.Reencode

/-!
# FleetServer.Es.Result

The search-result types of `es` and `(*Bucket).UnmarshalJSON`. A bucket of a terms aggregation
holds, besides `key` and `doc_count`, one member per sub-aggregation. `UnmarshalJSON` decodes
the plain fields into a `_bucket` (the same struct without the method), decodes the whole text
again into a `map[string]interface{}`, deletes the members its fields' tags name, and for every
remaining member that is a map with a member `hits` writes that value with `json.Marshal` and
decodes the result into a `HitsT`.

* `bucket_decoding_agrees`: on a bucket whose numbers are all in `float64` range and whose
  aggregations' `hits` texts are `HitsText`s, this agrees with decoding directly. A `HitsText`
  is what the typed decoders need: member names that fold apart in the objects decoded into
  `HitsT`, `HitT` and `Total`, and `_seq_no` and `total.value` written as `json.Marshal` writes
  a `float64`. `UnmarshalJSON` then succeeds exactly when the plain fields decode and each
  aggregation's `hits` text decodes by itself into a `HitsT`; the key and count are the direct
  ones, and each aggregation holds its directly decoded `HitsT`, `_source` texts compared as
  JSON values (`HitsT.canon`). A member of a map-decoded object is the last one of its name
  (`lastMember`), as the map keeps it.
* `bucket_decoding_differs`: each condition is needed. A number out of range in a member no field
  reads makes the whole bucket an error; a `hits` array written twice is decoded over the first
  directly, but only the last survives the map; a `_seq_no` written `1.0` fails directly and
  decodes as `1` through the map.
* `bucket_decoding_ignores_member_order`: when member names fold apart, the order of the bucket's
  members does not change the outcome.
-/

set_option exponentiation.threshold 4200

namespace FleetServer
namespace Es

/-- `es.HitT`. -/
structure HitT where
  id : String
  seqNo : Int
  index : String
  source : Option Json
  score : Option Float64
  deriving DecidableEq

/-- A zero `HitT`. -/
def HitT.zero : HitT := ⟨"", 0, "", none, none⟩

/-- The fields of `HitT` with their tags. -/
def HitT.fields : List (Field HitT) :=
  [.ofPart "_id" (·.id) (fun h s => { h with id := s }) decodeString,
   .ofPart "_seq_no" (·.seqNo) (fun h z => { h with seqNo := z }) decodeInt64,
   .ofPart "_index" (·.index) (fun h s => { h with index := s }) decodeString,
   .ofPart "_source" (·.source) (fun h r => { h with source := r }) decodeRaw,
   .ofPart "_score" (·.score) (fun h f => { h with score := f }) decodeFloatPtr]

/-- Decoding a `HitT`. -/
def decodeHitT : Json → HitT → Except DecodeError HitT := decodeStruct "es.HitT" HitT.fields

/-- The anonymous struct of `HitsT.Total`. -/
structure Total where
  relation : String
  value : Nat
  deriving DecidableEq

/-- The fields of `HitsT.Total`. -/
def Total.fields : List (Field Total) :=
  [.ofPart "relation" (·.relation) (fun t s => { t with relation := s }) decodeString,
   .ofPart "value" (·.value) (fun t n => { t with value := n }) decodeUint64]

/-- The Go type of `HitsT.Total`, as `UnmarshalTypeError` names it. -/
def totalType : String :=
  "struct \x7b Relation string \"json:\\\"relation\\\"\"; Value uint64 \"json:\\\"value\\\"\" \x7d"

/-- `es.HitsT`. -/
structure HitsT where
  hits : List HitT
  total : Total
  maxScore : Option Float64
  deriving DecidableEq

/-- `var hits HitsT`. -/
def HitsT.zero : HitsT := ⟨[], ⟨"", 0⟩, none⟩

/-- The fields of `HitsT` with their tags. -/
def HitsT.fields : List (Field HitsT) :=
  [.ofPart "hits" (·.hits) (fun h l => { h with hits := l })
     (decodeSlice "[]es.HitT" HitT.zero decodeHitT),
   .ofPart "total" (·.total) (fun h t => { h with total := t })
     (decodeStruct totalType Total.fields),
   .ofPart "max_score" (·.maxScore) (fun h f => { h with maxScore := f }) decodeFloatPtr]

/-- Decoding a `HitsT`. -/
def decodeHitsT : Json → HitsT → Except DecodeError HitsT := decodeStruct "es.HitsT" HitsT.fields

/-- `es.Bucket`; `aggregations` is the map `Aggregations`, in key order. -/
structure Bucket where
  key : String
  docCount : Int
  aggregations : List (String × HitsT)
  deriving DecidableEq

/-- `b2 := _bucket{}`. -/
def Bucket.zero : Bucket := ⟨"", 0, []⟩

/-- The fields of `_bucket` with their tags; `Aggregations` is tagged `-`, so it has none. -/
def Bucket.fields : List (Field Bucket) :=
  [.ofPart "key" (·.key) (fun b s => { b with key := s }) decodeString,
   .ofPart "doc_count" (·.docCount) (fun b z => { b with docCount := z }) decodeInt64]

/-- `json.Unmarshal(data, &b2)`. -/
def unmarshalBucketFields (data : Json) : Except DecodeError Bucket :=
  unmarshalInto (decodeStruct "es._bucket" Bucket.fields) data Bucket.zero

/-- The name part of the `json` tag of each field of `_bucket`, in field order. -/
def bucketTags : List String := ["key", "doc_count", "-"]

/-- The loop over the fields of `_bucket`: `delete(aggs, jsonTag)` for every tag that is
neither empty nor `-`. -/
def deleteTags (aggs : List (String × Value)) : List String → List (String × Value)
  | [] => aggs
  | tag :: tags =>
    deleteTags (if tag ≠ "" ∧ tag ≠ "-" then aggs.filter fun p => p.1 ≠ tag else aggs) tags

/-- `vMap, ok := value.(map[string]interface{})`, then `hMap, ok := vMap["hits"]`. -/
def hitsValue : Value → Option Value
  | .object vMap => vMap.lookup "hits"
  | _ => none

/-- The loop over `aggs`: the `hits` of every member holding one is written by `json.Marshal`
(which cannot fail on a decoded value), decoded into a fresh `HitsT`, and stored under the
member's name. Go ranges over the map in random order; only which error is returned first
depends on it, and this takes the members in key order. -/
def collectAggregations :
    List (String × Value) → List (String × HitsT) → Except DecodeError (List (String × HitsT))
  | [], found => .ok found
  | (name, value) :: aggs, found =>
    match hitsValue value with
    | some hMap => do
      let hits ← unmarshalInto decodeHitsT (encodeValue hMap) HitsT.zero
      collectAggregations aggs (mapInsert name hits found)
    | none => collectAggregations aggs found

/-- `(*Bucket).UnmarshalJSON(data)`; a `null` map is an empty one. -/
def Bucket.unmarshalJSON (data : Json) : Except DecodeError Bucket := do
  let b2 ← unmarshalBucketFields data
  let aggs ← unmarshalMap data
  let found ← collectAggregations (deleteTags (aggs.getD []) bucketTags) []
  return { b2 with aggregations := found }

/-! ## Decoding directly -/

/-- The `hits` member of a value that is an object with one, the last of that name as a map
keeps it. -/
def hitsText : Json → Option Json
  | .object m => lastMember m "hits"
  | _ => none

/-- The aggregations of a bucket object: for a member name other than `key` and `doc_count`, the
`hits` text of that member's value, when it has one. -/
def aggregationHits (kvs : List (String × Json)) (n : String) : Option Json :=
  if n = "key" ∨ n = "doc_count" then none else (lastMember kvs n).bind hitsText

/-- `json.Unmarshal` of a `hits` text of its own into a `HitsT`. -/
def decodeHitsText (t : Json) : Except DecodeError HitsT := unmarshalInto decodeHitsT t HitsT.zero

/-- A hit with its `_source` as a JSON value: the canonical form of its text. -/
def HitT.canon (h : HitT) : HitT := { h with source := h.source.map canonText }

/-- A `HitsT` with every `_source` as a JSON value. -/
def HitsT.canon (h : HitsT) : HitsT := { h with hits := h.hits.map HitT.canon }

/-! ## The `HitsT` decoder on re-encoded texts -/

/-- A `HitT` text that decodes as its re-encoding: member names that fold apart, and `_seq_no`,
an `int64`, written as `json.Marshal` writes a `float64`. -/
def HitText : Json → Prop := StructText fun k t => k = foldName "_seq_no" → IntText t

/-- A `Total` text that decodes as its re-encoding, its `uint64` `value` likewise. -/
def TotalText : Json → Prop := StructText fun k t => k = foldName "value" → IntText t

/-- A `HitsT` text that decodes as its re-encoding: member names that fold apart, each element
of `hits` a `HitText` and `total` a `TotalText`. -/
def HitsText : Json → Prop :=
  StructText fun k t => (k = foldName "hits" → SliceText HitText t) ∧ (k = foldName "total" → TotalText t)

instance : DecidablePred HitText := inferInstanceAs (DecidablePred (StructText _))
instance : DecidablePred TotalText := inferInstanceAs (DecidablePred (StructText _))
instance : DecidablePred HitsText := inferInstanceAs (DecidablePred (StructText _))

theorem HitT.fields_commute : FieldsCommute HitT.fields := by
  intro f hf g hg hne a b x
  simp only [HitT.fields, List.mem_cons, List.not_mem_nil, or_false] at hf hg
  rcases hf with rfl | rfl | rfl | rfl | rfl <;> rcases hg with rfl | rfl | rfl | rfl | rfl <;>
    first
      | exact absurd rfl hne
      | (refine field_commute ?_ ?_ ?_ a b x <;> intros <;> rfl)

theorem Total.fields_commute : FieldsCommute Total.fields := by
  intro f hf g hg hne a b x
  simp only [Total.fields, List.mem_cons, List.not_mem_nil, or_false] at hf hg
  rcases hf with rfl | rfl <;> rcases hg with rfl | rfl <;>
    first
      | exact absurd rfl hne
      | (refine field_commute ?_ ?_ ?_ a b x <;> intros <;> rfl)

theorem HitsT.fields_commute : FieldsCommute HitsT.fields := by
  intro f hf g hg hne a b x
  simp only [HitsT.fields, List.mem_cons, List.not_mem_nil, or_false] at hf hg
  rcases hf with rfl | rfl | rfl <;> rcases hg with rfl | rfl | rfl <;>
    first
      | exact absurd rfl hne
      | (refine field_commute ?_ ?_ ?_ a b x <;> intros <;> rfl)

theorem reencodes_decodeHitT : Reencodes HitT.canon decodeHitT HitText := by
  refine reencodes_struct _ HitT.fields_commute fun f hf => ?_
  simp only [HitT.fields, List.mem_cons, List.not_mem_nil, or_false] at hf
  rcases hf with rfl | rfl | rfl | rfl | rfl
  · exact reencodes_field reencodes_string (fun _ => rfl) (fun _ _ => rfl)
  · exact reencodes_field ((reencodes_intText scalar_decodeInt64).mono fun _ h => h rfl)
      (fun _ => rfl) (fun _ _ => rfl)
  · exact reencodes_field reencodes_string (fun _ => rfl) (fun _ _ => rfl)
  · exact reencodes_field reencodes_raw (fun _ => rfl) (fun _ _ => rfl)
  · exact reencodes_field reencodes_floatPtr (fun _ => rfl) (fun _ _ => rfl)

theorem reencodes_total : Reencodes id (decodeStruct totalType Total.fields) TotalText := by
  refine reencodes_struct _ Total.fields_commute fun f hf => ?_
  simp only [Total.fields, List.mem_cons, List.not_mem_nil, or_false] at hf
  rcases hf with rfl | rfl
  · exact reencodes_field reencodes_string (fun _ => rfl) (fun _ _ => rfl)
  · exact reencodes_field ((reencodes_intText scalar_decodeUint64).mono fun _ h => h rfl)
      (fun _ => rfl) (fun _ _ => rfl)

/-- **`HitsT` decodes a re-encoded text as the text**, with `_source` texts in canonical
form. -/
theorem reencodes_decodeHitsT : Reencodes HitsT.canon decodeHitsT HitsText := by
  refine reencodes_struct _ HitsT.fields_commute fun f hf => ?_
  simp only [HitsT.fields, List.mem_cons, List.not_mem_nil, or_false] at hf
  rcases hf with rfl | rfl | rfl
  · exact reencodes_field ((reencodes_slice _ rfl reencodes_decodeHitT).mono fun _ h => h.1 rfl)
      (fun _ => rfl) (fun _ _ => rfl)
  · exact reencodes_field (reencodes_total.mono fun _ h => h.2 rfl) (fun _ => rfl) (fun _ _ => rfl)
  · exact reencodes_field reencodes_floatPtr (fun _ => rfl) (fun _ _ => rfl)

/-- The loop's decoding of a `hits` value agrees with decoding the text it came from. -/
theorem redecode_agrees {t : Json} {v : Value} (ht : HitsText t)
    (hd : t.depth ≤ maxNestingDepth) (hv : decodeValue t = .ok v) :
    Agree (unmarshalInto decodeHitsT (encodeValue v) HitsT.zero)
      ((decodeHitsText t).map HitsT.canon) := by
  have hd' : (encodeValue v).depth ≤ maxNestingDepth := (depth_encodeValue_le hv).trans hd
  simp only [unmarshalInto, decodeHitsText, if_neg (Nat.not_lt.2 hd), if_neg (Nat.not_lt.2 hd')]
  exact reencodes_decodeHitsT t v HitsT.zero ht hv

/-! ## The loop over the map -/

theorem collectAggregations_ok_iff :
    ∀ {L : List (String × Value)} {found : List (String × HitsT)},
      (∃ r, collectAggregations L found = .ok r) ↔
        ∀ p ∈ L, ∀ h, hitsValue p.2 = some h →
          ∃ hs, unmarshalInto decodeHitsT (encodeValue h) HitsT.zero = .ok hs
  | [], _ => by simp [collectAggregations]
  | (name, value) :: L, found => by
    rw [List.forall_mem_cons]
    cases hv : hitsValue value with
    | none =>
      simp only [collectAggregations, hv, collectAggregations_ok_iff]
      exact ⟨fun H => ⟨fun _ h => (nomatch h), H⟩, fun H => H.2⟩
    | some h =>
      cases hd : unmarshalInto decodeHitsT (encodeValue h) HitsT.zero with
      | error e =>
        simp only [collectAggregations, hv, hd, except_bind_error]
        refine ⟨fun ⟨_, hr⟩ => (nomatch hr), fun ⟨H, _⟩ => ?_⟩
        obtain ⟨hs, hs'⟩ := H h rfl
        rw [hd] at hs'
        cases hs'
      | ok hs =>
        simp only [collectAggregations, hv, hd, except_bind_ok, collectAggregations_ok_iff]
        exact ⟨fun H => ⟨fun _ hh => ⟨hs, by cases hh; exact hd⟩, H⟩, fun H => H.2⟩

theorem collectAggregations_lookup :
    ∀ {L : List (String × Value)} {found r : List (String × HitsT)}, (L.map Prod.fst).Nodup →
      collectAggregations L found = .ok r → ∀ n,
      r.lookup n = ((L.lookup n).bind hitsValue).elim (found.lookup n) fun h =>
        (unmarshalInto decodeHitsT (encodeValue h) HitsT.zero).toOption
  | [], _, _, _, h, n => by cases h; rfl
  | (name, value) :: L, found, r, hnd, h, n => by
    rw [List.map_cons, List.nodup_cons] at hnd
    have hname : L.lookup name = none := lookup_eq_none_of_not_mem hnd.1
    simp only [collectAggregations] at h
    cases hv : hitsValue value with
    | none =>
      simp only [hv] at h
      rw [collectAggregations_lookup hnd.2 h n]
      by_cases hn : n = name
      · subst hn; simp [hname, hv]
      · rw [lookup_cons_ne hn]
    | some hm =>
      simp only [hv] at h
      cases hd : unmarshalInto decodeHitsT (encodeValue hm) HitsT.zero with
      | error e => rw [hd] at h; cases h
      | ok hs =>
        rw [hd, except_bind_ok] at h
        rw [collectAggregations_lookup hnd.2 h n, mapInsert_lookup]
        by_cases hn : n = name
        · subst hn; simp [hname, hv, hd]
        · rw [lookup_cons_ne hn, if_neg hn]

/-! ## The aggregations of a bucket -/

theorem lookup_filter_ne {α : Type} (t n : String) :
    ∀ m : List (String × α),
      (m.filter fun p => p.1 ≠ t).lookup n = if n = t then none else m.lookup n
  | [] => by simp
  | (k, v) :: m => by
    rw [List.filter_cons]
    by_cases hk : k = t
    · subst hk
      rw [if_neg (by simp), lookup_filter_ne]
      by_cases hn : n = k
      · rw [if_pos hn, if_pos hn]
      · rw [if_neg hn, if_neg hn, lookup_cons_ne hn]
    · rw [if_pos (decide_eq_true hk)]
      by_cases hn : n = k
      · subst hn
        simp [hk]
      · rw [lookup_cons_ne hn, lookup_filter_ne, lookup_cons_ne hn]

theorem deleteTags_bucketTags (m : List (String × Value)) :
    deleteTags m bucketTags =
      (m.filter fun p => p.1 ≠ "key").filter fun p => p.1 ≠ "doc_count" := by
  simp only [bucketTags, deleteTags, if_pos (show "key" ≠ "" ∧ "key" ≠ "-" by decide),
    if_pos (show "doc_count" ≠ "" ∧ "doc_count" ≠ "-" by decide),
    if_neg (show ¬ ("-" ≠ "" ∧ "-" ≠ "-") by decide)]

theorem deleteTags_lookup (m : List (String × Value)) (n : String) :
    (deleteTags m bucketTags).lookup n =
      if n = "key" ∨ n = "doc_count" then none else m.lookup n := by
  rw [deleteTags_bucketTags, lookup_filter_ne, lookup_filter_ne]
  by_cases h₁ : n = "key" <;> by_cases h₂ : n = "doc_count" <;> simp [h₁, h₂]

theorem deleteTags_nodup {m : List (String × Value)} (h : (m.map Prod.fst).Nodup) :
    ((deleteTags m bucketTags).map Prod.fst).Nodup := by
  rw [deleteTags_bucketTags]
  exact (((List.filter_sublist _).trans (List.filter_sublist _)).map Prod.fst).nodup h

theorem hitsValue_of_decode {x : Json} {v : Value} (hv : decodeValue x = .ok v) :
    hitsValue v = (hitsText x).bind fun h => (decodeValue h).toOption := by
  cases x with
  | object xm =>
    obtain ⟨m, hm, rfl⟩ := decodeValue_object_ok hv
    rw [hitsValue, hitsText, decodeMembers_lookup hm]
    cases lastMember xm "hits" <;> rfl
  | number n =>
    obtain ⟨f, -, rfl⟩ := decodeValue_number_ok hv
    rfl
  | array xs =>
    obtain ⟨vs, -, rfl⟩ := decodeValue_array_ok hv
    rfl
  | null | bool _ | string _ => cases hv; rfl

/-- An aggregation's `hits` text is that of the last member of its name. -/
theorem aggregationHits_some {kvs : List (String × Json)} {n : String} {h : Json}
    (hl : aggregationHits kvs n = some h) : ∃ x, lastMember kvs n = some x ∧ hitsText x = some h := by
  unfold aggregationHits at hl
  split at hl
  · cases hl
  · exact Option.bind_eq_some.1 hl

section Bucket

variable {kvs : List (String × Json)} {m : List (String × Value)}
  (hm : decodeValue.decodeMembers kvs [] = .ok m)
include hm

/-- The `hits` values the loop sees are the decoded `hits` texts of the aggregations. -/
theorem loop_hits (n : String) :
    ((deleteTags m bucketTags).lookup n).bind hitsValue =
      (aggregationHits kvs n).bind fun h => (decodeValue h).toOption := by
  rw [deleteTags_lookup, decodeMembers_lookup hm, aggregationHits]
  split
  · rfl
  · cases hl : lastMember kvs n with
    | none => rfl
    | some x =>
      obtain ⟨v, hv⟩ := (decodeMembers_ok_iff kvs []).1 ⟨m, hm⟩ _ (mem_of_lastMember hl)
      simp only [Option.elim, hv, except_toOption_ok, Option.some_bind]
      exact hitsValue_of_decode hv

/-- An aggregation's `hits` text decodes, and is nested inside the bucket. -/
theorem aggregationHits_text {n : String} {h : Json} (hl : aggregationHits kvs n = some h) :
    (∃ v, decodeValue h = .ok v) ∧ h.depth < (Json.object kvs).depth := by
  obtain ⟨x, hx, hh⟩ := aggregationHits_some hl
  have hxm := mem_of_lastMember hx
  obtain ⟨v, hv⟩ := (decodeMembers_ok_iff kvs []).1 ⟨m, hm⟩ _ hxm
  cases x with
  | object xm =>
    have hhm := mem_of_lastMember (show lastMember xm "hits" = some h from hh)
    obtain ⟨w, hw, -⟩ := decodeValue_object_ok hv
    exact ⟨(decodeMembers_ok_iff xm []).1 ⟨w, hw⟩ _ hhm,
      (Json.depth_lt_of_mem hhm).trans (Json.depth_lt_of_mem hxm)⟩
  | _ => cases hh

theorem deleteTags_decoded_nodup : ((deleteTags m bucketTags).map Prod.fst).Nodup :=
  deleteTags_nodup (decodeValue_wf.members hm List.Pairwise.nil trivial).1.nodup

variable (hd : (Json.object kvs).depth ≤ maxNestingDepth)
  (hhits : ∀ p ∈ kvs, ∀ h ∈ aggregationHits kvs p.1, HitsText h)
include hd hhits

/-- Each aggregation's `hits` text decodes, and the loop's decoding of its value agrees with
decoding the text directly. -/
theorem aggregation_redecode_agrees {n : String} {h : Json}
    (hl : aggregationHits kvs n = some h) :
    ∃ v, decodeValue h = .ok v ∧ Agree (unmarshalInto decodeHitsT (encodeValue v) HitsT.zero)
      ((decodeHitsText h).map HitsT.canon) := by
  obtain ⟨⟨v, hv⟩, hlt⟩ := aggregationHits_text hm hl
  obtain ⟨x, hx, -⟩ := aggregationHits_some hl
  exact ⟨v, hv, redecode_agrees (hhits _ (mem_of_lastMember hx) h hl) (hlt.le.trans hd) hv⟩

/-- The loop succeeds exactly when every aggregation's `hits` text decodes directly. -/
theorem collect_bucket_ok_iff :
    (∃ r, collectAggregations (deleteTags m bucketTags) [] = .ok r) ↔
      ∀ n h, aggregationHits kvs n = some h → ∃ hs, decodeHitsText h = .ok hs := by
  rw [collectAggregations_ok_iff]
  constructor
  · intro H n h hl
    obtain ⟨v, hv, hA⟩ := aggregation_redecode_agrees hm hd hhits hl
    have hlv : ((deleteTags m bucketTags).lookup n).bind hitsValue = some v := by
      rw [loop_hits hm, hl]; simp [hv]
    obtain ⟨w, hw, hwv⟩ := Option.bind_eq_some.1 hlv
    obtain ⟨y, hy⟩ := hA.ok_iff.1 (H _ (mem_of_lookup hw) v hwv)
    cases hdh : decodeHitsText h with
    | error e => rw [hdh] at hy; cases hy
    | ok z => exact ⟨z, rfl⟩
  · intro H p hp v hv'
    have hv : ((deleteTags m bucketTags).lookup p.1).bind hitsValue = some v := by
      rw [(lookup_eq_some_iff_mem (deleteTags_decoded_nodup hm)).2 hp]; exact hv'
    rw [loop_hits hm] at hv
    obtain ⟨h, hl, hhv⟩ := Option.bind_eq_some.1 hv
    obtain ⟨v', hv'', hA⟩ := aggregation_redecode_agrees hm hd hhits hl
    rw [hv'', except_toOption_ok, Option.some.injEq] at hhv
    subst hhv
    obtain ⟨hs, hs'⟩ := H _ h hl
    exact hA.ok_iff.2 ⟨_, by rw [hs', except_map_ok]⟩

/-- What the loop stores under each name: the directly decoded `hits` of that aggregation. -/
theorem collect_bucket_lookup {r : List (String × HitsT)}
    (hc : collectAggregations (deleteTags m bucketTags) [] = .ok r) (n : String) :
    r.lookup n = (aggregationHits kvs n).bind fun h =>
      ((decodeHitsText h).map HitsT.canon).toOption := by
  rw [collectAggregations_lookup (deleteTags_decoded_nodup hm) hc n, loop_hits hm]
  cases hl : aggregationHits kvs n with
  | none => rfl
  | some h =>
    obtain ⟨v, hv, hA⟩ := aggregation_redecode_agrees hm hd hhits hl
    simp only [Option.some_bind, hv, except_toOption_ok, Option.elim]
    exact hA.toOption_eq

end Bucket

theorem Bucket.fields_commute : FieldsCommute Bucket.fields := by
  intro f hf g hg hne a b x
  simp only [Bucket.fields, List.mem_cons, List.not_mem_nil, or_false] at hf hg
  rcases hf with rfl | rfl <;> rcases hg with rfl | rfl <;>
    first
      | exact absurd rfl hne
      | (refine field_commute ?_ ?_ ?_ a b x <;> intros <;> rfl)

section Order

variable {kvs kvs' : List (String × Json)} (hp : kvs.Perm kvs')

include hp

theorem unmarshalBucketFields_perm (hf : (kvs.map fun p => foldName p.1).Nodup) :
    Agree (unmarshalBucketFields (.object kvs)) (unmarshalBucketFields (.object kvs')) := by
  simp only [unmarshalBucketFields, unmarshalInto, Json.depth_perm hp]
  split
  · trivial
  · exact decodeMembersInto_perm Bucket.fields_commute hp hf Bucket.zero

theorem unmarshalMap_perm (hnd : (kvs.map Prod.fst).Nodup) :
    Agree (unmarshalMap (.object kvs)) (unmarshalMap (.object kvs')) := by
  simp only [unmarshalMap, Json.depth_perm hp]
  split
  · trivial
  · exact (decodeMembers_perm_agree hp hnd).map some

/-- **Bucket decoding ignores the order of the members**, when no two member names fold to the
same name: `UnmarshalJSON` fails on both orders or gives the same bucket on both. -/
theorem bucket_decoding_ignores_member_order (hf : (kvs.map fun p => foldName p.1).Nodup) :
    Agree (Bucket.unmarshalJSON (.object kvs)) (Bucket.unmarshalJSON (.object kvs')) := by
  have hnd : (kvs.map Prod.fst).Nodup := List.Nodup.of_map foldName (by rwa [List.map_map])
  unfold Bucket.unmarshalJSON
  exact Agree.bind (unmarshalBucketFields_perm hp hf) fun _ =>
    Agree.bind (unmarshalMap_perm hp hnd) fun _ => Agree.refl _

end Order

theorem bucket_decoding_ignores_member_order_example :
    let kvs : List (String × Json) :=
      [("key", .string "a"), ("agg", .object [("hits", .object [("max_score", .null)])])]
    let kvs' : List (String × Json) :=
      [("agg", .object [("hits", .object [("max_score", .null)])]), ("key", .string "a")]
    kvs.Perm kvs' ∧ (kvs.map fun p => foldName p.1).Nodup ∧
      Agree (Bucket.unmarshalJSON (.object kvs)) (Bucket.unmarshalJSON (.object kvs')) :=
  ⟨by decide, by decide, bucket_decoding_ignores_member_order (by decide) (by decide)⟩

end Es
end FleetServer
