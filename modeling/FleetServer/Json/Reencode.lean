import FleetServer.Json.Struct
import Mathlib.Data.List.Nodup
import Mathlib.Data.List.Sort

/-!
# FleetServer.Json.Reencode

Decoding a text after a round through `interface{}`: `json.Unmarshal` into an `interface{}`,
`json.Marshal` of what that gives, and `json.Unmarshal` of the new text into a typed value. The
new text is not the old one: object members come in key order, a repeated member keeps only its
last value, and a number is written as the `float64` it parsed to. Typed decoding can see each
of these: members are stored in the order written, a member name finds its field after case
folding, an integer field parses the literal, and a `json.RawMessage` keeps the text.

On the texts where none of this shows, the two decodings agree. What a decoder needs depends on
its type (`IntText`, `SliceText`, `StructText`): an integer field a number written as
`json.Marshal` writes its `float64`, a struct member names that fold apart (`FoldsApart`).
Strings, `float64`s and raw texts need nothing.

* `Reencodes N D A`: decoding the re-encoded text of a text `A` with `D` into `N x` agrees
  (`Agree`) with decoding the text into `x` and normalizing by `N`, where `N` puts the text a
  `json.RawMessage` kept into its canonical form (`canonText`).
* `reencodes_scalar`, `reencodes_raw`, `reencodes_slice`, `reencodes_struct`: every kind of
  decoder the modelled structs use has this property, a struct when its fields write distinct
  parts of it (`FieldsCommute`); `decodeMembersInto_perm` is the reordering of members.
* `decodeMembers_lookup`: a decoded object keeps the last member of each name (`lastMember`).
* `canonText_eq_iff`: two decodable texts have the same canonical form exactly when they
  decode to the same value, so comparing `canonText` compares texts as JSON values.
-/

namespace FleetServer

namespace Json

theorem depthMembers_le_iff :
    ∀ {l : List (String × Json)} {d : Nat}, depth.depthMembers l ≤ d ↔ ∀ p ∈ l, p.2.depth ≤ d
  | [], _ => by simp [depth.depthMembers]
  | (_, x) :: l, d => by
    simp only [depth.depthMembers, max_le_iff, List.mem_cons, forall_eq_or_imp,
      depthMembers_le_iff]

/-- A member is nested one level below its object. -/
theorem depth_lt_of_mem {kvs : List (String × Json)} {p : String × Json} (hp : p ∈ kvs) :
    p.2.depth < (Json.object kvs).depth :=
  Nat.lt_succ_of_le (depthMembers_le_iff.1 le_rfl p hp)

/-- An object's depth does not depend on the order of its members. -/
theorem depth_perm {kvs kvs' : List (String × Json)} (hp : kvs.Perm kvs') :
    (Json.object kvs).depth = (Json.object kvs').depth := by
  have hle : ∀ {l l' : List (String × Json)}, l.Perm l' →
      depth.depthMembers l ≤ depth.depthMembers l' := fun hp =>
    depthMembers_le_iff.2 fun p hp' => depthMembers_le_iff.1 le_rfl p (hp.mem_iff.1 hp')
  simp only [depth, le_antisymm (hle hp) (hle hp.symm)]

end Json

/-- `json.Unmarshal` succeeds only on a text within the scanner's nesting limit. -/
theorem depth_of_unmarshalInto {α : Type} {D : Json → α → Except DecodeError α} {t : Json}
    {x y : α} (h : unmarshalInto D t x = .ok y) : t.depth ≤ maxNestingDepth := by
  unfold unmarshalInto at h
  split at h
  · cases h
  · exact Nat.le_of_not_lt ‹_›

/-! ## Agreement of outcomes -/

/-- Two outcomes of decoding agree: both fail, or both succeed with the same value. The errors
may differ, since which member is reported first depends on the order of the members. -/
def Agree {α : Type} : Except DecodeError α → Except DecodeError α → Prop
  | .ok a, .ok b => a = b
  | .error _, .error _ => True
  | _, _ => False

namespace Agree

variable {α β : Type}

theorem refl : ∀ a : Except DecodeError α, Agree a a
  | .ok _ => rfl
  | .error _ => trivial

theorem trans {a b c : Except DecodeError α} (h₁ : Agree a b) (h₂ : Agree b c) : Agree a c := by
  cases a <;> cases b <;> cases c <;>
    first | trivial | exact Eq.trans h₁ h₂

theorem bind {a b : Except DecodeError α} {f g : α → Except DecodeError β} (h : Agree a b)
    (hfg : ∀ x, Agree (f x) (g x)) : Agree (a >>= f) (b >>= g) := by
  cases a <;> cases b <;> cases h <;> first | trivial | exact hfg _

/-- Agreement up to a normalization, carried through a bind. -/
theorem bind_map {γ δ : Type} {N : γ → α} {M : δ → β} {a : Except DecodeError α}
    {b : Except DecodeError γ} {f : α → Except DecodeError β} {g : γ → Except DecodeError δ}
    (h : Agree a (b.map N)) (hfg : ∀ y, Agree (f (N y)) ((g y).map M)) :
    Agree (a >>= f) ((b >>= g).map M) := by
  cases a <;> cases b <;> simp only [Agree, except_map_ok, except_map_error] at h
  · trivial
  · subst h
    exact hfg _

theorem map {a b : Except DecodeError α} (h : Agree a b) (f : α → β) :
    Agree (a.map f) (b.map f) := by
  cases a <;> cases b <;> first | trivial | exact congrArg f h

theorem ok_iff : ∀ {a b : Except DecodeError α}, Agree a b →
    ((∃ x, a = .ok x) ↔ ∃ x, b = .ok x)
  | .ok _, .ok _, _ | .error _, .error _, _ => by simp

theorem toOption_eq : ∀ {a b : Except DecodeError α}, Agree a b → a.toOption = b.toOption
  | .ok _, .ok _, h => congrArg some h
  | .error _, .error _, _ => rfl

end Agree

/-! ## Decoding and encoding `interface{}` values -/

/-- A text as a JSON value: what `json.Marshal` writes for what it decodes to, or the text
itself when it does not decode. -/
def canonText (t : Json) : Json :=
  match decodeValue t with
  | .ok v => encodeValue v
  | .error _ => t

theorem canonText_of_decode {t : Json} {v : Value} (h : decodeValue t = .ok v) :
    canonText t = encodeValue v := by
  rw [canonText, h]

/-- **Comparing canonical forms compares values**: two decodable texts have the same
`canonText` exactly when they decode to the same `interface{}` value. -/
theorem canonText_eq_iff {a b : Json} {va vb : Value} (ha : decodeValue a = .ok va)
    (hb : decodeValue b = .ok vb) : canonText a = canonText b ↔ va = vb := by
  rw [canonText_of_decode ha, canonText_of_decode hb]
  refine ⟨fun h => ?_, fun h => h ▸ rfl⟩
  have h' := congrArg decodeValue h
  rwa [decodeValue_encodeValue va (decodeValue_wf ha),
    decodeValue_encodeValue vb (decodeValue_wf hb), Except.ok.injEq] at h'

theorem encodeMembers_eq_map :
    ∀ m : List (String × Value), encodeValue.encodeMembers m = m.map fun p => (p.1, encodeValue p.2)
  | [] => rfl
  | (_, _) :: m => congrArg _ (encodeMembers_eq_map m)

theorem mapInsert_perm {α : Type} (k : String) (v : α) :
    ∀ m : List (String × α), k ∉ m.map Prod.fst → (mapInsert k v m).Perm ((k, v) :: m)
  | [], _ => .refl _
  | (k', v') :: m, hk => by
    have hk' : k ≠ k' := fun h => hk (h ▸ List.mem_cons_self _ _)
    unfold mapInsert
    rw [if_neg hk']
    split
    · exact .refl _
    · exact ((mapInsert_perm k v m fun h => hk (List.mem_cons_of_mem _ h)).cons _).trans
        (.swap _ _ _)

/-- A member decodes to a member: same name, the value decoded. -/
def DecodesTo (p : String × Json) (q : String × Value) : Prop :=
  p.1 = q.1 ∧ decodeValue p.2 = .ok q.2

/-- **Decoding an object with distinct names reorders its members**: the map holds each member
decoded, in some order. -/
theorem decodeMembers_perm :
    ∀ {kvs : List (String × Json)} {acc m : List (String × Value)},
      decodeValue.decodeMembers kvs acc = .ok m → (kvs.map Prod.fst).Nodup →
      (∀ p ∈ kvs, p.1 ∉ acc.map Prod.fst) →
      ∃ vs, List.Forall₂ DecodesTo kvs vs ∧ m.Perm (vs ++ acc)
  | [], _, _, h, _, _ => by cases h; exact ⟨[], .nil, .refl _⟩
  | (k, x) :: kvs, acc, m, h, hnd, hacc => by
    obtain ⟨v, hx, h⟩ := decodeMembers_cons_ok h
    rw [List.map_cons, List.nodup_cons] at hnd
    have hk : k ∉ acc.map Prod.fst := hacc (k, x) (List.mem_cons_self _ _)
    have hacc' : ∀ p ∈ kvs, p.1 ∉ (mapInsert k v acc).map Prod.fst := by
      intro p hp hin
      obtain ⟨q, hq, hqp⟩ := List.mem_map.1 hin
      rcases mem_mapInsert hq with rfl | hq
      · exact hnd.1 (hqp ▸ List.mem_map_of_mem Prod.fst hp)
      · exact hacc p (List.mem_cons_of_mem _ hp) (hqp ▸ List.mem_map_of_mem Prod.fst hq)
    obtain ⟨vs, hvs, hm⟩ := decodeMembers_perm h hnd.2 hacc'
    refine ⟨(k, v) :: vs, .cons ⟨rfl, hx⟩ hvs, ?_⟩
    exact hm.trans (((mapInsert_perm k v acc hk).append_left vs).trans List.perm_middle)

/-- The value of the last member named `k`: what decoding into a map keeps for `k`. -/
def lastMember (kvs : List (String × Json)) (k : String) : Option Json := kvs.reverse.lookup k

theorem lastMember_cons (k' : String) (x : Json) (kvs : List (String × Json)) (k : String) :
    lastMember ((k', x) :: kvs) k = (lastMember kvs k).or (if k = k' then some x else none) := by
  by_cases hk : k = k'
  · subst hk; simp [lastMember, List.lookup_append]
  · simp [lastMember, List.lookup_append, List.lookup_cons, beq_false_of_ne hk, hk]

theorem mem_of_lastMember {kvs : List (String × Json)} {k : String} {x : Json}
    (h : lastMember kvs k = some x) : (k, x) ∈ kvs :=
  List.mem_reverse.1 (mem_of_lookup h)

theorem lastMember_eq_lookup {kvs : List (String × Json)} (hnd : (kvs.map Prod.fst).Nodup)
    (k : String) : lastMember kvs k = kvs.lookup k :=
  lookup_perm (List.reverse_perm kvs) (by rwa [List.map_reverse, List.nodup_reverse]) k

/-- Looking a name up in a decoded object: the last member of that name, decoded, else what the
map started with. -/
theorem decodeMembers_lookup :
    ∀ {kvs : List (String × Json)} {acc m : List (String × Value)},
      decodeValue.decodeMembers kvs acc = .ok m → ∀ k,
      m.lookup k = (lastMember kvs k).elim (acc.lookup k) fun x => (decodeValue x).toOption
  | [], _, _, h, k => by cases h; rfl
  | (k', x) :: kvs, acc, m, h, k => by
    obtain ⟨v, hx, h⟩ := decodeMembers_cons_ok h
    rw [decodeMembers_lookup h k, lastMember_cons]
    cases lastMember kvs k with
    | some _ => rfl
    | none => by_cases hk : k = k' <;> simp [mapInsert_lookup, hk, hx]

/-- Two maps in key order that look every key up alike are equal. -/
theorem eq_of_lookup_eq {α : Type} {m m' : List (String × α)} (hs : KeysSorted m)
    (hs' : KeysSorted m') (h : ∀ k, m.lookup k = m'.lookup k) : m = m' := by
  have hnd : (m.map Prod.fst).Nodup := hs.nodup
  have hnd' : (m'.map Prod.fst).Nodup := hs'.nodup
  have hp : m.Perm m' := (List.perm_ext_iff_of_nodup (hnd.of_map _) (hnd'.of_map _)).2
    fun p => by rw [← lookup_eq_some_iff_mem hnd, h, lookup_eq_some_iff_mem hnd']
  have : IsAntisymm (String × α) fun a b => a.1 < b.1 :=
    ⟨fun _ _ h h' => absurd (h.trans h') (lt_irrefl _)⟩
  exact List.eq_of_perm_of_sorted hp (List.pairwise_map.1 hs) (List.pairwise_map.1 hs')

/-- **Decoding an object with distinct names into a map ignores the order of its members**: both
orders fail, or both give the same map. -/
theorem decodeMembers_perm_agree {kvs kvs' : List (String × Json)} (hp : kvs.Perm kvs')
    (hnd : (kvs.map Prod.fst).Nodup) :
    Agree (decodeValue.decodeMembers kvs []) (decodeValue.decodeMembers kvs' []) := by
  have hnd' := (hp.map Prod.fst).nodup_iff.1 hnd
  have hok := (decodeMembers_ok_iff kvs []).trans
    ((forall_congr' fun _ => imp_congr_left hp.mem_iff).trans (decodeMembers_ok_iff kvs' []).symm)
  cases h : decodeValue.decodeMembers kvs [] with
  | error e =>
    cases h' : decodeValue.decodeMembers kvs' [] with
    | error _ => trivial
    | ok m' =>
      obtain ⟨m, hm⟩ := hok.2 ⟨m', h'⟩
      rw [h] at hm
      cases hm
  | ok m =>
    obtain ⟨m', h'⟩ := hok.1 ⟨m, h⟩
    rw [h']
    refine eq_of_lookup_eq (decodeValue_wf.members h List.Pairwise.nil trivial).1
      (decodeValue_wf.members h' List.Pairwise.nil trivial).1 fun k => ?_
    rw [decodeMembers_lookup h k, decodeMembers_lookup h' k, lastMember_eq_lookup hnd,
      lastMember_eq_lookup hnd', lookup_perm hp hnd k]

theorem forall₂_keys {kvs : List (String × Json)} {vs : List (String × Value)}
    (h : List.Forall₂ DecodesTo kvs vs) : kvs.map Prod.fst = vs.map Prod.fst := by
  induction h with
  | nil => rfl
  | cons hpq _ ih => rw [List.map_cons, List.map_cons, hpq.1, ih]

/-- **Encoding never nests deeper**: what `json.Marshal` writes for a decoded text is at most as
deep as the text (members a repeated name dropped may have been deeper). -/
theorem depth_encodeValue_le : ∀ {t : Json} {v : Value}, decodeValue t = .ok v →
    (encodeValue v).depth ≤ t.depth
  | .null, _, h | .bool _, _, h | .string _, _, h => by cases h; exact le_rfl
  | .number n, v, h => by
    obtain ⟨f, -, rfl⟩ := decodeValue_number_ok h
    exact le_rfl
  | .array xs, v, h => by
    obtain ⟨vs, hl, rfl⟩ := decodeValue_array_ok h
    exact Nat.succ_le_succ (list hl)
  | .object kvs, v, h => by
    obtain ⟨m, hm, rfl⟩ := decodeValue_object_ok h
    exact Nat.succ_le_succ (Json.depthMembers_le_iff.2 (members hm (fun _ h => nomatch h) le_rfl))
where
  list : ∀ {xs : List Json} {vs : List Value}, decodeValue.decodeList xs = .ok vs →
      Json.depth.depthList (encodeValue.encodeList vs) ≤ Json.depth.depthList xs
  | [], _, h => by cases h; exact le_rfl
  | x :: xs, vs, h => by
    obtain ⟨v, vs', hx, hl, rfl⟩ := decodeList_cons_ok h
    exact max_le_max (depth_encodeValue_le hx) (list hl)
  members : ∀ {kvs : List (String × Json)} {acc m : List (String × Value)} {d : Nat},
      decodeValue.decodeMembers kvs acc = .ok m →
      (∀ p ∈ acc, (encodeValue p.2).depth ≤ d) → Json.depth.depthMembers kvs ≤ d →
      ∀ p ∈ encodeValue.encodeMembers m, p.2.depth ≤ d
  | [], acc, m, d, h, hacc, _ => by
    cases h
    rw [encodeMembers_eq_map]
    intro p hp
    obtain ⟨q, hq, rfl⟩ := List.mem_map.1 hp
    exact hacc q hq
  | (k, x) :: kvs, acc, m, d, h, hacc, hd => by
    obtain ⟨v, hx, h⟩ := decodeMembers_cons_ok h
    simp only [Json.depth.depthMembers, max_le_iff] at hd
    refine members h (fun p hp => ?_) hd.2
    rcases mem_mapInsert hp with rfl | hp
    · exact (depth_encodeValue_le hx).trans hd.1
    · exact hacc p hp

/-! ## What a typed decoder needs of a text -/

/-- Member names that fold apart: no two of them find the same field of a struct. -/
def FoldsApart (kvs : List (String × Json)) : Prop := (kvs.map fun p => foldName p.1).Nodup

instance : DecidablePred FoldsApart := fun _ => inferInstanceAs (Decidable (List.Nodup _))

theorem FoldsApart.keysNodup {kvs : List (String × Json)} (h : FoldsApart kvs) :
    (kvs.map Prod.fst).Nodup :=
  List.Nodup.of_map foldName (by rwa [List.map_map])

/-- A text an integer field reads as its re-encoding: a number is written as `json.Marshal`
writes the `float64` it parses to, since the field parses the literal itself. -/
def IntText : Json → Prop
  | .number n => (parseFloat n).map formatFloat = some n
  | _ => True

/-- A slice text whose elements are each `A`. -/
def SliceText (A : Json → Prop) : Json → Prop
  | .array xs => ∀ x ∈ xs, A x
  | _ => True

/-- A struct text whose member names fold apart, each member `A k` for the folded name `k` by
which it finds its field. -/
def StructText (A : String → Json → Prop) : Json → Prop
  | .object kvs => FoldsApart kvs ∧ ∀ p ∈ kvs, A (foldName p.1) p.2
  | _ => True

instance : DecidablePred IntText
  | .number _ => inferInstanceAs (Decidable (_ = _))
  | .null | .bool _ | .string _ | .array _ | .object _ => isTrue trivial

instance (A : Json → Prop) [DecidablePred A] : DecidablePred (SliceText A)
  | .array xs => inferInstanceAs (Decidable (∀ x ∈ xs, A x))
  | .null | .bool _ | .number _ | .string _ | .object _ => isTrue trivial

instance (A : String → Json → Prop) [∀ k, DecidablePred (A k)] : DecidablePred (StructText A)
  | .object kvs => inferInstanceAs (Decidable (FoldsApart kvs ∧ ∀ p ∈ kvs, A (foldName p.1) p.2))
  | .null | .bool _ | .number _ | .string _ | .array _ => isTrue trivial

/-! ## Decoders that agree on re-encoded texts -/

section Reencodes

variable {α : Type}

/-- `D` decodes what `json.Marshal` writes for a decoded text `A` as it decodes the text, up to
the normalization `N`: into `N x`, it agrees with decoding the text into `x` and normalizing. -/
def Reencodes (N : α → α) (D : Json → α → Except DecodeError α) (A : Json → Prop) : Prop :=
  ∀ t v x, A t → decodeValue t = .ok v → Agree (D (encodeValue v) (N x)) ((D t x).map N)

theorem Reencodes.mono {N : α → α} {D : Json → α → Except DecodeError α} {A B : Json → Prop}
    (h : Reencodes N D A) (hA : ∀ t, B t → A t) : Reencodes N D B :=
  fun t v x ht => h t v x (hA t ht)

/-- A decoder of scalars: on an array, or on an object, its outcome does not depend on the
elements. -/
def ScalarDecoder (D : Json → α → Except DecodeError α) : Prop :=
  ∀ x, (∀ xs ys, D (.array xs) x = D (.array ys) x) ∧ ∀ kvs kvs', D (.object kvs) x = D (.object kvs') x

theorem except_map_id (a : Except DecodeError α) : a.map id = a := by
  cases a <;> rfl

/-- **A scalar decoder agrees on re-encoded texts** when it reads a number `A` as it reads the
number `json.Marshal` writes for its `float64`. -/
theorem reencodes_scalar {D : Json → α → Except DecodeError α} {A : Json → Prop}
    (hD : ScalarDecoder D) (hn : ∀ x n f, A (.number n) → parseFloat n = some f →
      Agree (D (.number (formatFloat f)) x) (D (.number n) x)) :
    Reencodes id D A := by
  intro t v x ht hv
  rw [except_map_id]
  show Agree (D (encodeValue v) x) (D t x)
  cases t with
  | null | bool _ | string _ => cases hv; exact Agree.refl _
  | number n =>
    obtain ⟨f, hf, rfl⟩ := decodeValue_number_ok hv
    exact hn x n f ht hf
  | array xs =>
    obtain ⟨vs, -, rfl⟩ := decodeValue_array_ok hv
    rw [encodeValue, (hD x).1 _ xs]; exact Agree.refl _
  | object kvs =>
    obtain ⟨m, -, rfl⟩ := decodeValue_object_ok hv
    rw [encodeValue, (hD x).2 _ kvs]; exact Agree.refl _

theorem scalar_decodeString : ScalarDecoder decodeString := fun _ => ⟨fun _ _ => rfl, fun _ _ => rfl⟩
theorem scalar_decodeInt64 : ScalarDecoder decodeInt64 := fun _ => ⟨fun _ _ => rfl, fun _ _ => rfl⟩
theorem scalar_decodeUint64 : ScalarDecoder decodeUint64 := fun _ => ⟨fun _ _ => rfl, fun _ _ => rfl⟩
theorem scalar_decodeFloatPtr : ScalarDecoder decodeFloatPtr :=
  fun _ => ⟨fun _ _ => rfl, fun _ _ => rfl⟩

/-- A string field fails on every number. -/
theorem reencodes_string {A : Json → Prop} : Reencodes id decodeString A :=
  reencodes_scalar scalar_decodeString fun _ _ _ _ _ => trivial

set_option exponentiation.threshold 4200 in
/-- A `*float64` field reads the `float64` back from the text `json.Marshal` writes for it. -/
theorem reencodes_floatPtr {A : Json → Prop} : Reencodes id decodeFloatPtr A :=
  reencodes_scalar scalar_decodeFloatPtr fun x n f _ hf => by
    simp only [decodeFloatPtr, hf, parseFloat_formatFloat]; exact Agree.refl _

/-- An integer field agrees on a number written as `json.Marshal` writes it, the text itself. -/
theorem reencodes_intText {D : Json → α → Except DecodeError α} (hD : ScalarDecoder D) :
    Reencodes id D IntText :=
  reencodes_scalar hD fun x n f hn hf => by
    simp only [IntText, hf, Option.map_some', Option.some.injEq] at hn
    rw [hn]; exact Agree.refl _

/-- A `json.RawMessage` keeps the re-encoded text, which is the canonical form of the text. -/
theorem reencodes_raw {A : Json → Prop} : Reencodes (Option.map canonText) decodeRaw A := by
  intro t v x _ hv
  show Agree (.ok (some (encodeValue v))) (.ok (some (canonText t)))
  rw [canonText_of_decode hv]
  exact Agree.refl _

/-- **A slice of re-encoded elements**: when the elements agree, so does the slice, starting from
elements already normalized. -/
theorem reencodes_slice {N : α → α} {zero : α} {elem : Json → α → Except DecodeError α}
    {A : Json → Prop} (type : String) (hz : N zero = zero) (he : Reencodes N elem A) :
    Reencodes (List.map N) (decodeSlice type zero elem) (SliceText A) := by
  intro t v cur ht hv
  cases t with
  | array xs =>
    obtain ⟨vs, hl, rfl⟩ := decodeValue_array_ok hv
    exact go ht hl cur
  | null | bool _ | string _ => cases hv; exact Agree.refl _
  | number n =>
    obtain ⟨f, -, rfl⟩ := decodeValue_number_ok hv
    exact trivial
  | object kvs =>
    obtain ⟨m, -, rfl⟩ := decodeValue_object_ok hv
    exact trivial
where
  go : ∀ {xs : List Json} {vs : List Value}, (∀ x ∈ xs, A x) →
      decodeValue.decodeList xs = .ok vs → ∀ cur : List α,
      Agree (decodeSlice.go zero elem (encodeValue.encodeList vs) (cur.map N))
        ((decodeSlice.go zero elem xs cur).map (List.map N))
  | [], _, _, h, _ => by cases h; exact Agree.refl _
  | x :: xs, vs, hadm, h, cur => by
    obtain ⟨v, vs', hx, hl, rfl⟩ := decodeList_cons_ok h
    have hhead : (cur.map N).headD zero = N (cur.headD zero) := by
      cases cur <;> simp [hz]
    simp only [encodeValue.encodeList, decodeSlice.go, hhead, ← List.map_tail]
    refine Agree.bind_map (he x v _ (hadm x (List.mem_cons_self _ _)) hx) fun y => ?_
    exact Agree.bind_map (go (fun x hx => hadm x (List.mem_cons_of_mem _ hx)) hl _)
      fun ys => Agree.refl _

/-- Two fields with different names commute: decoding a member into each, in either order,
agrees. -/
def FieldsCommute (fields : List (Field α)) : Prop :=
  ∀ f ∈ fields, ∀ g ∈ fields, f.name ≠ g.name →
    ∀ a b x, Agree (f.decode a x >>= g.decode b) (g.decode b x >>= f.decode a)

theorem lookupField_fold {fields : List (Field α)} {k : String} {f : Field α}
    (h : lookupField fields k = some f) : foldName f.name = foldName k := by
  unfold lookupField at h
  split at h
  · rename_i hf
    cases h
    have hk := List.find?_some hf
    exact congrArg foldName (of_decide_eq_true hk)
  · have hk := List.find?_some h
    exact of_decide_eq_true hk

theorem lookupField_mem {fields : List (Field α)} {k : String} {f : Field α}
    (h : lookupField fields k = some f) : f ∈ fields := by
  unfold lookupField at h
  split at h
  · cases h
    exact List.mem_of_find?_eq_some ‹_›
  · exact List.mem_of_find?_eq_some h

/-- **Reordering members whose names fold apart does not change the outcome**, when the fields
commute. -/
theorem decodeMembersInto_perm {fields : List (Field α)} (hc : FieldsCommute fields)
    {l₁ l₂ : List (String × Json)} (hp : l₁.Perm l₂) :
    (l₁.map fun p => foldName p.1).Nodup →
      ∀ x, Agree (decodeMembersInto fields l₁ x) (decodeMembersInto fields l₂ x) := by
  induction hp with
  | nil => exact fun _ x => Agree.refl _
  | cons p _ ih =>
    intro hnd x
    have ih' := ih (List.nodup_cons.1 hnd).2
    simp only [decodeMembersInto]
    split
    · exact Agree.bind (Agree.refl _) ih'
    · exact ih' x
  | swap p q l =>
    intro hnd x
    have hne : foldName q.1 ≠ foldName p.1 := by
      simp only [List.map_cons, List.nodup_cons, List.mem_cons, not_or] at hnd
      exact hnd.1.1
    simp only [decodeMembersInto]
    cases hg : lookupField fields q.1 with
    | none => cases lookupField fields p.1 <;> exact Agree.refl _
    | some g =>
      cases hf : lookupField fields p.1 with
      | none => exact Agree.refl _
      | some f =>
        have hgf : g.name ≠ f.name := fun h => hne (by
          rw [← lookupField_fold hg, ← lookupField_fold hf, h])
        simp only [← bind_assoc]
        exact Agree.bind (hc g (lookupField_mem hg) f (lookupField_mem hf) hgf _ _ _)
          fun _ => Agree.refl _
  | trans h₁₂ _ ih₁ ih₂ =>
    intro hnd x
    exact (ih₁ hnd x).trans (ih₂ ((h₁₂.map _).nodup_iff.1 hnd) x)

/-- Decoding members into fields that agree on re-encoded texts: the re-encoded members into
`N x` agree with the members into `x`, normalized. -/
theorem decodeMembersInto_reencode {N : α → α} {fields : List (Field α)}
    {A : String → Json → Prop} (hf : ∀ f ∈ fields, Reencodes N f.decode (A (foldName f.name))) :
    ∀ {kvs : List (String × Json)} {vs : List (String × Value)}, List.Forall₂ DecodesTo kvs vs →
      (∀ p ∈ kvs, A (foldName p.1) p.2) → ∀ x,
      Agree (decodeMembersInto fields (encodeValue.encodeMembers vs) (N x))
        ((decodeMembersInto fields kvs x).map N)
  | [], [], .nil, _, x => Agree.refl _
  | (k, t) :: kvs, (_, v) :: vs, .cons ⟨rfl, hv⟩ h, hadm, x => by
    have ih := decodeMembersInto_reencode hf h fun p hp => hadm p (List.mem_cons_of_mem _ hp)
    simp only [encodeValue.encodeMembers, decodeMembersInto]
    cases hl : lookupField fields k with
    | none => exact ih x
    | some f =>
      have ht : A (foldName f.name) t := by
        rw [lookupField_fold hl]; exact hadm _ (List.mem_cons_self _ _)
      exact Agree.bind_map (hf f (lookupField_mem hl) t v x ht hv) ih

/-- **A struct of re-encoded members**: when its fields commute and each agrees on re-encoded
texts, so does the struct, on an object whose member names fold apart. -/
theorem reencodes_struct {N : α → α} {fields : List (Field α)} {A : String → Json → Prop}
    (type : String) (hc : FieldsCommute fields)
    (hf : ∀ f ∈ fields, Reencodes N f.decode (A (foldName f.name))) :
    Reencodes N (decodeStruct type fields) (StructText A) := by
  intro t v x ht hv
  cases t with
  | object kvs =>
    obtain ⟨hfold, hadm⟩ := ht
    obtain ⟨m, hm, rfl⟩ := decodeValue_object_ok hv
    obtain ⟨vs, hvs, hperm⟩ := decodeMembers_perm hm hfold.keysNodup (fun _ _ h => nomatch h)
    rw [List.append_nil] at hperm
    have hkeys : (encodeValue.encodeMembers m).map Prod.fst = m.map Prod.fst := by
      rw [encodeMembers_eq_map, List.map_map]; rfl
    have hnd : FoldsApart (encodeValue.encodeMembers m) := by
      have h' : ((encodeValue.encodeMembers m).map Prod.fst).Perm (kvs.map Prod.fst) := by
        rw [hkeys, forall₂_keys hvs]; exact hperm.map _
      have h'' := (h'.map foldName).nodup_iff.2 (by rw [List.map_map]; exact hfold)
      rwa [List.map_map] at h''
    have hre : (encodeValue.encodeMembers m).Perm (encodeValue.encodeMembers vs) := by
      rw [encodeMembers_eq_map, encodeMembers_eq_map]; exact hperm.map _
    exact (decodeMembersInto_perm hc hre hnd _).trans (decodeMembersInto_reencode hf hvs hadm x)
  | null | bool _ | string _ => cases hv; exact Agree.refl _
  | number n =>
    obtain ⟨f, -, rfl⟩ := decodeValue_number_ok hv
    exact trivial
  | array xs =>
    obtain ⟨vs, -, rfl⟩ := decodeValue_array_ok hv
    exact trivial

/-- A field decoding into a part of the struct agrees when the part's decoder does, and the
normalization acts on the part as the part's normalization. -/
theorem reencodes_field {β : Type} {N : α → α} {M : β → β} {name : String} {get : α → β}
    {set : α → β → α} {dec : Json → β → Except DecodeError β} {A : Json → Prop}
    (hd : Reencodes M dec A) (hget : ∀ x, get (N x) = M (get x))
    (hset : ∀ x b, N (set x b) = set (N x) (M b)) :
    Reencodes N (Field.ofPart name get set dec).decode A := by
  intro t v x ht hv
  have h := hd t v (get x) ht hv
  simp only [Field.ofPart]
  rw [hget]
  cases h₁ : dec (encodeValue v) (M (get x)) <;> cases h₂ : dec t (get x) <;>
    simp only [h₁, h₂, Agree, except_map_ok, except_map_error] at h ⊢
  subst h
  exact (hset x _).symm

/-- Two fields decoding into distinct parts of a struct commute. -/
theorem field_commute {β γ : Type} {n₁ n₂ : String} {get₁ : α → β} {set₁ : α → β → α}
    {get₂ : α → γ} {set₂ : α → γ → α} {d₁ : Json → β → Except DecodeError β}
    {d₂ : Json → γ → Except DecodeError γ}
    (h₁ : ∀ x b, get₂ (set₁ x b) = get₂ x) (h₂ : ∀ x c, get₁ (set₂ x c) = get₁ x)
    (h : ∀ x b c, set₂ (set₁ x b) c = set₁ (set₂ x c) b) (a b : Json) (x : α) :
    Agree ((Field.ofPart n₁ get₁ set₁ d₁).decode a x >>= (Field.ofPart n₂ get₂ set₂ d₂).decode b)
      ((Field.ofPart n₂ get₂ set₂ d₂).decode b x >>= (Field.ofPart n₁ get₁ set₁ d₁).decode a) := by
  simp only [Field.ofPart]
  cases e₁ : d₁ a (get₁ x) <;> cases e₂ : d₂ b (get₂ x) <;>
    simp only [except_map_ok, except_map_error, except_bind_ok, except_bind_error, h₁, h₂, e₁,
      e₂, Agree]
  exact h x _ _

end Reencodes

end FleetServer
