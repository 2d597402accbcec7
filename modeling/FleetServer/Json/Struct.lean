import FleetServer.Json.Decode

/-!
# FleetServer.Json.Struct

`encoding/json` with a typed target. A Go struct is described by its fields (`Field`): the name
its `json` tag gives and how a JSON value is stored into the field. Decoding goes into an
existing value, member by member in the order written, as `d.object` does, so a repeated member
is decoded again over the first.

* `Field.ofPart`: a field decoded into one part of the struct, as every modelled field is.
* `lookupField`: the field of exactly the member's name, else one whose name folds equal.
* `decodeStruct`: an object fills the fields its members name, unknown members are skipped,
  `null` leaves the value as it is.
* `decodeString`, `decodeInt64`, `decodeUint64`, `decodeFloatPtr`, `decodeRaw`,
  `decodeSlice`: the field types the modelled structs use.
* `unmarshalInto`: `json.Unmarshal`, after the scanner's depth check.
-/

set_option exponentiation.threshold 2200

namespace FleetServer

/-- A field of a Go struct `α` as `encoding/json` decodes it. -/
structure Field (α : Type) where
  name : String
  decode : Json → α → Except DecodeError α

section Struct

variable {α : Type}

/-- A field whose member is decoded by `dec` into the part `get`/`set` of the struct, as
`encoding/json` decodes through the field's address. -/
def Field.ofPart {β : Type} (name : String) (get : α → β) (set : α → β → α)
    (dec : Json → β → Except DecodeError β) : Field α :=
  ⟨name, fun t x => (dec t (get x)).map (set x)⟩

/-- The field a member named `k` is stored into: the one named exactly `k`, else the first
whose name folds to the same as `k` (`fields.byExactName`, then `fields.byFoldedName`). -/
def lookupField (fields : List (Field α)) (k : String) : Option (Field α) :=
  match fields.find? (·.name = k) with
  | some f => some f
  | none => fields.find? fun f => foldName f.name = foldName k

/-- Store each member into the field it names, in the order written. -/
def decodeMembersInto (fields : List (Field α)) : List (String × Json) → α → Except DecodeError α
  | [], x => .ok x
  | (k, v) :: kvs, x =>
    match lookupField fields k with
    | some f => f.decode v x >>= decodeMembersInto fields kvs
    | none => decodeMembersInto fields kvs x

/-- `d.object(v)` for a struct of Go type `type`; `null` leaves it unchanged. -/
def decodeStruct (type : String) (fields : List (Field α)) : Json → α → Except DecodeError α
  | .null, x => .ok x
  | .object kvs, x => decodeMembersInto fields kvs x
  | t, _ => .error (.type t.kind type)

/-- `json.Unmarshal(data, &x)`: the scanner's depth check, then decoding into `x`. -/
def unmarshalInto (decode : Json → α → Except DecodeError α) (t : Json) (x : α) :
    Except DecodeError α :=
  if maxNestingDepth < t.depth then .error .maxDepth else decode t x

/-- A slice field: `null` makes it nil, an array sets its length to the array's and decodes
each element into the element already there (one past the old length starts from `zero`). -/
def decodeSlice (type : String) (zero : α) (elem : Json → α → Except DecodeError α) :
    Json → List α → Except DecodeError (List α)
  | .null, _ => .ok []
  | .array xs, cur => go xs cur
  | t, _ => .error (.type t.kind type)
where
  go : List Json → List α → Except DecodeError (List α)
  | [], _ => .ok []
  | x :: xs, cur => do
    let y ← elem x (cur.headD zero)
    let ys ← go xs cur.tail
    return y :: ys

end Struct

/-- A `string` field. -/
def decodeString : Json → String → Except DecodeError String
  | .null, s => .ok s
  | .string s, _ => .ok s
  | t, _ => .error (.type t.kind "string")

/-- An `int64` field: `strconv.ParseInt(s, 10, 64)` on the literal, so a fraction or an
exponent is an error even when the value is whole. -/
def decodeInt64 : Json → Int → Except DecodeError Int
  | .null, z => .ok z
  | .number n, _ =>
    let z : Int := if n.neg then -(n.digits : Int) else n.digits
    if n.IsInteger ∧ -2 ^ 63 ≤ z ∧ z < 2 ^ 63 then .ok z else .error (.range n "int64")
  | t, _ => .error (.type t.kind "int64")

/-- A `uint64` field: `strconv.ParseUint(s, 10, 64)`, which takes no sign. -/
def decodeUint64 : Json → Nat → Except DecodeError Nat
  | .null, z => .ok z
  | .number n, _ =>
    if n.IsInteger ∧ n.neg = false ∧ n.digits < 2 ^ 64 then .ok n.digits
    else .error (.range n "uint64")
  | t, _ => .error (.type t.kind "uint64")

/-- A `*float64` field: `null` sets it nil, a number is `strconv.ParseFloat`. -/
def decodeFloatPtr : Json → Option Float64 → Except DecodeError (Option Float64)
  | .null, _ => .ok none
  | .number n, _ =>
    match parseFloat n with
    | some f => .ok (some f)
    | none => .error (.range n "float64")
  | t, _ => .error (.type t.kind "float64")

/-- A `json.RawMessage` field: it keeps the text of the member, `null` included; `none` is a
nil `RawMessage`. -/
def decodeRaw : Json → Option Json → Except DecodeError (Option Json)
  | t, _ => .ok (some t)

end FleetServer
