import Mathlib.Data.String.Basic

/-!
# FleetServer.Json.Value

JSON texts as the Go code reads and writes them. A text is modelled by its syntax tree: object
members stay in the order written, duplicates included, and a number keeps the form it was
written in (`Number`), because `encoding/json` treats `1`, `1.0` and `1e0` differently when the
target is an integer field. Whitespace and string escapes are below this level: a string is its
sequence of Unicode scalar values.

* `depth`: the nesting the Go scanner bounds by `maxNestingDepth`.
* `numbers`: every number literal of a text.
* `foldName`: the case folding `encoding/json` uses to match a member name to a struct field.
-/

namespace FleetServer

/-- A JSON number literal `-?int(.frac)?(e exp)?`. `digits` reads the integer and fraction
digits as one natural number and `scale` counts the fraction digits, so `-12.50e3` is
`⟨true, 1250, 2, some 3⟩`. -/
structure Number where
  neg : Bool
  digits : Nat
  scale : Nat
  exp : Option Int
  deriving DecidableEq, Repr

namespace Number

/-- The literals `strconv.ParseInt` and `strconv.ParseUint` accept: no fraction, no exponent. -/
def IsInteger (n : Number) : Prop := n.scale = 0 ∧ n.exp = none

instance (n : Number) : Decidable n.IsInteger := inferInstanceAs (Decidable (_ ∧ _))

end Number

/-- A JSON text. -/
inductive Json where
  | null
  | bool (b : Bool)
  | number (n : Number)
  | string (s : String)
  | array (xs : List Json)
  | object (kvs : List (String × Json))
  deriving Repr, Inhabited

namespace Json

/-- Equality of texts is decidable, by recursion on both trees. -/
def decEq : (a b : Json) → Decidable (a = b)
  | .null, .null => isTrue rfl
  | .bool a, .bool b =>
    if h : a = b then isTrue (h ▸ rfl) else isFalse (by intro e; cases e; exact h rfl)
  | .number a, .number b =>
    if h : a = b then isTrue (h ▸ rfl) else isFalse (by intro e; cases e; exact h rfl)
  | .string a, .string b =>
    if h : a = b then isTrue (h ▸ rfl) else isFalse (by intro e; cases e; exact h rfl)
  | .array xs, .array ys =>
    match decEqList xs ys with
    | isTrue h => isTrue (h ▸ rfl)
    | isFalse h => isFalse (by intro e; cases e; exact h rfl)
  | .object xs, .object ys =>
    match decEqMembers xs ys with
    | isTrue h => isTrue (h ▸ rfl)
    | isFalse h => isFalse (by intro e; cases e; exact h rfl)
  | .null, .bool _ | .null, .number _ | .null, .string _ | .null, .array _
  | .null, .object _ | .bool _, .null | .bool _, .number _ | .bool _, .string _
  | .bool _, .array _ | .bool _, .object _ | .number _, .null | .number _, .bool _
  | .number _, .string _ | .number _, .array _ | .number _, .object _ | .string _, .null
  | .string _, .bool _ | .string _, .number _ | .string _, .array _ | .string _, .object _
  | .array _, .null | .array _, .bool _ | .array _, .number _ | .array _, .string _
  | .array _, .object _ | .object _, .null | .object _, .bool _ | .object _, .number _
  | .object _, .string _ | .object _, .array _ => isFalse (by intro e; cases e)
where
  decEqList : (xs ys : List Json) → Decidable (xs = ys)
  | [], [] => isTrue rfl
  | [], _ :: _ | _ :: _, [] => isFalse (by intro e; cases e)
  | x :: xs, y :: ys =>
    match decEq x y, decEqList xs ys with
    | isTrue h₁, isTrue h₂ => isTrue (h₁ ▸ h₂ ▸ rfl)
    | isFalse h₁, _ => isFalse (by intro e; cases e; exact h₁ rfl)
    | _, isFalse h₂ => isFalse (by intro e; cases e; exact h₂ rfl)
  decEqMembers : (xs ys : List (String × Json)) → Decidable (xs = ys)
  | [], [] => isTrue rfl
  | [], _ :: _ | _ :: _, [] => isFalse (by intro e; cases e)
  | (k, x) :: xs, (l, y) :: ys =>
    if hk : k = l then
      match decEq x y, decEqMembers xs ys with
      | isTrue h₁, isTrue h₂ => isTrue (hk ▸ h₁ ▸ h₂ ▸ rfl)
      | isFalse h₁, _ => isFalse (by intro e; cases e; exact h₁ rfl)
      | _, isFalse h₂ => isFalse (by intro e; cases e; exact h₂ rfl)
    else isFalse (by intro e; cases e; exact hk rfl)

instance : DecidableEq Json := decEq

/-- Nesting depth: a scalar is `0`, an array or object one more than its deepest element. -/
def depth : Json → Nat
  | .array xs => depthList xs + 1
  | .object kvs => depthMembers kvs + 1
  | _ => 0
where
  depthList : List Json → Nat
  | [] => 0
  | x :: xs => max x.depth (depthList xs)
  depthMembers : List (String × Json) → Nat
  | [] => 0
  | (_, x) :: kvs => max x.depth (depthMembers kvs)

/-- Every number literal of a text, in the order written. -/
def numbers : Json → List Number
  | .number n => [n]
  | .array xs => numbersList xs
  | .object kvs => numbersMembers kvs
  | _ => []
where
  numbersList : List Json → List Number
  | [] => []
  | x :: xs => x.numbers ++ numbersList xs
  numbersMembers : List (String × Json) → List Number
  | [] => []
  | (_, x) :: kvs => x.numbers ++ numbersMembers kvs

end Json

/-- `maxNestingDepth` of Go's JSON scanner: a text nested deeper is a syntax error. -/
def maxNestingDepth : Nat := 10000

/-- The case folding of `encoding/json`'s `foldName` on one rune, the least rune of its
`unicode.SimpleFold` orbit: an ASCII lower-case letter folds to upper case, and the two other
runes whose orbit holds an ASCII letter, long s (with `s`, `S`) and the Kelvin sign (with `k`,
`K`), fold to that letter. Every other rune is kept. Go folds it to the least rune of its orbit,
which is not ASCII either (dotless i and dotted capital I are orbits of their own), so whether a
name folds to the name of a field, all of which are ASCII, is decided as in Go; two names of
such runes that Go folds together are told apart here. -/
def foldRune (c : Char) : Char :=
  if c.isLower then c.toUpper
  else if c = 'ſ' then 'S'
  else if c = 'K' then 'K'
  else c

/-- `foldName`, rune by rune. -/
def foldName (s : String) : String := ⟨s.data.map foldRune⟩

end FleetServer
