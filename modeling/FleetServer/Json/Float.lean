import FleetServer.Json.Value
import Mathlib.Data.Nat.Log
import Mathlib.Tactic.Ring
import Mathlib.Tactic.NormNum

/-!
# FleetServer.Json.Float

Go's `float64` as `encoding/json` produces and prints it. `encoding/json` decodes every JSON
number it puts in an `interface{}` with `strconv.ParseFloat(s, 64)` and prints a `float64` with
`strconv.AppendFloat(b, f, 'f' or 'e', -1, 64)`. Both are modelled on exact naturals: no Lean
`Float` is involved.

* `parseFloat`: round the literal's exact value to the nearest binary64, ties to even; a
  magnitude that rounds past the largest finite value is `ErrRange`, here `none`.
* `formatFloat`: the shortest digit string that parses back to the same value, the nearer of the
  two candidates of that length first, printed in `'e'` form below `1e-6` and from `1e21` on and
  in `'f'` form otherwise, as the JSON encoder chooses.
* `parseFloat_formatFloat`: printing then parsing gives the value back.

A value is stored as `mant * 2^bexp / 2^1074`, so that subnormals have `bexp = 0` and every
exponent is a natural number.
-/

set_option exponentiation.threshold 4200

namespace FleetServer

/-- A finite IEEE 754 binary64 value `(-1)^neg * mant * 2^bexp / 2^1074`, in the one form the
format stores: a 53-bit significand, normal (`2^52 ≤ mant`) or at the least exponent. -/
structure Float64 where
  neg : Bool
  mant : Nat
  bexp : Nat
  mant_lt : mant < 2 ^ 53
  normal_or_least : 2 ^ 52 ≤ mant ∨ bexp = 0
  bexp_le : bexp ≤ 2045
  deriving DecidableEq

namespace Float64

@[ext] theorem ext {f g : Float64} (hn : f.neg = g.neg) (hm : f.mant = g.mant)
    (he : f.bexp = g.bexp) : f = g := by
  cases f; cases g; simp_all

/-- The magnitude's numerator over the fixed denominator `2^1074`. -/
def scaled (f : Float64) : Nat := f.mant * 2 ^ f.bexp

end Float64

/-- Round half to even of `n / d`. -/
def roundHalfEven (n d : Nat) : Nat :=
  if d < 2 * (n % d) ∨ (2 * (n % d) = d ∧ n / d % 2 = 1) then n / d + 1 else n / d

namespace natLog

/-- An exponent `hi` with `n < b ^ hi`: `hi` doubled until it is one. -/
def bound (b n : Nat) : Nat → Nat → Nat
  | 0, hi => hi
  | fuel + 1, hi => if n < b ^ hi then hi else bound b n fuel (2 * hi)

/-- The largest `k` in `[lo, hi)` with `b ^ k ≤ n`, by bisection. -/
def bisect (b n : Nat) : Nat → Nat → Nat → Nat
  | 0, lo, _ => lo
  | fuel + 1, lo, hi =>
    if hi ≤ lo + 1 then lo
    else if b ^ ((lo + hi) / 2) ≤ n then bisect b n fuel ((lo + hi) / 2) hi
    else bisect b n fuel lo ((lo + hi) / 2)

theorem lt_pow_self {b : Nat} (hb : 1 < b) (m : Nat) : m < b ^ m :=
  (Nat.lt_two_pow m).trans_le (Nat.pow_le_pow_left hb m)

theorem bound_spec {b n : Nat} (hb : 1 < b) :
    ∀ fuel hi, n < hi * 2 ^ fuel → n < b ^ bound b n fuel hi
  | 0, hi, h => by
    rw [bound]
    exact lt_trans (by simpa using h) (lt_pow_self hb hi)
  | fuel + 1, hi, h => by
    rw [bound]
    split
    · assumption
    · exact bound_spec hb fuel (2 * hi) (by rw [Nat.pow_succ] at h; convert h using 1; ring)

theorem bisect_spec {b n : Nat} (hb : 0 < b) :
    ∀ fuel lo hi, b ^ lo ≤ n → n < b ^ hi → hi ≤ lo + fuel + 1 →
      b ^ bisect b n fuel lo hi ≤ n ∧ n < b ^ (bisect b n fuel lo hi + 1)
  | 0, lo, hi, hlo, hhi, hf => by
    rw [bisect]
    exact ⟨hlo, hhi.trans_le (Nat.pow_le_pow_right hb (by omega))⟩
  | fuel + 1, lo, hi, hlo, hhi, hf => by
    rw [bisect]
    split
    · exact bisect_spec hb 0 lo hi hlo hhi (by omega)
    · split
      · exact bisect_spec hb fuel _ hi ‹_› hhi (by omega)
      · exact bisect_spec hb fuel lo _ hlo (Nat.lt_of_not_le ‹_›) (by omega)

end natLog

/-- `Nat.log b n` as the kernel can evaluate it: an exponent bound found by doubling, then
bisection, each step one power. -/
def natLog (b n : Nat) : Nat :=
  if b ≤ n ∧ 1 < b then natLog.bisect b n (natLog.bound b n n 1) 0 (natLog.bound b n n 1) else 0

theorem natLog_eq (b n : Nat) : natLog b n = Nat.log b n := by
  unfold natLog
  split
  · rename_i h
    have hhi := natLog.bound_spec h.2 n 1 (by simpa using Nat.lt_two_pow n)
    obtain ⟨h₁, h₂⟩ := natLog.bisect_spec (by omega) (natLog.bound b n n 1) 0
      (natLog.bound b n n 1) (by simp; omega) hhi (by omega)
    exact (Nat.log_eq_of_pow_le_of_lt_pow h₁ h₂).symm
  · rw [eq_comm, Nat.log_eq_zero_iff]
    omega

/-- The biased exponent for the magnitude `a / b`: the floor of `log2 (a / b)` plus `1074 - 52`,
and `0` throughout the subnormal range. -/
def binExp (a b : Nat) : Nat := natLog 2 (a * 2 ^ 1074 / b) - 52

theorem binExp_eq (a b : Nat) : binExp a b = Nat.log 2 (a * 2 ^ 1074 / b) - 52 := by
  rw [binExp, natLog_eq]

theorem roundHalfEven_ge (n d : Nat) : n / d ≤ roundHalfEven n d := by
  unfold roundHalfEven; split <;> omega

theorem binExp_normal {a b : Nat} (h : 0 < binExp a b) :
    2 ^ 52 * (b * 2 ^ binExp a b) ≤ a * 2 ^ 1074 := by
  rw [binExp_eq] at *
  set q := a * 2 ^ 1074 / b
  have hq : q ≠ 0 := by
    intro h0; rw [h0, Nat.log_zero_right] at h; omega
  have hpow : 2 ^ 52 * 2 ^ (Nat.log 2 q - 52) = 2 ^ Nat.log 2 q := by
    rw [← Nat.pow_add]; congr 1; omega
  calc 2 ^ 52 * (b * 2 ^ (Nat.log 2 q - 52)) = 2 ^ Nat.log 2 q * b := by
        rw [← hpow]; ring
    _ ≤ q * b := Nat.mul_le_mul_right b (Nat.pow_log_le_self 2 hq)
    _ ≤ a * 2 ^ 1074 := Nat.div_mul_le_self _ _

/-- A rounded significand of a normal exponent is at least `2^52`. -/
theorem round_normal_or_least (a b : Nat) :
    2 ^ 52 ≤ roundHalfEven (a * 2 ^ 1074) (b * 2 ^ binExp a b) ∨ binExp a b = 0 := by
  rcases Nat.eq_zero_or_pos (binExp a b) with h | h
  · exact .inr h
  · left
    have hd : 0 < b * 2 ^ binExp a b := by
      rcases Nat.eq_zero_or_pos b with rfl | hb
      · rw [binExp_eq, Nat.div_zero, Nat.log_zero_right] at h; omega
      · exact Nat.mul_pos hb (Nat.two_pow_pos _)
    exact le_trans ((Nat.le_div_iff_mul_le hd).2 (binExp_normal h)) (roundHalfEven_ge _ _)

/-- `strconv.ParseFloat` on the exact magnitude `a / b` with sign `neg`. A magnitude of at least
`2^1024` overflows before any rounding; one that rounds up to `2^1024` overflows after it. -/
def roundRat (neg : Bool) (a b : Nat) : Option Float64 :=
  if b * 2 ^ 1024 ≤ a then none
  else
    if hm : roundHalfEven (a * 2 ^ 1074) (b * 2 ^ binExp a b) < 2 ^ 53 then
      if he : binExp a b ≤ 2045 then
        some ⟨neg, _, _, hm, round_normal_or_least a b, he⟩
      else none
    else
      -- rounding up to `2^53` carries into the exponent
      if he : binExp a b + 1 ≤ 2045 then
        some ⟨neg, 2 ^ 52, binExp a b + 1, by norm_num, .inl le_rfl, he⟩
      else none

namespace Number

/-- The exact magnitude of a literal as a fraction `a / b`. -/
def ratio (n : Number) : Nat × Nat :=
  let k : Int := n.exp.getD 0 - n.scale
  if 0 ≤ k then (n.digits * 10 ^ k.toNat, 1) else (n.digits, 10 ^ (-k).toNat)

end Number

/-- `strconv.ParseFloat(s, 64)` on a JSON number literal; `none` is `ErrRange`. -/
def parseFloat (n : Number) : Option Float64 :=
  roundRat n.neg n.ratio.1 n.ratio.2

namespace Float64

/-- The decimal exponent of the leading digit, `⌊log10 |f|⌋`, for `f ≠ 0`. -/
def decExp (f : Float64) : Int := (natLog 10 (f.scaled * 10 ^ 400 / 2 ^ 1074) : Int) - 400

/-- The `k`-digit decimals next below and above `|f|`, as `(c, u)` for `c * 10^u`, the nearer
first (on a tie, the one with the even last digit). -/
def candidates (f : Float64) (k : Nat) : List (Nat × Int) :=
  let u : Int := f.decExp - k + 1
  let A := f.scaled
  let B := 2 ^ 1074
  let lo := if 0 ≤ u then A / (B * 10 ^ u.toNat) else A * 10 ^ (-u).toNat / B
  -- twice the distance to `lo`, against the gap between `lo` and `lo + 1`
  let twice := if 0 ≤ u then 2 * A * 1 else 2 * A * 10 ^ (-u).toNat
  let mid := if 0 ≤ u then (2 * lo + 1) * B * 10 ^ u.toNat else (2 * lo + 1) * B
  if twice < mid ∨ (twice = mid ∧ lo % 2 = 0) then [(lo, u), (lo + 1, u)]
  else [(lo + 1, u), (lo, u)]

end Float64

/-- `c * 10^u` with the trailing zeros of `c` moved into `u`. -/
def stripZeros : Nat → Nat → Int → Nat × Int
  | 0, c, u => (c, u)
  | fuel + 1, c, u => if c ≠ 0 ∧ c % 10 = 0 then stripZeros fuel (c / 10) (u + 1) else (c, u)

/-- The literal `strconv.AppendFloat` prints for the digits `c * 10^u` of `f`: `'e'` form when
`|f| < 1e-6` or `|f| ≥ 1e21`, `'f'` form otherwise. -/
def printDigits (f : Float64) (c : Nat) (u : Int) : Number :=
  let (c, u) := stripZeros 20 c u
  let eForm := f.scaled * 10 ^ 6 < 2 ^ 1074 ∨ 2 ^ 1074 * 10 ^ 21 ≤ f.scaled
  if eForm then ⟨f.neg, c, natLog 10 c, some (u + natLog 10 c)⟩
  else if 0 ≤ u then ⟨f.neg, c * 10 ^ u.toNat, 0, none⟩
  else ⟨f.neg, c, (-u).toNat, none⟩

/-- The exact decimal expansion `mant * 2^bexp * 5^1074 / 10^1074` of `f`. -/
def exactNumber (f : Float64) : Number := ⟨f.neg, f.scaled * 5 ^ 1074, 1074, none⟩

/-- The printed form of the candidate `c * 10^u`, kept when it parses back to `f`. -/
def checkPrint (f : Float64) (c : Nat) (u : Int) : Option Number :=
  if parseFloat (printDigits f c u) = some f then some (printDigits f c u) else none

/-- The shortest printed form of at most 17 digits that parses back to `f`. -/
def shortest (f : Float64) : Option Number :=
  (List.range 17).findSome? fun i => (f.candidates (i + 1)).findSome? fun p => checkPrint f p.1 p.2

/-- `strconv.AppendFloat(b, f, fmt, -1, 64)` as the JSON encoder calls it: zero prints as `0`;
otherwise the shortest form. The exact expansion after it is never reached, as 17 digits always
suffice for binary64; it makes the function total. -/
def formatFloat (f : Float64) : Number :=
  if f.mant = 0 then ⟨f.neg, 0, 0, none⟩ else (shortest f).getD (exactNumber f)

/-! ## Printing then parsing gives the value back -/

namespace Float64

theorem bexp_eq_zero_of_lt {f : Float64} (h : f.mant < 2 ^ 52) : f.bexp = 0 :=
  f.normal_or_least.resolve_left (by omega)

theorem scaled_lt (f : Float64) : f.scaled < 2 ^ 2098 :=
  calc f.mant * 2 ^ f.bexp < 2 ^ 53 * 2 ^ 2045 :=
        Nat.mul_lt_mul_of_lt_of_le f.mant_lt (Nat.pow_le_pow_right (by norm_num) f.bexp_le)
          (Nat.two_pow_pos _)
    _ = 2 ^ 2098 := by rw [← Nat.pow_add]

/-- The biased exponent of `f`'s own magnitude is `f.bexp`. -/
theorem log_scaled (f : Float64) : Nat.log 2 f.scaled - 52 = f.bexp := by
  by_cases hn : 2 ^ 52 ≤ f.mant
  · have : Nat.log 2 f.scaled = 52 + f.bexp := by
      apply Nat.log_eq_of_pow_le_of_lt_pow
      · rw [Nat.pow_add]; exact Nat.mul_le_mul_right _ hn
      · rw [show 52 + f.bexp + 1 = 53 + f.bexp by omega, Nat.pow_add]
        exact Nat.mul_lt_mul_of_pos_right f.mant_lt (Nat.two_pow_pos _)
    omega
  · have h0 := bexp_eq_zero_of_lt (f := f) (by omega)
    have : Nat.log 2 f.scaled < 52 := by
      rcases Nat.eq_zero_or_pos f.mant with hm | hm
      · simp [scaled, hm]
      · exact Nat.log_lt_of_lt_pow (by simp [scaled, h0]; omega) (by simp [scaled, h0]; omega)
    omega

end Float64

theorem ten_pow_eq (k : Nat) : 10 ^ k = 2 ^ k * 5 ^ k := by
  rw [← Nat.mul_pow]

theorem roundHalfEven_exact (m : Nat) {d : Nat} (hd : 0 < d) : roundHalfEven (m * d) d = m := by
  simp only [roundHalfEven, Nat.mul_mod_left, Nat.mul_div_cancel _ hd]
  rw [if_neg (by omega)]

/-- What `roundRat` returns when neither overflow check fires. -/
theorem roundRat_spec (neg : Bool) {a b : Nat} (hov : ¬ b * 2 ^ 1024 ≤ a)
    (hm : roundHalfEven (a * 2 ^ 1074) (b * 2 ^ binExp a b) < 2 ^ 53)
    (he : binExp a b ≤ 2045) :
    ∃ g, roundRat neg a b = some g ∧ g.neg = neg ∧
      g.mant = roundHalfEven (a * 2 ^ 1074) (b * 2 ^ binExp a b) ∧ g.bexp = binExp a b := by
  unfold roundRat
  rw [if_neg hov, dif_pos hm, dif_pos he]
  exact ⟨_, rfl, rfl, by dsimp only, rfl⟩

theorem Number.ratio_of_fraction {n : Number} (he : n.exp = none) (hs : 0 < n.scale) :
    n.ratio = (n.digits, 10 ^ n.scale) := by
  simp only [Number.ratio, he, Option.getD_none]
  rw [if_neg (by omega)]
  congr
  omega

/-- Rounding a value that is already a binary64 returns it. -/
theorem parseFloat_exactNumber (f : Float64) : parseFloat (exactNumber f) = some f := by
  have ht : 0 < 5 ^ 1074 := Nat.pos_pow_of_pos _ (by norm_num)
  have hK : 0 < 2 ^ 1074 := Nat.two_pow_pos _
  have hov : ¬ 10 ^ 1074 * 2 ^ 1024 ≤ f.scaled * 5 ^ 1074 := by
    have hlt : f.scaled < 2 ^ 1074 * 2 ^ 1024 := by rw [← Nat.pow_add]; exact f.scaled_lt
    rw [ten_pow_eq]
    generalize 2 ^ 1074 = K at *
    generalize 5 ^ 1074 = t at *
    rw [Nat.not_le, Nat.mul_right_comm]
    exact Nat.mul_lt_mul_of_pos_right hlt ht
  have he : binExp (f.scaled * 5 ^ 1074) (10 ^ 1074) = f.bexp := by
    rw [binExp_eq, ← f.log_scaled, ten_pow_eq]
    generalize 2 ^ 1074 = K at *
    generalize 5 ^ 1074 = t at *
    rw [Nat.mul_assoc, Nat.mul_comm t K, Nat.mul_div_cancel _ (Nat.mul_pos hK ht)]
  have hm : roundHalfEven (f.scaled * 5 ^ 1074 * 2 ^ 1074)
      (10 ^ 1074 * 2 ^ binExp (f.scaled * 5 ^ 1074) (10 ^ 1074)) = f.mant := by
    rw [he, Float64.scaled, ten_pow_eq]
    generalize 2 ^ 1074 = K at *
    generalize 5 ^ 1074 = t at *
    rw [show f.mant * 2 ^ f.bexp * t * K = f.mant * (K * t * 2 ^ f.bexp) by ring,
      roundHalfEven_exact _ (Nat.mul_pos (Nat.mul_pos hK ht) (Nat.two_pow_pos _))]
  obtain ⟨g, hg, hn, hgm, hge⟩ := roundRat_spec f.neg hov (by rw [hm]; exact f.mant_lt)
    (by rw [he]; exact f.bexp_le)
  have hfg : g = f := by
    ext
    · exact hn
    · rw [hgm, hm]
    · rw [hge, he]
  have hr : (exactNumber f).ratio = (f.scaled * 5 ^ 1074, 10 ^ 1074) :=
    Number.ratio_of_fraction (n := exactNumber f) rfl (by show 0 < 1074; norm_num)
  simp only [parseFloat, hr]
  exact hg.trans (congrArg some hfg)

theorem parseFloat_zero (f : Float64) (h : f.mant = 0) :
    parseFloat ⟨f.neg, 0, 0, none⟩ = some f := by
  have hb : f.bexp = 0 := Float64.bexp_eq_zero_of_lt (by omega)
  obtain ⟨g, hg, hn, hgm, hge⟩ := roundRat_spec (a := 0) (b := 1) f.neg (by simp)
    (by simp [roundHalfEven]) (by simp [binExp_eq])
  have hfg : g = f := by
    ext
    · exact hn
    · rw [hgm, h]; simp [roundHalfEven]
    · rw [hge, hb]; simp [binExp_eq]
  exact hg.trans (congrArg some hfg)

theorem shortest_spec {f : Float64} {n : Number} (h : shortest f = some n) :
    parseFloat n = some f := by
  obtain ⟨i, -, hi⟩ := List.exists_of_findSome?_eq_some h
  obtain ⟨⟨c, u⟩, -, hcu⟩ := List.exists_of_findSome?_eq_some hi
  unfold checkPrint at hcu
  by_cases hp : parseFloat (printDigits f c u) = some f
  · rw [if_pos hp] at hcu
    rwa [← Option.some.inj hcu]
  · rw [if_neg hp] at hcu
    cases hcu

/-- **Printing then parsing gives the value back**: `strconv.ParseFloat` inverts the JSON
encoder's `float64` output. -/
theorem parseFloat_formatFloat (f : Float64) : parseFloat (formatFloat f) = some f := by
  unfold formatFloat
  split
  · exact parseFloat_zero f ‹_›
  · cases h : shortest f with
    | none => exact parseFloat_exactNumber f
    | some n => exact shortest_spec h

end FleetServer
