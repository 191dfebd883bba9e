import FormLang.Binary64

/-!
# FormLang — the shortest decimal that reads back

A decimal reads back as a double when it lies in the double's rounding interval: the reals nearer
to it than to either neighbour, with the ends when the mantissa is even.  For 1, 2, … 17 digits
`shortest` tests the two neighbours of the value on that decimal grid, and takes the first grid
with a hit; of two hits the nearer one, of two equally near the even one.

All of it is arithmetic on naturals: `c * 10 ^ k` and `b * 2 ^ q` are compared with the negative
powers moved to the other side.
-/

namespace FormLang.Decimal

open Binary64 (twoPow tenPow)

/-- `digits * 10 ^ exponent`. -/
structure Scaled where
  digits : Nat
  exponent : Int
  deriving DecidableEq

/-- Without trailing zeros; `fuel` bounds their number. -/
def Scaled.trim (d : Scaled) : (fuel : Nat) → Scaled
  | 0 => d
  | fuel + 1 =>
    if d.digits % 10 = 0 then Scaled.trim ⟨d.digits / 10, d.exponent + 1⟩ fuel else d

def digitCount (n : Nat) : Nat :=
  (Nat.toDigits 10 n).length

/-- The largest `p` with `10 ^ p ≤ num / den`, for positive `num` and `den`. -/
def ratioLog10 (num den : Nat) : Int :=
  if den ≤ num then digitCount (num / den) - 1
  else -(digitCount ((den + num - 1) / num - 1) : Int)

/-- A hit on the grid of multiples of `10 ^ k`, for the double `m * 2 ^ q`. -/
def onGrid (m : Nat) (q k : Int) : Option Nat :=
  -- in quarters of the last place the value is `4 * m`, and the interval ends at `low` and `high`
  let low := if m = twoPow 52 ∧ -1074 < q then 4 * m - 1 else 4 * m - 2
  let high := 4 * m + 2
  let a := tenPow k.toNat * twoPow (2 - q).toNat
  let b := twoPow (q - 2).toNat * tenPow (-k).toNat
  let hit (c : Nat) : Bool :=
    0 < c && if m % 2 = 0 then low * b ≤ c * a && c * a ≤ high * b
      else low * b < c * a && c * a < high * b
  let c := 4 * m * b / a
  let below := 4 * m * b - c * a
  let above := (c + 1) * a - 4 * m * b
  match hit c, hit (c + 1) with
  | false, false => none
  | true, false => some c
  | false, true => some (c + 1)
  | true, true =>
    if below < above then some c
    else if above < below then some (c + 1)
    else some (if c % 2 = 0 then c else c + 1)

/-- The fewest digits that read back as `m * 2 ^ q`, for positive `m`. -/
def shortest (m : Nat) (q : Int) : Scaled :=
  let top := ratioLog10 (m * twoPow q.toNat) (twoPow (-q).toNat)
  let grids : List Int := (List.range 17).map fun (i : Nat) => top - i
  let found := grids.findSome? fun k => (onGrid m q k).map fun c => Scaled.mk c k
  (found.getD ⟨0, 0⟩).trim 18

end FormLang.Decimal
