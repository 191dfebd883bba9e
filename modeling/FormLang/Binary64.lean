/-!
# FormLang — doubles as mantissa and exponent

A finite double is `± mantissa * 2 ^ exponent` (`Parts`, `decode`).  Every step that has to be
exact is done on these numbers: rounding a quotient of naturals to the nearest double with a half
going to the even mantissa (`ofRatio`), comparing an integer with a double (`compareInt`), and the
remainder of a division toward zero (`remainder`).
-/

namespace FormLang.Binary64

/-- Two to the `k`. -/
def twoPow (k : Nat) : Nat :=
  Nat.pow 2 k

/-- Ten to the `k`. -/
def tenPow (k : Nat) : Nat :=
  Nat.pow 10 k

/-- A finite double, `± mantissa * 2 ^ exponent`. -/
structure Parts where
  negative : Bool
  mantissa : Nat
  exponent : Int
  deriving DecidableEq

/-- The sign bit is set. -/
def signBit (x : Float) : Bool :=
  twoPow 63 ≤ x.toBits.toNat

/-- The parts of a finite double; `none` at the infinities and at NaN. -/
def decode (x : Float) : Option Parts :=
  let bits : Nat := x.toBits.toNat
  let field : Nat := bits / twoPow 52 % twoPow 11
  let fraction : Nat := bits % twoPow 52
  if field = 2047 then none
  else if field = 0 then some ⟨signBit x, fraction, -1074⟩
  else some ⟨signBit x, fraction + twoPow 52, (field : Int) - 1075⟩

/-- The double with the given sign and the given bits below it. -/
def ofBits (negative : Bool) (bits : Nat) : Float :=
  Float.ofBits (UInt64.ofNat (bits + if negative then twoPow 63 else 0))

def infinity (negative : Bool) : Float :=
  ofBits negative (2047 * twoPow 52)

def nan : Float :=
  ofBits false (2047 * twoPow 52 + twoPow 51)

/-- `num / den` rounded to an integer, a half going to the even neighbour. -/
def roundHalfEven (num den : Nat) : Nat :=
  let q := num / den
  let r := num % den
  if 2 * r < den then q
  else if den < 2 * r then q + 1
  else if q % 2 = 0 then q else q + 1

/-- The largest `k` with `2 ^ k ≤ num / den`, for positive `num` and `den`. -/
def ratioLog2 (num den : Nat) : Int :=
  let k : Int := num.log2 - den.log2
  if den * twoPow k.toNat ≤ num * twoPow (-k).toNat then k else k - 1

/-- The double nearest to `± num / den`; `none` when it is too large. -/
def ofRatio (negative : Bool) (num den : Nat) : Option Float :=
  if num = 0 then some (ofBits negative 0)
  else
    let last := max (ratioLog2 num den - 52) (-1074)
    let m := roundHalfEven (num * twoPow (-last).toNat) (den * twoPow last.toNat)
    -- a mantissa rounded up to the next power of two carries into the exponent field
    let bits := (last + 1074).toNat * twoPow 52 + m
    if bits < 2047 * twoPow 52 then some (ofBits negative bits) else none

/-- The double nearest to an integer; `none` when it is too large. -/
def ofInt (n : Int) : Option Float :=
  ofRatio (n < 0) n.natAbs 1

/-- The double nearest to `± digits * 10 ^ exponent`, infinite when it is too large.

The decimal is compared with the range of the doubles before any power is formed, so an absurd
exponent costs nothing. -/
def ofDecimal (negative : Bool) (digits : Nat) (exponent : Int) : Float :=
  let magnitude : Int := (Nat.toDigits 10 digits).length + exponent
  if digits = 0 ∨ magnitude < -400 then ofBits negative 0
  else if 400 < magnitude then infinity negative
  else
    (ofRatio negative (digits * tenPow exponent.toNat) (tenPow (-exponent).toNat)).getD
      (infinity negative)

/-- The exact order of an integer and a double; `none` at NaN. -/
def compareInt (n : Int) (x : Float) : Option Ordering :=
  match decode x with
  | some p =>
    let m : Int := if p.negative then -(p.mantissa : Int) else p.mantissa
    some (compare (n * twoPow (-p.exponent).toNat) (m * twoPow p.exponent.toNat))
  | none =>
    if x.isNaN then none
    else some (if signBit x then .gt else .lt)

/-- The remainder of `x / y` rounded toward zero, with the sign of `x`.

`none` when there is none: the divisor is zero or the dividend infinite. -/
def remainder (x y : Float) : Option Float :=
  if x.isNaN || y.isNaN then some nan
  else
    match decode x, decode y with
    | none, _ => none
    | some _, none => some x
    | some a, some b =>
      if b.mantissa = 0 then none
      else
        let q := min a.exponent b.exponent
        let r := (a.mantissa * twoPow (a.exponent - q).toNat) %
          (b.mantissa * twoPow (b.exponent - q).toNat)
        ofRatio a.negative (r * twoPow q.toNat) (twoPow (-q).toNat)

end FormLang.Binary64
