import FormLang.Binary64
import FormLang.Value.Basic

/-!
# FormLang — numbers among the values

Integers of any size and doubles; the truth values count as one and zero.  Integers and doubles
are compared exactly, without rounding either to the other's kind.
-/

namespace FormLang

/-- An integer or a double. -/
inductive Number where
  | int (n : Int)
  | float (x : Float)

namespace Number

def toValue : Number → Value
  | .int n => .int n
  | .float x => .float x

/-- The nearest double; `none` when an integer is too large for one. -/
def toFloat? : Number → Option Float
  | .int n => Binary64.ofInt n
  | .float x => some x

/-- The exact order; `none` when a NaN takes part. -/
def compare? : Number → Number → Option Ordering
  | .int m, .int n => some (compare m n)
  | .int m, .float y => Binary64.compareInt m y
  | .float x, .int n => (Binary64.compareInt n x).map Ordering.swap
  | .float x, .float y =>
    if x < y then some .lt
    else if y < x then some .gt
    else if x == y then some .eq
    else none

end Number

namespace Value

/-- The number that a value is. -/
def number? : Value → Option Number
  | .int n => some (.int n)
  | .bool b => some (.int (if b then 1 else 0))
  | .float x => some (.float x)
  | _ => none

/-- The integer that a value is. -/
def integer? : Value → Option Int
  | .int n => some n
  | .bool b => some (if b then 1 else 0)
  | _ => none

end Value

end FormLang
