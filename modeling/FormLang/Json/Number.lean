import FormLang.Binary64
import FormLang.Value.Basic

/-!
# FormLang — JSON numbers

A number without fraction and exponent is an integer of any size.  Any other is the double nearest
to it, infinite when it is too large.
-/

namespace FormLang.Json

/-- The value of decimal digits, most significant first. -/
def digitsValue (cs : List Char) : Nat :=
  cs.foldl (fun n c => 10 * n + (c.toNat - '0'.toNat)) 0

/-- Digits without a needless zero in front. -/
def isInteger : List Char → Bool
  | [] => false
  | '0' :: rest => rest.isEmpty
  | _ :: _ => true

/-- The digits after the point, if there is one, and what follows them. -/
def fraction? : List Char → Option (Option (List Char) × List Char)
  | '.' :: rest =>
    let digits := rest.takeWhile Char.isDigit
    if digits.isEmpty then none else some (some digits, rest.dropWhile Char.isDigit)
  | rest => some (none, rest)

/-- The exponent that makes up all of the text, if there is any text. -/
def exponent? : List Char → Option (Option Int)
  | [] => some none
  | mark :: rest =>
    let negative := rest.head? = some '-'
    let digits := if negative ∨ rest.head? = some '+' then rest.drop 1 else rest
    if (mark = 'e' ∨ mark = 'E') ∧ ¬ digits.isEmpty ∧ digits.all Char.isDigit then
      let n : Int := digitsValue digits
      some (some (if negative then -n else n))
    else none

/-- The number that a text is. -/
def number? (text : List Char) : Option Value := do
  let negative := text.head? = some '-'
  let unsigned := if negative then text.drop 1 else text
  let whole := unsigned.takeWhile Char.isDigit
  if isInteger whole then
    let (places, rest) ← fraction? (unsigned.dropWhile Char.isDigit)
    let exponent ← exponent? rest
    if places.isNone ∧ exponent.isNone then
      let n : Int := digitsValue whole
      return .int (if negative then -n else n)
    else
      let after := places.getD []
      return .float (Binary64.ofDecimal negative (digitsValue (whole ++ after))
        (exponent.getD 0 - after.length))
  else none

end FormLang.Json
