import FormLang.Decimal.Shortest

/-!
# FormLang — doubles as text

A double is written with the fewest digits that read back.  Exponents from -4 to 15 are written
positionally, with at least one place after the point; all others as a mantissa and an exponent of
at least two digits, with its sign: `0.0001`, `1e-05`, `123456.0`, `1e+16`.
-/

namespace FormLang.Decimal

/-- The digits of `n`, most significant first. -/
def digitText (n : Nat) : List Char :=
  Nat.toDigits 10 n

def zeros (n : Nat) : List Char :=
  List.replicate n '0'

/-- The exponent after its mark: a sign and at least two digits. -/
def exponentText (e : Int) : List Char :=
  let digits := digitText e.natAbs
  (if e < 0 then '-' else '+') :: (zeros (2 - digits.length) ++ digits)

/-- A positive decimal as text. -/
def Scaled.text (d : Scaled) : List Char :=
  let digits := digitText d.digits
  -- the point stands after `point` digits
  let point : Int := digits.length + d.exponent
  if -4 < point ∧ point ≤ 16 then
    if point ≤ 0 then ['0', '.'] ++ zeros (-point).toNat ++ digits
    else if digits.length ≤ point.toNat then
      digits ++ zeros (point.toNat - digits.length) ++ ['.', '0']
    else digits.take point.toNat ++ '.' :: digits.drop point.toNat
  else
    let rest := digits.drop 1
    digits.take 1 ++ (if rest = [] then [] else '.' :: rest) ++ 'e' :: exponentText (point - 1)

/-- How the doubles that are not numbers are spelled. -/
structure Specials where
  nan : String
  infinity : String
  negInfinity : String

/-- A double as text. -/
def ofFloat (specials : Specials) (x : Float) : String :=
  match Binary64.decode x with
  | some p =>
    let magnitude :=
      if p.mantissa = 0 then ['0', '.', '0'] else (shortest p.mantissa p.exponent).text
    String.ofList (if p.negative then '-' :: magnitude else magnitude)
  | none =>
    if x.isNaN then specials.nan
    else if Binary64.signBit x then specials.negInfinity else specials.infinity

end FormLang.Decimal
