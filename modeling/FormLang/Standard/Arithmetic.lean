import FormLang.Fault
import FormLang.Value.Number

/-!
# FormLang — arithmetic

Integers stay integers under sums, differences and products.  As soon as a double takes part, an
integer is rounded to a double first, and is an overflow when it is too large for one.  A quotient
is always a double: that of two integers is their exact quotient, rounded once.

A product repeats texts, lists and tuples.
-/

namespace FormLang

namespace Number

/-- The nearest double. -/
def toFloat (a : Number) : Except Fault Float :=
  match a.toFloat? with
  | some x => .ok x
  | none => .error .overflow

/-- An operation on integers, and on doubles when one takes part. -/
def lift (onInt : Int → Int → Int) (onFloat : Float → Float → Float) :
    Number → Number → Except Fault Number
  | .int m, .int n => .ok (.int (onInt m n))
  | a, b => do
    let x ← a.toFloat
    let y ← b.toFloat
    return .float (onFloat x y)

def add : Number → Number → Except Fault Number :=
  lift (· + ·) (· + ·)

def sub : Number → Number → Except Fault Number :=
  lift (· - ·) (· - ·)

def mul : Number → Number → Except Fault Number :=
  lift (· * ·) (· * ·)

def neg : Number → Number
  | .int n => .int (-n)
  | .float x => .float (-x)

/-- The quotient, a double. -/
def div : Number → Number → Except Fault Float
  | .int m, .int n =>
    if n = 0 then .error .divisionByZero
    else
      match Binary64.ofRatio (decide (m < 0) != decide (n < 0)) m.natAbs n.natAbs with
      | some x => .ok x
      | none => .error .overflow
  | a, b => do
    let x ← a.toFloat
    let y ← b.toFloat
    if y == 0 then .error .divisionByZero else return x / y

end Number

namespace Arithmetic

/-- The number that an argument of `function` is. -/
def argument (function : String) (v : Value) : Except Fault Number :=
  match v.number? with
  | some a => .ok a
  | none => .error (.notNumbers function)

/-- The sum, from the left. -/
def plus (args : List Value) : Except Fault Value := do
  let total ← args.foldlM (fun total v => do total.add (← argument "plus" v)) (Number.int 0)
  return total.toValue

/-- The items one time after the other. -/
def repeatItems {α : Type} (count : Nat) (items : List α) : List α :=
  if items.isEmpty then [] else (List.replicate count items).flatten

/-- A text, list or tuple one time after the other; nothing for other values. -/
def repeated? (v : Value) : Option (Nat → Value) :=
  match v with
  | .text s => some fun count => .text (String.ofList (repeatItems count s.toList))
  | .list items => some fun count => .list (repeatItems count items)
  | .tuple items => some fun count => .tuple (repeatItems count items)
  | _ => none

/-- Counts of repetitions are 64-bit integers. -/
def isCount (count : Int) : Bool :=
  -9223372036854775808 ≤ count && count < 9223372036854775808

/-- A sequence `count` times, none for a negative count. -/
def repetition (count : Int) (v : Value) : Except Fault Value :=
  match repeated? v with
  | some times =>
    if isCount count then .ok (times count.toNat) else .error .overflow
  | none => .error (.notNumbers "mult")

/-- One step of a product: of two numbers, or of a sequence and an integer. -/
def times (v w : Value) : Except Fault Value :=
  match v.number?, w.number? with
  | some a, some b => do return (← a.mul b).toValue
  | _, _ =>
    match v.integer?, w.integer? with
    | none, some n => repetition n v
    | some n, none => repetition n w
    | _, _ => .error (.notNumbers "mult")

/-- The product, from the left. -/
def mult (args : List Value) : Except Fault Value :=
  args.foldlM times (.int 1)

/-- The negation of one argument, the difference of two. -/
def minus : List Value → Except Fault Value
  | [v] => do return (← argument "minus" v).neg.toValue
  | [v, w] => do
    let a ← argument "minus" v
    let b ← argument "minus" w
    return (← a.sub b).toValue
  | args => .error (.minusArity args.length)

def div (v w : Value) : Except Fault Value := do
  let a ← argument "div" v
  let b ← argument "div" w
  return .float (← a.div b)

/-- The remainder, with the sign of the dividend. -/
def mod (v w : Value) : Except Fault Value :=
  match v.integer?, w.integer? with
  | some m, some n => if n = 0 then .error .moduloByZero else .ok (.int (m.tmod n))
  | _, _ => do
    let x ← (← argument "mod" v).toFloat
    let y ← (← argument "mod" w).toFloat
    match Binary64.remainder x y with
    | some r => return .float r
    | none => throw .moduloByZero

end Arithmetic

end FormLang
