import FormLang.Standard.Arithmetic
import FormLang.Standard.Expansion
import FormLang.Standard.Projection
import FormLang.Value.Order

/-!
# FormLang — calling the standard bindings

The standard functions take evaluated arguments and answer without evaluating anything; the macros
take a form and its operands.  A call with a number of arguments that the function cannot take is
a fault of its own, except where a function words it.
-/

namespace FormLang.Standard

/-- One of the comparisons, as a function of `name`. -/
def comparison (name : String) (c : Comparison) (v w : Value) : Except Fault Value :=
  match Value.compare? c v w with
  | some b => .ok (.bool b)
  | none => .error (.incomparable v.display w.display name)

/-- The answer of a standard binding. -/
def apply : Standard → List Value → Except Fault Value
  | .plus, args => Arithmetic.plus args
  | .mult, args => Arithmetic.mult args
  | .minus, args => Arithmetic.minus args
  | .div, [v, w] => Arithmetic.div v w
  | .mod, [v, w] => Arithmetic.mod v w
  | .eq, [v, w] => .ok (.bool (v.equal w))
  | .gt, [v, w] => comparison "gt" .gt v w
  | .gte, [v, w] => comparison "gte" .gte v w
  | .lt, [v, w] => comparison "lt" .lt v w
  | .lte, [v, w] => comparison "lte" .lte v w
  | .conj, args => .ok (.bool (args.all Value.truthy))
  | .disj, args => .ok (.bool (args.any Value.truthy))
  | .pick, [keys, v] => Projection.pick keys v
  | .omit, [keys, v] => Projection.without keys v
  | .get, v :: keys => Projection.get v keys
  | .getPath, [_] => Expansion.getPath .undefined
  | .getPath, [_, path] => Expansion.getPath path
  | .getPath, _ :: _ :: _ :: _ => .error .getPathArity
  | .ifElse, [form] => Expansion.ifElse form .undefined
  | .ifElse, [form, condition] => Expansion.ifElse form condition
  | .ifElse, _ :: _ :: _ :: _ => .error .ifElseArity
  | .omitKeys, [_, keys, object] => .ok (Expansion.omitKeys keys object)
  | .omitKeys, _ :: _ => .error .omitKeysArity
  | .record, [_] => Expansion.record .undefined
  | .record, [_, description] => Expansion.record description
  | .record, _ :: description :: _ :: _ => .error (.recordNotMapping description.display)
  | _, _ => .error .argumentCount

end FormLang.Standard
