import FormLang.Form
import FormLang.Value.Display

/-!
# FormLang — the log

What an evaluation notes as it goes.  Events hold the values themselves and are worded only when
the log is shown.
-/

namespace FormLang

/-- One entry of the log. -/
inductive Event where
  /-- A special form is about to be evaluated. -/
  | specialForm (kind : FormKind)
  /-- A call found what its operator names, of this kind. -/
  | call (name kind : String) (operands : Nat)
  /-- A macro answered. -/
  | expansion (form answer : Value)
  /-- A closure is applied; its parameters are bound. -/
  | application (closure : Value) (args : List Value)
  /-- A session kept a frame of definitions. -/
  | bound (count : Nat)
  /-- A file of definitions was read. -/
  | loading (path : String) (count : Nat)

/-- The wording of an event. -/
def Event.message : Event → String
  | .specialForm kind => "special form " ++ kind.name
  | .call name kind operands =>
    "call " ++ name ++ " (" ++ kind ++ ") with " ++ toString operands ++ " operand(s)"
  | .expansion form answer => "expand " ++ form.display ++ " -> " ++ answer.display
  | .application closure args =>
    "apply closure " ++ closure.display ++ " to " ++ (Value.list args).display
  | .bound count => "bound " ++ toString count ++ " definitions"
  | .loading path count => "loading prelude " ++ path ++ " (" ++ toString count ++ " definitions)"

end FormLang
