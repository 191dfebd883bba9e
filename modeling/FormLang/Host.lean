import FormLang.Fault
import FormLang.Value.Basic

/-!
# FormLang — functions of the host program

A host gives a reply for each of its functions and arguments: a value, a fault, or a call of a
callable with whose outcome it goes on.  So a host acts on an evaluation only by calling callables.
It may catch a fault that such a call ends in, and go on from it.
-/

namespace FormLang

/-- What a function of the host does with its arguments. -/
inductive Reply where
  | value (v : Value)
  | fault (e : Fault)
  | call (fn : Value) (args : List Value) (resume : Except Fault Value → Reply)

namespace Reply

/-- A failure of the function's own. -/
def failure (message : String) : Reply :=
  .fault (.hostFailure message)

/-- The outcome of a call is that of the function. -/
def ofOutcome : Except Fault Value → Reply
  | .ok v => .value v
  | .error e => .fault e

end Reply

/-- The functions of the host program, by name. -/
abbrev Host := String → List Value → Reply

end FormLang
