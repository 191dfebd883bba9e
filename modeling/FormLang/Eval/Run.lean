import FormLang.Eval.Step

/-!
# FormLang — evaluation

The evaluator closes the rules of a step over themselves.  Fuel bounds how deep tasks nest; a run
that nests deeper has no outcome; any outcome there is stays the same with more fuel
(`run_refines`).
-/

namespace FormLang

/-- Does a task, whose subtasks nest at most `fuel` deep. -/
def run (host : Host) : (fuel : Nat) → Task → EvalM Value
  | 0, _ => EvalM.exhausted
  | fuel + 1, task => Eval.step host (run host fuel) task

/-- Chains frames, given nearest first, before a chain. -/
def chain (outer : Chain) : List Frame → EvalM Chain
  | [] => pure outer
  | f :: rest => do
    let inner ← chain outer rest
    let i ← EvalM.allocate f
    return i :: inner

/-- The frames that a host hands in: a mapping is one frame, a sequence gives one for each
item, null gives none. -/
def hostFrames : Value → Except Fault (List Frame)
  | .null => .ok []
  | .mapping entries => .ok [Frame.ofEntries entries]
  | .list items | .tuple items => items.mapM Frame.ofValue
  | .text s => if s.isEmpty then .ok [] else .error .frameNotMapping
  | _ => .error .notIterable

/-- An environment with the frames of a host before `outer`. -/
def environment (frames : Value) (outer : Chain) : EvalM Chain := do
  chain outer (← EvalM.lift (hostFrames frames))

/-- Evaluates an expression in an environment of the standard bindings and the given frames, with an
evaluator. -/
def evaluateBy (run : Task → EvalM Value) (expr frames : Value) (options : Options) :
    EvalM Value := do
  let env ← environment frames standardChain
  run (.eval expr env options)

/-- Evaluates an expression in an environment of the standard bindings and the given frames. -/
def evaluate (host : Host) (fuel : Nat) (expr frames : Value) (options : Options) : EvalM Value :=
  evaluateBy (run host fuel) expr frames options

end FormLang
