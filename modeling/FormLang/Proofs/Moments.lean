import FormLang.Session

/-!
# Moments — the states that a run passes through

A run shows the state that it ends in, and not those on the way.  `runUntil` does tasks as `run`
does, but stops when a task is about to begin for which a given condition holds: it ends in the
fault that it is stopped from outside, which keeps the state and which no function of the host
catches.  So the states in which such a run can end are those that a run comes to, at the beginning
of any task and at its end.  Stopped nowhere, it is `run` itself (`runUntil_never`).

What an evaluation and a session do is written over any evaluator, as the rules of evaluation are,
so one that stops can take the place of `run`.
-/

namespace FormLang

/-- Does a task as `run` does, and stops before the first task for which `stop` holds. -/
def runUntil (host : Host) (stop : Task → State → Bool) : (fuel : Nat) → Task → EvalM Value
  | 0, _ => EvalM.exhausted
  | fuel + 1, task => do
    if stop task (← get) then throw .interrupted
    else Eval.step host (runUntil host stop fuel) task

/-- A task is stopped in the state in which it would begin. -/
theorem runFrom_runUntil (host : Host) (stop : Task → State → Bool) (fuel : Nat) (task : Task)
    (s : State) : (runUntil host stop (fuel + 1) task).runFrom s =
      if stop task s then some (.error .interrupted, s)
      else (Eval.step host (runUntil host stop fuel) task).runFrom s := by
  have h : (runUntil host stop (fuel + 1) task).runFrom s =
      (if stop task s then throw .interrupted
        else Eval.step host (runUntil host stop fuel) task : EvalM Value).runFrom s := rfl
  rw [h]
  split <;> rfl

/-- Stopped nowhere, a run is what it is. -/
theorem runUntil_never (host : Host) (fuel : Nat) :
    runUntil host (fun _ _ => false) fuel = run host fuel := by
  induction fuel with
  | zero => rfl
  | succ fuel ih =>
      funext task
      refine EvalM.ext fun s => ?_
      rw [runFrom_runUntil, ih]
      rfl

/-- Begun in `s`, what `x` does with the evaluator comes to the state `s'`. -/
def Visits {α : Type} (host : Host) (x : (Task → EvalM Value) → EvalM α) (s s' : State) : Prop :=
  ∃ stop fuel o, (x (runUntil host stop fuel)).runFrom s = some (o, s')

/-- The state that a run ends in is one of those it comes to. -/
theorem Visits.of_run {α : Type} {host : Host} {x : (Task → EvalM Value) → EvalM α} {fuel : Nat}
    {s s' : State} {o : Except Fault α} (h : (x (run host fuel)).runFrom s = some (o, s')) :
    Visits host x s s' :=
  ⟨fun _ _ => false, fuel, o, runUntil_never host fuel ▸ h⟩

end FormLang
