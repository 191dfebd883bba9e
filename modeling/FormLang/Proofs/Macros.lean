import FormLang.Proofs.Alike.Runs

/-!
# Macros — calls that expand

A mapping that is no special form and whose operator names a macro is expanded: the macro is called
with the form and the operands as they stand, and its answer is evaluated in the place of the form
(`run_expands`).  A standard macro answers at once, so that such a form is evaluated as its answer
is, but for the log (`run_standardMacro`).
-/

namespace FormLang

variable {host : Host} {s : State} {env : Chain} {options : Options} {form : Entries Value}
  {name : String} {under fn : Value}

/-- Of the macro names, only that of `quote` is a key of a special form. -/
theorem ofEntries?_of_macroName {name : String} (hn : isMacroName name = true) (hq : name ≠ "$")
    (under : Value) : SpecialForm.ofEntries? [(name, under)] = none := by
  have other : ∀ key : String, isMacroName key = false → name ≠ key := by
    rintro key hk rfl
    cases hn.symm.trans hk
  simp [SpecialForm.ofEntries?, Entries.get?, hq, other "_$" (by decide), other "let" (by decide),
    other "lambda" (by decide), other "cond" (by decide), other "apply" (by decide)]

section Call

variable (call : SpecialForm.ofEntries? form = none) (op : operator form = .ok (name, under))
include call op

/-- A form whose operator names a macro expands it. -/
theorem run_expands (hm : fn.isMacro = true) (hr : s.resolve env name = some fn) (fuel : Nat) :
    (run host (fuel + 1) (.eval (.mapping form) env options)).runFrom s =
      (Eval.expand (run host fuel) fn (.mapping form) under.operands env options).runFrom
        { s with log := .call name fn.kindName under.operands.length :: s.log } := by
  have generic : run host (fuel + 1) (.eval (.mapping form) env options) =
      Eval.generic (run host fuel) form env options := by
    simp only [run, Eval.step, Eval.expression, call]
  rw [generic, Eval.generic_eq, op, EvalM.runFrom_bind, EvalM.runFrom_lift]
  dsimp only
  rw [EvalM.runFrom_bind, EvalM.runFrom_resolve, hr]
  simp only [Eval.headed, hm]
  rfl

variable {m : Standard} (hr : s.resolve env name = some (.tagged .expander (.standard m)))
include hr

/-- A form whose operator names a standard macro is evaluated as what the macro answers. -/
theorem run_standardMacro {answer : Value}
    (ha : m.apply (.mapping form :: under.operands) = .ok answer) (fuel : Nat) :
    (run host (fuel + 3) (.eval (.mapping form) env options)).runFrom s =
      (run host (fuel + 2) (.eval answer env options)).runFrom
        { s with
          log := .expansion (.mapping form) answer ::
            .call name (Value.tagged .expander (.standard m)).kindName under.operands.length ::
              s.log } := by
  have answered : ∀ t, (run host (fuel + 2) (.call (.tagged .expander (.standard m))
      (.mapping form :: under.operands))).runFrom t = some (.ok answer, t) := fun t =>
    (EvalM.runFrom_lift (m.apply (.mapping form :: under.operands)) t).trans (by rw [ha])
  rw [run_expands call op rfl hr, Eval.expand, EvalM.runFrom_bind, answered]
  rfl

/-- With too little fuel to call the macro there is no outcome. -/
theorem run_standardMacro_short {fuel : Nat} (h : fuel < 3) :
    (run host fuel (.eval (.mapping form) env options)).runFrom s = none := by
  match fuel, h with
  | 0, _ => rfl
  | 1, _ => exact run_expands call op rfl hr 0
  | 2, _ => exact run_expands call op rfl hr 1

end Call

/-- A mapping of one macro name expands it. -/
theorem run_macro {name : String} (hn : isMacroName name = true) (hq : name ≠ "$") {fn : Value}
    (hm : fn.isMacro = true) (hr : s.resolve env name = some fn) (under : Value) (fuel : Nat) :
    (run host (fuel + 1) (.eval (.mapping [(name, under)]) env options)).runFrom s =
      (Eval.expand (run host fuel) fn (.mapping [(name, under)]) under.operands env
        options).runFrom
          { s with log := .call name fn.kindName under.operands.length :: s.log } :=
  run_expands (ofEntries?_of_macroName hn hq under) rfl hm hr fuel

end FormLang
