import FormLang.Eval.Quasiquote
import FormLang.Host
import FormLang.Standard.Apply

/-!
# FormLang — one step of evaluation

The rules of evaluation, over an evaluator for the parts: every function here takes the function
`run` that does the tasks it hands on.

Text is a symbol, a sequence is evaluated item by item, a mapping is a form, and everything else
is its own value.
-/

namespace FormLang

/-- What an evaluator is asked to do. -/
inductive Task where
  /-- Evaluate an expression. -/
  | eval (expr : Value) (env : Chain) (options : Options)
  /-- Call a callable. -/
  | call (fn : Value) (args : List Value)

namespace Eval

/-! ### Calls -/

/-- Goes on with a reply of the host until it is a value. -/
def follow (run : Task → EvalM Value) : Reply → EvalM Value
  | .value v => pure v
  | .fault e => throw e
  | .call fn args resume => do
    let outcome ← EvalM.attempt (run (.call fn args))
    follow run (resume outcome)

/-- Calls a callable with arguments.

A closure binds them in a new frame before its captured chain and evaluates its body there, under
its own switches.  A tag makes no difference here. -/
def call (host : Host) (run : Task → EvalM Value) (fn : Value) (args : List Value) :
    EvalM Value :=
  match fn with
  | .closure _ params body env options => do
    let i ← EvalM.allocate (Frame.bindArguments [] params args)
    EvalM.emit (.application fn args)
    run (.eval body (i :: env) options)
  | .standard s => EvalM.lift (s.apply args)
  | .host name => follow run (host name args)
  | .tagged _ fn => run (.call fn args)
  | _ => throw .calledNonCallable

/-- Applies a value to evaluated arguments; `label` is what messages call it. -/
def applyTo (run : Task → EvalM Value) (label : String) (fn : Value) (args : List Value) :
    EvalM Value :=
  if fn.isMacro then throw (.macroApplied label)
  else if fn.isCallable then run (.call fn args)
  else throw (.notFunction label)

/-! ### Special forms -/

/-- Evaluates bindings in order into a new frame, which they see as it fills, and answers with the
chain that starts with it. -/
def bindFrame (run : Task → EvalM Value) (bindings : Value) (env : Chain) (options : Options) :
    EvalM Chain :=
  match bindings with
  | .mapping entries => do
    let i ← EvalM.allocate []
    entries.forM fun e => do
      let v ← run (.eval e.2 (i :: env) options)
      EvalM.bindName i e.1 (tag e.1 v)
    return i :: env
  | v => throw (.bindingsNotMapping v.display)

/-- The name that a parameter is. -/
def parameter : Value → Except Fault String
  | .text name => .ok name
  | v => .error (.parameterNotText v.display)

/-- Tries the clauses of a `cond` in order. -/
def clauses (eval : Value → EvalM Value) (options : Options) : List Value → EvalM Value
  | [] => if options.strictCond then throw .noClauseMatched else pure .undefined
  | .mapping clause :: rest =>
    match Entries.get? "else" clause with
    | some otherwise => eval otherwise
    | none =>
      match Entries.get? "if" clause with
      | some test => do
        let v ← eval test
        if v.truthy then eval ((Entries.get? "then" clause).getD .undefined)
        else clauses eval options rest
      | none =>
        throw (.clauseWithoutTest (Value.list ((Entries.keys clause).map .text)).display)
  | v :: _ => throw (.clauseNotMapping v.display)

/-- Evaluates a special form. -/
def special (run : Task → EvalM Value) (env : Chain) (options : Options) :
    SpecialForm → EvalM Value
  | .quote datum => pure datum
  | .quasiquote template => fill (fun e => run (.eval e env options)) template
  | .letIn _ none => throw .missingIn
  | .letIn bindings (some body) => do
    let inner ← bindFrame run bindings env options
    run (.eval body inner options)
  | .lambda _ none => throw .missingBody
  | .lambda params (some body) => do
    let names ← EvalM.lift (params.operands.mapM parameter)
    let id ← EvalM.nextClosure
    return .closure id names body env options
  | .cond (.list items) | .cond (.tuple items) =>
    clauses (fun e => run (.eval e env options)) options items
  | .cond v => throw (.clausesNotList v.display)
  | .apply _ none => throw .missingArgs
  | .apply callee (some args) => do
    let fn ← run (.eval callee env options)
    let vs ← args.operands.mapM fun e => run (.eval e env options)
    applyTo run callee.display fn vs

/-! ### Generic calls -/

/-- Expands the macro that stands in a form and evaluates its answer. -/
def expand (run : Task → EvalM Value) (fn form : Value) (operands : List Value) (env : Chain)
    (options : Options) : EvalM Value := do
  let answer ← run (.call fn (form :: operands))
  EvalM.emit (.expansion form answer)
  run (.eval answer env options)

/-- Evaluates a mapping that is no special form: a call of what its operator names. -/
def generic (run : Task → EvalM Value) (form : Entries Value) (env : Chain) (options : Options) :
    EvalM Value := do
  let (name, under) ← EvalM.lift (operator form)
  match ← EvalM.resolve env name with
  | none =>
    throw (if isMacroName name then .undefinedMacro name else .undefinedFunction name)
  | some head =>
    EvalM.emit (.call name head.kindName under.operands.length)
    if head.isMacro then expand run head (.mapping form) under.operands env options
    else if head.isCallable then
      let args ← under.operands.mapM fun e => run (.eval e env options)
      applyTo run name head args
    else throw (.notFunction name)

/-! ### Expressions -/

/-- Evaluates an expression. -/
def expression (run : Task → EvalM Value) (expr : Value) (env : Chain) (options : Options) :
    EvalM Value :=
  match expr with
  | .text name => EvalM.lookup env name
  | .list items | .tuple items => do
    return .list (← items.mapM fun e => run (.eval e env options))
  | .mapping form =>
    match SpecialForm.ofEntries? form with
    | some s => do
      EvalM.emit (.specialForm s.kind)
      special run env options s
    | none => generic run form env options
  | v => pure v

/-- Does one task. -/
def step (host : Host) (run : Task → EvalM Value) : Task → EvalM Value
  | .eval expr env options => expression run expr env options
  | .call fn args => call host run fn args

end Eval

end FormLang
