import FormLang.Eval.Run
import FormLang.Prelude

/-!
# FormLang — sessions

A session keeps an environment between evaluations.  Every definition puts one new frame before
it and changes none that is there, so closures made earlier keep what they see.  A command that
fails leaves the session as it was (`Session.step`).
-/

namespace FormLang

/-- An environment, and the switches of the evaluations in it. -/
structure Session where
  env : Chain
  options : Options
  deriving DecidableEq

/-- What a host can ask of a session. -/
inductive Command where
  /-- Bind one value. -/
  | define (name : String) (v : Value)
  /-- Bind the entries of a mapping in one frame. -/
  | defineFrame (frame : Value)
  /-- Evaluate bindings as a `let` does and keep their frame. -/
  | evalFrame (bindings : Value)
  | eval (expr : Value)
  /-- Evaluate the expression that a JSON text holds. -/
  | evalJson (text : String)
  | lookup (name : String)
  /-- Call a value that the host holds. -/
  | call (fn : Value) (args : List Value)

namespace Session

/-- A session with the standard bindings only. -/
def fresh (options : Options) : Session :=
  ⟨standardChain, options⟩

/-- The session with one more frame in front. -/
def extend (session : Session) (frame : Frame) : EvalM Session := do
  let i ← EvalM.allocate frame
  return { session with env := i :: session.env }

/-- The number of bindings in a mapping. -/
def bindingCount : Value → Nat
  | .mapping entries => entries.length
  | _ => 0

/-- Evaluates bindings as a `let` does, with an evaluator, and keeps their frame. -/
def evalFrameBy (run : Task → EvalM Value) (session : Session) (bindings : Value) :
    EvalM Session := do
  let env ← Eval.bindFrame run bindings session.env session.options
  EvalM.emit (.bound (bindingCount bindings))
  return { session with env := env }

/-- Does a command, with an evaluator: its value, null for a definition, and the session after. -/
def performBy (run : Task → EvalM Value) (session : Session) : Command → EvalM (Value × Session)
  | .define name v => do return (.null, ← session.extend [(name, tag name v)])
  | .defineFrame frame => do
    let frame ← EvalM.lift (Frame.ofValue frame)
    return (.null, ← session.extend frame)
  | .evalFrame bindings => do return (.null, ← session.evalFrameBy run bindings)
  | .eval expr => do return (← run (.eval expr session.env session.options), session)
  | .evalJson text =>
    match Json.read text with
    | some expr => do return (← run (.eval expr session.env session.options), session)
    | none => throw .invalidJson
  | .lookup name => do return (← EvalM.lookup session.env name, session)
  | .call fn args => do return (← run (.call fn args), session)

/-- Evaluates the definitions in a file, with an evaluator, and keeps their frame. -/
def loadFileBy (run : Task → EvalM Value) (files : FileSystem) (session : Session) (path : Path) :
    EvalM Session := do
  let entries ← EvalM.lift (Prelude.definitions files path)
  EvalM.emit (.loading path.text entries.length)
  session.evalFrameBy run (.mapping entries)

/-- A session under the given settings, with the prelude that a value asks for: its files are loaded
in order, with an evaluator. -/
def startBy (run : Task → EvalM Value) (settings : Settings) (files : FileSystem)
    (prelude : Value) (strict : Option Bool) : EvalM Session := do
  let prelude ← EvalM.lift (Prelude.ofValue prelude)
  let paths ← EvalM.lift (Prelude.paths files (prelude.roots settings))
  paths.foldlM (loadFileBy run files) (fresh (settings.options strict))

section Evaluator

variable (host : Host) (fuel : Nat)

/-- Evaluates bindings as a `let` does and keeps their frame. -/
def evalFrame (session : Session) (bindings : Value) : EvalM Session :=
  session.evalFrameBy (run host fuel) bindings

/-- Evaluates an expression in the session's environment. -/
def eval (session : Session) (expr : Value) : EvalM Value :=
  run host fuel (.eval expr session.env session.options)

/-- Does a command: its value, null for a definition, and the session after it. -/
def perform (session : Session) (command : Command) : EvalM (Value × Session) :=
  session.performBy (run host fuel) command

/-- Evaluates the definitions in a file and keeps their frame. -/
def loadFile (files : FileSystem) (session : Session) (path : Path) : EvalM Session :=
  session.loadFileBy (run host fuel) files path

/-- A session under the given settings, with the prelude that a value asks for. -/
def start (settings : Settings) (files : FileSystem) (prelude : Value) (strict : Option Bool) :
    EvalM Session :=
  startBy (run host fuel) settings files prelude strict

end Evaluator

/-- Does a command: its outcome, and the session and the state after it. -/
def step (host : Host) (fuel : Nat) (session : Session) (command : Command) (s : State) :
    Option (Except Fault Value × Session × State) :=
  match (session.perform host fuel command).runFrom s with
  | some (.ok (v, session'), s') => some (.ok v, session', s')
  | some (.error e, s') => some (.error e, session, s')
  | none => none

end Session

end FormLang
