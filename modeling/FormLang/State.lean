import FormLang.Event

/-!
# FormLang — frames and the log

Frames stand in a store and are known by their numbers, because a frame is shared: the closures
made while a `let` is filling its frame see the bindings that come later.  An environment is a
chain of numbers, nearest frame first.  Frame 0 holds the standard bindings.

`EvalM` is a computation on this state that may end in a fault.  It keeps the state also then, and
has no outcome when it runs out of fuel.
-/

namespace FormLang

/-- The state of an evaluation. -/
structure State where
  frames : Array Frame
  /-- The number of closures made so far. -/
  closures : Nat
  /-- Newest first. -/
  log : List Event

namespace State

/-- Only the standard bindings. -/
def initial : State :=
  ⟨#[Frame.standard], 0, []⟩

/-- What `name` is bound to in the nearest frame that binds it. -/
def resolve (s : State) (env : Chain) (name : String) : Option Value :=
  env.findSome? fun i => s.frames[i]?.bind (Entries.get? name)

/-- How many frames stand before the nearest one that binds `name`. -/
def depth? (s : State) (env : Chain) (name : String) : Option Nat :=
  env.findIdx? fun i => s.frames[i]?.any (Entries.has name)

/-- The frames of a chain. -/
def chainFrames (s : State) (env : Chain) : List Frame :=
  env.filterMap fun i => s.frames[i]?

/-- The sizes of the frames of a chain. -/
def describeChain (s : State) (env : Chain) : String :=
  "<Environment chain: " ++
    " -> ".intercalate ((s.chainFrames env).map fun f => toString f.length) ++ ">"

/-- The bindings of the nearest frame of a chain. -/
def describeFrame (s : State) (env : Chain) : String :=
  let bindings := match s.chainFrames env with
    | [] => []
    | f :: _ => f.map fun e => e.1 ++ ": " ++ e.2.display
  "\x7b" ++ ", ".intercalate bindings ++ "\x7d" ++ if 1 < env.length then " -> ..." else ""

end State

/-- The chain of the standard bindings alone. -/
def standardChain : Chain := [0]

/-- Computations that read and write the state and may end in a fault. -/
abbrev EvalM := ExceptT Fault (StateT State Option)

namespace EvalM

/-- No outcome: the fuel is spent. -/
def exhausted {α : Type} : EvalM α :=
  fun _ => none

/-- A computation from a state: its outcome and the state after it. -/
def runFrom {α : Type} (x : EvalM α) (s : State) : Option (Except Fault α × State) :=
  x s

/-- Adds to the log. -/
def emit (e : Event) : EvalM Unit :=
  modify fun s => { s with log := e :: s.log }

/-- A new frame, by its number. -/
def allocate (f : Frame) : EvalM Nat :=
  modifyGet fun s => (s.frames.size, { s with frames := s.frames.push f })

/-- Writes a binding into a frame. -/
def bindName (i : Nat) (name : String) (v : Value) : EvalM Unit :=
  modify fun s => { s with frames := s.frames.modify i (Entries.insert name v) }

/-- A number that no other closure has. -/
def nextClosure : EvalM Nat :=
  modifyGet fun s => (s.closures, { s with closures := s.closures + 1 })

/-- The outcome of a computation that does not touch the state. -/
def lift {α : Type} : Except Fault α → EvalM α
  | .ok a => pure a
  | .error e => throw e

/-- An outcome as what goes on from it is given it.  Every fault can be caught, except that the
evaluation is stopped from outside. -/
def caught {α : Type} : Except Fault α → Except Fault (Except Fault α)
  | .error .interrupted => .error .interrupted
  | o => .ok o

/-- The outcome of a computation, for one that goes on from it also where it is a fault. -/
def attempt {α : Type} (x : EvalM α) : EvalM (Except Fault α) :=
  fun s => (x.runFrom s).map fun r => (caught r.1, r.2)

/-- What `name` is bound to. -/
def resolve (env : Chain) (name : String) : EvalM (Option Value) := do
  return (← get).resolve env name

/-- What `name` is bound to; it is a fault when no frame binds it. -/
def lookup (env : Chain) (name : String) : EvalM Value := do
  match ← resolve env name with
  | some v => return v
  | none => throw (.undefinedSymbol (Text.quoted name))

/-! ### Computations from a state -/

variable {α β : Type}

@[simp] theorem runFrom_pure (a : α) (s : State) :
    (pure a : EvalM α).runFrom s = some (.ok a, s) := rfl

@[simp] theorem runFrom_throw (e : Fault) (s : State) :
    (throw e : EvalM α).runFrom s = some (.error e, s) := rfl

/-- A fault ends a computation, and keeps the state. -/
theorem runFrom_bind (x : EvalM α) (f : α → EvalM β) (s : State) :
    (x >>= f).runFrom s = match x.runFrom s with
      | some (.ok a, s') => (f a).runFrom s'
      | some (.error e, s') => some (.error e, s')
      | none => none := by
  simp only [runFrom, bind, ExceptT.bind, ExceptT.mk, StateT.bind, Option.bind]
  cases x s with
  | none => rfl
  | some r =>
    obtain ⟨o, s'⟩ := r
    cases o <;> rfl

/-- A computation that ends in a result has ended in one at every point. -/
theorem runFrom_bind_ok {x : EvalM α} {f : α → EvalM β} {s s' : State} {b : β}
    (h : (x >>= f).runFrom s = some (.ok b, s')) :
    ∃ a t, x.runFrom s = some (.ok a, t) ∧ (f a).runFrom t = some (.ok b, s') := by
  rw [runFrom_bind] at h
  split at h
  · exact ⟨_, _, ‹_›, h⟩
  · cases h
  · cases h

@[simp] theorem runFrom_exhausted (s : State) : (exhausted : EvalM α).runFrom s = none := rfl

@[simp] theorem runFrom_emit (e : Event) (s : State) :
    (emit e).runFrom s = some (.ok (), { s with log := e :: s.log }) := rfl

@[simp] theorem runFrom_allocate (f : Frame) (s : State) :
    (allocate f).runFrom s = some (.ok s.frames.size, { s with frames := s.frames.push f }) := rfl

@[simp] theorem runFrom_bindName (i : Nat) (name : String) (v : Value) (s : State) :
    (bindName i name v).runFrom s =
      some (.ok (), { s with frames := s.frames.modify i (Entries.insert name v) }) := rfl

@[simp] theorem runFrom_nextClosure (s : State) :
    nextClosure.runFrom s = some (.ok s.closures, { s with closures := s.closures + 1 }) := rfl

@[simp] theorem runFrom_lift (x : Except Fault α) (s : State) :
    (lift x).runFrom s = some (x, s) := by
  cases x <;> rfl

/-- Every fault but that of being stopped is caught. -/
theorem caught_error {e : Fault} (h : e ≠ .interrupted) :
    caught (.error e : Except Fault α) = .ok (.error e) := by
  unfold caught
  split
  · rename_i he
    cases he
    exact absurd rfl h
  · rfl

theorem eq_of_caught {o o' : Except Fault α} (h : caught o = .ok o') : o' = o := by
  unfold caught at h
  split at h
  · cases h
  · cases h
    rfl

/-- A fault that is caught keeps the state too. -/
theorem runFrom_attempt (x : EvalM α) (s : State) :
    (attempt x).runFrom s = (x.runFrom s).map fun r => (caught r.1, r.2) := rfl

/-- What goes on from an outcome goes on from it in the state that it has left. -/
theorem runFrom_attempt_bind (x : EvalM α) (f : Except Fault α → EvalM β) (s : State) :
    (attempt x >>= f).runFrom s =
      (x.runFrom s).bind fun r => (lift (caught r.1) >>= f).runFrom r.2 := by
  rw [runFrom_bind, runFrom_attempt]
  cases x.runFrom s with
  | none => rfl
  | some r =>
    rw [Option.bind_some, runFrom_bind, runFrom_lift]
    rfl

/-- Where what follows cannot fail, a computation fails where its first part does. -/
theorem runFrom_bind_error_iff {x : EvalM α} {f : α → EvalM β} {s s' : State} {e : Fault}
    (hf : ∀ a t, (f a).runFrom t ≠ some (.error e, s')) :
    (x >>= f).runFrom s = some (.error e, s') ↔ x.runFrom s = some (.error e, s') := by
  rw [runFrom_bind]
  split
  · rename_i a t hx
    simpa [hx] using hf a t
  · rename_i e' t hx
    simp [hx]
  · rename_i hx
    simp [hx]

theorem runFrom_lift_bind_ok {x : Except Fault α} {f : α → EvalM β} {s s' : State} {b : β}
    (h : (lift x >>= f).runFrom s = some (.ok b, s')) :
    ∃ a, x = .ok a ∧ (f a).runFrom s = some (.ok b, s') := by
  cases x with
  | error e => cases h
  | ok a => exact ⟨a, rfl, h⟩

@[simp] theorem runFrom_resolve (env : Chain) (name : String) (s : State) :
    (resolve env name).runFrom s = some (.ok (s.resolve env name), s) := rfl

/-- A lookup changes nothing. -/
theorem runFrom_lookup (env : Chain) (name : String) (s : State) :
    (lookup env name).runFrom s =
      some (match s.resolve env name with
        | some v => .ok v
        | none => .error (.undefinedSymbol (Text.quoted name)), s) := by
  rw [lookup, runFrom_bind, runFrom_resolve]
  cases s.resolve env name <;> rfl

theorem ext {x y : EvalM α} (h : ∀ s, x.runFrom s = y.runFrom s) : x = y :=
  funext h

end EvalM

end FormLang
