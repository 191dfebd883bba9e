import FormLang.Proofs.Calls

/-!
# Bindings — the ways to bind values around an expression

Values are bound around an expression by a frame of the host, by a `let`, and by a `lambda` that is
applied to them.  Each evaluates the expression behind one new frame, before the same environment
and under the same switches.  The frames may differ in the order of their entries and in nothing
else (`Frame.get?_bindAll_nil`, `Frame.bindArguments_keys`).

**All three ways have the same outcome** (`ways_to_bind_agree`).  The frame of the host and the
`let` agree to the letter; the `lambda` makes a closure more, so its outcome is the same up to the
numbers of closures.
-/

namespace FormLang

open Expansion (quotation)

variable {host : Host} {s : State} {env : Chain} {options : Options}

/-! ### An applied `lambda` -/

/-- Binding the arguments of a call and binding entries one by one come to the same. -/
theorem Frame.bindArguments_keys (entries : Entries Value) (f : Frame) :
    f.bindArguments (Entries.keys entries) (entries.map Prod.snd) = f.bindAll entries := by
  induction entries generalizing f with
  | nil => rfl
  | cons e entries ih => exact ih _

theorem mapM_parameter (names : List String) :
    (names.map Value.text).mapM Eval.parameter = .ok names := by
  induction names with
  | nil => rfl
  | cons name names ih =>
      rw [List.map_cons, List.mapM_cons, ih]
      rfl

/-- `body` with the given parameters. -/
def lambdaForm (params : List String) (body : Value) : Value :=
  .mapping [("lambda", .list (params.map .text)), ("body", body)]

/-- A `lambda` form makes a closure of the environment that it stands in. -/
theorem run_lambdaForm (fuel : Nat) (params : List String) (body : Value) (s : State) :
    (run host (fuel + 1) (.eval (lambdaForm params body) env options)).runFrom s =
      some (.ok (.closure s.closures params body env options),
        { s with closures := s.closures + 1, log := .specialForm .lambda :: s.log }) := by
  have form : (run host (fuel + 1) (.eval (lambdaForm params body) env options)).runFrom s =
      (EvalM.lift ((params.map Value.text).mapM Eval.parameter) >>= fun names =>
        EvalM.nextClosure >>= fun id =>
          pure (Value.closure id names body env options)).runFrom
        { s with log := .specialForm .lambda :: s.log } := rfl
  rw [form, mapM_parameter]
  rfl

/-! ### The three ways -/

/-- The ways to evaluate an expression with the entries bound around it: behind a frame of the host,
in a `let`, and as the body of a `lambda` that is applied.  The forms have the fuel that they need
beyond that of the expression. -/
inductive Binds (host : Host) (fuel : Nat) (entries : Entries Value) (body : Value) (env : Chain)
    (options : Options) : EvalM Value → Prop where
  | frame : Binds host fuel entries body env options (do
      let inner ← environment (.mapping entries) env
      run host fuel (.eval body inner options))
  | letIn : Binds host fuel entries body env options
      (run host (fuel + 1) (.eval (letIn (quoted entries) body) env options))
  | lambda : Binds host fuel entries body env options
      (run host (fuel + 2) (.eval (applyForm (lambdaForm (Entries.keys entries) body)
        (.list ((entries.map Prod.snd).map quotation))) env options))

section Ways

variable (host : Host) (s : State) (env : Chain) (options : Options) (fuel : Nat)
  (entries : Entries Value) (body : Value)

theorem runFrom_behind_frame :
    (environment (.mapping entries) env >>= fun inner =>
        run host fuel (.eval body inner options)).runFrom s =
      (run host fuel (.eval body (s.frames.size :: env) options)).runFrom
        (s.entered (Frame.ofEntries entries) s.log) :=
  rfl

/-- A `let` of quoted values runs its body in one new frame of the values. -/
theorem runFrom_in_let :
    ∃ log, (run host (fuel + 1) (.eval (letIn (quoted entries) body) env options)).runFrom s =
      (run host fuel (.eval body (s.frames.size :: env) options)).runFrom
        (s.entered (Frame.bindAll [] entries) log) := by
  cases fuel with
  | zero =>
      -- Without fuel for the expression there is none for the first binding either.
      refine ⟨s.log, ?_⟩
      cases entries with
      | nil => rfl
      | cons e entries => rfl
  | succ fuel =>
      obtain ⟨log, h⟩ := bindFrame_quoted host env options
        { s with log := .specialForm .letIn :: s.log } fuel entries
      exact ⟨log, by rw [run_letIn, EvalM.runFrom_bind, h]; rfl⟩

/-- A `lambda` applied to quoted values runs its body in the same frame, after making a closure. -/
theorem runFrom_in_lambda :
    ∃ log, (run host (fuel + 2) (.eval (applyForm (lambdaForm (Entries.keys entries) body)
        (.list ((entries.map Prod.snd).map quotation))) env options)).runFrom s =
      (run host fuel (.eval body (s.frames.size :: env) options)).runFrom
        ({ s with closures := s.closures + 1 }.entered (Frame.bindAll [] entries) log) := by
  have made : (run host (fuel + 1) (.eval (lambdaForm (Entries.keys entries) body) env
      options)).runFrom { s with log := .specialForm .apply :: s.log } = _ :=
    run_lambdaForm fuel (Entries.keys entries) body _
  obtain ⟨log, called⟩ := applied_quotation host env options (fuel + 1)
    (.closure s.closures (Entries.keys entries) body env options) (entries.map Prod.snd)
    { s with
      closures := s.closures + 1
      log := .specialForm .lambda :: .specialForm .apply :: s.log }
  refine ⟨.application (.closure s.closures (Entries.keys entries) body env options)
    (entries.map Prod.snd) :: log, (run_applyForm rfl rfl made).trans (called.trans ?_)⟩
  rw [← Frame.bindArguments_keys]
  rfl

end Ways

/-- Whichever way the entries are bound, the expression is evaluated behind a frame that binds them,
where no fewer closures have been made. -/
theorem Binds.body_runs {fuel : Nat} {entries : Entries Value}
    (hk : (Entries.keys entries).Nodup) {body : Value} {x : EvalM Value}
    (h : Binds host fuel entries body env options x) (s : State) :
    ∃ closures f log, s.closures ≤ closures ∧
      (∀ name, Entries.get? name f = Entries.get? name (Frame.ofEntries entries)) ∧
      x.runFrom s = (run host fuel (.eval body (s.frames.size :: env) options)).runFrom
        ({ s with closures := closures }.entered f log) := by
  have bound := Frame.get?_bindAll_nil hk
  cases h with
  | frame => exact ⟨_, _, _, Nat.le_refl _, fun _ => rfl, runFrom_behind_frame ..⟩
  | letIn =>
      obtain ⟨log, h⟩ := runFrom_in_let host s env options fuel entries body
      exact ⟨_, _, log, Nat.le_refl _, bound, h⟩
  | lambda =>
      obtain ⟨log, h⟩ := runFrom_in_lambda host s env options fuel entries body
      exact ⟨_, _, log, Nat.le_succ _, bound, h⟩

/-- **The ways to bind values agree.**  Let the entries have distinct names.  Behind a frame of the
host and in a `let` an expression has equal outcomes.  In a closed state, these and the outcome in
an applied `lambda` are the same up to the frames and closures that are new. -/
theorem ways_to_bind_agree {entries : Entries Value} (hk : (Entries.keys entries).Nodup)
    (body : Value) (options : Options) (fuel : Nat) :
    (∀ (s : State) (env : Chain), Option.Rel EqualOutcome
      ((environment (.mapping entries) env >>= fun inner =>
        run host fuel (.eval body inner options)).runFrom s)
      ((run host (fuel + 1) (.eval (letIn (quoted entries) body) env options)).runFrom s)) ∧
    ∀ {held : String → Extent}, host.Uniform held → ∀ {s : State}, s.Closed held →
      (Value.mapping entries).Known held s.extent → body.Known held s.extent →
      ∀ {env : Chain}, (∀ i ∈ env, i < s.frames.size) →
      ∀ {x y : EvalM Value}, Binds host fuel entries body env options x →
      Binds host fuel entries body env options y →
      Option.Rel (SameOutcome held (.same s.extent)) (x.runFrom s) (y.runFrom s) := by
  constructor
  · intro s env
    obtain ⟨log, h⟩ := runFrom_in_let host s env options fuel entries body
    rw [runFrom_behind_frame, h]
    have start : SameButLog { s with log := s.log } { s with log := log } := .of_frames rfl rfl
    exact run_sameButLog host fuel _ (start.push fun name => (Frame.get?_bindAll_nil hk name).symm)
  · intro held hu s hs he hb env hi x y hx hy
    obtain ⟨c, f, log, hc, hf, hx⟩ := hx.body_runs hk s
    obtain ⟨c', f', log', hc', hf', hy⟩ := hy.body_runs hk s
    rw [hx, hy]
    have matched : Matched held (.same s.extent) { s with closures := c }
        { s with closures := c' } :=
      MatchedBy.grow hs ⟨fun _ _ => rfl, Nat.le_refl _, hc⟩ ⟨fun _ _ => rfl, Nat.le_refl _, hc'⟩
    have frames : Frame.Alike ((Renaming.same s.extent).link held) f f' := by
      intro name
      rw [hf, hf']
      cases he with
      | mapping he => exact (he.mapValues fun n _ _ => tag_alike n).get? name
    exact run_entered hu matched frames hb (Renaming.same_chain hi) options fuel log log'

/-- A function of `x` and of what `sum` names. -/
def doubling : Value :=
  .mapping [("lambda", .list []), ("body", .mapping [("sum", .list [.text "x", .text "x"])])]

/-- A closure that is made behind the bindings is the first in a `let`, and the second in an applied
`lambda`, which is a closure itself.  The bindings are the same: `sum` names a macro no more. -/
theorem ways_to_bind_agree_doubling :
    ∃ s t,
      (run hostTools 3 (.eval (letIn (quoted [("sum", .tagged .expander (.standard .plus)),
        ("x", .int 2)]) doubling) [0] .lenient)).runFrom .initial =
          some (.ok (.closure 0 [] (.mapping [("sum", .list [.text "x", .text "x"])]) [1, 0]
            .lenient), s) ∧
      (run hostTools 4 (.eval (applyForm (lambdaForm ["sum", "x"] doubling)
        (.list [quotation (.tagged .expander (.standard .plus)), quotation (.int 2)])) [0]
          .lenient)).runFrom .initial =
          some (.ok (.closure 1 [] (.mapping [("sum", .list [.text "x", .text "x"])]) [1, 0]
            .lenient), t) ∧
      t.frames[1]? = some [("sum", .tagged .function (.standard .plus)), ("x", .int 2)] ∧
      SameOutcome holdsNothing (.same State.initial.extent)
        (.ok (.closure 0 [] (.mapping [("sum", .list [.text "x", .text "x"])]) [1, 0] .lenient), s)
        (.ok (.closure 1 [] (.mapping [("sum", .list [.text "x", .text "x"])]) [1, 0] .lenient),
          t) := by
  have distinct : (Entries.keys [("sum", Value.tagged .expander (.standard .plus)),
      ("x", .int 2)]).Nodup := by decide
  have entries : (Value.mapping [("sum", .tagged .expander (.standard .plus)),
      ("x", .int 2)]).Known holdsNothing State.initial.extent :=
    .mapping (.cons (.tagged (.standard _)) (.cons (.int 2) .nil))
  have call : (Value.mapping [("sum", .list [.text "x", .text "x"])]).Known holdsNothing
      State.initial.extent :=
    .mapping (.cons (.list (.cons (.text _) (.cons (.text _) .nil))) .nil)
  have body : doubling.Known holdsNothing State.initial.extent :=
    .mapping (.cons (.list .nil) (.cons call .nil))
  have same := (ways_to_bind_agree distinct doubling .lenient 2).2
    (hostTools_uniform holdsNothing) (State.initial_closed _) entries body
    (by decide : ∀ i ∈ [0], i < State.initial.frames.size) .letIn .lambda
  cases same with
  | some same => exact ⟨_, _, rfl, rfl, rfl, same⟩

end FormLang
