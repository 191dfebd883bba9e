import FormLang.Proofs.Alike.Log
import FormLang.Proofs.Session.NestedLet
import FormLang.Proofs.Tags.Names

/-!
# Calls — whichever way a callable is called

A callable is called under a name, `{f: x}`, in an `apply` form, `{"apply": f, "args": x}`, or by
the host, with values.  Each way makes its own notes in the log.  Beyond that the two forms differ
only in how they find the callable: then both evaluate the operands in order and call it with their
values (`run_named`, `run_applyForm`).

So **a call under a plain name does what an `apply` of that name does**
(`named_call_is_apply`).  This takes tags that follow names: a macro would be expanded by the one
and refused by the other.

A closure that is called binds its arguments before the environment that it has captured, and runs
its body there under its own switches.  **Nothing else of the call matters**, neither where it
stands, nor its switches, nor the way it is made (`closure_calls_are_lexical`).
-/

namespace FormLang

open Expansion (quotation)

variable {host : Host} {s t : State} {env : Chain} {options : Options}

/-! ### Finding the callable -/

/-- The name is that of no macro, and the key of no special form. -/
structure PlainName (name : String) : Prop where
  isMacroName_eq : isMacroName name = false
  not_key : name ∉ ["_$", "let", "lambda", "cond", "apply"]

/-- A call under a plain name is not taken for a special form. -/
theorem PlainName.ofEntries?_eq_none {name : String} (h : PlainName name) (x : Value) :
    SpecialForm.ofEntries? [(name, x)] = none := by
  have quote : name ≠ "$" := by
    rintro rfl
    cases h.isMacroName_eq
  have keys := h.not_key
  simp only [List.mem_cons, List.not_mem_nil, or_false, not_or] at keys
  simp [SpecialForm.ofEntries?, Entries.get?, quote, keys]

/-- What the frames of the environment bind fits its name. -/
def State.NamesFit (s : State) (env : Chain) : Prop :=
  ∀ i ∈ env, ∀ f : Frame, s.frames[i]? = some f →
    ∀ name v, Entries.get? name f = some v → FitsName name v

theorem State.WellTagged.namesFit (h : s.WellTagged) (env : Chain) : s.NamesFit env :=
  fun i _ f hf name v hv => (h i f hf name v hv).fits

theorem State.NamesFit.resolve (h : s.NamesFit env) {name : String} {v : Value}
    (hv : s.resolve env name = some v) : FitsName name v := by
  obtain ⟨i, hi, hb⟩ := List.exists_of_findSome?_eq_some hv
  obtain ⟨f, hf, hg⟩ := Option.bind_eq_some_iff.1 hb
  exact h i hi f hf name v hg

namespace Eval

/-- Evaluates operands in order and calls a callable with their values. -/
def applied (run : Task → EvalM Value) (fn : Value) (operands : List Value) (env : Chain)
    (options : Options) : EvalM Value := do
  let args ← operands.mapM fun e => run (.eval e env options)
  run (.call fn args)

theorem applyTo_of_function {fn : Value} (hm : fn.isMacro = false) (hc : fn.isCallable = true)
    (run : Task → EvalM Value) (label : String) (args : List Value) :
    applyTo run label fn args = run (.call fn args) := by
  simp [applyTo, hm, hc]

end Eval

/-- An `apply` form. -/
def applyForm (callee args : Value) : Value :=
  .mapping [("apply", callee), ("args", args)]

section Forms

variable {fn : Value} (hm : fn.isMacro = false) (hc : fn.isCallable = true)
include hm hc

/-- A call under a plain name. -/
theorem run_named {name : String} (hn : PlainName name) (hr : s.resolve env name = some fn)
    (x : Value) (fuel : Nat) :
    (run host (fuel + 1) (.eval (.mapping [(name, x)]) env options)).runFrom s =
      (Eval.applied (run host fuel) fn x.operands env options).runFrom
        { s with log := .call name fn.kindName x.operands.length :: s.log } := by
  have form : run host (fuel + 1) (.eval (.mapping [(name, x)]) env options) =
      Eval.generic (run host fuel) [(name, x)] env options := by
    simp only [run, Eval.step, Eval.expression, hn.ofEntries?_eq_none]
  have op : operator [(name, x)] = .ok (name, x) := rfl
  rw [form, Eval.generic_eq, op, EvalM.runFrom_bind, EvalM.runFrom_lift]
  dsimp only
  rw [EvalM.runFrom_bind, EvalM.runFrom_resolve, hr]
  simp only [Eval.headed, hm, hc, Eval.applyTo_of_function hm hc]
  rfl

/-- An `apply` form, once what it calls has been found. -/
theorem run_applyForm {callee args : Value} {fuel : Nat}
    (he : (run host fuel (.eval callee env options)).runFrom
      { s with log := .specialForm .apply :: s.log } = some (.ok fn, t)) :
    (run host (fuel + 1) (.eval (applyForm callee args) env options)).runFrom s =
      (Eval.applied (run host fuel) fn args.operands env options).runFrom t := by
  have form : (run host (fuel + 1) (.eval (applyForm callee args) env options)).runFrom s =
      (run host fuel (.eval callee env options) >>= fun fn =>
        (args.operands.mapM fun e => run host fuel (.eval e env options)) >>= fun vs =>
          Eval.applyTo (run host fuel) callee.display fn vs).runFrom
        { s with log := .specialForm .apply :: s.log } := rfl
  rw [form, EvalM.runFrom_bind, he]
  simp only [Eval.applyTo_of_function hm hc]
  rfl

end Forms

/-! ### Operands -/

/-- Without fuel neither an operand nor the call has an outcome. -/
theorem applied_zero (fn : Value) (operands : List Value) :
    (Eval.applied (run host 0) fn operands env options).runFrom s = none := by
  cases operands with
  | nil => rfl
  | cons e es => rw [Eval.applied, List.mapM_cons]; rfl

/-- Alike functions, applied to operands that are evaluated alike. -/
theorem Correspondence.applied_sim {C : Correspondence host} {w : C.World}
    {run : Task → EvalM Value} (hr : C.Follows run) {env' : Chain} {options' : Options}
    (he : C.chains w .free env env') (ho : (C.link w).options options options') {fn fn' : Value}
    (h : C.Values w fn fn') {es es' : List Value}
    (hes : List.Forall₂ (Value.Alike (C.link w)) es es') :
    Sim C.Values w (Eval.applied run fn es env options)
      (Eval.applied run fn' es' env' options') := by
  have items : ∀ w' v v', C.Le w w' → True → C.Values w' v v' →
      Sim C.Values w' (run (.eval v env options)) (run (.eval v' env' options')) :=
    fun w' v v' hw _ hv => hr.later he ho w' v v' hw (.free v) hv
  exact .bind (.mapM items (fun _ _ => trivial) hes) fun _ _ _ hw hvs =>
    hr.call (h.mono hw.link) hvs

theorem applied_sameButLog (h : SameButLog s t) (fuel : Nat) (fn : Value) (operands : List Value) :
    Option.Rel EqualOutcome ((Eval.applied (run host fuel) fn operands env options).runFrom s)
      ((Eval.applied (run host fuel) fn operands env options).runFrom t) := by
  have hr := (Correspondence.unlogged host).run_follows fuel
  have sim := Correspondence.applied_sim (w := ()) hr (rfl : env = env) (rfl : options = options)
    (Link.alike_same fn) (Link.forall₂_alike_same_iff.2 (rfl : operands = operands))
  exact sim.equalOutcome h

/-- Quoted operands evaluate to what they quote, and only the log shows it. -/
theorem mapM_quotation (host : Host) (env : Chain) (options : Options) (fuel : Nat)
    (vs : List Value) (s : State) :
    ∃ log, ((vs.map quotation).mapM fun e => run host (fuel + 1) (.eval e env options)).runFrom s =
      some (.ok vs, { s with log := log }) := by
  induction vs generalizing s with
  | nil => exact ⟨s.log, rfl⟩
  | cons v vs ih =>
      obtain ⟨log, h⟩ := ih { s with log := .specialForm .quote :: s.log }
      refine ⟨log, ?_⟩
      rw [List.map_cons, List.mapM_cons, EvalM.runFrom_bind, run_quotation]
      dsimp only
      rw [EvalM.runFrom_bind, h]
      rfl

/-- Quoted operands hand on the values as they are. -/
theorem applied_quotation (host : Host) (env : Chain) (options : Options) (fuel : Nat) (fn : Value)
    (vs : List Value) (s : State) :
    ∃ log, (Eval.applied (run host fuel) fn (vs.map quotation) env options).runFrom s =
      (run host fuel (.call fn vs)).runFrom { s with log := log } := by
  cases fuel with
  | zero => exact ⟨s.log, applied_zero fn _⟩
  | succ fuel =>
      obtain ⟨log, h⟩ := mapM_quotation host env options fuel vs s
      exact ⟨log, by rw [Eval.applied, EvalM.runFrom_bind, h]⟩

/-! ### Named calls and `apply` -/

/-- **A call under a plain name does what an `apply` of the name does**: the operands are evaluated
and the callable is called in both, with the same outcome, for closures, standard functions and
functions of the host alike.  That no plain name is bound to a macro is what tags guarantee. -/
theorem named_call_is_apply (hs : s.NamesFit env) {name : String} (hn : PlainName name)
    {fn : Value} (hr : s.resolve env name = some fn) (hc : fn.isCallable = true) (x : Value)
    (options : Options) (fuel : Nat) :
    Option.Rel EqualOutcome
      ((run host fuel (.eval (.mapping [(name, x)]) env options)).runFrom s)
      ((run host fuel (.eval (applyForm (.text name) x) env options)).runFrom s) := by
  have hm : fn.isMacro = false := by
    rw [(hs.resolve hr).isMacro_eq, hn.isMacroName_eq, Bool.false_and]
  cases fuel with
  | zero => exact .none
  | succ fuel =>
      rw [run_named hm hc hn hr]
      -- An `apply` spends fuel on the symbol.  Where there is none for it, neither is there any for
      -- the operands and the call.
      cases fuel with
      | zero =>
          rw [applied_zero]
          exact .none
      | succ fuel =>
          have found : (run host (fuel + 1) (.eval (.text name) env options)).runFrom
              { s with log := .specialForm .apply :: s.log } =
                some (.ok fn, { s with log := .specialForm .apply :: s.log }) := by
            refine (EvalM.runFrom_lookup env name _).trans ?_
            have hr' : State.resolve { s with log := .specialForm .apply :: s.log } env name =
                some fn := hr
            rw [hr']
          rw [run_applyForm hm hc found]
          have same : SameButLog { s with log := .call name fn.kindName x.operands.length :: s.log }
              { s with log := .specialForm .apply :: s.log } := .of_frames rfl rfl
          exact applied_sameButLog same _ _ _

/-- The standard bindings, and the macro `$if` under a plain name. -/
def aliased : State :=
  { State.initial with
    frames := State.initial.frames.push
      (Frame.ofEntries [("choose", .tagged .expander (.standard .ifElse))]) }

/-- A macro under a plain name is a function of values: it answers with the form that it would
expand to, however it is called. -/
theorem named_call_is_apply_aliased :
    (∃ t, (run hostTools 4 (.eval (.mapping [("choose", .list
        [quotation (.mapping [("then", .int 1)]), .bool true])]) [1, 0] ⟨true⟩)).runFrom aliased =
      some (.ok (.mapping [("cond", .list [.mapping [("if", .bool true), ("then", .int 1)],
        .mapping [("else", .undefined)]])]), t)) ∧
    ∀ x options fuel, Option.Rel EqualOutcome
      ((run hostTools fuel (.eval (.mapping [("choose", x)]) [1, 0] options)).runFrom aliased)
      ((run hostTools fuel (.eval (applyForm (.text "choose") x) [1, 0] options)).runFrom
        aliased) := by
  have tags : aliased.WellTagged :=
    State.WellTagged.initial.push (.ofEntries fun e he => by
      cases List.mem_singleton.1 he
      exact .bare rfl)
  refine ⟨⟨_, rfl⟩, ?_⟩
  exact named_call_is_apply (tags.namesFit _) ⟨by decide, by decide⟩ rfl rfl

/-! ### Closures -/

/-- The ways to call a callable with values: from the host, in an `apply` form, and under a plain
name that is bound to it.  The forms stand in any environment, under any switches. -/
inductive Calls (host : Host) (fuel : Nat) (s : State) (fn : Value) (vs : List Value) :
    EvalM Value → Prop where
  | host : Calls host fuel s fn vs (run host fuel (.call fn vs))
  | applied (env : Chain) (options : Options) : Calls host fuel s fn vs
      (run host (fuel + 1) (.eval (applyForm fn (.list (vs.map quotation))) env options))
  | named {env : Chain} {name : String} (hn : PlainName name) (hr : s.resolve env name = some fn)
      (options : Options) : Calls host fuel s fn vs
      (run host (fuel + 1) (.eval (.mapping [(name, .list (vs.map quotation))]) env options))

variable {fuel : Nat} {params : List String} {body body' : Value} {env' : Chain}
  {vs vs' : List Value} {i j : Nat} {x y : EvalM Value}

/-- Every way to call a closure comes down to the call itself. -/
theorem Calls.runFrom_eq (h : Calls host fuel s (.closure i params body env options) vs x) :
    ∃ log, x.runFrom s = (run host fuel (.call (.closure i params body env options) vs)).runFrom
      { s with log := log } := by
  cases h with
  | host => exact ⟨s.log, rfl⟩
  | applied env' options' =>
      cases fuel with
      | zero => exact ⟨s.log, rfl⟩
      | succ fuel =>
          obtain ⟨log, h⟩ := applied_quotation host env' options' (fuel + 1)
            (.closure i params body env options) vs { s with log := .specialForm .apply :: s.log }
          exact ⟨log, (run_applyForm rfl rfl rfl).trans h⟩
  | @named env' name hn hr options' =>
      have form : (run host (fuel + 1) (.eval (.mapping [(name, .list (vs.map quotation))]) env'
          options')).runFrom s = _ := run_named rfl rfl hn hr _ fuel
      obtain ⟨log, h⟩ := applied_quotation host env' options' fuel
        (.closure i params body env options) vs _
      exact ⟨log, form.trans h⟩

/-- The state with one more frame, and whatever log. -/
def State.entered (s : State) (f : Frame) (log : List Event) : State :=
  { s with frames := s.frames.push f, log := log }

/-- What two calls of closures do is done by their bodies, each in its captured environment behind
the frame of its arguments. -/
theorem Calls.rel {R : Except Fault Value × State → Except Fault Value × State → Prop}
    (hx : Calls host fuel s (.closure i params body env options) vs x)
    (hy : Calls host fuel t (.closure j params body' env' options) vs' y)
    (h : ∀ n log log', Option.Rel R
      ((run host n (.eval body (s.frames.size :: env) options)).runFrom
        (s.entered (Frame.bindArguments [] params vs) log))
      ((run host n (.eval body' (t.frames.size :: env') options)).runFrom
        (t.entered (Frame.bindArguments [] params vs') log'))) :
    Option.Rel R (x.runFrom s) (y.runFrom t) := by
  obtain ⟨log, hx⟩ := hx.runFrom_eq
  obtain ⟨log', hy⟩ := hy.runFrom_eq
  rw [hx, hy]
  cases fuel with
  | zero => exact .none
  | succ n => exact h n _ _

/-- Behind new frames that correspond, alike expressions have the same outcome. -/
theorem run_entered {held : String → Extent} (hu : host.Uniform held) {ρ : Renaming}
    (hm : Matched held ρ s t) {f g : Frame} (hf : Frame.Alike (ρ.link held) f g)
    (hb : Value.Alike (ρ.link held) body body') (he : List.Forall₂ ρ.frames env env')
    (options : Options) (fuel : Nat) (log log' : List Event) :
    Option.Rel (SameOutcome held ρ)
      ((run host fuel (.eval body (s.frames.size :: env) options)).runFrom (s.entered f log))
      ((run host fuel (.eval body' (t.frames.size :: env') options)).runFrom
        (t.entered g log')) := by
  -- The renaming gains the pair of the two new frames.
  have hl := Renaming.le_withFrame hm.frames_lt
  have pushed := hm.allocate hl.link hf
  have entered : Matched held _ (s.entered f log) (t.entered g log') :=
    ⟨pushed.frames, pushed.closures⟩
  have chains : List.Forall₂ (ρ.withFrame _ _ hm.frames_lt).frames (s.frames.size :: env)
      (t.frames.size :: env') := .cons (.inr ⟨rfl, rfl⟩) (he.imp fun _ _ => hl.frames)
  have task : Task.Alike ((ρ.withFrame _ _ hm.frames_lt).link held)
      (.eval body (s.frames.size :: env) options) (.eval body' (t.frames.size :: env') options) :=
    .eval (hb.mono hl.link) chains rfl
  exact SameOutcome.weaken hl (run_matched hu entered task fuel)

/-- **Calls of a closure are lexical.**  Take any two ways to call closures that have parameters,
body, captured environment and switches in common, with the same arguments, wherever the calls stand
and whatever their switches.  From one state, the outcomes are equal.  From two states, whatever
else these hold, the outcomes are the same up to the frames and closures that are new, if what the
closures have captured and the arguments correspond. -/
theorem closure_calls_are_lexical (host : Host) (fuel : Nat) (params : List String)
    (options : Options) :
    (∀ {s : State} {body : Value} {env : Chain} {vs : List Value} {i j : Nat} {x y : EvalM Value},
      Calls host fuel s (.closure i params body env options) vs x →
      Calls host fuel s (.closure j params body env options) vs y →
      Option.Rel EqualOutcome (x.runFrom s) (y.runFrom s)) ∧
    ∀ {held : String → Extent}, host.Uniform held →
      ∀ {ρ : Renaming} {s t : State}, Matched held ρ s t →
      ∀ {body body' : Value}, Value.Alike (ρ.link held) body body' →
      ∀ {env env' : Chain}, List.Forall₂ ρ.frames env env' →
      ∀ {vs vs' : List Value}, List.Forall₂ (Value.Alike (ρ.link held)) vs vs' →
      ∀ {i j : Nat} {x y : EvalM Value},
      Calls host fuel s (.closure i params body env options) vs x →
      Calls host fuel t (.closure j params body' env' options) vs' y →
      Option.Rel (SameOutcome held ρ) (x.runFrom s) (y.runFrom t) := by
  constructor
  · intro s body env vs i j x y hx hy
    exact hx.rel hy fun n _ _ => run_sameButLog host n _ (.of_frames rfl rfl)
  · intro held hu ρ s t hm body body' hb env env' he vs vs' hv i j x y hx hy
    have arguments : Frame.Alike (ρ.link held) (Frame.bindArguments [] params vs)
        (Frame.bindArguments [] params vs') := Frame.Alike.bindArguments _ .nil hv
    exact hx.rel hy fun n log log' => run_entered hu hm arguments hb he options n log log'

/-- Answers with `x` if `n` holds. -/
def guarded : Value :=
  .mapping [("cond", .list [.mapping [("if", .text "n"), ("then", .text "x")]])]

/-- A strict closure that has captured an `x`, bound under a name behind another `x`. -/
def shadowed : State :=
  { State.initial with
    frames := State.initial.frames ++ #[[("x", .int 1)],
      [("x", .int 2), ("f", .closure 0 ["n"] guarded [1, 0] ⟨true⟩)]]
    closures := 1 }

/-- The closure reads the `x` that it has captured, and is strict for a lenient caller to whom
another `x` is nearer.  The same closure with another number, where there is no other `x`, does
the same. -/
theorem closure_calls_are_lexical_shadowed :
    (∃ t, (run hostTools 4 (.call (.closure 0 ["n"] guarded [1, 0] ⟨true⟩) [.bool true])).runFrom
      shadowed = some (.ok (.int 1), t)) ∧
    (∃ t, (run hostTools 4 (.call (.closure 0 ["n"] guarded [1, 0] ⟨true⟩) [.bool false])).runFrom
      shadowed = some (.error .noClauseMatched, t)) ∧
    (∀ v fuel, Option.Rel EqualOutcome
      ((run hostTools fuel (.call (.closure 0 ["n"] guarded [1, 0] ⟨true⟩) [v])).runFrom shadowed)
      ((run hostTools (fuel + 1) (.eval (.mapping [("f", .list [quotation v])]) [2, 0]
        .lenient)).runFrom shadowed)) ∧
    ∀ fuel b, Option.Rel (SameOutcome holdsNothing (.same ⟨2, 0⟩))
      ((run hostTools (fuel + 1) (.eval (.mapping [("f", .list [quotation (.bool b)])]) [2, 0]
        .lenient)).runFrom shadowed)
      ((run hostTools (fuel + 1) (.eval (applyForm (.closure 7 ["n"] guarded [1, 0] ⟨true⟩)
        (.list [quotation (.bool b)])) [] .lenient)).runFrom
          { State.initial with frames := State.initial.frames.push [("x", .int 1)] }) := by
  have named : ∀ v fuel, Calls hostTools fuel shadowed
      (.closure 0 ["n"] guarded [1, 0] ⟨true⟩) [v]
      (run hostTools (fuel + 1) (.eval (.mapping [("f", .list [quotation v])]) [2, 0] .lenient)) :=
    fun v fuel => .named ⟨by decide, by decide⟩ rfl .lenient
  have matched : Matched holdsNothing (.same ⟨2, 0⟩) shadowed
      { State.initial with frames := State.initial.frames.push [("x", .int 1)] } := by
    refine ⟨?_, fun h => absurd h.2 (Nat.not_lt_zero _)⟩
    rintro i j ⟨rfl, hi⟩
    match i, hi with
    | 0, _ => exact ⟨Frame.standard, Frame.standard, rfl, rfl, .standard _⟩
    | 1, _ => exact ⟨_, _, rfl, rfl, .insert .nil "x" (.int 1)⟩
  have body : guarded.Known holdsNothing ⟨2, 0⟩ :=
    .mapping (.cons (.list (.cons (.mapping (.cons (.text _) (.cons (.text _) .nil))) .nil)) .nil)
  refine ⟨⟨_, rfl⟩, ⟨_, rfl⟩, fun v fuel => ?_, fun fuel b => ?_⟩
  · exact (closure_calls_are_lexical hostTools fuel ["n"] ⟨true⟩).1 .host (named v fuel)
  · exact (closure_calls_are_lexical hostTools fuel _ _).2 (hostTools_uniform holdsNothing) matched
      body (Renaming.same_chain (by decide)) (.cons (.bool b) .nil) (named _ fuel)
      (.applied [] .lenient)

end FormLang
