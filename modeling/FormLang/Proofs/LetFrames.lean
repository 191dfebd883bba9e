import FormLang.Proofs.Binding
import FormLang.Proofs.Environment
import FormLang.Proofs.Passing
import FormLang.Proofs.Resolution
import Mathlib.Logic.Relation

/-!
# Frames of `let`s — what their names mean over time

The frame of a `let` is seen while it fills.  While one of the bindings is evaluated, the frame
binds those before it and no others, so a name may mean something further out at one time and a
sibling at another (`LetValues.each`).  When all are bound the frame has settled: it binds exactly
the names of the bindings, in order, to their values under the tags that the names ask for
(`Settled`).

**From then on the frame stays as it is** (`let_bindings_over_time`), for whoever has captured it:
through the rest of the computation in which the `let` stands (`AfterBindings`), and through all
that is done later (`Later`).
-/

namespace FormLang

open EvalM (Grows)

theorem Entries.get?_append {α : Type} (es fs : Entries α) (name : String) :
    Entries.get? name (es ++ fs) = (Entries.get? name es).or (Entries.get? name fs) := by
  induction es with
  | nil => rfl
  | cons e es ih =>
      obtain ⟨n, v⟩ := e
      rw [List.cons_append, get?_cons, get?_cons, ih]
      split <;> rfl

namespace State

variable {s s' : State} {env : Chain}

/-- A name means what it is bound to in the frame, or else what it means further out. -/
theorem resolve_ofEntries {i : Nat} {bound : Entries Value}
    (h : s.frames[i]? = some (Frame.ofEntries bound)) (env : Chain) (name : String) :
    s.resolve (i :: env) name =
      ((Entries.get? name bound).map (tag name)).or (s.resolve env name) := by
  rw [resolve_cons, h, Option.bind_some, get?_ofEntries]

/-- A frame that is written into is not seen from an environment without it. -/
theorem KeepsBut.resolve_eq {own : Nat → Prop} (h : s.KeepsBut own s')
    (there : ∀ i ∈ env, i < s.frames.size) (foreign : ∀ i ∈ env, ¬ own i) (name : String) :
    s'.resolve env name = s.resolve env name :=
  resolve_congr (fun i hi => h.kept i (there i hi) (foreign i hi)) name

end State

/-! ### One binding after the other -/

/-- The bindings, evaluated one after the other into the frame `i`, lead from one state to another
and have the given values. -/
inductive Fills (run : Task → EvalM Value) (i : Nat) (inner : Chain) (options : Options) :
    Entries Value → State → Entries Value → State → Prop where
  | nil (s : State) : Fills run i inner options [] s [] s
  | cons {name : String} {e v : Value} {rest values : Entries Value} {s u t : State}
      (value : (run (.eval e inner options)).runFrom s = some (.ok v, u))
      (others : Fills run i inner options rest
        { u with frames := u.frames.modify i (Entries.insert name (tag name v)) } values t) :
      Fills run i inner options ((name, e) :: rest) s ((name, v) :: values) t

section Fills

variable {run : Task → EvalM Value} {i : Nat} {inner : Chain} {options : Options}
  {entries values : Entries Value} {s t : State}

/-- **Bindings that all evaluate fill the frame one after the other**, each from the state that the
one before has left.  By induction on the bindings. -/
theorem forM_ok_iff : (entries.forM fun e => run (.eval e.2 inner options) >>= fun v =>
      EvalM.bindName i e.1 (tag e.1 v)).runFrom s = some (.ok (), t) ↔
    ∃ values, Fills run i inner options entries s values t := by
  induction entries generalizing s with
  | nil =>
      constructor
      · intro h
        cases h
        exact ⟨[], .nil _⟩
      · rintro ⟨_, ⟨⟩⟩
        rfl
  | cons e entries ih =>
      constructor
      · intro h
        obtain ⟨_, u, hb, h⟩ := EvalM.runFrom_bind_ok h
        obtain ⟨v, u', hv, hb⟩ := EvalM.runFrom_bind_ok hb
        rw [EvalM.runFrom_bindName] at hb
        cases hb
        obtain ⟨values, fills⟩ := ih.1 h
        exact ⟨_, .cons hv fills⟩
      · rintro ⟨_, fills⟩
        cases fills with
        | cons value others =>
            simp only [List.forM]
            rw [EvalM.runFrom_bind, EvalM.runFrom_bind, value]
            exact ih.2 ⟨_, others⟩

/-- A frame of bindings is a new one, which the bindings fill. -/
theorem bindFrame_ok_iff {env : Chain} :
    (Eval.bindFrame run (.mapping entries) env options).runFrom s = some (.ok inner, t) ↔
      inner = s.frames.size :: env ∧ ∃ values, Fills run s.frames.size inner options entries
        { s with frames := s.frames.push [] } values t := by
  constructor
  · intro h
    obtain ⟨_, u, ha, h⟩ := EvalM.runFrom_bind_ok h
    rw [EvalM.runFrom_allocate] at ha
    cases ha
    obtain ⟨_, u, hb, h⟩ := EvalM.runFrom_bind_ok h
    cases h
    exact ⟨rfl, forM_ok_iff.1 hb⟩
  · rintro ⟨rfl, fills⟩
    rw [Eval.bindFrame, EvalM.runFrom_bind, EvalM.runFrom_allocate]
    dsimp only
    rw [EvalM.runFrom_bind, forM_ok_iff.2 fills]
    rfl

namespace Fills

theorem keys_eq (h : Fills run i inner options entries s values t) :
    Entries.keys values = Entries.keys entries := by
  induction h with
  | nil => rfl
  | cons _ _ ih => rw [Entries.keys_cons, Entries.keys_cons, ih]

/-- The frame is filled with the first bindings before it is filled with the others. -/
theorem append_inv {before after : Entries Value}
    (h : Fills run i inner options (before ++ after) s values t) :
    ∃ bound others u, values = bound ++ others ∧ Fills run i inner options before s bound u ∧
      Fills run i inner options after u others t := by
  induction before generalizing s values with
  | nil => exact ⟨[], values, s, rfl, .nil s, h⟩
  | cons e before ih =>
      cases h with
      | cons value others =>
          obtain ⟨bound, rest, u, rfl, left, right⟩ := ih others
          exact ⟨_, rest, u, rfl, .cons value left, right⟩

/-- The frame gains the values in order, and no other frame is written into. -/
theorem frame_eq (hr : ∀ n t, Grows n (run t)) (h : Fills run i inner options entries s values t)
    (bound : Entries Value) (distinct : (Entries.keys bound ++ Entries.keys entries).Nodup)
    (hf : s.frames[i]? = some (Frame.ofEntries bound)) :
    t.frames[i]? = some (Frame.ofEntries (bound ++ values)) ∧ s.KeepsBut (· = i) t := by
  induction h generalizing bound with
  | nil s => exact ⟨by simpa using hf, fun _ _ _ => rfl, Nat.le_refl _⟩
  | @cons name e v rest values s u t value others ih =>
      have grows := hr s.frames.size _ s _ u (Nat.le_refl _) value
      have kept := grows.kept i (Array.getElem?_eq_some_iff.1 hf).1
      have fresh : name ∉ Entries.keys (Frame.ofEntries bound) := by
        rw [Frame.ofEntries, Entries.keys_mapValues]
        intro hn
        exact (List.nodup_append.1 distinct).2.2 name hn name (.head _) rfl
      have next : (u.frames.modify i (Entries.insert name (tag name v)))[i]? =
          some (Frame.ofEntries (bound ++ [(name, v)])) := by
        rw [Array.getElem?_modify, if_pos rfl, kept, hf, Option.map_some,
          Entries.insert_of_not_mem fresh]
        simp [Frame.ofEntries, Entries.mapValues]
      have written : s.KeepsBut (· = i)
          { u with frames := u.frames.modify i (Entries.insert name (tag name v)) } :=
        (grows.keepsBut _).trans (.modify u i _)
      have still : (Entries.keys (bound ++ [(name, v)]) ++ Entries.keys rest).Nodup := by
        simpa [Entries.keys] using distinct
      obtain ⟨frame, others⟩ := ih _ still next
      exact ⟨by simpa using frame, written.trans others⟩

end Fills

end Fills

/-! ### Frames that have settled -/

/-- The frame binds exactly the names of the values, in their order, each to its value under the tag
that the name asks for.  So that is what the name means in any environment that has the frame, if no
nearer frame binds it. -/
structure Settled (n : Nat) (values : Entries Value) (s : State) : Prop where
  frame : s.frames[n]? = some (Frame.ofEntries values)
  resolve : ∀ (nearer outer : Chain), ∀ name ∈ Entries.keys values, s.resolve nearer name = none →
    s.resolve (nearer ++ n :: outer) name = (Entries.get? name values).map (tag name)

/-- One use of the evaluator after the other leads from `s` to `s'`, which may be any moment of the
last. -/
def Later (host : Host) : State → State → Prop :=
  Relation.ReflTransGen fun s s' =>
    ∃ (α : Type) (x : (Task → EvalM Value) → EvalM α), Use x ∧ Visits host x s s'

namespace Settled

variable {n : Nat} {values : Entries Value} {s s' : State}

theorem of_frame (h : s.frames[n]? = some (Frame.ofEntries values)) : Settled n values s where
  frame := h
  resolve nearer outer name hn none := by
    obtain ⟨v, hv⟩ := Option.isSome_iff_exists.1 (Entries.has_iff_mem_keys.2 hn)
    rw [State.resolve_append, none, Option.none_or, State.resolve_ofEntries h, hv]
    rfl

/-- A frame that is settled stays so at every later moment. -/
theorem later {host : Host} (h : Settled n values s) (hl : Later host s s') :
    Settled n values s' := by
  induction hl with
  | refl => exact h
  | tail _ moment ih =>
      obtain ⟨α, x, use, visits⟩ := moment
      exact .of_frame (((visits.grows use).kept n (Array.getElem?_eq_some_iff.1 ih.frame).1).trans
        ih.frame)

end Settled

/-! ### The bindings over time -/

/-- The values of bindings that have been evaluated from `s` to `t` in a new frame before `env`, and
what names mean in the meantime. -/
structure LetValues (host : Host) (fuel : Nat) (entries : Entries Value) (env : Chain)
    (options : Options) (s : State) (values : Entries Value) (t : State) : Prop where
  /-- The values stand under the names of the bindings, in the same order. -/
  names : Entries.keys values = Entries.keys entries
  /-- Each is the value of its expression, evaluated after the bindings before it.  Until it is
  there, a name means what it is bound to there, or else what it means outside. -/
  each : ∀ {before after : Entries Value} {name : String} {e : Value},
    entries = before ++ (name, e) :: after → ∃ u u' v,
      (Eval.bindFrame (run host fuel) (.mapping before) env options).runFrom s =
        some (.ok (s.frames.size :: env), u) ∧
      (run host fuel (.eval e (s.frames.size :: env) options)).runFrom u = some (.ok v, u') ∧
      Entries.get? name values = some v ∧
      ∀ s', Visits host (fun run => run (.eval e (s.frames.size :: env) options)) u s' →
        (∀ other ∈ Entries.keys before, s'.resolve (s.frames.size :: env) other =
          (Entries.get? other values).map (tag other)) ∧
        ∀ other ∉ Entries.keys before,
          s'.resolve (s.frames.size :: env) other = s'.resolve env other ∧
          s'.resolve env other = s.resolve env other
  /-- When all are bound, the frame has settled. -/
  settled : Settled s.frames.size values t

/-- Bindings that have been evaluated have values, which are bound one after the other. -/
theorem letValues_of_bindFrame {host : Host} {fuel : Nat} {entries : Entries Value}
    (distinct : (Entries.keys entries).Nodup) {env inner : Chain} {s t : State}
    (there : ∀ i ∈ env, i < s.frames.size) {options : Options}
    (h : (Eval.bindFrame (run host fuel) (.mapping entries) env options).runFrom s =
      some (.ok inner, t)) :
    inner = s.frames.size :: env ∧
      ∃ values, LetValues host fuel entries env options s values t := by
  have hr : ∀ n t, Grows n (run host fuel t) := fun n => run_grows host n fuel
  have empty : (s.frames.push [])[s.frames.size]? = some (Frame.ofEntries []) :=
    Array.getElem?_push_size
  obtain ⟨rfl, values, fills⟩ := bindFrame_ok_iff.1 h
  refine ⟨rfl, values, fills.keys_eq, ?_, .of_frame (fills.frame_eq hr [] distinct empty).1⟩
  rintro before after name e rfl
  obtain ⟨bound, others, u, rfl, left, right⟩ := fills.append_inv
  cases right with
  | @cons _ _ v _ others _ u' _ value _ =>
  have names := left.keys_eq
  have parts : (Entries.keys before ++ name :: Entries.keys after).Nodup := by
    simpa [Entries.keys] using distinct
  obtain ⟨distinct, -, apart⟩ := List.nodup_append.1 parts
  obtain ⟨frame, kept⟩ := left.frame_eq hr [] distinct empty
  refine ⟨u, u', v, bindFrame_ok_iff.2 ⟨rfl, bound, left⟩, value, ?_, fun s' visits => ?_⟩
  · have fresh : Entries.get? name bound = none := by
      rw [Entries.get?_eq_none_iff, names]
      exact fun hn => apart name hn name (.head _) rfl
    rw [Entries.get?_append, fresh, Option.none_or, Entries.get?_cons, if_pos rfl]
  · have grows := visits.grows (.task _)
    -- The evaluation writes neither into the half filled frame nor into those outside.
    have half : s'.frames[s.frames.size]? = some (Frame.ofEntries bound) :=
      (grows.kept _ (Array.getElem?_eq_some_iff.1 frame).1).trans frame
    have outside : ∀ other, s'.resolve env other = s.resolve env other :=
      (((State.KeepsBut.push _ s []).trans kept).trans (grows.keepsBut _)).resolve_eq there
        fun i hi => Nat.ne_of_lt (there i hi)
    have seen := State.resolve_ofEntries half env
    refine ⟨fun other ho => ?_, fun other ho => ⟨?_, outside other⟩⟩
    · rw [← names, ← Entries.has_iff_mem_keys] at ho
      obtain ⟨w, hw⟩ := Option.isSome_iff_exists.1 ho
      rw [seen, Entries.get?_append, hw]
      rfl
    · rw [← names, ← Entries.get?_eq_none_iff] at ho
      rw [seen, ho]
      rfl

/-! ### After the bindings -/

/-- Begun in `s`, what `x` does with the evaluator ends, and begins no task for which `stop`
holds. -/
def Avoids {α : Type} (host : Host) (stop : Task → State → Bool)
    (x : (Task → EvalM Value) → EvalM α) (s : State) : Prop :=
  ∃ fuel r, (x (runBarring host stop never fuel)).runFrom s = some r

/-- The state in which the bindings of a `let` are evaluated that is begun in `s`. -/
def State.inLet (s : State) : State :=
  { s with log := .specialForm .letIn :: s.log }

/-- Some use of the evaluator begins the `let` in `s`, and comes to `s'` when its bindings have been
evaluated. -/
def AfterBindings (host : Host) (form entries : Entries Value) (env : Chain) (options : Options)
    (s s' : State) : Prop :=
  ∃ (α : Type) (x : (Task → EvalM Value) → EvalM α) (stop : Task → State → Bool) (s₀ : State),
    Use x ∧ Passes host stop x s₀ (.eval (.mapping form) env options) s s' ∧
    stop (.eval (.mapping form) env options) s = false ∧
    Avoids host stop (fun run => Eval.bindFrame run (.mapping entries) env options) s.inLet

section After

variable {host : Host} {fuel : Nat} {stop : Task → State → Bool} {bindings : Value} {env : Chain}
  {options : Options} {s : State}

/-- A run that stops nowhere in the bindings evaluates them as any other does. -/
theorem Avoids.bindFrame_eq
    (avoids : Avoids host stop (fun run => Eval.bindFrame run bindings env options) s)
    {r q : Except Fault Chain × State}
    (hr : (Eval.bindFrame (run host fuel) bindings env options).runFrom s = some r) {k : Nat}
    (hq : (Eval.bindFrame (runUntil host stop k) bindings env options).runFrom s = some q) :
    q = r := by
  obtain ⟨m, p, hp⟩ := avoids
  have done := Eval.bindFrame_refines (runBarring_refines_run host (Nat.le_max_left m fuel))
    bindings env options s p hp
  rw [Eval.bindFrame_refines (run_refines host (Nat.le_max_right m fuel)) bindings env options s r
    hr] at done
  have unstopped := Eval.bindFrame_refines (runBarring_refines_runUntil host (Nat.le_max_left m k))
    bindings env options s p hp
  rw [Eval.bindFrame_refines (runUntil_refines host (Nat.le_max_right m k)) bindings env options s
    q hq] at unstopped
  exact Option.some.inj (unstopped.trans done.symm)

variable {form entries : Entries Value} {body : Value}

/-- A `let` binds its frame and evaluates its body in it. -/
theorem step_let (hf : SpecialForm.ofEntries? form = some (.letIn (.mapping entries) (some body)))
    (run : Task → EvalM Value) (env : Chain) (options : Options) (s : State) :
    (Eval.step host run (.eval (.mapping form) env options)).runFrom s =
      (Eval.bindFrame run (.mapping entries) env options >>= fun inner =>
        run (.eval body inner options)).runFrom s.inLet := by
  simp only [Eval.step, Eval.expression, hf]
  rfl

/-- A `let` has no outcome if its first binding has none. -/
theorem runFrom_let_none {run : Task → EvalM Value} {rest : Entries Value} {name : String}
    {e : Value}
    (hf : SpecialForm.ofEntries? form = some (.letIn (.mapping ((name, e) :: rest)) (some body)))
    (h : (run (.eval e (s.inLet.frames.size :: env) options)).runFrom
      { s.inLet with frames := s.inLet.frames.push [] } = none) :
    (Eval.step host run (.eval (.mapping form) env options)).runFrom s = none := by
  rw [step_let hf, EvalM.runFrom_bind, Eval.bindFrame, EvalM.runFrom_bind, EvalM.runFrom_allocate]
  dsimp only
  rw [EvalM.runFrom_bind]
  simp only [List.forM]
  rw [EvalM.runFrom_bind, EvalM.runFrom_bind, h]

/-- After the bindings the frame stays as they have left it, in the computation in which the `let`
stands. -/
theorem AfterBindings.settled
    (hf : SpecialForm.ofEntries? form = some (.letIn (.mapping entries) (some body)))
    {inner : Chain} {t s' : State}
    (bound : (Eval.bindFrame (run host fuel) (.mapping entries) env options).runFrom s.inLet =
      some (.ok inner, t)) {values : Entries Value} (settled : Settled s.frames.size values t)
    (after : AfterBindings host form entries env options s s') :
    Settled s.frames.size values s' := by
  obtain ⟨α, x, stop, s₀, use, passes, free, avoids⟩ := after
  obtain ⟨-, k, o, τ, ran, size, made⟩ := passes.passed use
  cases k with
  | zero => cases ran
  | succ k =>
  rw [runFrom_runUntil, free, if_neg Bool.false_ne_true, step_let hf, EvalM.runFrom_bind] at ran
  cases hq : (Eval.bindFrame (runUntil host stop k) (.mapping entries) env options).runFrom
      s.inLet with
  | none =>
      rw [hq] at ran
      cases ran
  | some q =>
      obtain rfl := avoids.bindFrame_eq bound hq
      rw [hq] at ran
      -- From here on the body is evaluated, and then whatever follows the `let`.
      have grows := runUntil_grows host stop t.frames.size k _ t o τ (Nat.le_refl _) ran
      have there := (Array.getElem?_eq_some_iff.1 settled.frame).1
      have left : τ.frames[s.frames.size]? = some (Frame.ofEntries values) :=
        (grows.kept _ there).trans settled.frame
      exact .of_frame ((made _ (Nat.le_refl _) (Array.getElem?_eq_some_iff.1 left).1).trans left)

end After

/-- **What the names of a `let` mean over time.**  Let bindings with distinct names be evaluated
without a fault, in a `let` with a body or by a session.  They have values, which are bound one
after the other in a new frame: at every moment while an expression is evaluated, the names before
it mean the values that they are bound to, and every other name means what it means outside.  When
the body starts, or the session goes on, the frame has settled: it binds exactly the names, in
order, to their values.  At every later moment it is still the same, in the computation in which the
`let` stands and in all that is done afterwards. -/
theorem let_bindings_over_time (host : Host) {entries : Entries Value}
    (distinct : (Entries.keys entries).Nodup) {env : Chain} {s : State}
    (there : ∀ i ∈ env, i < s.frames.size) (options : Options) (fuel : Nat) :
    (∀ {form : Entries Value} {body : Value} {inner : Chain} {t : State},
      SpecialForm.ofEntries? form = some (.letIn (.mapping entries) (some body)) →
      (Eval.bindFrame (run host fuel) (.mapping entries) env options).runFrom s.inLet =
        some (.ok inner, t) →
      (run host (fuel + 1) (.eval (.mapping form) env options)).runFrom s =
        (run host fuel (.eval body (s.frames.size :: env) options)).runFrom t ∧
      ∃ values, LetValues host fuel entries env options s.inLet values t ∧
        ∀ s', AfterBindings host form entries env options s s' → ∀ s'', Later host s' s'' →
          Settled s.frames.size values s'') ∧
    ∀ {session session' : Session} {t : State}, session.env = env → session.options = options →
      (session.evalFrame host fuel (.mapping entries)).runFrom s = some (.ok session', t) →
      session' = { session with env := s.frames.size :: env } ∧
      ∃ values, LetValues host fuel entries env options s values t ∧
        ∀ s'', Later host t s'' → Settled s.frames.size values s'' := by
  constructor
  · intro form body inner t hf bound
    obtain ⟨rfl, values, bindings⟩ := letValues_of_bindFrame distinct (s := s.inLet) there bound
    refine ⟨?_, values, bindings, fun s' after s'' later => ?_⟩
    · rw [run, step_let hf, EvalM.runFrom_bind, bound]
      rfl
    · exact (after.settled hf bound bindings.settled).later later
  · rintro session session' t rfl rfl h
    obtain ⟨inner, u, bound, h⟩ := EvalM.runFrom_bind_ok h
    cases h
    obtain ⟨rfl, values, bindings⟩ := letValues_of_bindFrame distinct there bound
    have settled : Settled s.frames.size values
        { u with log := .bound entries.length :: u.log } := .of_frame bindings.settled.frame
    exact ⟨rfl, values, ⟨bindings.names, bindings.each, settled⟩, fun s'' => settled.later⟩

/-- A function of `y`, and then `y`. -/
def early : Entries Value :=
  [("f", lambdaForm [] (.text "y")), ("y", .int 1)]

/-- A `let` that binds another `y` after the function has come out of the `let` inside. -/
def around : Value :=
  letIn (.mapping [("g", letIn (.mapping early) (.text "f")), ("y", .int 5)])
    (.mapping [("g", .list [])])

/-- When the inner `let` begins, the frame of the outer one is still empty. -/
def atInner : State :=
  ⟨#[Frame.standard, []], 0, [.specialForm .letIn]⟩

/-- The function captures its frame before `y` is bound there.  At the end the frame of the outer
`let` has been written into, and that of the inner one is as its bindings have left it, so the
function finds the `y` beside it. -/
theorem let_bindings_over_time_early :
    (Entries.keys early).Nodup ∧ ∃ values s',
      (run hostTools 9 (.eval around [0] .lenient)).runFrom .initial = some (.ok (.int 1), s') ∧
      Entries.keys values = ["f", "y"] ∧ Entries.get? "y" values = some (.int 1) ∧
      Settled 2 values s' := by
  have distinct : (Entries.keys early).Nodup := by decide
  obtain ⟨-, values, bindings, forever⟩ := (let_bindings_over_time hostTools distinct
    (by decide : ∀ i ∈ [1, 0], i < atInner.frames.size) .lenient 5).1
    (rfl : SpecialForm.ofEntries? [("let", .mapping early), ("in", .text "f")] = _) rfl
  have parts : early = [("f", lambdaForm [] (.text "y"))] ++ ("y", .int 1) :: [] := rfl
  obtain ⟨u, u', v, before, value, named, -⟩ := bindings.each parts
  cases before
  cases value
  refine ⟨distinct, values, _, rfl, bindings.names, named, forever _ ?_ _ .refl⟩
  -- The evaluation begins the inner `let` when that state is reached, and not before.
  refine ⟨Value, fun run => run (.eval around [0] .lenient), never, .initial, .task _,
    ⟨9, _, rfl, ?_⟩, rfl, 3, _, rfl⟩
  have other : ∀ task, exactly task atInner (.eval around [0] .lenient) .initial = false := by
    refine fun task => Bool.eq_false_iff.2 fun h => ?_
    have size := congrArg (fun s => s.frames.size) (exactly_iff.1 h).2
    exact absurd size (by decide)
  rw [runFrom_runBarring, other, if_neg Bool.false_ne_true]
  refine (if_neg Bool.false_ne_true).trans (runFrom_let_none rfl ?_)
  exact (runFrom_runBarring ..).trans (if_pos (exactly_iff.2 ⟨rfl, rfl⟩))

end FormLang
