import FormLang.Eval.Fuel
import FormLang.Proofs.Session.Captured

/-!
# Sessions — a session is a nested `let`

A definition that a session accepts does what a `let` around all that comes later would do.  So an
expression that is evaluated in a session has the outcome that it has inside one `let` for each
definition that succeeded, evaluated with the standard bindings alone, and a definition that fails
does so with the fault of the `let` that would stand there (`session_is_nested_let`).

The session's state and that of the nested evaluation are related only up to a renaming: commands
that fail, and evaluations in between, leave frames and closures in the one that the other does not
have.  A nesting of `let`s that binds all its frames comes down to its innermost expression, in an
environment and a state that do not depend on that expression (`Unfolds`); the invariant of a
history is that this environment corresponds to the session's (`Mirrored`).
-/

namespace FormLang

open Expansion (quotation)

/-! ### Nested `let`s -/

/-- `body` inside a `let`. -/
def letIn (bindings body : Value) : Value :=
  .mapping [("let", bindings), ("in", body)]

/-- `body` inside `let`s with the given bindings, the first outermost. -/
def nest (layers : List Value) (body : Value) : Value :=
  layers.foldr letIn body

theorem nest_append_singleton (layers : List Value) (bindings body : Value) :
    nest (layers ++ [bindings]) body = nest layers (letIn bindings body) := by
  simp [nest]

variable {host : Host} {options : Options} {env env' : Chain} {s t : State}

/-- A `let` notes that it is evaluated, binds its frame and evaluates its body. -/
theorem run_letIn (fuel : Nat) (bindings body : Value) :
    (run host (fuel + 1) (.eval (letIn bindings body) env options)).runFrom s =
      (Eval.bindFrame (run host fuel) bindings env options >>= fun inner =>
        run host fuel (.eval body inner options)).runFrom
          { s with log := .specialForm .letIn :: s.log } :=
  rfl

theorem run_quotation (fuel : Nat) (v : Value) :
    (run host (fuel + 1) (.eval (quotation v) env options)).runFrom s =
      some (.ok v, { s with log := .specialForm .quote :: s.log }) :=
  rfl

theorem run_symbol {name : String} {v : Value} (h : s.resolve env name = some v) (fuel : Nat) :
    (run host (fuel + 1) (.eval (.text name) env options)).runFrom s = some (.ok v, s) := by
  refine (EvalM.runFrom_lookup env name s).trans ?_
  rw [h]

/-- From `s` and `env`, `let`s with the given bindings lead to `t` and `env'`: whatever expression
stands inside them is evaluated there, given enough fuel to bind the frames. -/
def Unfolds (host : Host) (options : Options) (layers : List Value) (s : State) (env : Chain)
    (t : State) (env' : Chain) : Prop :=
  ∃ n, ∀ fuel, n ≤ fuel → ∀ e,
    (run host (fuel + layers.length) (.eval (nest layers e) env options)).runFrom s =
      (run host fuel (.eval e env' options)).runFrom t

theorem Unfolds.nil (host : Host) (options : Options) (s : State) (env : Chain) :
    Unfolds host options [] s env s env :=
  ⟨0, fun _ _ _ => rfl⟩

/-- One more `let`, innermost, whose frame can be bound. -/
theorem Unfolds.snoc {layers : List Value} {u : State} {inner : Chain} {bindings : Value}
    (h : Unfolds host options layers s env t env') {n : Nat}
    (hb : (Eval.bindFrame (run host n) bindings env' options).runFrom
      { t with log := .specialForm .letIn :: t.log } = some (.ok inner, u)) :
    Unfolds host options (layers ++ [bindings]) s env u inner := by
  obtain ⟨k, h⟩ := h
  -- The bindings need the fuel `n`, which they have when the body has it.
  refine ⟨max k n, fun fuel hf e => ?_⟩
  have hb' := Eval.bindFrame_refines (run_refines host (by omega : n ≤ fuel)) bindings env' options
    _ _ hb
  have hlen : fuel + (layers ++ [bindings]).length = fuel + 1 + layers.length := by
    simp only [List.length_append, List.length_singleton]
    omega
  rw [hlen, nest_append_singleton, h (fuel + 1) (by omega), run_letIn, EvalM.runFrom_bind, hb']

/-! ### Frames of quoted values -/

/-- The entries as bindings that evaluate to them. -/
def quoted (entries : Entries Value) : Value :=
  .mapping (Entries.mapValues (fun _ => quotation) entries)

/-- The frame after the entries have been bound in it, one by one. -/
def Frame.bindAll (f : Frame) (entries : Entries Value) : Frame :=
  entries.foldl (fun f e => Entries.insert e.1 (tag e.1 e.2) f) f

/-- Under distinct names, binding one by one and binding at once come to the same. -/
theorem Frame.get?_bindAll {entries : Entries Value} (hk : (Entries.keys entries).Nodup)
    (f : Frame) (name : String) :
    Entries.get? name (f.bindAll entries) =
      (Entries.get? name (Frame.ofEntries entries)).or (Entries.get? name f) := by
  induction entries generalizing f with
  | nil => rfl
  | cons e entries ih =>
      obtain ⟨n, v⟩ := e
      rw [Entries.keys_cons, List.nodup_cons] at hk
      have step := ih hk.2 (Entries.insert n (tag n v) f)
      rw [Entries.get?_insert] at step
      have head : Entries.get? name (Frame.ofEntries ((n, v) :: entries)) =
          if n = name then some (tag n v) else Entries.get? name (Frame.ofEntries entries) := rfl
      refine step.trans ?_
      rw [head]
      by_cases hn : n = name
      · subst hn
        have absent : Entries.get? n (Frame.ofEntries entries) = none := by
          rw [Entries.get?_eq_none_iff, Frame.ofEntries, Entries.keys_mapValues]
          exact hk.1
        simp [absent]
      · simp [hn]

/-- A frame that is filled with the entries one by one binds them as a frame of the host does. -/
theorem Frame.get?_bindAll_nil {entries : Entries Value} (hk : (Entries.keys entries).Nodup)
    (name : String) : Entries.get? name (Frame.bindAll [] entries) =
      Entries.get? name (Frame.ofEntries entries) := by
  rw [Frame.get?_bindAll hk, Entries.get?_nil, Option.or_none]

/-- What is written into the newest frame could have been there from the beginning. -/
theorem modify_push_size {α : Type} (xs : Array α) (x : α) (f : α → α) :
    (xs.push x).modify xs.size f = xs.push (f x) := by
  refine Array.ext_getElem? fun i => ?_
  rw [Array.getElem?_modify, Array.getElem?_push, Array.getElem?_push]
  by_cases hi : i = xs.size
  · subst hi
    simp
  · simp [hi, Ne.symm hi]

/-- A `let` of quoted values binds them as a frame of the host does. -/
theorem bindFrame_quoted (host : Host) (env : Chain) (options : Options) (t : State) (fuel : Nat)
    (entries : Entries Value) :
    ∃ log, (Eval.bindFrame (run host (fuel + 1)) (quoted entries) env options).runFrom t =
      some (.ok (t.frames.size :: env),
        { t with frames := t.frames.push (Frame.bindAll [] entries), log := log }) := by
  have fills : ∀ (entries : Entries Value) (f : Frame) (log : List Event), ∃ log',
      ((Entries.mapValues (fun _ => quotation) entries).forM fun e =>
        run host (fuel + 1) (.eval e.2 (t.frames.size :: env) options) >>= fun v =>
          EvalM.bindName t.frames.size e.1 (tag e.1 v)).runFrom
            { t with frames := t.frames.push f, log := log } =
        some (.ok (), { t with frames := t.frames.push (f.bindAll entries), log := log' }) := by
    intro entries
    induction entries with
    | nil => exact fun f log => ⟨log, rfl⟩
    | cons e entries ih =>
        intro f log
        obtain ⟨log', h⟩ := ih (Entries.insert e.1 (tag e.1 e.2) f) (.specialForm .quote :: log)
        refine ⟨log', ?_⟩
        rw [← modify_push_size t.frames f] at h
        simp only [Entries.mapValues, List.map_cons, List.forM]
        rw [EvalM.runFrom_bind, EvalM.runFrom_bind, run_quotation]
        exact h
  obtain ⟨log, h⟩ := fills entries [] t.log
  refine ⟨log, ?_⟩
  simp only [quoted, Eval.bindFrame]
  rw [EvalM.runFrom_bind, EvalM.runFrom_allocate]
  dsimp only
  rw [EvalM.runFrom_bind, h]
  rfl

/-! ### The layers of a history -/

/-- The bindings of the `let` that a definition amounts to. -/
def Command.layer? : Command → Option Value
  | .define name v => some (quoted [(name, v)])
  | .defineFrame (.mapping entries) => some (quoted entries)
  | .evalFrame bindings => some bindings
  | _ => none

/-- The bindings of the definition that a step is, if it succeeded. -/
def stepLayer? : Command × Except Fault Value → Option Value
  | (c, .ok _) => c.layer?
  | (_, .error _) => none

/-- The bindings of the definitions that succeeded, in order. -/
def layers (history : List (Command × Except Fault Value)) : List Value :=
  history.filterMap stepLayer?

theorem layers_snoc (history : List (Command × Except Fault Value)) (c : Command)
    (o : Except Fault Value) :
    layers (history ++ [(c, o)]) = layers history ++ (stepLayer? (c, o)).toList := by
  simp only [layers, List.filterMap_append, List.filterMap_cons, List.filterMap_nil]
  cases stepLayer? (c, o) <;> rfl

/-- A definition or an evaluation that mentions only frames and closures within `x`.  The names of a
frame are distinct. -/
inductive Command.Independent (held : String → Extent) (x : Extent) : Command → Prop where
  | define (name : String) {v : Value} (h : v.Known held x) : Independent held x (.define name v)
  | defineFrame {v : Value} (h : v.Known held x)
      (hk : ∀ entries, v = .mapping entries → (Entries.keys entries).Nodup) :
      Independent held x (.defineFrame v)
  | evalFrame {v : Value} (h : v.Known held x) : Independent held x (.evalFrame v)
  | eval {v : Value} (h : v.Known held x) : Independent held x (.eval v)

/-! ### The session and the nesting -/

variable {held : String → Extent} {x : Extent} {s₀ : State} {Ls : List Value} {m m' : Moment}

/-- From `s₀`, `let`s with the given bindings lead to an environment and a state that correspond to
those of the session, under a renaming that fixes what is within `x`. -/
def Mirrored (held : String → Extent) (host : Host) (options : Options) (x : Extent) (s₀ : State)
    (Ls : List Value) (m : Moment) : Prop :=
  m.session.options = options ∧ ∃ t env ρ, Unfolds host options Ls s₀ standardChain t env ∧
    (Renaming.same x).Le ρ ∧ Matched held ρ m.state t ∧ List.Forall₂ ρ.frames m.session.env env

theorem Session.perform_evalFrame_refines (host : Host) {k n : Nat} (h : k ≤ n) (session : Session)
    (b : Value) : (session.perform host k (.evalFrame b)).Refines
      (session.perform host n (.evalFrame b)) :=
  .bind (.bind (Eval.bindFrame_refines (run_refines host h) b _ _) fun _ => .refl _) fun _ =>
    .refl _

namespace Mirrored

/-- Frames that no environment of the session reaches do not matter. -/
theorem grow (h : Mirrored held host options x s₀ Ls m) {s : State}
    (hs : m.state.Grows m.state.frames.size s) :
    Mirrored held host options x s₀ Ls ⟨m.session, s⟩ := by
  obtain ⟨ho, t, env, ρ, hu, hx, hm, he⟩ := h
  exact ⟨ho, t, env, ρ, hu, hx, hm.grow hs (.refl _ _), he⟩

/-- A frame of the host against a `let` of quoted values. -/
theorem define (h : Mirrored held host options x s₀ Ls m) {entries : Entries Value}
    (hk : (Entries.keys entries).Nodup)
    (hv : Entries.Forall₂ (Value.Alike ((Renaming.same x).link held)) entries entries) :
    Mirrored held host options x s₀ (Ls ++ [quoted entries]) ⟨m.session.withNext m.state,
      { m.state with frames := m.state.frames.push (Frame.ofEntries entries) }⟩ := by
  obtain ⟨ho, t, env, ρ, hu, hx, hm, he⟩ := h
  obtain ⟨log, hb⟩ := bindFrame_quoted host env options
    { t with log := .specialForm .letIn :: t.log } 0 entries
  have frames : Frame.Alike (ρ.link held) (Frame.ofEntries entries) (Frame.bindAll [] entries) := by
    intro name
    rw [Frame.get?_bindAll_nil hk]
    exact Value.Alike.option_mono hx.link ((hv.mapValues fun n _ _ => tag_alike n).get? name)
  -- The renaming gains the pair of the two new frames.
  have hl := Renaming.le_withFrame hm.frames_lt
  have hm' := hm.allocate hl.link frames
  refine ⟨ho, _, _, _, hu.snoc hb, hx.trans hl, ⟨hm'.frames, hm'.closures⟩, ?_⟩
  exact .cons (.inr ⟨rfl, rfl⟩) (he.imp fun _ _ => hl.frames)

/-- Binding a frame in the session's environment against binding it innermost in the nesting, with
the note that a `let` makes. -/
theorem bindFrame_ends (hu : host.Uniform held) {ρ : Renaming} {env env' : Chain} {s t : State}
    (hx : (Renaming.same x).Le ρ) (hm : Matched held ρ s t) (he : List.Forall₂ ρ.frames env env')
    {b : Value} (hb : b.Known held x) (options : Options) (fuel : Nat) :
    Correspondence.Ends (C := .renamed hu) (fun ρ => List.Forall₂ ρ.frames) ρ
      ((Eval.bindFrame (run host fuel) b env options).runFrom s)
      ((Eval.bindFrame (run host fuel) b env' options).runFrom
        { t with log := .specialForm .letIn :: t.log }) := by
  have sim := Correspondence.bindFrame_sim (C := .renamed hu) (w := ρ) (k := .free)
    (Correspondence.run_follows _ fuel) (hb.mono hx.link) (fun _ _ _ _ => ⟨.free _, .free _⟩) he
    (rfl : options = options)
  exact sim.ends (fun _ => id) ⟨hm.frames, hm.closures⟩

/-- Bindings that the session evaluates and keeps, against a `let` of them. -/
theorem evalFrame (hu : host.Uniform held) (h : Mirrored held host options x s₀ Ls m) {b : Value}
    (hb : b.Known held x) {fuel : Nat} {session : Session} {s : State}
    (hs : (m.session.evalFrame host fuel b).runFrom m.state = some (.ok session, s)) :
    Mirrored held host options x s₀ (Ls ++ [b]) ⟨session, s⟩ := by
  obtain ⟨rfl, t, env, ρ, unfolds, hx, hm, he⟩ := h
  obtain ⟨inner, u, hbind, hs⟩ := EvalM.runFrom_bind_ok hs
  cases hs
  have ends := bindFrame_ends hu hx hm he hb m.session.options fuel
  rw [hbind] at ends
  generalize hq : (Eval.bindFrame (run host fuel) b env m.session.options).runFrom _ = q at ends
  cases ends with
  | ok hw hs' hc =>
      exact ⟨rfl, _, _, _, unfolds.snoc hq, hx.trans hw, ⟨hs'.frames, hs'.closures⟩, hc⟩

/-- **Each step keeps the session and the nesting together.** -/
theorem step (hu : host.Uniform held) (h : Mirrored held host options x s₀ Ls m) {c : Command}
    {o : Except Fault Value} (hc : c.Independent held x) (hs : m.Step host c o m') :
    Mirrored held host options x s₀ (Ls ++ (stepLayer? (c, o)).toList) m' := by
  obtain ⟨session, s⟩ := m'
  have grows := hs.grows
  obtain ⟨fuel, hs⟩ := hs
  cases o with
  | error e =>
      obtain ⟨rfl, -⟩ := Session.step_error_iff.1 hs
      simpa [stepLayer?] using h.grow grows
  | ok v =>
      have hp := Session.step_ok_iff.1 hs
      cases hc with
      | define name hv =>
          cases hp
          exact h.define (by simp) (.cons hv .nil)
      | defineFrame hv hk =>
          obtain ⟨frame, hf, hp⟩ := EvalM.runFrom_lift_bind_ok hp
          cases hv with
          | @mapping es _ hes =>
              cases hf
              cases hp
              exact h.define (hk es rfl) hes
          | _ => cases hf
      | evalFrame hv =>
          obtain ⟨_, _, he, hp⟩ := EvalM.runFrom_bind_ok hp
          cases hp
          exact h.evalFrame hu hv he
      | eval hv =>
          obtain ⟨_, _, he, hp⟩ := EvalM.runFrom_bind_ok hp
          cases hp
          simpa [stepLayer?, Command.layer?] using h.grow grows

/-- **A whole history is mirrored by the `let`s of its definitions**, by induction on it. -/
theorem of_run (hu : host.Uniform held) {history : List (Command × Except Fault Value)}
    (h : Mirrored held host options x s₀ [] m)
    (hr : Moment.Run host (fun _ c => c.Independent held x) m history m') :
    Mirrored held host options x s₀ (layers history) m' := by
  induction hr with
  | nil => exact h
  | snoc _ may hs ih =>
      rw [layers_snoc]
      exact ih.step hu may hs

/-- An expression has the same outcome in the session and innermost in the nesting. -/
theorem eval_sameOutcome (hu : host.Uniform held) (h : Mirrored held host options x s₀ Ls m)
    {e : Value} (he : e.Known held x) :
    ∃ n, ∀ fuel, n ≤ fuel → Option.Rel (SameOutcome held (.same x))
      ((run host fuel (.eval e m.session.env m.session.options)).runFrom m.state)
      ((run host (fuel + Ls.length) (.eval (nest Ls e) standardChain options)).runFrom
        s₀) := by
  obtain ⟨rfl, t, env, ρ, ⟨n, unfolds⟩, hx, hm, hc⟩ := h
  refine ⟨n, fun fuel hf => ?_⟩
  rw [unfolds fuel hf e]
  have task : Task.Alike (ρ.link held) (.eval e m.session.env m.session.options)
      (.eval e env m.session.options) := .eval (he.mono hx.link) hc rfl
  exact SameOutcome.weaken hx (run_matched hu hm task fuel)

/-- Bindings fail in the session with the fault of a `let` of them, innermost in the nesting. -/
theorem evalFrame_error_iff (hu : host.Uniform held) (h : Mirrored held host options x s₀ Ls m)
    {b : Value} (hb : b.Known held x) (e : Fault) :
    ∃ n, ∀ fuel, n ≤ fuel →
      ((∃ s, (m.session.perform host fuel (.evalFrame b)).runFrom m.state = some (.error e, s)) ↔
        ∃ s, (run host (fuel + 1 + Ls.length)
          (.eval (nest Ls (letIn b .null)) standardChain options)).runFrom s₀ =
            some (.error e, s)) := by
  obtain ⟨rfl, t, env, ρ, ⟨n, unfolds⟩, hx, hm, hc⟩ := h
  refine ⟨n, fun fuel hf => ?_⟩
  have ends := bindFrame_ends hu hx hm hc hb m.session.options fuel
  -- Neither side can fail once the frame is bound: the body is null.
  have left : ∀ s, (m.session.perform host fuel (.evalFrame b)).runFrom m.state =
      some (.error e, s) ↔ (Eval.bindFrame (run host fuel) b m.session.env
        m.session.options).runFrom m.state = some (.error e, s) := by
    intro s
    refine (EvalM.runFrom_bind_error_iff fun _ _ => ?_).trans
      (EvalM.runFrom_bind_error_iff fun _ _ => ?_)
    · exact nofun
    · exact nofun
  have right : ∀ s, (run host (fuel + 1) (.eval (letIn b .null) env m.session.options)).runFrom t =
      some (.error e, s) ↔ (Eval.bindFrame (run host fuel) b env m.session.options).runFrom
        { t with log := .specialForm .letIn :: t.log } = some (.error e, s) := by
    intro s
    rw [run_letIn]
    refine EvalM.runFrom_bind_error_iff fun _ _ => ?_
    cases fuel with
    | zero => exact nofun
    | succ fuel => exact nofun
  simp only [unfolds (fuel + 1) (by omega), left, right]
  exact ends.error_iff e

/-- Given fuel, an expression ends in the session if and only if it ends in the nesting. -/
theorem evaluated (hu : host.Uniform held) (h : Mirrored held host options x s₀ Ls m) {e : Value}
    (he : e.Known held x) :
    (∀ fuel r, (run host fuel (.eval e m.session.env m.session.options)).runFrom m.state = some r →
      ∃ fuel' q, (run host fuel' (.eval (nest Ls e) standardChain options)).runFrom s₀ = some q ∧
        SameOutcome held (.same x) r q) ∧
    ∀ fuel q, (run host fuel (.eval (nest Ls e) standardChain options)).runFrom s₀ = some q →
      ∃ fuel' r, (run host fuel' (.eval e m.session.env m.session.options)).runFrom m.state =
        some r ∧ SameOutcome held (.same x) r q := by
  obtain ⟨n, ends⟩ := h.eval_sameOutcome hu he
  constructor
  · intro fuel r hr
    have ends := ends (max fuel n) (by omega)
    rw [run_refines host (by omega : fuel ≤ max fuel n) _ _ _ hr] at ends
    generalize hq : (run host (max fuel n + Ls.length) _).runFrom s₀ = o at ends
    cases ends with
    | some same => exact ⟨_, _, hq, same⟩
  · intro fuel q hq
    have ends := ends (max fuel n) (by omega)
    rw [run_refines host (by omega : fuel ≤ max fuel n + Ls.length) _ _ _ hq] at ends
    generalize hr : (run host (max fuel n) _).runFrom m.state = o at ends
    cases ends with
    | some same => exact ⟨_, _, hr, same⟩

/-- Given fuel, bindings fail in the session if and only if a `let` of them does in the nesting. -/
theorem failed_iff (hu : host.Uniform held) (h : Mirrored held host options x s₀ Ls m) {b : Value}
    (hb : b.Known held x) (e : Fault) :
    (∃ fuel s, (m.session.perform host fuel (.evalFrame b)).runFrom m.state =
        some (.error e, s)) ↔
      ∃ fuel s, (run host fuel (.eval (nest Ls (letIn b .null)) standardChain options)).runFrom s₀ =
        some (.error e, s) := by
  obtain ⟨n, ends⟩ := h.evalFrame_error_iff hu hb e
  constructor
  · rintro ⟨fuel, s, hs⟩
    have more := Session.perform_evalFrame_refines host (by omega : fuel ≤ max fuel n) m.session b
    obtain ⟨t, ht⟩ := (ends (max fuel n) (by omega)).1 ⟨s, more _ _ hs⟩
    exact ⟨_, t, ht⟩
  · rintro ⟨fuel, t, ht⟩
    have more := run_refines host (by omega : fuel ≤ max fuel n + 1 + Ls.length)
      (.eval (nest Ls (letIn b .null)) standardChain options)
    obtain ⟨s, hs⟩ := (ends (max fuel n) (by omega)).2 ⟨t, more _ _ ht⟩
    exact ⟨_, s, hs⟩

end Mirrored

/-! ### The session as an expression -/

/-- A session without files starts with the standard bindings and changes nothing. -/
theorem Session.start_null (host : Host) (fuel : Nat) (settings : Settings) (files : FileSystem)
    (strict : Option Bool) (s : State) :
    (Session.start host fuel settings files .null strict).runFrom s =
      some (.ok (.fresh (settings.options strict)), s) :=
  rfl

/-- No frames of the host: the standard bindings alone. -/
theorem evaluate_null (host : Host) (fuel : Nat) (expr : Value) (options : Options) (s : State) :
    (evaluate host fuel expr .null options).runFrom s =
      (run host fuel (.eval expr standardChain options)).runFrom s :=
  rfl

/-- A step that evaluates is a run in the session's environment. -/
theorem Moment.step_eval_iff {e : Value} {o : Except Fault Value} :
    m.Step host (.eval e) o m' ↔ m'.session = m.session ∧
      ∃ fuel, (run host fuel (.eval e m.session.env m.session.options)).runFrom m.state =
        some (o, m'.state) := by
  obtain ⟨session, s⟩ := m'
  constructor
  · rintro ⟨fuel, h⟩
    rw [Session.step_of_answer rfl] at h
    obtain ⟨r, hr, h⟩ := Option.map_eq_some_iff.1 h
    cases h
    exact ⟨rfl, fuel, hr⟩
  · rintro ⟨hs, fuel, h⟩
    refine ⟨fuel, ?_⟩
    rw [Session.step_of_answer rfl]
    exact Option.map_eq_some_iff.2 ⟨_, h, by rw [hs]⟩

open Moment (Run)

/-- **A session is a nested `let`.**  Let the session start without files, and no command mention
what the session returned.  Then an expression has the same outcome in the session as inside the
`let`s of the definitions that succeeded so far, evaluated with the standard bindings alone when the
session started or at any time after; and bindings fail to be evaluated with the fault of a `let` of
them that stands innermost there. -/
theorem session_is_nested_let (hu : host.Uniform held) {loading : Nat} {settings : Settings}
    {files : FileSystem} {strict : Option Bool} {s₀ t₀ : State} {first m : Moment}
    {history : List (Command × Except Fault Value)}
    (closed : s₀.Closed held) (standard : s₀.frames[0]? = some Frame.standard)
    (start : (Session.start host loading settings files .null strict).runFrom s₀ =
      some (.ok first.session, first.state))
    (grows : s₀.Grows s₀.frames.size t₀)
    (run : Run host (fun _ c => c.Independent held s₀.extent) first history m) :
    (∀ e : Value, e.Known held s₀.extent →
      (∀ o m', m.Step host (.eval e) o m' →
        ∃ fuel q, (evaluate host fuel (nest (layers history) e) .null
          (settings.options strict)).runFrom t₀ = some q ∧
            SameOutcome held (.same s₀.extent) (o, m'.state) q) ∧
      (∀ fuel q, (evaluate host fuel (nest (layers history) e) .null
          (settings.options strict)).runFrom t₀ = some q →
        ∃ o m', m.Step host (.eval e) o m' ∧
          SameOutcome held (.same s₀.extent) (o, m'.state) q)) ∧
    ∀ b : Value, b.Known held s₀.extent → ∀ fault,
      (∃ m', m.Step host (.evalFrame b) (.error fault) m') ↔
        ∃ fuel t, (evaluate host fuel (nest (layers history) (letIn b .null)) .null
          (settings.options strict)).runFrom t₀ = some (.error fault, t) := by
  have started : Mirrored held host (settings.options strict) s₀.extent t₀ [] first := by
    obtain ⟨session, s⟩ := first
    rw [Session.start_null] at start
    cases start
    exact ⟨rfl, t₀, standardChain, _, .nil _ _ _ _, .refl _,
      closed.grow (.refl _ _) grows, Renaming.same_chain (State.standardChain_there standard)⟩
  have mirrored := started.of_run hu run
  simp only [evaluate_null]
  refine ⟨fun e he => ⟨fun o m' step => ?_, fun fuel q hq => ?_⟩, fun b hb fault => ?_⟩
  · obtain ⟨-, fuel, hr⟩ := Moment.step_eval_iff.1 step
    exact (mirrored.evaluated hu he).1 fuel _ hr
  · obtain ⟨fuel', ⟨o, s⟩, hr, same⟩ := (mirrored.evaluated hu he).2 fuel q hq
    exact ⟨o, ⟨m.session, s⟩, Moment.step_eval_iff.2 ⟨rfl, fuel', hr⟩, same⟩
  · refine Iff.trans ?_ (mirrored.failed_iff hu hb fault)
    constructor
    · rintro ⟨m', fuel, step⟩
      exact ⟨fuel, m'.state, (Session.step_error_iff.1 step).2⟩
    · rintro ⟨fuel, s, hs⟩
      exact ⟨⟨m.session, s⟩, fuel, Session.step_error_iff.2 ⟨rfl, hs⟩⟩

/-- Bindings that fail after a closure has been made, and then a definition: the session evaluates
`x` as a single `let` does, which makes neither the closure nor its frame. -/
theorem session_is_nested_let_after_failure :
    ∃ m m' : Moment, Run hostTools (fun _ c => c.Independent holdsNothing State.initial.extent)
        ⟨.fresh .lenient, .initial⟩
        [(.evalFrame (.mapping [("f", .mapping [("lambda", .text "a"), ("body", .text "g")]),
            ("g", .text "missing")]), .error (.undefinedSymbol "'missing'")),
          (.define "x" (.int 1), .ok .null)] m ∧
      m.Step hostTools (.eval (.text "x")) (.ok (.int 1)) m' ∧
      ∃ fuel q, (evaluate hostTools fuel (letIn (.mapping [("x", quotation (.int 1))]) (.text "x"))
          .null .lenient).runFrom .initial = some q ∧
        SameOutcome holdsNothing (.same State.initial.extent) (.ok (.int 1), m'.state) q := by
  have runs : ∃ s₁ s₂ s₃ : State,
      (Session.perform hostTools 3 (.fresh .lenient)
        (.evalFrame (.mapping [("f", .mapping [("lambda", .text "a"), ("body", .text "g")]),
          ("g", .text "missing")]))).runFrom .initial =
        some (.error (.undefinedSymbol "'missing'"), s₁) ∧
      (Session.perform hostTools 3 (.fresh .lenient) (.define "x" (.int 1))).runFrom s₁ =
        some (.ok (.null, ⟨[2, 0], .lenient⟩), s₂) ∧
      (Session.perform hostTools 3 ⟨[2, 0], .lenient⟩ (.eval (.text "x"))).runFrom s₂ =
        some (.ok (.int 1, ⟨[2, 0], .lenient⟩), s₃) := ⟨_, _, _, rfl, rfl, rfl⟩
  obtain ⟨s₁, s₂, s₃, h₁, h₂, h₃⟩ := runs
  have failed : Run hostTools (fun _ c => c.Independent holdsNothing State.initial.extent)
      ⟨.fresh .lenient, .initial⟩ _ ⟨.fresh .lenient, s₁⟩ :=
    .snoc .nil (.evalFrame (.mapping (.cons (.mapping (.cons (.text _) (.cons (.text _) .nil)))
      (.cons (.text _) .nil)))) ⟨3, Session.step_error_iff.2 ⟨rfl, h₁⟩⟩
  have run : Run hostTools (fun _ c => c.Independent holdsNothing State.initial.extent)
      ⟨.fresh .lenient, .initial⟩ _ ⟨⟨[2, 0], .lenient⟩, s₂⟩ :=
    .snoc failed (.define _ (.int 1)) ⟨3, Session.step_ok_iff.2 h₂⟩
  have step : Moment.Step hostTools ⟨⟨[2, 0], .lenient⟩, s₂⟩ (.eval (.text "x")) (.ok (.int 1))
      ⟨⟨[2, 0], .lenient⟩, s₃⟩ := ⟨3, Session.step_ok_iff.2 h₃⟩
  have start := Session.start_null hostTools 0 ⟨none, none, ""⟩ ⟨⟨[], []⟩, [], []⟩ (some false)
    .initial
  have nested := session_is_nested_let (hostTools_uniform holdsNothing) (State.initial_closed _) rfl
    start (.refl _ _) run
  exact ⟨_, _, run, step, (nested.1 (.text "x") (.text _)).1 _ _ step⟩

end FormLang
