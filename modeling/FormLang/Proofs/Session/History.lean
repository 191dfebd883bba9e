import FormLang.Proofs.Frames
import FormLang.Session

/-!
# Sessions — what a history keeps

A session goes from moment to moment: a moment is the session with the state of the frames between
two commands.  A definition that succeeds puts one frame before the environment, and that frame is
new.  Any other command, and a definition that fails, leaves the environment as it is, although it
may have made frames that no environment reaches (`Session.step_cases`).

Evaluation writes only into frames of its own (`run_grows`), so the frames of an environment stay as
they are through any history (`Moment.Run.grows`), and **every environment of a session is a tail of
each later one, down to the standard frame** (`environments_are_tails`).
-/

namespace FormLang

open EvalM (Grows)

/-! ### One command -/

/-- The command asks for a new frame. -/
def Command.isDefinition : Command → Bool
  | .define .. | .defineFrame _ | .evalFrame _ => true
  | .eval _ | .evalJson _ | .lookup _ | .call .. => false

/-- The frame of the bindings is the first that is allocated. -/
theorem Eval.bindFrame_ok {run : Task → EvalM Value} (hr : ∀ n t, Grows n (run t))
    {bindings : Value} {env env' : Chain} {options : Options} {s s' : State}
    (h : (Eval.bindFrame run bindings env options).runFrom s = some (.ok env', s')) :
    env' = s.frames.size :: env ∧ s.frames.size < s'.frames.size := by
  cases bindings with
  | mapping entries =>
      obtain ⟨i, t, ha, h⟩ := EvalM.runFrom_bind_ok h
      rw [EvalM.runFrom_allocate] at ha
      cases ha
      obtain ⟨_, u, hb, h⟩ := EvalM.runFrom_bind_ok h
      cases h
      have fills : Grows 0 (entries.forM fun e => run (.eval e.2 (s.frames.size :: env) options) >>=
          fun v => EvalM.bindName s.frames.size e.1 (tag e.1 v)) :=
        .forM (fun _ => .bind (hr 0 _) fun _ => .bindName (Nat.zero_le _) _ _) entries
      have hle := (fills _ _ _ (Nat.zero_le _) hb).frames
      rw [Array.size_push] at hle
      exact ⟨rfl, hle⟩
  | _ => cases h

namespace Session

variable {host : Host} {fuel : Nat} {session session' : Session} {s s' : State}

theorem extend_grows (n : Nat) (session : Session) (frame : Frame) :
    Grows n (session.extend frame) :=
  .allocate _ fun _ _ => .pure _

theorem evalFrame_grows (host : Host) (fuel n : Nat) (session : Session) (bindings : Value) :
    Grows n (session.evalFrame host fuel bindings) :=
  .bind (Eval.bindFrame_grows (run_grows host n fuel) _ _ _) fun _ =>
    .bind (.emit _) fun _ => .pure _

/-- A command changes no frame that was there, whether or not it succeeds. -/
theorem perform_grows (host : Host) (fuel n : Nat) (session : Session) (c : Command) :
    Grows n (session.perform host fuel c) := by
  cases c with
  | define name v => exact .bind (extend_grows n session _) fun _ => .pure _
  | defineFrame frame =>
      exact .bind (.lift _) fun _ => .bind (extend_grows n session _) fun _ => .pure _
  | evalFrame b => exact .bind (evalFrame_grows host fuel n session b) fun _ => .pure _
  | eval e => exact .bind (run_grows host n fuel _) fun _ => .pure _
  | evalJson text =>
      simp only [perform, performBy]
      split
      · exact .bind (run_grows host n fuel _) fun _ => .pure _
      · exact .throw _
  | lookup name => exact .bind (.lookup _ _) fun _ => .pure _
  | call fn args => exact .bind (run_grows host n fuel _) fun _ => .pure _

/-- The session with one frame more, which is the next to be allocated in `s`. -/
def withNext (session : Session) (s : State) : Session :=
  { session with env := s.frames.size :: session.env }

theorem extend_ok {frame : Frame}
    (h : (session.extend frame).runFrom s = some (.ok session', s')) :
    session' = session.withNext s ∧ s.frames.size < s'.frames.size := by
  cases h
  exact ⟨rfl, by simp⟩

/-- Bindings that all evaluate leave one frame more in front. -/
theorem evalFrame_ok {bindings : Value}
    (h : (session.evalFrame host fuel bindings).runFrom s = some (.ok session', s')) :
    session' = session.withNext s ∧ s.frames.size < s'.frames.size := by
  obtain ⟨env, t, hb, h⟩ := EvalM.runFrom_bind_ok h
  obtain ⟨rfl, hlt⟩ := Eval.bindFrame_ok (fun n => run_grows host n fuel) hb
  cases h
  exact ⟨rfl, hlt⟩

/-- A definition that succeeds leads to one frame more, any other command to the same session. -/
theorem perform_ok {c : Command} {v : Value}
    (h : (session.perform host fuel c).runFrom s = some (.ok (v, session'), s')) :
    if c.isDefinition then session' = session.withNext s ∧ s.frames.size < s'.frames.size
    else session' = session := by
  cases c with
  | define name v =>
      obtain ⟨_, t, hx, h⟩ := EvalM.runFrom_bind_ok h
      cases h
      exact extend_ok hx
  | defineFrame frame =>
      obtain ⟨_, -, h⟩ := EvalM.runFrom_lift_bind_ok h
      obtain ⟨_, t, hx, h⟩ := EvalM.runFrom_bind_ok h
      cases h
      exact extend_ok hx
  | evalFrame b =>
      obtain ⟨_, t, hx, h⟩ := EvalM.runFrom_bind_ok h
      cases h
      exact evalFrame_ok hx
  | evalJson text =>
      simp only [perform, performBy] at h
      split at h
      · obtain ⟨_, t, hx, h⟩ := EvalM.runFrom_bind_ok h
        cases h
        rfl
      · cases h
  | eval _ | lookup _ | call _ _ =>
      obtain ⟨_, t, hx, h⟩ := EvalM.runFrom_bind_ok h
      cases h
      rfl

/-- A command that succeeds leads to the session that it gives back. -/
theorem step_ok_iff {c : Command} {v : Value} :
    session.step host fuel c s = some (.ok v, session', s') ↔
      (session.perform host fuel c).runFrom s = some (.ok (v, session'), s') := by
  unfold step
  generalize (session.perform host fuel c).runFrom s = r
  constructor
  · intro h
    split at h
    all_goals cases h
    rfl
  · rintro rfl
    rfl

/-- A command that fails leaves the session as it was; only the state has moved on. -/
theorem step_error_iff {c : Command} {e : Fault} :
    session.step host fuel c s = some (.error e, session', s') ↔
      session' = session ∧ (session.perform host fuel c).runFrom s = some (.error e, s') := by
  unfold step
  generalize (session.perform host fuel c).runFrom s = r
  constructor
  · intro h
    split at h
    all_goals cases h
    exact ⟨rfl, rfl⟩
  · rintro ⟨rfl, rfl⟩
    rfl

/-- A command that asks for a value is done by the computation of it, and keeps the session. -/
theorem step_of_answer {c : Command} {x : EvalM Value}
    (hc : session.perform host fuel c = do return (← x, session)) (s : State) :
    session.step host fuel c s = (x.runFrom s).map fun r => (r.1, session, r.2) := by
  rw [step, hc, EvalM.runFrom_bind]
  cases x.runFrom s with
  | none => rfl
  | some r =>
      obtain ⟨o, t⟩ := r
      cases o <;> rfl

/-- What a command can do to a session.  A failure is not told apart by the command: whatever it
is, the session stays. -/
theorem step_cases {c : Command} {o : Except Fault Value}
    (h : session.step host fuel c s = some (o, session', s')) :
    s.Grows s.frames.size s' ∧
      ((c.isDefinition = true ∧ (∃ v, o = .ok v) ∧ session' = session.withNext s ∧
          s.frames.size < s'.frames.size) ∨
        (¬ (c.isDefinition = true ∧ ∃ v, o = .ok v) ∧ session' = session)) := by
  have grows := fun r => perform_grows host fuel s.frames.size session c s r s' (Nat.le_refl _)
  cases o with
  | error e =>
      obtain ⟨rfl, hp⟩ := step_error_iff.1 h
      refine ⟨grows _ hp, .inr ⟨?_, rfl⟩⟩
      rintro ⟨-, v, hv⟩
      cases hv
  | ok v =>
      have hp := step_ok_iff.1 h
      have hok := perform_ok hp
      refine ⟨grows _ hp, ?_⟩
      by_cases hc : c.isDefinition = true
      · rw [if_pos hc] at hok
        exact .inl ⟨hc, ⟨v, rfl⟩, hok⟩
      · rw [if_neg hc] at hok
        exact .inr ⟨fun k => hc k.1, hok⟩

end Session

/-! ### Histories -/

/-- A session between two commands. -/
structure Moment where
  session : Session
  state : State

namespace Moment

/-- At `m` the command ends in the outcome `o`, and leads to `m'`. -/
def Step (host : Host) (m : Moment) (c : Command) (o : Except Fault Value) (m' : Moment) : Prop :=
  ∃ fuel, m.session.step host fuel c m.state = some (o, m'.session, m'.state)

/-- Commands done one after the other, each with its outcome, a value or a fault.  What commands a
host may give can depend on the state. -/
inductive Run (host : Host) (allowed : State → Command → Prop) (m : Moment) :
    List (Command × Except Fault Value) → Moment → Prop where
  | nil : Run host allowed m [] m
  | snoc {history : List (Command × Except Fault Value)} {m' m'' : Moment} {c : Command}
      {o : Except Fault Value} (run : Run host allowed m history m') (may : allowed m'.state c)
      (step : m'.Step host c o m'') : Run host allowed m (history ++ [(c, o)]) m''

variable {host : Host} {allowed : State → Command → Prop} {m m' : Moment} {c : Command}
  {o : Except Fault Value} {history : List (Command × Except Fault Value)}

/-- The frames of the environment are there, and the last of them is the standard frame. -/
structure Sound (m : Moment) : Prop where
  there : ∀ i ∈ m.session.env, i < m.state.frames.size
  last : m.session.env.getLast? = some 0
  standard : m.state.frames[0]? = some Frame.standard

theorem Sound.frame_zero_lt (h : m.Sound) : 0 < m.state.frames.size :=
  (Array.getElem?_eq_some_iff.1 h.standard).1

/-- More frames and closures, and the same environment. -/
theorem Sound.grow (h : m.Sound) {s : State} (hs : m.state.Grows m.state.frames.size s) :
    Sound ⟨m.session, s⟩ := by
  refine ⟨fun i hi => Nat.lt_of_lt_of_le (h.there i hi) hs.frames, h.last, ?_⟩
  exact (hs.kept 0 h.frame_zero_lt).trans h.standard

/-- One frame more, in front of the environment. -/
theorem Sound.withNext (h : m.Sound) {s : State} (hs : m.state.Grows m.state.frames.size s)
    (hlt : m.state.frames.size < s.frames.size) : Sound ⟨m.session.withNext m.state, s⟩ := by
  obtain ⟨there, last, standard⟩ := h.grow hs
  refine ⟨?_, ?_, standard⟩
  · intro i hi
    rcases List.mem_cons.1 hi with rfl | hi
    · exact hlt
    · exact there i hi
  · simp only [Session.withNext, List.getLast?_cons, h.last, Option.getD_some]

theorem Step.grows (h : m.Step host c o m') : m.state.Grows m.state.frames.size m'.state := by
  obtain ⟨fuel, h⟩ := h
  exact (Session.step_cases h).1

/-- A command keeps the environment of a session sound. -/
theorem Step.sound (h : m.Step host c o m') (hm : m.Sound) : m'.Sound := by
  obtain ⟨fuel, h⟩ := h
  obtain ⟨hs, ⟨-, -, he, hlt⟩ | ⟨-, he⟩⟩ := Session.step_cases h
  · have hm' := hm.withNext hs hlt
    rw [← he] at hm'
    exact hm'
  · have hm' := hm.grow hs
    rw [← he] at hm'
    exact hm'

theorem Step.suffix (h : m.Step host c o m') : m.session.env <:+ m'.session.env := by
  obtain ⟨fuel, h⟩ := h
  obtain ⟨-, ⟨-, -, he, -⟩ | ⟨-, he⟩⟩ := Session.step_cases h
  · rw [he]
    exact List.suffix_cons _ _
  · simp [he]

theorem Run.grows (h : Run host allowed m history m') :
    m.state.Grows m.state.frames.size m'.state := by
  induction h with
  | nil => exact .refl _ _
  | snoc _ _ step ih => exact ih.trans (step.grows.below ih.frames)

theorem Run.sound (h : Run host allowed m history m') (hm : m.Sound) : m'.Sound := by
  induction h with
  | nil => exact hm
  | snoc _ _ step ih => exact step.sound ih

theorem Run.suffix (h : Run host allowed m history m') : m.session.env <:+ m'.session.env := by
  induction h with
  | nil => exact List.suffix_rfl
  | snoc _ _ step ih => exact ih.trans step.suffix

end Moment

/-! ### The first moment -/

theorem State.standardChain_there {s : State} (h : s.frames[0]? = some Frame.standard) :
    ∀ i ∈ standardChain, i < s.frames.size := by
  intro i hi
  rw [standardChain, List.mem_singleton] at hi
  subst hi
  exact (Array.getElem?_eq_some_iff.1 h).1

namespace Session

open Moment (Sound)

variable {host : Host} {fuel : Nat} {files : FileSystem}

theorem loadFile_grows (host : Host) (fuel : Nat) (files : FileSystem) (n : Nat)
    (session : Session) (path : Path) : Grows n (loadFile host fuel files session path) :=
  .bind (.lift _) fun _ => .bind (.emit _) fun _ => evalFrame_grows host fuel n session _

/-- Every file that is loaded adds one frame. -/
theorem loadFiles_sound {paths : List Path} {session session' : Session} {s s' : State}
    (hs : Sound ⟨session, s⟩)
    (h : (paths.foldlM (loadFile host fuel files) session).runFrom s = some (.ok session', s')) :
    Sound ⟨session', s'⟩ := by
  induction paths generalizing session s with
  | nil =>
      cases h
      exact hs
  | cons path paths ih =>
      rw [List.foldlM_cons] at h
      obtain ⟨session₁, s₁, hf, h⟩ := EvalM.runFrom_bind_ok h
      have grows := loadFile_grows host fuel files s.frames.size session path _ _ _
        (Nat.le_refl _) hf
      obtain ⟨entries, -, hf⟩ := EvalM.runFrom_lift_bind_ok hf
      rw [EvalM.runFrom_bind, EvalM.runFrom_emit] at hf
      obtain ⟨rfl, hlt⟩ := evalFrame_ok hf
      exact ih (hs.withNext grows hlt) h

/-- A session starts with a sound environment, whatever files it loads. -/
theorem start_sound {settings : Settings} {prelude : Value} {strict : Option Bool}
    {session : Session} {s s' : State} (hs : s.frames[0]? = some Frame.standard)
    (h : (start host fuel settings files prelude strict).runFrom s = some (.ok session, s')) :
    Sound ⟨session, s'⟩ := by
  obtain ⟨_, -, h⟩ := EvalM.runFrom_lift_bind_ok h
  obtain ⟨paths, -, h⟩ := EvalM.runFrom_lift_bind_ok h
  exact loadFiles_sound ⟨State.standardChain_there hs, rfl, hs⟩ h

end Session

/-! ### All moments -/

open Moment (Run)

/-- **Every environment of a session is a tail of each later one, down to the standard frame**, and
its frames stay as they are.  From one moment to the next, a definition that succeeds puts exactly
one new frame in front; any other command, and any that fails, leaves the environment as it was. -/
theorem environments_are_tails {host : Host} {fuel : Nat} {settings : Settings}
    {files : FileSystem} {prelude : Value} {strict : Option Bool} {s₀ : State} {first m : Moment}
    {history : List (Command × Except Fault Value)}
    (standard : s₀.frames[0]? = some Frame.standard)
    (start : (Session.start host fuel settings files prelude strict).runFrom s₀ =
      some (.ok first.session, first.state))
    (run : Run host (fun _ _ => True) first history m) :
    m.Sound ∧
    (∀ c o m', m.Step host c o m' →
      (∀ i ∈ m.session.env, m'.state.frames[i]? = m.state.frames[i]?) ∧
      (c.isDefinition = true ∧ (∃ v, o = .ok v) → ∃ i, m'.session.env = i :: m.session.env ∧
        m.state.frames.size ≤ i ∧ i < m'.state.frames.size) ∧
      (¬ (c.isDefinition = true ∧ ∃ v, o = .ok v) → m'.session.env = m.session.env)) ∧
    ∀ later m', Run host (fun _ _ => True) m later m' →
      m.session.env <:+ m'.session.env ∧
      ∀ i ∈ m.session.env, m'.state.frames[i]? = m.state.frames[i]? := by
  have sound : m.Sound := run.sound (Session.start_sound standard start)
  refine ⟨sound, fun c o m' step => ⟨?_, ?_⟩, fun later m' run' => ⟨run'.suffix, ?_⟩⟩
  · exact fun i hi => step.grows.kept i (sound.there i hi)
  · obtain ⟨fuel, step⟩ := step
    obtain ⟨-, ⟨hc, hv, he, hlt⟩ | ⟨hc, he⟩⟩ := Session.step_cases step
    · refine ⟨fun _ => ⟨_, ?_, Nat.le_refl _, hlt⟩, fun k => absurd ⟨hc, hv⟩ k⟩
      rw [he]
      rfl
    · exact ⟨fun k => absurd k hc, fun _ => by rw [he]⟩
  · exact fun i hi => run'.grows.kept i (sound.there i hi)

/-- A session in which `f` is bound to a closure before the bindings fail, and `x` is defined then:
the failure leaves nothing behind. -/
theorem environments_are_tails_after_failure :
    ∃ m : Moment, Run hostTools (fun _ _ => True) ⟨.fresh .lenient, .initial⟩
        [(.evalFrame (.mapping [("f", .mapping [("lambda", .text "a"), ("body", .text "g")]),
            ("g", .text "missing")]), .error (.undefinedSymbol "'missing'")),
          (.define "x" (.int 1), .ok .null)] m ∧
      m.session.env = [2, 0] ∧ m.Sound ∧ standardChain <:+ m.session.env := by
  have start : (Session.start hostTools 0 ⟨none, none, ""⟩ ⟨⟨[], []⟩, [], []⟩ .null
      (some false)).runFrom .initial = some (.ok (.fresh .lenient), .initial) := rfl
  have failing : ∃ s, (Session.perform hostTools 3 (.fresh .lenient)
      (.evalFrame (.mapping [("f", .mapping [("lambda", .text "a"), ("body", .text "g")]),
        ("g", .text "missing")]))).runFrom .initial =
          some (.error (.undefinedSymbol "'missing'"), s) ∧ s.frames.size = 2 := ⟨_, rfl, rfl⟩
  obtain ⟨s, failing, size⟩ := failing
  have defining : (Session.perform hostTools 0 (.fresh .lenient) (.define "x" (.int 1))).runFrom s =
      some (.ok (.null, Session.withNext (.fresh .lenient) s), _) := rfl
  have failed : Run hostTools (fun _ _ => True) ⟨.fresh .lenient, .initial⟩ _
      ⟨.fresh .lenient, s⟩ :=
    .snoc .nil trivial ⟨3, Session.step_error_iff.2 ⟨rfl, failing⟩⟩
  have run : Run hostTools (fun _ _ => True) ⟨.fresh .lenient, .initial⟩ _ ⟨_, _⟩ :=
    .snoc failed trivial ⟨0, Session.step_ok_iff.2 defining⟩
  refine ⟨_, run, ?_, (environments_are_tails rfl start run).1, ?_⟩
  · simp only [Session.fresh, standardChain, size]
  · exact ((environments_are_tails rfl start .nil).2.2 _ _ run).1

end FormLang
