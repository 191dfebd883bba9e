import FormLang.Proofs.Alike.Renaming
import FormLang.Proofs.Alike.Sessions
import FormLang.Proofs.Session.History

/-!
# Sessions — calls of captured closures

A closure that a session has returned keeps what it sees.  Later definitions put frames before the
session's environment, not before the closure's, and evaluation writes only into frames of its own.
So two moments at which the host has the closure differ only in frames and closures that the call
does not reach: the states are matched under the renaming that changes nothing of what was there
at the earlier moment, and the two calls are runs of one task from matched states.

**Calls of what a session returned have the same outcome at any two later moments**
(`captured_call_undisturbed`).  What a host can give to a session, it has: its commands mention only
frames and closures that are there (`Command.Known`).  So states stay closed, and results known,
through any history (`Moment.Run.closed`).
-/

namespace FormLang

variable {held : String → Extent} {host : Host}

/-- The command mentions only frames and closures within `x`. -/
def Command.Known (held : String → Extent) (x : Extent) (c : Command) : Prop :=
  c.Alike ((Renaming.same x).link held) c

namespace Moment

variable {m m' : Moment} {c : Command} {o : Except Fault Value}
  {history : List (Command × Except Fault Value)}

theorem Sound.alike (h : m.Sound) (hu : host.Uniform held) :
    (Correspondence.known hu).Sessions m.state.extent m.session m.session :=
  ⟨Renaming.same_chain h.there, rfl⟩

/-- A command that mentions only what is there leads to a closed state, and to a known value. -/
theorem Step.closed (hu : host.Uniform held) (h : m.Step host c o m') (sound : m.Sound)
    (closed : m.state.Closed held) (known : c.Known held m.state.extent) :
    m'.state.Closed held ∧ ∀ v, o = .ok v → v.Known held m'.state.extent := by
  obtain ⟨fuel, h⟩ := h
  have sim := Correspondence.perform_sim (C := .known hu) fuel (sound.alike hu) known
  cases o with
  | error e =>
      obtain ⟨-, hp⟩ := Session.step_error_iff.1 h
      exact ⟨(sim.closed closed hp).1, fun _ hv => nomatch hv⟩
  | ok v =>
      obtain ⟨hs, hr⟩ := sim.closed closed (Session.step_ok_iff.1 h)
      refine ⟨hs, fun w hw => ?_⟩
      cases hw
      exact (hr _ rfl).1

theorem Run.closed (hu : host.Uniform held)
    (h : Run host (fun s c => c.Known held s.extent) m history m') (sound : m.Sound)
    (closed : m.state.Closed held) : m'.state.Closed held := by
  induction h with
  | nil => exact closed
  | snoc run may step ih => exact (step.closed hu (run.sound sound) ih may).1

end Moment

/-- A session that has started from a closed state is in one. -/
theorem Session.start_closed (hu : host.Uniform held) {fuel : Nat} {settings : Settings}
    {files : FileSystem} {prelude : Value} {strict : Option Bool} {session : Session}
    {s s' : State} (closed : s.Closed held) (standard : s.frames[0]? = some Frame.standard)
    (h : (Session.start host fuel settings files prelude strict).runFrom s =
      some (.ok session, s')) : s'.Closed held := by
  have sim := Correspondence.start_sim (C := .known hu) (w := s.extent) fuel settings files prelude
    strict ⟨Renaming.same_chain (State.standardChain_there standard), rfl⟩
  exact (sim.closed closed h).1

open Moment (Run)

/-- A call at two moments, of one function with the same arguments, when all that these mention was
there at the first. -/
theorem Session.call_sameOutcome (hu : host.Uniform held) {a b : Session} {s t : State}
    (closed : s.Closed held) (grows : s.Grows s.frames.size t) {fn : Value} {args : List Value}
    (hf : fn.Known held s.extent) (ha : ∀ v ∈ args, v.Known held s.extent) (fuel : Nat) :
    Option.Rel (fun r q => SameOutcome held (.same s.extent) (r.1, r.2.2) (q.1, q.2.2))
      (a.step host fuel (.call fn args) s) (b.step host fuel (.call fn args) t) := by
  have matched : Matched held (.same s.extent) s t := closed.grow (.refl _ _) grows
  have ends := run_matched hu matched (.call hf (List.forall₂_same.2 ha)) fuel
  rw [Session.step_of_answer rfl, Session.step_of_answer rfl]
  generalize (run host fuel (.call fn args)).runFrom s = r,
    (run host fuel (.call fn args)).runFrom t = q at ends ⊢
  cases ends with
  | none => exact .none
  | some h => exact .some h

/-- **What a session returned is not disturbed by what comes later.**  At any two later moments a
call of it from the host has the same outcome, a value or a fault, up to the closures made by the
call: with any fuel, so that the one call ends if and only if the other does. -/
theorem captured_call_undisturbed (hu : host.Uniform held) {loading : Nat} {settings : Settings}
    {files : FileSystem} {prelude : Value} {strict : Option Bool} {s₀ : State}
    {first m m₀ m₁ m₂ : Moment} {c : Command} {fn : Value} {args : List Value}
    {history earlier later : List (Command × Except Fault Value)}
    (closed : s₀.Closed held) (standard : s₀.frames[0]? = some Frame.standard)
    (start : (Session.start host loading settings files prelude strict).runFrom s₀ =
      some (.ok first.session, first.state))
    (run : Run host (fun s c => c.Known held s.extent) first history m)
    (may : c.Known held m.state.extent) (step : m.Step host c (.ok fn) m₀)
    (toFirst : Run host (fun s c => c.Known held s.extent) m₀ earlier m₁)
    (toSecond : Run host (fun s c => c.Known held s.extent) m₁ later m₂)
    (has : ∀ v ∈ args, v.Known held m₁.state.extent) (fuel : Nat) :
    Option.Rel
      (fun r q => SameOutcome held (.same m₁.state.extent) (r.1, r.2.2) (q.1, q.2.2))
      (m₁.session.step host fuel (.call fn args) m₁.state)
      (m₂.session.step host fuel (.call fn args) m₂.state) := by
  have soundFirst := Session.start_sound standard start
  have sound : m.Sound := run.sound soundFirst
  have closed' : m.state.Closed held :=
    run.closed hu soundFirst (Session.start_closed hu closed standard start)
  obtain ⟨closed₀, known₀⟩ := step.closed hu sound closed' may
  have closed₁ : m₁.state.Closed held := toFirst.closed hu (step.sound sound) closed₀
  have known₁ : fn.Known held m₁.state.extent := toFirst.grows.known (known₀ fn rfl)
  exact Session.call_sameOutcome hu closed₁ toSecond.grows known₁ has fuel

/-- A session defines `x`, returns a closure whose body is `x`, and defines `x` anew.  Before and
after, the closure returns the first `x`. -/
theorem captured_call_undisturbed_redefined :
    ∃ (m₀ m₁ m₂ m₃ : Moment) (r : Except Fault Value × Session × State),
      Run hostTools (fun s c => c.Known holdsNothing s.extent) ⟨.fresh .lenient, .initial⟩
        [(.define "x" (.int 1), .ok .null)] m₀ ∧
      m₀.Step hostTools (.eval (.mapping [("lambda", .list []), ("body", .text "x")]))
        (.ok (.closure 0 [] (.text "x") [1, 0] .lenient)) m₁ ∧
      Run hostTools (fun s c => c.Known holdsNothing s.extent) m₁
        [(.define "x" (.int 2), .ok .null)] m₂ ∧
      m₁.session.step hostTools 2 (.call (.closure 0 [] (.text "x") [1, 0] .lenient) [])
        m₁.state = some (.ok (.int 1), m₃.session, m₃.state) ∧
      m₂.session.step hostTools 2 (.call (.closure 0 [] (.text "x") [1, 0] .lenient) [])
        m₂.state = some r ∧
      SameOutcome holdsNothing (.same m₁.state.extent) (.ok (.int 1), m₃.state) (r.1, r.2.2) := by
  have runs : ∃ s₁ s₂ s₃ s₄ : State,
      (Session.perform hostTools 2 (.fresh .lenient) (.define "x" (.int 1))).runFrom .initial =
        some (.ok (.null, ⟨[1, 0], .lenient⟩), s₁) ∧
      (Session.perform hostTools 2 ⟨[1, 0], .lenient⟩ (.eval (.mapping [("lambda", .list []),
        ("body", .text "x")]))).runFrom s₁ =
        some (.ok (.closure 0 [] (.text "x") [1, 0] .lenient, ⟨[1, 0], .lenient⟩), s₂) ∧
      (Session.perform hostTools 2 ⟨[1, 0], .lenient⟩ (.define "x" (.int 2))).runFrom s₂ =
        some (.ok (.null, ⟨[2, 1, 0], .lenient⟩), s₃) ∧
      (Session.perform hostTools 2 ⟨[1, 0], .lenient⟩
        (.call (.closure 0 [] (.text "x") [1, 0] .lenient) [])).runFrom s₂ =
        some (.ok (.int 1, ⟨[1, 0], .lenient⟩), s₄) := ⟨_, _, _, _, rfl, rfl, rfl, rfl⟩
  obtain ⟨s₁, s₂, s₃, s₄, h₁, h₂, h₃, h₄⟩ := runs
  have start : (Session.start hostTools 0 ⟨none, none, ""⟩ ⟨⟨[], []⟩, [], []⟩ .null
      (some false)).runFrom .initial = some (.ok (.fresh .lenient), .initial) := rfl
  have before : Run hostTools (fun s c => c.Known holdsNothing s.extent)
      ⟨.fresh .lenient, .initial⟩ _ ⟨⟨[1, 0], .lenient⟩, s₁⟩ :=
    .snoc .nil (.define _ (.int 1)) ⟨2, Session.step_ok_iff.2 h₁⟩
  have step : Moment.Step hostTools ⟨⟨[1, 0], .lenient⟩, s₁⟩ _ _ ⟨⟨[1, 0], .lenient⟩, s₂⟩ :=
    ⟨2, Session.step_ok_iff.2 h₂⟩
  have after : Run hostTools (fun s c => c.Known holdsNothing s.extent)
      ⟨⟨[1, 0], .lenient⟩, s₂⟩ _ ⟨⟨[2, 1, 0], .lenient⟩, s₃⟩ :=
    .snoc .nil (.define _ (.int 2)) ⟨2, Session.step_ok_iff.2 h₃⟩
  have call := Session.step_ok_iff.2 h₄
  have outcomes := captured_call_undisturbed (hostTools_uniform holdsNothing)
    (State.initial_closed _) rfl start before
    (.eval (.mapping (.cons (.list .nil) (.cons (.text _) .nil)))) step .nil after
    (List.forall_mem_nil _) 2
  rw [call] at outcomes
  generalize later : Session.step hostTools 2 ⟨[2, 1, 0], .lenient⟩ _ s₃ = q at outcomes
  cases outcomes with
  | some same => exact ⟨_, _, _, ⟨_, s₄⟩, _, before, step, after, call, later, same⟩

end FormLang
