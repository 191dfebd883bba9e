import FormLang.HostTools
import FormLang.Proofs.Alike.Sessions
import FormLang.Proofs.Session.History
import FormLang.Proofs.Tags.Runs

/-!
# Tags — a macro under every macro name, and under no other

What is said of runs carries over to sessions, command by command.  **At every moment of an
evaluation and of a session, tags follow names** (`tags_follow_names`): so the name of an operator
tells how it is called, and no value that is passed around under names of both kinds is called in
the wrong way.
-/

namespace FormLang

open EvalM (Tags)
open Eval (Tagging)
open Value.WellTagged (hereditary)

variable {host : Host} {run : Task → EvalM Value}

/-! ### Sessions -/

/-- The command is about well-tagged values. -/
def Command.WellTagged : Command → Prop
  | .define _ v | .defineFrame v | .evalFrame v | .eval v => v.WellTagged
  | .evalJson _ | .lookup _ => True
  | .call fn args => fn.WellTagged ∧ ∀ v ∈ args, v.WellTagged

namespace Session

theorem extend_tags (session : Session) {f : Frame} (h : f.WellTagged) :
    Tags (fun _ => True) (session.extend f) :=
  .bind (.allocate h) fun _ _ => .pure trivial

theorem evalFrameBy_tags (hr : Tagging run) (session : Session) {bindings : Value}
    (h : bindings.WellTagged) : Tags (fun _ => True) (session.evalFrameBy run bindings) :=
  .bind (Eval.bindFrame_tags hr h _ _) fun _ _ => .bind (.emit _) fun _ _ => .pure trivial

/-- A command of well-tagged values keeps the state well tagged.  What is defined is tagged for its
name, and what is read from a text is data, which has no tags. -/
theorem performBy_tags (hr : Tagging run) (session : Session) {c : Command} (h : c.WellTagged) :
    Tags (fun r => r.1.WellTagged) (session.performBy run c) := by
  cases c with
  | define name v =>
      refine .bind (session.extend_tags ?_) fun _ _ => .pure .null
      exact Frame.WellTagged.nil.insert (tag_boundWell name h)
  | defineFrame frame =>
      refine .bind (.lift (ofValue_tags h)) fun f hf => ?_
      exact .bind (session.extend_tags hf) fun _ _ => .pure .null
  | evalFrame bindings => exact .bind (session.evalFrameBy_tags hr h) fun _ _ => .pure .null
  | eval expr => exact .bind (hr _ h) fun _ hv => .pure hv
  | evalJson text =>
      simp only [performBy]
      split
      · rename_i expr hread
        exact .bind (hr _ (.of_datum (Json.read_datum hread))) fun _ hv => .pure hv
      · exact .throw _
  | lookup name => exact .bind (.lookup _ _) fun _ hv => .pure hv
  | call fn args => exact .bind (hr _ h) fun _ hv => .pure hv

/-- A session starts well tagged: the files that it loads hold data. -/
theorem startBy_tags (hr : Tagging run) (settings : Settings) (files : FileSystem)
    (prelude : Value) (strict : Option Bool) :
    Tags (fun _ => True) (startBy run settings files prelude strict) := by
  refine .bind (.lift (Q := fun _ => True) fun _ _ => trivial) fun asked _ => ?_
  refine .bind (.lift (Q := fun _ => True) fun _ _ => trivial) fun paths _ => ?_
  refine .foldlM (fun session path _ _ => ?_) trivial
  refine .bind (.lift fun entries hd => Prelude.definitions_datum hd) fun entries hd => ?_
  exact .bind (.emit _) fun _ _ => session.evalFrameBy_tags hr (.of_datum hd)

end Session

namespace Moment

open Session (step_ok_iff step_error_iff performBy_tags)

variable {m m' : Moment} {history : List (Command × Except Fault Value)}

/-- A command leads from a well-tagged state to one, and answers with a well-tagged value. -/
theorem Step.tags (hh : host.WellTagged) {c : Command} {o : Except Fault Value}
    (h : m.Step host c o m') (hc : c.WellTagged) (hm : m.state.WellTagged) :
    m'.state.WellTagged ∧ ∀ v, o = .ok v → v.WellTagged := by
  obtain ⟨fuel, h⟩ := h
  have tags := performBy_tags (run_tags hh fuel) m.session hc
  cases o with
  | error e =>
      obtain ⟨-, hp⟩ := step_error_iff.1 h
      exact ⟨(tags _ _ _ hm hp).1, nofun⟩
  | ok v =>
      obtain ⟨hs, hv⟩ := tags _ _ _ hm (step_ok_iff.1 h)
      exact ⟨hs, fun _ hw => by cases hw; exact hv _ rfl⟩

/-- So does a history of commands, by induction on it. -/
theorem Run.tags (hh : host.WellTagged) (h : Run host (fun _ c => c.WellTagged) m history m')
    (hm : m.state.WellTagged) :
    m'.state.WellTagged ∧ ∀ c v, (c, .ok v) ∈ history → v.WellTagged := by
  induction h with
  | nil => exact ⟨hm, fun _ _ h => nomatch h⟩
  | snoc _ may step ih =>
      obtain ⟨hs, hv⟩ := step.tags hh may ih.1
      refine ⟨hs, fun c v hcv => ?_⟩
      rcases List.mem_append.1 hcv with hcv | hcv
      · exact ih.2 c v hcv
      · cases List.mem_singleton.1 hcv
        exact hv v rfl

end Moment

/-! ### Names decide -/

/-- What fits a name is a macro exactly when the name is a macro's and it is callable. -/
theorem FitsName.isMacro_eq {name : String} {v : Value} (h : FitsName name v) :
    v.isMacro = (isMacroName name && v.isCallable) := by
  unfold FitsName at h
  cases hm : isMacroName name with
  | false =>
      rw [hm, if_neg Bool.false_ne_true] at h
      exact h.1
  | true =>
      rw [hm, if_pos rfl] at h
      rw [Bool.true_and]
      cases hc : v.isCallable with
      | true => exact h hc
      | false =>
          cases v with
          | tagged => cases hc
          | _ => rfl

open Moment (Run)

/-- **Tags follow names.**  Let the host and all that it hands in be well tagged.  Then at every
moment of an evaluation, of the start of a session, and of any command after any history of
commands, all frames are: under a macro name every callable is a macro, under another name nothing
is.  So in a call the name of the operator decides, with its being bound to a callable, whether a
macro is expanded. -/
theorem tags_follow_names (hh : host.WellTagged) {s₀ : State} (h₀ : s₀.WellTagged) :
    Frame.standard.WellTagged ∧
    (∀ expr frames options, expr.WellTagged → frames.WellTagged →
      (∀ s, Visits host (evaluateBy · expr frames options) s₀ s → s.WellTagged) ∧
      ∀ fuel v s, (evaluate host fuel expr frames options).runFrom s₀ = some (.ok v, s) →
        v.WellTagged) ∧
    (∀ settings files prelude strict,
      (∀ s, Visits host (Session.startBy · settings files prelude strict) s₀ s → s.WellTagged) ∧
      ∀ fuel (first m : Moment) history,
        (Session.start host fuel settings files prelude strict).runFrom s₀ =
          some (.ok first.session, first.state) →
        Run host (fun _ c => c.WellTagged) first history m →
        (∀ c v, (c, .ok v) ∈ history → v.WellTagged) ∧
        ∀ c, c.WellTagged → ∀ s, Visits host (m.session.performBy · c) m.state s → s.WellTagged) ∧
    ∀ (s : State), s.WellTagged → ∀ (run : Task → EvalM Value) form env options name under head,
      operator form = .ok (name, under) → s.resolve env name = some head →
      (Eval.generic run form env options).runFrom s = EvalM.runFrom (do
        EvalM.emit (.call name head.kindName under.operands.length)
        if isMacroName name && head.isCallable then
          Eval.expand run head (.mapping form) under.operands env options
        else if head.isCallable then do
          let args ← under.operands.mapM fun e => run (.eval e env options)
          Eval.applyTo run name head args
        else throw (.notFunction name)) s := by
  have runs : ∀ stop fuel, Tagging (runUntil host stop fuel) := fun stop fuel _ h =>
    runUntil_tags hh stop fuel h
  refine ⟨.standard, fun expr frames options he hf => ⟨?_, ?_⟩,
    fun settings files prelude strict => ⟨?_, ?_⟩, ?_⟩
  · rintro s ⟨stop, fuel, o, hr⟩
    exact (evaluateBy_tags (runs stop fuel) he hf options _ _ _ h₀ hr).1
  · intro fuel v s hr
    exact (evaluateBy_tags (run_tags hh fuel) he hf options _ _ _ h₀ hr).2 v rfl
  · rintro s ⟨stop, fuel, o, hr⟩
    exact (Session.startBy_tags (runs stop fuel) settings files prelude strict _ _ _ h₀ hr).1
  · intro fuel first m history start run
    have first_tags : first.state.WellTagged :=
      (Session.startBy_tags (run_tags hh fuel) settings files prelude strict _ _ _ h₀ start).1
    obtain ⟨hm, hv⟩ := run.tags hh first_tags
    refine ⟨hv, ?_⟩
    rintro c hc s ⟨stop, fuel, o, hr⟩
    exact (m.session.performBy_tags (runs stop fuel) hc _ _ _ hm hr).1
  · intro s hs run form env options name under head ho hr
    rw [← (hs.resolve hr).fits.isMacro_eq, Eval.generic, ho, EvalM.runFrom_bind, EvalM.runFrom_lift]
    dsimp only
    rw [EvalM.runFrom_bind, EvalM.runFrom_resolve, hr]

/-! ### The small host -/

/-- The small host hands on what it is given, and makes no tags. -/
theorem hostTools_wellTagged : hostTools.WellTagged := by
  have absent : ∀ {o : Option Value}, (∀ v, o = some v → v.WellTagged) →
      (o.getD .undefined).WellTagged := by
    intro o h
    cases o with
    | none => exact .undefined
    | some v => exact h v rfl
  intro name args h
  unfold hostTools
  split
  · split
    · exact .value (.text _)
    · exact .fault _
  · exact .value (.list h)
  · exact .value (hereditary.entry _ (.list h))
  · exact .value (.int _)
  · exact .value (absent fun v hv => h v (List.mem_of_mem_head? hv))
  · exact .value (absent fun v hv => h v (List.mem_of_getElem? hv))
  · split
    · rw [List.forall_mem_cons] at h
      split
      · refine .call h.1 h.2 fun o ho => ?_
        cases o with
        | ok v => exact .value (ho v rfl)
        | error e => exact .fault e
      · exact .fault _
    · exact .fault _
  · exact .fault _
  · exact .fault _

/-- A closure and a standard function go from one kind of name to the other, in a frame of the host
and in a `let`: each is tagged anew, and the closure loses its tag under a plain name. -/
theorem tags_follow_names_aliased :
    ∃ v s, (evaluate hostTools 3 (.mapping
        [("let", .mapping [("$twice", .mapping [("lambda", .list [.text "form", .text "x"]),
            ("body", .text "x")]), ("twice", .text "$twice"), ("sum", .text "$sum")]),
          ("in", .text "twice")])
        (.mapping [("$sum", .tagged .function (.standard .plus))]) .lenient).runFrom .initial =
          some (.ok v, s) ∧
      s.frames[1]? = some [("$sum", .tagged .expander (.standard .plus))] ∧
      s.frames[2]? = some [("$twice", .tagged .expander v), ("twice", v),
        ("sum", .tagged .function (.standard .plus))] ∧
      s.WellTagged ∧ v.WellTagged := by
  have run : ∃ s, (evaluate hostTools 3 (.mapping
      [("let", .mapping [("$twice", .mapping [("lambda", .list [.text "form", .text "x"]),
          ("body", .text "x")]), ("twice", .text "$twice"), ("sum", .text "$sum")]),
        ("in", .text "twice")])
      (.mapping [("$sum", .tagged .function (.standard .plus))]) .lenient).runFrom .initial =
        some (.ok (.closure 0 ["form", "x"] (.text "x") [2, 1, 0] .lenient), s) ∧
      s.frames[1]? = some [("$sum", .tagged .expander (.standard .plus))] ∧
      s.frames[2]? = some [("$twice", .tagged .expander
          (.closure 0 ["form", "x"] (.text "x") [2, 1, 0] .lenient)),
        ("twice", .closure 0 ["form", "x"] (.text "x") [2, 1, 0] .lenient),
        ("sum", .tagged .function (.standard .plus))] := ⟨_, rfl, rfl, rfl⟩
  obtain ⟨s, run, frame₁, frame₂⟩ := run
  have data : Value.WellTagged (.mapping
      [("let", .mapping [("$twice", .mapping [("lambda", .list [.text "form", .text "x"]),
          ("body", .text "x")]), ("twice", .text "$twice"), ("sum", .text "$sum")]),
        ("in", .text "twice")]) := by
    simp [hereditary.mapping, hereditary.list, hereditary.text]
  have frames : Value.WellTagged (.mapping [("$sum", .tagged .function (.standard .plus))]) :=
    hereditary.entry _ (.bare rfl)
  have tags := (tags_follow_names hostTools_wellTagged .initial).2.1 _ _ .lenient data frames
  exact ⟨_, s, run, frame₁, frame₂, tags.1 s (.of_run run), tags.2 _ _ _ run⟩

end FormLang
