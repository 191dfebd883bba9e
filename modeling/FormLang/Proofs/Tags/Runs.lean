import FormLang.Proofs.Environment
import FormLang.Proofs.Moments
import FormLang.Proofs.Tags.Values

/-!
# Tags — runs keep states well tagged

Whatever is bound has gone through `tag`, or is absent.  So every rule of evaluation leads from
well-tagged states to well-tagged states when the evaluator of the parts does (`Eval.step_tags`),
and gives back a well-tagged value.  A run does too, wherever it is stopped (`runUntil_tags`).
-/

namespace FormLang

/-! ### Computations -/

namespace EvalM

variable {α β : Type} {Q : α → Prop} {R : β → Prop}

/-- From a well-tagged state, `x` leads to one, also where it ends in a fault, and to a result with
the property `Q`. -/
def Tags (Q : α → Prop) (x : EvalM α) : Prop :=
  ∀ s o s', s.WellTagged → x.runFrom s = some (o, s') → s'.WellTagged ∧ ∀ a, o = .ok a → Q a

namespace Tags

theorem pure {a : α} (h : Q a) : Tags Q (Pure.pure a) := by
  intro s o s' hs hr
  cases hr
  exact ⟨hs, fun _ ha => by cases ha; exact h⟩

theorem throw (e : Fault) : Tags Q (throw e) := by
  intro s o s' hs hr
  cases hr
  exact ⟨hs, nofun⟩

theorem exhausted : Tags Q exhausted :=
  nofun

theorem lift {x : Except Fault α} (h : AnswerHas Q x) : Tags Q (lift x) := by
  intro s o s' hs hr
  rw [runFrom_lift] at hr
  cases hr
  exact ⟨hs, h⟩

/-- One computation after another.  What the second is given has the property that the first leads
to; a fault of the first keeps its state, which is well tagged. -/
theorem bind {x : EvalM α} {f : α → EvalM β} (hx : Tags Q x) (hf : ∀ a, Q a → Tags R (f a)) :
    Tags R (x >>= f) := by
  intro s o s' hs hr
  rw [runFrom_bind] at hr
  cases e : x.runFrom s with
  | none => rw [e] at hr; cases hr
  | some p =>
      obtain ⟨o', t⟩ := p
      obtain ⟨ht, hq⟩ := hx s o' t hs e
      rw [e] at hr
      cases o' with
      | error _ => cases hr; exact ⟨ht, nofun⟩
      | ok a => exact hf a (hq a rfl) t o s' ht hr

/-- A fault that is caught leaves a well-tagged state behind as well. -/
theorem attempt {x : EvalM α} (hx : Tags Q x) : Tags (AnswerHas Q) (EvalM.attempt x) := by
  intro s o s' hs hr
  rw [runFrom_attempt] at hr
  obtain ⟨r, hx', hr⟩ := Option.map_eq_some_iff.1 hr
  cases hr
  obtain ⟨hs', hq⟩ := hx s r.1 r.2 hs hx'
  exact ⟨hs', fun o ho => eq_of_caught ho ▸ hq⟩

theorem emit (e : Event) : Tags (fun _ => True) (emit e) := by
  intro s o s' hs hr
  cases hr
  exact ⟨hs, fun _ _ => trivial⟩

theorem nextClosure : Tags (fun _ => True) nextClosure := by
  intro s o s' hs hr
  cases hr
  exact ⟨hs, fun _ _ => trivial⟩

/-- A new frame of well-tagged bindings. -/
theorem allocate {f : Frame} (h : f.WellTagged) : Tags (fun _ => True) (allocate f) := by
  intro s o s' hs hr
  cases hr
  exact ⟨hs.push h, fun _ _ => trivial⟩

/-- A binding that is well tagged for its name. -/
theorem bindName (i : Nat) {name : String} {v : Value} (h : BoundWell name v) :
    Tags (fun _ => True) (bindName i name v) := by
  intro s o s' hs hr
  cases hr
  exact ⟨hs.modify i h, fun _ _ => trivial⟩

/-- What is found under a name is well tagged for that name, or absent. -/
theorem resolve (env : Chain) (name : String) :
    Tags (fun found => ∀ v, found = some v → BoundWell name v) (resolve env name) := by
  intro s o s' hs hr
  cases hr
  exact ⟨hs, fun _ ha => by cases ha; exact fun _ => hs.resolve⟩

/-- A lookup gives back a well-tagged value. -/
theorem lookup (env : Chain) (name : String) : Tags Value.WellTagged (lookup env name) := by
  refine bind (resolve env name) fun found h => ?_
  cases found with
  | none => exact throw _
  | some v => exact pure (h v rfl).value

/-- One item after another, each from the state that those before it lead to. -/
theorem mapM {as : List α} {f : α → EvalM β} (h : ∀ a ∈ as, Tags R (f a)) :
    Tags (fun bs => ∀ b ∈ bs, R b) (as.mapM f) := by
  induction as with
  | nil => exact pure (List.forall_mem_nil _)
  | cons a as ih =>
      rw [List.forall_mem_cons] at h
      rw [List.mapM_cons]
      exact bind h.1 fun b hb => bind (ih h.2) fun bs hbs => pure (List.forall_mem_cons.2 ⟨hb, hbs⟩)

theorem forM {as : List α} {f : α → EvalM Unit} (h : ∀ a ∈ as, Tags (fun _ => True) (f a)) :
    Tags (fun _ => True) (as.forM f) := by
  induction as with
  | nil => exact pure trivial
  | cons a as ih =>
      rw [List.forall_mem_cons] at h
      exact bind h.1 fun _ _ => ih h.2

/-- Along a list, with a property of what is carried from item to item. -/
theorem foldlM {as : List α} {f : β → α → EvalM β} (h : ∀ b, ∀ a ∈ as, R b → Tags R (f b a))
    {b : β} (hb : R b) : Tags R (as.foldlM f b) := by
  induction as generalizing b with
  | nil => exact pure hb
  | cons a as ih =>
      rw [List.foldlM_cons]
      exact bind (h b a List.mem_cons_self hb) fun _ =>
        ih fun b a ha => h b a (List.mem_cons_of_mem _ ha)

end Tags

end EvalM

/-! ### The rules of evaluation -/

/-- The task is about well-tagged values. -/
def Task.WellTagged : Task → Prop
  | .eval expr _ _ => expr.WellTagged
  | .call fn args => fn.WellTagged ∧ ∀ v ∈ args, v.WellTagged

/-- The host gives well-tagged values back, and calls nothing else. -/
inductive Reply.WellTagged : Reply → Prop where
  | value {v : Value} (h : v.WellTagged) : WellTagged (.value v)
  | fault (e : Fault) : WellTagged (.fault e)
  | call {fn : Value} {args : List Value} {resume : Except Fault Value → Reply}
      (hf : fn.WellTagged) (ha : ∀ v ∈ args, v.WellTagged)
      (hr : ∀ o, AnswerHas Value.WellTagged o → WellTagged (resume o)) :
      WellTagged (.call fn args resume)

/-- Functions of the host that are given well-tagged values make no others. -/
def Host.WellTagged (host : Host) : Prop :=
  ∀ name args, (∀ v ∈ args, v.WellTagged) → (host name args).WellTagged

namespace Eval

open EvalM (Tags)
open Value.WellTagged (hereditary)

mutual
/-- A template is filled with well-tagged values, and all else of it is copied.  By recursion on the
template: an escape is evaluated, a container is filled part by part, and everything else is given
back as it is. -/
theorem fill_tags {eval : Value → EvalM Value}
    (h : ∀ e, e.WellTagged → Tags Value.WellTagged (eval e)) :
    (v : Value) → v.WellTagged → Tags Value.WellTagged (fill eval v)
  | .list items, hv =>
      .bind (fillItems_tags h items (hereditary.list.1 hv)) fun _ hvs => .pure (.list hvs)
  | .tuple items, hv =>
      .bind (fillItems_tags h items (hereditary.tuple.1 hv)) fun _ hvs => .pure (.list hvs)
  | .mapping entries, hv => by
      rw [hereditary.mapping] at hv
      simp only [fill]
      cases he : Entries.get? "$_" entries with
      | some escaped => exact h escaped (hv _ (Entries.mem_of_get? he))
      | none => exact .bind (fillEntries_tags h entries hv) fun _ hes => .pure (.mapping hes)
  | .null, hv | .bool _, hv | .int _, hv | .float _, hv | .text _, hv | .undefined, hv
  | .closure .., hv | .standard _, hv | .host _, hv | .tagged .., hv => .pure hv

theorem fillItems_tags {eval : Value → EvalM Value}
    (h : ∀ e, e.WellTagged → Tags Value.WellTagged (eval e)) :
    (vs : List Value) → (∀ v ∈ vs, v.WellTagged) →
      Tags (fun ws => ∀ w ∈ ws, w.WellTagged) (fillItems eval vs)
  | [], _ => .pure (List.forall_mem_nil _)
  | v :: rest, hv => by
      rw [List.forall_mem_cons] at hv
      exact .bind (fill_tags h v hv.1) fun _ hw =>
        .bind (fillItems_tags h rest hv.2) fun _ hws => .pure (List.forall_mem_cons.2 ⟨hw, hws⟩)

theorem fillEntries_tags {eval : Value → EvalM Value}
    (h : ∀ e, e.WellTagged → Tags Value.WellTagged (eval e)) :
    (es : List (String × Value)) → (∀ e ∈ es, e.2.WellTagged) →
      Tags (fun fs : Entries Value => ∀ f ∈ fs, f.2.WellTagged) (fillEntries eval es)
  | [], _ => .pure (List.forall_mem_nil _)
  | (_, v) :: rest, hv => by
      rw [List.forall_mem_cons] at hv
      exact .bind (fill_tags h v hv.1) fun _ hw =>
        .bind (fillEntries_tags h rest hv.2) fun _ hws => .pure (List.forall_mem_cons.2 ⟨hw, hws⟩)
end

/-- The clauses of a `cond`, by induction on those that are left: the first that holds decides, and
what it is evaluated to is well tagged as part of its clause. -/
theorem clauses_tags {eval : Value → EvalM Value}
    (h : ∀ e, e.WellTagged → Tags Value.WellTagged (eval e)) (options : Options)
    {items : List Value} (hi : ∀ v ∈ items, v.WellTagged) :
    Tags Value.WellTagged (clauses eval options items) := by
  induction items with
  | nil =>
      simp only [clauses]
      split
      · exact .throw _
      · exact .pure .undefined
  | cons v rest ih =>
      rw [List.forall_mem_cons] at hi
      cases v with
      | mapping clause =>
          have hc := hereditary.mapping.1 hi.1
          simp only [clauses]
          cases ho : Entries.get? "else" clause with
          | some otherwise => exact h otherwise (hc _ (Entries.mem_of_get? ho))
          | none =>
              cases ht : Entries.get? "if" clause with
              | none => exact .throw _
              | some test =>
                  refine .bind (h test (hc _ (Entries.mem_of_get? ht))) fun v _ => ?_
                  cases v.truthy with
                  | true => exact h _ (hereditary.getD_get? hc "then")
                  | false => exact ih hi.2
      | _ => exact .throw _

/-- The evaluator does tasks about well-tagged values from well-tagged states, and keeps both. -/
def Tagging (run : Task → EvalM Value) : Prop :=
  ∀ t : Task, t.WellTagged → Tags Value.WellTagged (run t)

variable {host : Host} {run : Task → EvalM Value}

/-- Evaluating a well-tagged expression, in any environment. -/
theorem Tagging.eval (hr : Tagging run) (env : Chain) (options : Options) (e : Value)
    (he : e.WellTagged) : Tags Value.WellTagged (run (.eval e env options)) :=
  hr _ he

/-- The host goes on until it gives back a well-tagged value, by induction on its reply. -/
theorem follow_tags (hr : Tagging run)
    {reply : Reply} (h : reply.WellTagged) : Tags Value.WellTagged (follow run reply) := by
  induction h with
  | value h => exact .pure h
  | fault e => exact .throw _
  | call hf ha _ ih => exact .bind (.attempt (hr _ ⟨hf, ha⟩)) ih

/-- A call.  A closure binds its arguments under their parameters, each tagged for its name; a
standard binding answers with parts of its arguments; the host is well tagged by assumption. -/
theorem call_tags (hh : host.WellTagged)
    (hr : Tagging run) {fn : Value}
    {args : List Value} (hf : fn.WellTagged) (ha : ∀ v ∈ args, v.WellTagged) :
    Tags Value.WellTagged (call host run fn args) := by
  cases fn with
  | closure id params body env options =>
      cases hf with
      | closure hb =>
          refine .bind (.allocate (.bindArguments params .nil ha)) fun _ _ => ?_
          exact .bind (.emit _) fun _ _ => hr _ hb
  | standard s => exact .lift (s.apply_hereditary hereditary ha)
  | host name => exact follow_tags hr (hh name args ha)
  | tagged t fn => exact hr _ ⟨hf.of_tagged, ha⟩
  | _ => exact .throw _

/-- An application to evaluated arguments, which is a call or a fault. -/
theorem applyTo_tags (hr : Tagging run)
    (label : String) {fn : Value} {args : List Value} (hf : fn.WellTagged)
    (ha : ∀ v ∈ args, v.WellTagged) : Tags Value.WellTagged (applyTo run label fn args) := by
  unfold applyTo
  split
  · exact .throw _
  · split
    · exact hr _ ⟨hf, ha⟩
    · exact .throw _

/-- Every value is tagged as it is bound. -/
theorem bindFrame_tags (hr : Tagging run)
    {bindings : Value} (h : bindings.WellTagged) (env : Chain) (options : Options) :
    Tags (fun _ => True) (bindFrame run bindings env options) := by
  cases bindings with
  | mapping entries =>
      refine .bind (.allocate .nil) fun i _ => .bind (.forM fun e he => ?_) fun _ _ => .pure trivial
      exact .bind (hr _ (hereditary.mapping.1 h e he)) fun _ hv => .bindName i (tag_boundWell _ hv)
  | _ => exact .throw _

/-- A special form evaluates its parts, and what it binds goes through `tag`.  A case for each kind
of form; only `let` writes into a frame, and only `lambda` makes a new value. -/
theorem special_tags (hr : Tagging run) (env : Chain)
    (options : Options) {form : SpecialForm} (h : ∀ v ∈ form.parts, v.WellTagged) :
    Tags Value.WellTagged (special run env options form) := by
  cases form with
  | quote datum => exact .pure (h _ List.mem_cons_self)
  | quasiquote template => exact fill_tags (hr.eval env options) _ (h _ List.mem_cons_self)
  | letIn bindings body =>
      cases body with
      | none => exact .throw _
      | some body =>
          refine .bind (bindFrame_tags hr (h _ List.mem_cons_self) env options) fun _ _ => ?_
          exact hr _ (h body (by simp [SpecialForm.parts]))
  | lambda params body =>
      cases body with
      | none => exact .throw _
      | some body =>
          refine .bind (.lift (Q := fun _ => True) fun _ _ => trivial) fun _ _ => ?_
          have hb := h body (by simp [SpecialForm.parts])
          exact .bind .nextClosure fun _ _ => .pure (.closure hb)
  | cond items =>
      have hi := h _ List.mem_cons_self
      cases items with
      | list items => exact clauses_tags (hr.eval env options) options (hereditary.list.1 hi)
      | tuple items => exact clauses_tags (hr.eval env options) options (hereditary.tuple.1 hi)
      | _ => exact .throw _
  | apply callee args =>
      cases args with
      | none => exact .throw _
      | some args =>
          have ha := hereditary.operands (h args (by simp [SpecialForm.parts]))
          refine .bind (hr _ (h callee (by simp [SpecialForm.parts]))) fun fn hf => ?_
          exact .bind (.mapM fun e he => hr _ (ha e he)) fun vs hvs => applyTo_tags hr _ hf hvs

/-- A call by name: the operator is found well tagged, and a macro gets the form as it stands. -/
theorem generic_tags (hr : Tagging run)
    {form : Entries Value} (h : ∀ e ∈ form, e.2.WellTagged) (env : Chain) (options : Options) :
    Tags Value.WellTagged (generic run form env options) := by
  refine .bind (.lift (Q := fun e => e ∈ form) fun _ => operator_mem) fun e he => ?_
  obtain ⟨name, under⟩ := e
  have operands := hereditary.operands (h _ he)
  refine .bind (.resolve env name) fun found hfound => ?_
  cases found with
  | none => exact .throw _
  | some head =>
      have hhead := (hfound head rfl).value
      refine .bind (.emit _) fun _ _ => ?_
      split
      · refine .bind (hr _ ⟨hhead, List.forall_mem_cons.2 ⟨.mapping h, operands⟩⟩) fun _ ha => ?_
        exact .bind (.emit _) fun _ _ => hr _ ha
      · split
        · exact .bind (.mapM fun e he => hr _ (operands e he)) fun _ hvs =>
            applyTo_tags hr _ hhead hvs
        · exact .throw _

/-- **The rules of a step keep states well tagged**, if the evaluator of the parts does. -/
theorem step_tags (hh : host.WellTagged)
    (hr : Tagging run) {task : Task}
    (h : task.WellTagged) : Tags Value.WellTagged (step host run task) := by
  cases task with
  | call fn args => exact call_tags hh hr h.1 h.2
  | eval expr env options =>
      cases expr with
      | text name => exact .lookup _ _
      | list items =>
          exact .bind (.mapM fun e he => hr _ (hereditary.list.1 h e he)) fun _ h => .pure (.list h)
      | tuple items =>
          refine .bind (.mapM fun e he => hr _ (hereditary.tuple.1 h e he)) fun _ h => ?_
          exact .pure (.list h)
      | mapping form =>
          have hes := hereditary.mapping.1 h
          simp only [step, expression]
          cases hf : SpecialForm.ofEntries? form with
          | some s =>
              refine .bind (.emit _) fun _ _ => special_tags hr env options fun v hv => ?_
              obtain ⟨name, hm⟩ := SpecialForm.mem_of_mem_parts hf hv
              exact hes _ hm
          | none => exact generic_tags hr hes env options
      | _ => exact .pure h

end Eval

/-! ### Runs -/

open EvalM (Tags)
open Eval (Tagging)
open Value.WellTagged (hereditary)

variable {host : Host}

/-- **A run leads from well-tagged states to well-tagged states, wherever it is stopped.** -/
theorem runUntil_tags (hh : host.WellTagged) (stop : Task → State → Bool) (fuel : Nat) {task : Task}
    (h : task.WellTagged) : Tags Value.WellTagged (runUntil host stop fuel task) := by
  induction fuel generalizing task with
  | zero => exact .exhausted
  | succ fuel ih =>
      intro s o s' hs hr
      rw [runFrom_runUntil] at hr
      split at hr
      · cases hr
        exact ⟨hs, nofun⟩
      · exact Eval.step_tags hh (fun _ => ih) h s o s' hs hr

/-- A run that nothing stops. -/
theorem run_tags (hh : host.WellTagged) (fuel : Nat) : Tagging (run host fuel) :=
  fun _ h => runUntil_never host fuel ▸ runUntil_tags hh _ fuel h

variable {run : Task → EvalM Value}

theorem chain_tags (outer : Chain) {frames : List Frame} (h : ∀ f ∈ frames, f.WellTagged) :
    Tags (fun _ => True) (chain outer frames) := by
  induction frames with
  | nil => exact .pure trivial
  | cons f frames ih =>
      rw [List.forall_mem_cons] at h
      exact .bind (ih h.2) fun _ _ => .bind (.allocate h.1) fun _ _ => .pure trivial

/-- The bindings of a mapping that the host hands in are tagged for their names. -/
theorem ofValue_tags {v : Value} (h : v.WellTagged) :
    AnswerHas Frame.WellTagged (Frame.ofValue v) := by
  cases v with
  | mapping entries => exact .ok (.ofEntries (hereditary.mapping.1 h))
  | _ => exact .error _

/-- The frames that a host hands in are well tagged, if the values in them are. -/
theorem hostFrames_tags {frames : Value} (h : frames.WellTagged) :
    AnswerHas (fun fs : List Frame => ∀ f ∈ fs, f.WellTagged) (hostFrames frames) := by
  intro fs hfs f hf
  obtain ⟨es, he, rfl⟩ := mem_hostFrames hfs f hf
  exact .ofEntries (hereditary.mapping.1 (hereditary.operands h _ he))

/-- An evaluation in the environment of a host, with any evaluator that keeps states well tagged. -/
theorem evaluateBy_tags (hr : Tagging run) {expr frames : Value} (he : expr.WellTagged)
    (hf : frames.WellTagged) (options : Options) :
    Tags Value.WellTagged (evaluateBy run expr frames options) :=
  .bind (.bind (.lift (hostFrames_tags hf)) fun _ => chain_tags _) fun _ _ => hr _ he

end FormLang
