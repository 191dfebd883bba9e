import FormLang.Proofs.Frames
import FormLang.Proofs.Moments

/-!
# Congruences — relations that the rules of evaluation keep

Two evaluators that are alike in some way lead to runs that are alike in that way, if the way is one
that computations keep when they are put together.  A `Congruence` is a relation of that kind
between computations: it holds between any computation that keeps all frames and itself, it goes
through one computation after another, through the catching of a fault, and through the binding of a
new frame, which is the only rule that writes into one.  **The rules of a step keep every
congruence** (`Congruence.step`), and so does whatever a program does with an evaluator
(`Congruence.use`).

An instance is that all frames are kept; so no use of the evaluator changes a frame that was there
when it began, at any moment (`Visits.grows`).
-/

namespace FormLang

open EvalM (Grows)

/-- A relation between computations that goes through putting them together. -/
structure Congruence where
  rel {α : Type} : EvalM α → EvalM α → Prop
  same {α : Type} {x : EvalM α} (h : ∀ n, Grows n x) : rel x x
  bind {α β : Type} {x y : EvalM α} {f g : α → EvalM β} (h : rel x y)
    (hf : ∀ a, rel (f a) (g a)) : rel (x >>= f) (y >>= g)
  attempt {α : Type} {x y : EvalM α} (h : rel x y) : rel (EvalM.attempt x) (EvalM.attempt y)
  bindFrame {run run' : Task → EvalM Value} (h : ∀ t, rel (run t) (run' t)) (bindings : Value)
    (env : Chain) (options : Options) :
    rel (Eval.bindFrame run bindings env options) (Eval.bindFrame run' bindings env options)

namespace Congruence

variable (C : Congruence) {α β : Type}

theorem pure (a : α) : C.rel (Pure.pure a) (Pure.pure a) :=
  C.same fun _ => .pure a

theorem throw (e : Fault) : C.rel (MonadExcept.throw e : EvalM α) (MonadExcept.throw e) :=
  C.same fun _ => .throw e

theorem lift (x : Except Fault α) : C.rel (EvalM.lift x) (EvalM.lift x) :=
  C.same fun _ => .lift x

theorem emit (e : Event) : C.rel (EvalM.emit e) (EvalM.emit e) :=
  C.same fun _ => .emit e

theorem allocate (f : Frame) : C.rel (EvalM.allocate f) (EvalM.allocate f) :=
  C.same fun _ => bind_pure (EvalM.allocate f) ▸ Grows.allocate f fun _ _ => .pure _

theorem mapM {f g : α → EvalM β} (h : ∀ a, C.rel (f a) (g a)) (as : List α) :
    C.rel (as.mapM f) (as.mapM g) := by
  induction as with
  | nil => exact C.pure _
  | cons a rest ih =>
      rw [List.mapM_cons, List.mapM_cons]
      exact C.bind (h a) fun _ => C.bind ih fun _ => C.pure _

theorem foldlM {f g : β → α → EvalM β} (h : ∀ b a, C.rel (f b a) (g b a)) (as : List α) (b : β) :
    C.rel (as.foldlM f b) (as.foldlM g b) := by
  induction as generalizing b with
  | nil => exact C.pure _
  | cons a rest ih =>
      rw [List.foldlM_cons, List.foldlM_cons]
      exact C.bind (h b a) ih

/-! ### The rules of evaluation -/

mutual
/-- A template, by recursion on it: only the escapes are handed to the evaluator. -/
theorem fill {f g : Value → EvalM Value} (h : ∀ e, C.rel (f e) (g e)) :
    (v : Value) → C.rel (Eval.fill f v) (Eval.fill g v)
  | .list items | .tuple items => C.bind (fillItems h items) fun _ => C.pure _
  | .mapping entries => by
      simp only [Eval.fill]
      cases Entries.get? "$_" entries with
      | some escaped => exact h escaped
      | none => exact C.bind (fillEntries h entries) fun _ => C.pure _
  | .null | .bool _ | .int _ | .float _ | .text _ | .undefined | .closure .. | .standard _
  | .host _ | .tagged .. => C.pure _

theorem fillItems {f g : Value → EvalM Value} (h : ∀ e, C.rel (f e) (g e)) :
    (vs : List Value) → C.rel (Eval.fillItems f vs) (Eval.fillItems g vs)
  | [] => C.pure _
  | v :: rest => C.bind (fill h v) fun _ => C.bind (fillItems h rest) fun _ => C.pure _

theorem fillEntries {f g : Value → EvalM Value} (h : ∀ e, C.rel (f e) (g e)) :
    (es : List (String × Value)) → C.rel (Eval.fillEntries f es) (Eval.fillEntries g es)
  | [] => C.pure _
  | (_, v) :: rest => C.bind (fill h v) fun _ => C.bind (fillEntries h rest) fun _ => C.pure _
end

/-- The clauses of a `cond`, by induction on those that are left. -/
theorem clauses {f g : Value → EvalM Value} (h : ∀ e, C.rel (f e) (g e)) (options : Options)
    (items : List Value) : C.rel (Eval.clauses f options items) (Eval.clauses g options items) := by
  induction items with
  | nil =>
      simp only [Eval.clauses]
      split
      · exact C.throw _
      · exact C.pure _
  | cons v rest ih =>
      cases v with
      | mapping clause =>
          simp only [Eval.clauses]
          cases Entries.get? "else" clause with
          | some otherwise => exact h otherwise
          | none =>
              cases Entries.get? "if" clause with
              | none => exact C.throw _
              | some test =>
                  refine C.bind (h test) fun v => ?_
                  cases v.truthy with
                  | true => exact h _
                  | false => exact ih
      | _ => exact C.throw _

variable {run run' : Task → EvalM Value} (h : ∀ t, C.rel (run t) (run' t))
include h

theorem follow (reply : Reply) : C.rel (Eval.follow run reply) (Eval.follow run' reply) := by
  induction reply with
  | value v => exact C.pure _
  | fault e => exact C.throw _
  | call fn args resume ih => exact C.bind (C.attempt (h _)) ih

/-- A call of any callable; the frame of a closure is new, so no frame that was there is written
into. -/
theorem call (host : Host) (fn : Value) (args : List Value) :
    C.rel (Eval.call host run fn args) (Eval.call host run' fn args) := by
  cases fn with
  | closure id params body env options =>
      exact C.bind (C.allocate _) fun _ => C.bind (C.emit _) fun _ => h _
  | standard s => exact C.lift _
  | host name => exact C.follow h _
  | tagged tag fn => exact h _
  | _ => exact C.throw _

theorem applyTo (label : String) (fn : Value) (args : List Value) :
    C.rel (Eval.applyTo run label fn args) (Eval.applyTo run' label fn args) := by
  unfold Eval.applyTo
  split
  · exact C.throw _
  · split
    · exact h _
    · exact C.throw _

/-- A special form.  `let` is the only one that binds into a frame it has made, for which a
congruence has a rule of its own. -/
theorem special (env : Chain) (options : Options) (form : SpecialForm) :
    C.rel (Eval.special run env options form) (Eval.special run' env options form) := by
  cases form with
  | quote datum => exact C.pure _
  | quasiquote template => exact C.fill (fun _ => h _) template
  | letIn bindings body =>
      cases body with
      | none => exact C.throw _
      | some body => exact C.bind (C.bindFrame h bindings env options) fun _ => h _
  | lambda params body =>
      cases body with
      | none => exact C.throw _
      | some body =>
          exact C.bind (C.lift _) fun _ => C.bind (C.same fun _ => .nextClosure) fun _ => C.pure _
  | cond items =>
      cases items with
      | list items => exact C.clauses (fun _ => h _) options items
      | tuple items => exact C.clauses (fun _ => h _) options items
      | _ => exact C.throw _
  | apply callee args =>
      cases args with
      | none => exact C.throw _
      | some args =>
          exact C.bind (h _) fun _ => C.bind (C.mapM (fun _ => h _) _) fun _ => C.applyTo h _ _ _

/-- A call by name, of a macro or of a function. -/
theorem generic (form : Entries Value) (env : Chain) (options : Options) :
    C.rel (Eval.generic run form env options) (Eval.generic run' form env options) := by
  refine C.bind (C.lift _) fun e => C.bind (C.same fun _ => .resolve _ _) fun found => ?_
  cases found with
  | none => exact C.throw _
  | some head =>
      refine C.bind (C.emit _) fun _ => ?_
      split
      · exact C.bind (h _) fun _ => C.bind (C.emit _) fun _ => h _
      · split
        · exact C.bind (C.mapM (fun _ => h _) _) fun _ => C.applyTo h _ _ _
        · exact C.throw _

/-- **The rules of a step keep every congruence.** -/
theorem step (host : Host) (task : Task) :
    C.rel (Eval.step host run task) (Eval.step host run' task) := by
  cases task with
  | call fn args => exact C.call h host fn args
  | eval expr env options =>
      cases expr with
      | text name => exact C.same fun _ => .lookup _ _
      | list items | tuple items => exact C.bind (C.mapM (fun _ => h _) items) fun _ => C.pure _
      | mapping form =>
          simp only [Eval.step, Eval.expression]
          cases SpecialForm.ofEntries? form with
          | some s => exact C.bind (C.emit _) fun _ => C.special h env options s
          | none => exact C.generic h form env options
      | _ => exact C.pure _

end Congruence

/-! ### Uses of the evaluator -/

/-- What a program may do with an evaluator. -/
inductive Use : {α : Type} → ((Task → EvalM Value) → EvalM α) → Prop where
  | task (task : Task) : Use fun run => run task
  | evaluate (expr frames : Value) (options : Options) :
      Use fun run => evaluateBy run expr frames options
  | perform (session : Session) (command : Command) : Use fun run => session.performBy run command
  | load (files : FileSystem) (paths : List Path) (session : Session) :
      Use fun run => paths.foldlM (Session.loadFileBy run files) session
  | start (settings : Settings) (files : FileSystem) (prelude : Value) (strict : Option Bool) :
      Use fun run => Session.startBy run settings files prelude strict

namespace Congruence

variable (C : Congruence) {run run' : Task → EvalM Value} (h : ∀ t, C.rel (run t) (run' t))
include h

theorem evalFrame (session : Session) (bindings : Value) :
    C.rel (session.evalFrameBy run bindings) (session.evalFrameBy run' bindings) :=
  C.bind (C.bindFrame h _ _ _) fun _ => C.bind (C.emit _) fun _ => C.pure _

/-- A command of a session. -/
theorem perform (session : Session) (command : Command) :
    C.rel (session.performBy run command) (session.performBy run' command) := by
  cases command with
  | define name v => exact C.bind (C.bind (C.allocate _) fun _ => C.pure _) fun _ => C.pure _
  | defineFrame frame =>
      exact C.bind (C.lift _) fun _ => C.bind (C.bind (C.allocate _) fun _ => C.pure _) fun _ =>
        C.pure _
  | evalFrame bindings => exact C.bind (C.evalFrame h session bindings) fun _ => C.pure _
  | evalJson text =>
      simp only [Session.performBy]
      split
      · exact C.bind (h _) fun _ => C.pure _
      · exact C.throw _
  | lookup name => exact C.bind (C.same fun _ => .lookup _ _) fun _ => C.pure _
  | eval _ | call _ _ => exact C.bind (h _) fun _ => C.pure _

theorem load (files : FileSystem) (paths : List Path) (session : Session) :
    C.rel (paths.foldlM (Session.loadFileBy run files) session)
      (paths.foldlM (Session.loadFileBy run' files) session) :=
  C.foldlM (fun session _ => C.bind (C.lift _) fun _ => C.bind (C.emit _) fun _ =>
    C.evalFrame h session _) paths session

/-- **Whatever a program does with an evaluator keeps every congruence.** -/
theorem use {α : Type} {x : (Task → EvalM Value) → EvalM α} (hx : Use x) :
    C.rel (x run) (x run') := by
  cases hx with
  | task task => exact h task
  | evaluate expr frames options =>
      have chained : ∀ fs, C.rel (chain standardChain fs) (chain standardChain fs) := by
        intro fs
        induction fs with
        | nil => exact C.pure _
        | cons f fs ih => exact C.bind ih fun _ => C.bind (C.allocate f) fun _ => C.pure _
      exact C.bind (C.bind (C.lift _) chained) fun _ => h _
  | perform session command => exact C.perform h session command
  | load files paths session => exact C.load h files paths session
  | start settings files prelude strict =>
      exact C.bind (C.lift _) fun _ => C.bind (C.lift _) fun paths => C.load h files paths _

end Congruence

/-! ### Frames are kept -/

/-- All frames are kept; the other computation does not matter. -/
def Congruence.growing : Congruence where
  rel x _ := ∀ n, Grows n x
  same h := h
  bind h hf n := .bind (h n) fun a => hf a n
  attempt h n := (h n).attempt
  bindFrame h bindings env options n := Eval.bindFrame_grows (fun t => h t n) bindings env options

/-- All frames are kept up to wherever a run is stopped. -/
theorem runUntil_grows (host : Host) (stop : Task → State → Bool) (n fuel : Nat) (task : Task) :
    (runUntil host stop fuel task).Grows n := by
  induction fuel generalizing task with
  | zero => exact .exhausted
  | succ fuel ih =>
      intro s o s' hs h
      rw [runFrom_runUntil] at h
      split at h
      · cases h
        exact .refl n s
      · exact Eval.step_grows host ih task s o s' hs h

/-- At no moment has a use of the evaluator changed a frame that was there when it began. -/
theorem Visits.grows {α : Type} {host : Host} {x : (Task → EvalM Value) → EvalM α} (hx : Use x)
    {s s' : State} (h : Visits host x s s') : s.Grows s.frames.size s' := by
  obtain ⟨stop, fuel, o, h⟩ := h
  have all : ∀ t, Congruence.growing.rel (runUntil host stop fuel t) (runUntil host stop fuel t) :=
    fun t n => runUntil_grows host stop n fuel t
  exact Congruence.growing.use all hx _ s o s' (Nat.le_refl _) h

end FormLang
