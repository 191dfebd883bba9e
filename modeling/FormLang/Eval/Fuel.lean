import FormLang.Eval.Run

/-!
# FormLang — fuel only bounds

`x.Refines y` says that every outcome of `x` is the outcome of `y`.  The rules of a step keep it
(`Eval.step_refines`): they look at the evaluator of the parts only through its outcomes.  So an
outcome reached with some fuel is reached with any more (`run_refines`).
-/

namespace FormLang

namespace EvalM

variable {α β : Type}

/-- Where `x` has an outcome, `y` has the same. -/
def Refines (x y : EvalM α) : Prop :=
  ∀ s r, x.runFrom s = some r → y.runFrom s = some r

namespace Refines

theorem refl (x : EvalM α) : Refines x x :=
  fun _ _ h => h

theorem trans {x y z : EvalM α} (h₁ : Refines x y) (h₂ : Refines y z) : Refines x z :=
  fun s r h => h₂ s r (h₁ s r h)

theorem exhausted (x : EvalM α) : Refines EvalM.exhausted x :=
  fun _ _ h => nomatch h

/-- Where the first part has an outcome, the second goes on from the same state. -/
theorem bind {x y : EvalM α} {f g : α → EvalM β} (hx : Refines x y)
    (hf : ∀ a, Refines (f a) (g a)) : Refines (x >>= f) (y >>= g) := by
  intro s r h
  rw [runFrom_bind] at h ⊢
  cases e : x.runFrom s with
  | none => rw [e] at h; cases h
  | some p =>
    obtain ⟨o, s'⟩ := p
    rw [e] at h
    rw [hx s _ e]
    cases o with
    | error _ => exact h
    | ok a => exact hf a s' r h

theorem attempt {x y : EvalM α} (hx : Refines x y) :
    Refines (EvalM.attempt x) (EvalM.attempt y) := by
  intro s r h
  rw [runFrom_attempt] at h ⊢
  obtain ⟨p, hp, rfl⟩ := Option.map_eq_some_iff.1 h
  rw [hx s p hp, Option.map_some]

theorem mapM {f g : α → EvalM β} (h : ∀ a, Refines (f a) (g a)) (as : List α) :
    Refines (as.mapM f) (as.mapM g) := by
  induction as with
  | nil => exact refl _
  | cons a rest ih =>
    rw [List.mapM_cons, List.mapM_cons]
    exact bind (h a) fun _ => bind ih fun _ => refl _

theorem forM {f g : α → EvalM Unit} (h : ∀ a, Refines (f a) (g a)) (as : List α) :
    Refines (as.forM f) (as.forM g) := by
  induction as with
  | nil => exact refl _
  | cons a rest ih => exact bind (h a) fun _ => ih

end Refines

end EvalM

namespace Eval

open EvalM (Refines)

mutual
/-- A template, by recursion on it: the evaluator is asked at the escapes only. -/
theorem fill_refines {f g : Value → EvalM Value} (h : ∀ e, Refines (f e) (g e)) :
    (v : Value) → Refines (fill f v) (fill g v)
  | .list items | .tuple items => .bind (fillItems_refines h items) fun _ => .refl _
  | .mapping entries => by
    simp only [fill]
    cases Entries.get? "$_" entries with
    | some escaped => exact h escaped
    | none => exact .bind (fillEntries_refines h entries) fun _ => .refl _
  | .null | .bool _ | .int _ | .float _ | .text _ | .undefined | .closure .. | .standard _
  | .host _ | .tagged .. => .refl _

theorem fillItems_refines {f g : Value → EvalM Value} (h : ∀ e, Refines (f e) (g e)) :
    (vs : List Value) → Refines (fillItems f vs) (fillItems g vs)
  | [] => .refl _
  | v :: rest =>
    .bind (fill_refines h v) fun _ => .bind (fillItems_refines h rest) fun _ => .refl _

theorem fillEntries_refines {f g : Value → EvalM Value} (h : ∀ e, Refines (f e) (g e)) :
    (es : List (String × Value)) → Refines (fillEntries f es) (fillEntries g es)
  | [] => .refl _
  | (_, v) :: rest =>
    .bind (fill_refines h v) fun _ => .bind (fillEntries_refines h rest) fun _ => .refl _
end

/-- The clauses of a `cond`, by induction on those that are left. -/
theorem clauses_refines {f g : Value → EvalM Value} (h : ∀ e, Refines (f e) (g e))
    (options : Options) (items : List Value) :
    Refines (clauses f options items) (clauses g options items) := by
  induction items with
  | nil => exact .refl _
  | cons v rest ih =>
    cases v with
    | mapping clause =>
      simp only [clauses]
      cases Entries.get? "else" clause with
      | some otherwise => exact h otherwise
      | none =>
        cases Entries.get? "if" clause with
        | none => exact .refl _
        | some test =>
          refine .bind (h test) fun v => ?_
          cases v.truthy with
          | true => exact h _
          | false => exact ih
    | _ => exact .refl _

variable {run run' : Task → EvalM Value}

theorem follow_refines (h : ∀ t, Refines (run t) (run' t)) (reply : Reply) :
    Refines (follow run reply) (follow run' reply) := by
  induction reply with
  | value v => exact .refl _
  | fault e => exact .refl _
  | call fn args resume ih => exact .bind (h _).attempt ih

theorem call_refines (host : Host) (h : ∀ t, Refines (run t) (run' t)) (fn : Value)
    (args : List Value) : Refines (call host run fn args) (call host run' fn args) := by
  cases fn with
  | closure id params body env options =>
    exact .bind (.refl _) fun _ => .bind (.refl _) fun _ => h _
  | host name => exact follow_refines h _
  | tagged tag fn => exact h _
  | _ => exact .refl _

theorem applyTo_refines (h : ∀ t, Refines (run t) (run' t)) (label : String) (fn : Value)
    (args : List Value) : Refines (applyTo run label fn args) (applyTo run' label fn args) := by
  unfold applyTo
  split
  · exact .refl _
  · split
    · exact h _
    · exact .refl _

theorem bindFrame_refines (h : ∀ t, Refines (run t) (run' t)) (bindings : Value) (env : Chain)
    (options : Options) :
    Refines (bindFrame run bindings env options) (bindFrame run' bindings env options) := by
  cases bindings with
  | mapping entries =>
    exact .bind (.refl _) fun _ =>
      .bind (.forM (fun _ => .bind (h _) fun _ => .refl _) entries) fun _ => .refl _
  | _ => exact .refl _

/-- A special form, whose parts are handed to the evaluator. -/
theorem special_refines (h : ∀ t, Refines (run t) (run' t)) (env : Chain) (options : Options)
    (form : SpecialForm) :
    Refines (special run env options form) (special run' env options form) := by
  cases form with
  | quote datum => exact .refl _
  | quasiquote template => exact fill_refines (fun _ => h _) template
  | letIn bindings body =>
    cases body with
    | none => exact .refl _
    | some body => exact .bind (bindFrame_refines h bindings env options) fun _ => h _
  | lambda params body => cases body <;> exact .refl _
  | cond items =>
    cases items with
    | list items => exact clauses_refines (fun _ => h _) options items
    | tuple items => exact clauses_refines (fun _ => h _) options items
    | _ => exact .refl _
  | apply callee args =>
    cases args with
    | none => exact .refl _
    | some args =>
      exact .bind (h _) fun _ => .bind (.mapM (fun _ => h _) _) fun _ => applyTo_refines h _ _ _

/-- A call by name, of a macro or of a function. -/
theorem generic_refines (h : ∀ t, Refines (run t) (run' t)) (form : Entries Value) (env : Chain)
    (options : Options) :
    Refines (generic run form env options) (generic run' form env options) := by
  refine .bind (.refl _) fun e => .bind (.refl _) fun found => ?_
  cases found with
  | none => exact .refl _
  | some head =>
    refine .bind (.refl _) fun _ => ?_
    split
    · exact .bind (h _) fun _ => .bind (.refl _) fun _ => h _
    · split
      · exact .bind (.mapM (fun _ => h _) _) fun _ => applyTo_refines h _ _ _
      · exact .refl _

/-- **The rules of a step keep outcomes**: they look at the evaluator of the parts only through the
outcomes that it has. -/
theorem step_refines (host : Host) (h : ∀ t, Refines (run t) (run' t)) (task : Task) :
    Refines (step host run task) (step host run' task) := by
  cases task with
  | call fn args => exact call_refines host h fn args
  | eval expr env options =>
    cases expr with
    | list items | tuple items => exact .bind (.mapM (fun _ => h _) items) fun _ => .refl _
    | mapping form =>
      simp only [step, expression]
      cases SpecialForm.ofEntries? form with
      | some s => exact .bind (.refl _) fun _ => special_refines h env options s
      | none => exact generic_refines h form env options
    | _ => exact .refl _

end Eval

theorem run_refines_succ (host : Host) (fuel : Nat) (task : Task) :
    (run host fuel task).Refines (run host (fuel + 1) task) := by
  induction fuel generalizing task with
  | zero => exact .exhausted _
  | succ n ih => exact Eval.step_refines host ih task

/-- An outcome reached with some fuel is reached with any more. -/
theorem run_refines (host : Host) {m n : Nat} (h : m ≤ n) (task : Task) :
    (run host m task).Refines (run host n task) := by
  induction h with
  | refl => exact .refl _
  | step _ ih => exact ih.trans (run_refines_succ host _ task)

end FormLang
