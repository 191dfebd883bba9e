import FormLang.Eval.Run
import FormLang.HostTools

/-!
# Frames — a run writes only into frames of its own

Frames are shared: a closure sees the bindings that a `let` adds to its frame after the closure
was made.  Yet a run changes no frame that was there when it began.  The only rule that writes
into a frame is that of `let`, and it writes into the frame that it has just allocated.

`x.Grows n` says that `x` keeps the frames below `n`, whatever it ends in, from every state that
has so many.  The bound `n` is fixed while states grow, so the property composes
(`EvalM.Grows.bind`); a write to a frame from `n` on has it (`EvalM.Grows.bindName`).  Every
rule has it when the evaluator of the parts does (`Eval.step_grows`), hence every run does
(`run_grows`).
-/

namespace FormLang

/-- From `s` to `s'` the frames below `n` keep their bindings, and no frame or closure is
unmade. -/
structure State.Grows (n : Nat) (s s' : State) : Prop where
  kept : ∀ i < n, s'.frames[i]? = s.frames[i]?
  frames : s.frames.size ≤ s'.frames.size
  closures : s.closures ≤ s'.closures

namespace State.Grows

theorem refl (n : Nat) (s : State) : Grows n s s :=
  ⟨fun _ _ => rfl, Nat.le_refl _, Nat.le_refl _⟩

theorem trans {n : Nat} {s s' s'' : State} (h : Grows n s s') (h' : Grows n s' s'') :
    Grows n s s'' :=
  ⟨fun i hi => (h'.kept i hi).trans (h.kept i hi), Nat.le_trans h.frames h'.frames,
    Nat.le_trans h.closures h'.closures⟩

theorem below {n m : Nat} (hm : m ≤ n) {s s' : State} (h : Grows n s s') : Grows m s s' :=
  ⟨fun i hi => h.kept i (Nat.lt_of_lt_of_le hi hm), h.frames, h.closures⟩

end State.Grows

namespace EvalM

variable {α β : Type}

/-- `x` keeps the frames below `n`, also where it ends in a fault. -/
def Grows (n : Nat) (x : EvalM α) : Prop :=
  ∀ s o s', n ≤ s.frames.size → x.runFrom s = some (o, s') → s.Grows n s'

namespace Grows

variable {n : Nat}

theorem pure (a : α) : Grows n (Pure.pure a : EvalM α) := by
  intro s o s' _ h
  rw [runFrom_pure] at h
  cases h
  exact .refl n s

theorem throw (e : Fault) : Grows n (throw e : EvalM α) := by
  intro s o s' _ h
  rw [runFrom_throw] at h
  cases h
  exact .refl n s

theorem exhausted : Grows n (exhausted : EvalM α) := by
  intro s o s' _ h
  rw [runFrom_exhausted] at h
  cases h

theorem lift (x : Except Fault α) : Grows n (lift x) := by
  intro s o s' _ h
  rw [runFrom_lift] at h
  cases h
  exact .refl n s

theorem emit (e : Event) : Grows n (emit e) := by
  intro s o s' _ h
  rw [runFrom_emit] at h
  cases h
  exact ⟨fun _ _ => rfl, Nat.le_refl _, Nat.le_refl _⟩

theorem nextClosure : Grows n nextClosure := by
  intro s o s' _ h
  rw [runFrom_nextClosure] at h
  cases h
  exact ⟨fun _ _ => rfl, Nat.le_refl _, Nat.le_succ _⟩

theorem resolve (env : Chain) (name : String) : Grows n (resolve env name) := by
  intro s o s' _ h
  rw [runFrom_resolve] at h
  cases h
  exact .refl n s

theorem lookup (env : Chain) (name : String) : Grows n (lookup env name) := by
  intro s o s' _ h
  rw [runFrom_lookup] at h
  cases h
  exact .refl n s

/-- A binding written from `n` on touches nothing below `n`. -/
theorem bindName {i : Nat} (hi : n ≤ i) (name : String) (v : Value) :
    Grows n (bindName i name v) := by
  intro s o s' _ h
  rw [runFrom_bindName] at h
  cases h
  refine ⟨fun j hj => ?_, by simp, Nat.le_refl _⟩
  rw [Array.getElem?_modify, if_neg (by omega)]

/-- One computation after another; frames that the first has made are there for the second. -/
theorem bind {x : EvalM α} {f : α → EvalM β} (hx : Grows n x) (hf : ∀ a, Grows n (f a)) :
    Grows n (x >>= f) := by
  intro s o s' hs h
  rw [runFrom_bind] at h
  cases e : x.runFrom s with
  | none => rw [e] at h; cases h
  | some r =>
      obtain ⟨p, t⟩ := r
      have ht : s.Grows n t := hx s p t hs e
      rw [e] at h
      cases p with
      | error _ => cases h; exact ht
      | ok a => exact ht.trans (hf a t o s' (Nat.le_trans hs ht.frames) h)

theorem attempt {x : EvalM α} (hx : Grows n x) : Grows n (EvalM.attempt x) := by
  intro s o s' hs h
  rw [runFrom_attempt] at h
  obtain ⟨r, hr, h⟩ := Option.map_eq_some_iff.1 h
  cases h
  exact hx s r.1 r.2 hs hr

/-- A new frame has a number from `n` on, and what follows may write into it. -/
theorem allocate {f : Nat → EvalM β} (frame : Frame) (hf : ∀ i, n ≤ i → Grows n (f i)) :
    Grows n (allocate frame >>= f) := by
  intro s o s' hs h
  rw [runFrom_bind, runFrom_allocate] at h
  have ht : s.Grows n { s with frames := s.frames.push frame } := by
    refine ⟨fun i hi => ?_, by simp, Nat.le_refl _⟩
    rw [Array.getElem?_push, if_neg (by omega)]
  exact ht.trans (hf _ hs _ o s' (Nat.le_trans hs ht.frames) h)

theorem mapM {f : α → EvalM β} (h : ∀ a, Grows n (f a)) (as : List α) : Grows n (as.mapM f) := by
  induction as with
  | nil => exact pure _
  | cons a rest ih =>
      rw [List.mapM_cons]
      exact bind (h a) fun _ => bind ih fun _ => pure _

theorem forM {f : α → EvalM Unit} (h : ∀ a, Grows n (f a)) (as : List α) :
    Grows n (as.forM f) := by
  induction as with
  | nil => exact pure _
  | cons a rest ih => exact bind (h a) fun _ => ih

end Grows

end EvalM

/-! ### The rules of evaluation -/

namespace Eval

open EvalM (Grows)

variable {n : Nat}

mutual
/-- A template, by recursion on it: only the escapes are evaluated. -/
theorem fill_grows {eval : Value → EvalM Value} (h : ∀ e, Grows n (eval e)) :
    (v : Value) → Grows n (fill eval v)
  | .list items | .tuple items => .bind (fillItems_grows h items) fun _ => .pure _
  | .mapping entries => by
      simp only [fill]
      cases Entries.get? "$_" entries with
      | some escaped => exact h escaped
      | none => exact .bind (fillEntries_grows h entries) fun _ => .pure _
  | .null | .bool _ | .int _ | .float _ | .text _ | .undefined | .closure .. | .standard _
  | .host _ | .tagged .. => .pure _

theorem fillItems_grows {eval : Value → EvalM Value} (h : ∀ e, Grows n (eval e)) :
    (vs : List Value) → Grows n (fillItems eval vs)
  | [] => .pure _
  | v :: rest => .bind (fill_grows h v) fun _ => .bind (fillItems_grows h rest) fun _ => .pure _

theorem fillEntries_grows {eval : Value → EvalM Value} (h : ∀ e, Grows n (eval e)) :
    (es : List (String × Value)) → Grows n (fillEntries eval es)
  | [] => .pure _
  | (_, v) :: rest =>
    .bind (fill_grows h v) fun _ => .bind (fillEntries_grows h rest) fun _ => .pure _
end

/-- The clauses of a `cond`, by induction on those that are left. -/
theorem clauses_grows {eval : Value → EvalM Value} (h : ∀ e, Grows n (eval e))
    (options : Options) (items : List Value) : Grows n (clauses eval options items) := by
  induction items with
  | nil =>
      simp only [clauses]
      split
      · exact .throw _
      · exact .pure _
  | cons v rest ih =>
      cases v with
      | mapping clause =>
          simp only [clauses]
          cases Entries.get? "else" clause with
          | some otherwise => exact h otherwise
          | none =>
              cases Entries.get? "if" clause with
              | none => exact .throw _
              | some test =>
                  refine .bind (h test) fun v => ?_
                  cases v.truthy with
                  | true => exact h _
                  | false => exact ih
      | _ => exact .throw _

variable {run : Task → EvalM Value}

theorem follow_grows (h : ∀ t, Grows n (run t)) (reply : Reply) : Grows n (follow run reply) := by
  induction reply with
  | value v => exact .pure _
  | fault e => exact .throw _
  | call fn args resume ih => exact .bind (h _).attempt ih

/-- A call; that of a closure makes one new frame for the arguments. -/
theorem call_grows (host : Host) (h : ∀ t, Grows n (run t)) (fn : Value) (args : List Value) :
    Grows n (call host run fn args) := by
  cases fn with
  | closure id params body env options =>
      exact .allocate _ fun _ _ => .bind (.emit _) fun _ => h _
  | standard s => exact .lift _
  | host name => exact follow_grows h _
  | tagged tag fn => exact h _
  | _ => exact .throw _

theorem applyTo_grows (h : ∀ t, Grows n (run t)) (label : String) (fn : Value)
    (args : List Value) : Grows n (applyTo run label fn args) := by
  unfold applyTo
  split
  · exact .throw _
  · split
    · exact h _
    · exact .throw _

/-- The frame that is filled is a new one. -/
theorem bindFrame_grows (h : ∀ t, Grows n (run t)) (bindings : Value) (env : Chain)
    (options : Options) : Grows n (bindFrame run bindings env options) := by
  cases bindings with
  | mapping entries =>
      refine .allocate _ fun i hi => .bind ?_ fun _ => .pure _
      exact .forM (fun _ => .bind (h _) fun _ => .bindName hi _ _) entries
  | _ => exact .throw _

/-- A special form.  Only `let` writes into a frame, and that is one it has made. -/
theorem special_grows (h : ∀ t, Grows n (run t)) (env : Chain) (options : Options)
    (form : SpecialForm) : Grows n (special run env options form) := by
  cases form with
  | quote datum => exact .pure _
  | quasiquote template => exact fill_grows (fun _ => h _) template
  | letIn bindings body =>
      cases body with
      | none => exact .throw _
      | some body => exact .bind (bindFrame_grows h bindings env options) fun _ => h _
  | lambda params body =>
      cases body with
      | none => exact .throw _
      | some body => exact .bind (.lift _) fun _ => .bind .nextClosure fun _ => .pure _
  | cond items =>
      cases items with
      | list items => exact clauses_grows (fun _ => h _) options items
      | tuple items => exact clauses_grows (fun _ => h _) options items
      | _ => exact .throw _
  | apply callee args =>
      cases args with
      | none => exact .throw _
      | some args =>
          exact .bind (h _) fun _ => .bind (.mapM (fun _ => h _) _) fun _ => applyTo_grows h _ _ _

/-- A call by name, of a macro or of a function. -/
theorem generic_grows (h : ∀ t, Grows n (run t)) (form : Entries Value) (env : Chain)
    (options : Options) : Grows n (generic run form env options) := by
  refine .bind (.lift _) fun e => .bind (.resolve _ _) fun found => ?_
  cases found with
  | none => exact .throw _
  | some head =>
      refine .bind (.emit _) fun _ => ?_
      split
      · exact .bind (h _) fun _ => .bind (.emit _) fun _ => h _
      · split
        · exact .bind (.mapM (fun _ => h _) _) fun _ => applyTo_grows h _ _ _
        · exact .throw _

/-- **The rules of a step change no frame that was there**, if the evaluator of the parts changes
none. -/
theorem step_grows (host : Host) (h : ∀ t, Grows n (run t)) (task : Task) :
    Grows n (step host run task) := by
  cases task with
  | call fn args => exact call_grows host h fn args
  | eval expr env options =>
      cases expr with
      | text name => exact .lookup _ _
      | list items | tuple items => exact .bind (.mapM (fun _ => h _) items) fun _ => .pure _
      | mapping form =>
          simp only [step, expression]
          cases SpecialForm.ofEntries? form with
          | some s => exact .bind (.emit _) fun _ => special_grows h env options s
          | none => exact generic_grows h form env options
      | _ => exact .pure _

end Eval

/-! ### Runs -/

/-- **A run keeps the frames below any bound that its first state has reached.** -/
theorem run_grows (host : Host) (n fuel : Nat) (task : Task) :
    (run host fuel task).Grows n := by
  induction fuel generalizing task with
  | zero => exact .exhausted
  | succ fuel ih => exact Eval.step_grows host ih task

/-- **An evaluation keeps all frames that there are when it begins**, as they are, whatever it ends
in: also those that a `let` further out is still filling. -/
theorem eval_keeps_frames (host : Host) (fuel : Nat) (expr : Value) (env : Chain)
    (options : Options) {s s' : State} {o : Except Fault Value}
    (h : (run host fuel (.eval expr env options)).runFrom s = some (o, s')) :
    ∀ i < s.frames.size, s'.frames[i]? = s.frames[i]? :=
  (run_grows host s.frames.size fuel _ s o s' (Nat.le_refl _) h).kept

/-- The frame of a `let` that so far binds `f`, to a closure that sees the frame. -/
def halfFilled : State :=
  ⟨#[Frame.standard, [("f", .closure 0 ["x"] (.text "later") [1, 0] .lenient)]], 1, []⟩

/-- A `let` inside, whose binding calls `f` too early, fails and leaves the half filled frame of the
outer one as it is. -/
theorem eval_keeps_frames_halfFilled :
    ∃ s', (run hostTools 4 (.eval (.mapping [("let", .mapping [("y", .mapping [("f", .int 1)])]),
        ("in", .null)]) [1, 0] .lenient)).runFrom halfFilled =
          some (.error (.undefinedSymbol "'later'"), s') ∧
      ∀ i < halfFilled.frames.size, s'.frames[i]? = halfFilled.frames[i]? := by
  have h : ∃ s', (run hostTools 4 (.eval (.mapping [("let", .mapping [("y", .mapping
      [("f", .int 1)])]), ("in", .null)]) [1, 0] .lenient)).runFrom halfFilled =
        some (.error (.undefinedSymbol "'later'"), s') := ⟨_, rfl⟩
  obtain ⟨s', h⟩ := h
  exact ⟨s', h, eval_keeps_frames _ _ _ _ _ h⟩

end FormLang
