import FormLang.Eval.Run
import FormLang.Proofs.Alike.Sim

/-!
# Alike — two runs side by side

**Two runs of alike tasks go alike** (`Correspondence.run_follows`): from states that agree they
both run out of fuel, or end in the same fault, or in alike values, in states that agree again,
unless the second stops short.  The proof follows the rules of evaluation one by one; each rule
hands alike tasks on in the same order on both sides, and does nothing to the state beyond the six
operations of a correspondence.

In a narrow environment the code that is handed on has to read the names of the correspondence
again.  The parts of such code do (`Scope.Runs`), and so does what a macro answers with there, since
only the standard ones are found.
-/

namespace FormLang

namespace Eval

/-- A call of what its operator was found to name. -/
def headed (run : Task → EvalM Value) (name : String) (head : Value) (form : Entries Value)
    (under : Value) (env : Chain) (options : Options) : EvalM Value := do
  EvalM.emit (.call name head.kindName under.operands.length)
  if head.isMacro then expand run head (.mapping form) under.operands env options
  else if head.isCallable then
    let args ← under.operands.mapM fun e => run (.eval e env options)
    applyTo run name head args
  else throw (.notFunction name)

/-- A call looks up what its operator names, and goes on with that. -/
theorem generic_eq (run : Task → EvalM Value) (form : Entries Value) (env : Chain)
    (options : Options) : generic run form env options = (do
      let (name, under) ← EvalM.lift (operator form)
      match ← EvalM.resolve env name with
      | none => throw (if isMacroName name then .undefinedMacro name else .undefinedFunction name)
      | some head => headed run name head form under env options) :=
  rfl

end Eval

namespace Correspondence

variable {host : Host} {C : Correspondence host}

/-! ### The evaluator of the parts -/

/-- The evaluator does alike tasks alike. -/
structure Follows (C : Correspondence host) (run : Task → EvalM Value) : Prop where
  eval : ∀ {w : C.World} {k : Scope} {e e' : Value} {env env' : Chain} {options options' : Options},
    C.chains w k env env' → (C.link w).options options options' → k.Runs C.names e →
    C.Values w e e' → Sim C.Values w (run (.eval e env options)) (run (.eval e' env' options'))
  call : ∀ {w : C.World} {fn fn' : Value} {args args' : List Value}, C.Values w fn fn' →
    List.Forall₂ (C.Values w) args args' →
    Sim C.Values w (run (.call fn args)) (run (.call fn' args'))
  /-- A standard binding, with a tag or without, answers as it does by itself. -/
  standard : ∀ (m : Standard) (args : List Value),
    (run (.call (.standard m) args)).Refines (EvalM.lift (m.apply args)) ∧
    ∀ t, (run (.call (.tagged t (.standard m)) args)).Refines (EvalM.lift (m.apply args))

section Rules

variable {w : C.World} {k : Scope} {run : Task → EvalM Value} {env env' : Chain}
  {options options' : Options}

/-- Alike expressions, evaluated in environments that correspond, from any later world. -/
theorem Follows.later (hr : C.Follows run) (he : C.chains w k env env')
    (ho : (C.link w).options options options') : ∀ w' e e', C.Le w w' → k.Runs C.names e →
      C.Values w' e e' →
      Sim C.Values w' (run (.eval e env options)) (run (.eval e' env' options')) :=
  fun _ _ _ hw hk hv => hr.eval (hw.chains he) (hw.link.options ho) hk hv

/-- Alike tasks, where environments that correspond are free. -/
theorem Follows.task (hr : C.Follows run)
    (free : ∀ {c d}, (C.link w).chains c d → C.chains w .free c d) {task task' : Task}
    (h : Task.Alike (C.link w) task task') : Sim C.Values w (run task) (run task') := by
  cases h with
  | eval h he ho => exact hr.eval (free he) ho (.free _) h
  | call h ha => exact hr.call h ha

/-! ### The rules of evaluation -/

/-- Alike templates are filled alike, if their escapes are.  By induction on what the templates have
in common: an escape stands under the same name on both sides and is evaluated; items and entries
are filled in order, each from the world that those before it lead to. -/
theorem fill_sim {P : Value → Prop} {f g : Value → EvalM Value}
    (hf : ∀ w' e e', C.Le w w' → P e → C.Values w' e e' → Sim C.Values w' (f e) (g e'))
    {v v' : Value} (hP : ∀ e ∈ Eval.escapes v, P e) (h : Value.Alike (C.link w) v v') :
    Sim C.Values w (Eval.fill f v) (Eval.fill g v') := by
  have items : ∀ {vs vs' : List Value}, List.Forall₂ (fun v v' => ∃ _ : Value.Alike (C.link w) v v',
      (∀ e ∈ Eval.escapes v, P e) → Sim C.Values w (Eval.fill f v) (Eval.fill g v')) vs vs' →
      (∀ e ∈ Eval.itemEscapes vs, P e) →
      Sim (fun w => List.Forall₂ (C.Values w)) w (Eval.fillItems f vs) (Eval.fillItems g vs') := by
    intro vs vs' h hP
    induction h with
    | nil => exact .pure fun _ _ => .nil
    | cons h _ ih =>
        rw [Eval.itemEscapes, List.forall_mem_append] at hP
        refine .bind (h.2 hP.1) fun w₁ v v' hw₁ hv => ?_
        refine .bind ((ih hP.2).later hw₁) fun w₂ vs vs' hw₂ hvs => .pure fun w₃ hw₃ => ?_
        exact .cons (hv.mono (hw₂.trans hw₃).link) (hvs.imp fun _ _ k => k.mono hw₃.link)
  have entries : ∀ {es es' : Entries Value}, Entries.Forall₂ (fun v v' =>
      ∃ _ : Value.Alike (C.link w) v v', (∀ e ∈ Eval.escapes v, P e) →
        Sim C.Values w (Eval.fill f v) (Eval.fill g v')) es es' →
      (∀ e ∈ Eval.entryEscapes es, P e) →
      Sim (fun w => Entries.Forall₂ (C.Values w)) w (Eval.fillEntries f es)
        (Eval.fillEntries g es') := by
    intro es es' h hP
    induction h with
    | nil => exact .pure fun _ _ => .nil
    | cons h _ ih =>
        rw [Eval.entryEscapes, List.forall_mem_append] at hP
        refine .bind (h.2 hP.1) fun w₁ v v' hw₁ hv => ?_
        refine .bind ((ih hP.2).later hw₁) fun w₂ vs vs' hw₂ hvs => .pure fun w₃ hw₃ => ?_
        exact .cons (hv.mono (hw₂.trans hw₃).link) (hvs.imp fun _ _ k => k.mono hw₃.link)
  have whole := h
  induction h with
  | list _ ih =>
      refine .bind (items (ih.imp fun _ _ k => ⟨k.1, fun hP => k.2 hP k.1⟩) hP) fun _ _ _ _ h => ?_
      exact .value (.list h)
  | tuple _ ih =>
      refine .bind (items (ih.imp fun _ _ k => ⟨k.1, fun hP => k.2 hP k.1⟩) hP) fun _ _ _ _ h => ?_
      exact .value (.list h)
  | @mapping es fs h ih =>
      simp only [Eval.fill]
      simp only [Eval.escapes] at hP
      have hr := h.get? "$_"
      generalize Entries.get? "$_" es = a, Entries.get? "$_" fs = b at hr hP ⊢
      cases hr with
      | some he => exact hf w _ _ (.refl _ _) (hP _ List.mem_cons_self) he
      | none =>
          refine .bind (entries (ih.imp fun _ _ k => ⟨k.1, fun hP => k.2 hP k.1⟩) hP)
            fun _ _ _ _ h => ?_
          exact .value (.mapping h)
  | _ => exact .value whole

/-- Without a matching clause the two may part: a lenient `cond` is absent, a strict one fails. -/
theorem clauses_sim {f g : Value → EvalM Value}
    (hf : ∀ w' e e', C.Le w w' → k.Runs C.names e → C.Values w' e e' →
      Sim C.Values w' (f e) (g e')) (ho : (C.link w).options options options')
    {vs ws : List Value}
    (hk : ∀ clause, .mapping clause ∈ vs → ∀ e ∈ clause, k.Runs C.names e.2)
    (h : List.Forall₂ (Value.Alike (C.link w)) vs ws) :
    Sim C.Values w (Eval.clauses f options vs) (Eval.clauses g options' ws) := by
  induction h with
  | nil =>
      simp only [Eval.clauses]
      rcases C.options_cases ho with rfl | ⟨hc, lenient, strict⟩
      · split
        · exact .throw _
        · exact .value .undefined
      · rw [lenient, strict, if_neg Bool.false_ne_true, if_pos rfl]
        exact .cut hc (.value .undefined)
  | cons h _ ih =>
      have shown := h.display_eq
      cases h with
      | @mapping es fs h =>
          have runs := hk es List.mem_cons_self
          have rest := ih fun clause hc => hk clause (List.mem_cons_of_mem _ hc)
          simp only [Eval.clauses, h.keys_eq]
          have otherwise := h.get?_mem "else"
          generalize Entries.get? "else" es = a, Entries.get? "else" fs = b at otherwise ⊢
          cases otherwise with
          | some he => exact hf w _ _ (.refl _ _) (runs _ he.2) he.1
          | none =>
              have test := h.get?_mem "if"
              generalize Entries.get? "if" es = a, Entries.get? "if" fs = b at test ⊢
              cases test with
              | none => exact .throw _
              | some ht =>
                  refine .bind (hf w _ _ (.refl _ _) (runs _ ht.2) ht.1) fun w₁ v v' hw₁ hv => ?_
                  simp only [hv.truthy_eq]
                  split
                  · have result := h.get?_mem "then"
                    generalize Entries.get? "then" es = a, Entries.get? "then" fs = b at result ⊢
                    cases result with
                    | none => exact hf w₁ _ _ hw₁ .undefined .undefined
                    | some hr => exact hf w₁ _ _ hw₁ (runs _ hr.2) (hr.1.mono hw₁.link)
                  · exact rest.later hw₁
      | _ =>
          simp only [Eval.clauses, shown]
          exact .throw _

/-- The host goes on alike, if its replies are alike in every later world, and the second hands on
the faults with which its run may stop short. -/
theorem follow_sim (hr : C.Follows run) {r q : Reply}
    (h : ∀ w', C.Le w w' → Reply.Alike (C.link w') r q) (hq : ∀ e, C.cuts e → q.HandsOn e) :
    Sim C.Values w (Eval.follow run r) (Eval.follow run q) := by
  induction r generalizing w q with
  | value v =>
      cases h w (.refl _ _) with
      | value hv => exact .value hv
  | fault e =>
      cases h w (.refl _ _) with
      | fault => exact .throw _
  | call fn args resume ih =>
      have now := h w (.refl _ _)
      -- The call may lead to a later world, and there the replies are compared anew.
      cases now with
      | @call _ _ _ _ _ resume' hfn hargs _ =>
          refine .attempt_bind (hr.call hfn hargs) (fun w₁ o p hw₁ ho => ?_) fun e he => ?_
          · refine ih o (fun w₂ hw₂ => ?_) fun e he => (hq e he).2 p
            cases h w₂ (hw₁.trans hw₂) with
            | call _ _ next => exact next o p (ho.imp fun _ _ hv => hv.mono hw₂.link)
          · rw [(hq e he).1]
            rfl

/-- Alike callables are called alike.  Closures run their bodies in the environments that they have
captured, before which the frames of the arguments are put together; a standard binding answers
alike arguments alike, and the host respects the link. -/
theorem call_sim (hr : C.Follows run) {fn fn' : Value} {args args' : List Value}
    (h : Value.Alike (C.link w) fn fn')
    (ha : List.Forall₂ (Value.Alike (C.link w)) args args') :
    Sim C.Values w (Eval.call host run fn args) (Eval.call host run fn' args') := by
  have later : ∀ {w'}, C.Le w w' → List.Forall₂ (Value.Alike (C.link w')) args args' :=
    fun hw => ha.imp fun _ _ k => k.mono hw.link
  have whole := h
  cases h with
  | closure hi hb he ho hc =>
      obtain ⟨k, hc, hk, hp⟩ := C.captured he hc
      -- The frames of the arguments correspond before the bodies run, so the environments do.
      refine .bind (.allocate (fun w' hw => ?_) (.bindArguments _ hp args .nil))
        fun w₁ i j hw₁ hp => ?_
      · exact Frame.Alike.bindArguments _ .nil (later hw)
      refine .bind (.emit fun w' hw => ?_) fun w₂ _ _ hw₂ _ => ?_
      · exact .application (whole.mono (hw₁.trans hw).link) (later (hw₁.trans hw))
      · have hw := hw₁.trans hw₂
        exact hr.eval (C.chains_cons (hw₂.paired hp) (hw.chains hc)) (hw.link.options ho) hk
          (hb.mono hw.link)
  | standard s => exact .lift (s.apply_alike ha) fun _ _ _ hw h => h.mono hw.link
  | @host name h =>
      refine follow_sim hr (fun w' hw => ?_) fun e he => C.handsOn e he name args'
      exact C.respects w' name args args' (hw.link.hosts h) (later hw)
  | tagged h => exact hr.call h ha
  | _ => exact .throw _

/-- Alike values are applied alike: a macro on the one side is one on the other, and so is a
callable. -/
theorem applyTo_sim (hr : C.Follows run) (label : String) {fn fn' : Value}
    {args args' : List Value} (h : Value.Alike (C.link w) fn fn')
    (ha : List.Forall₂ (Value.Alike (C.link w)) args args') :
    Sim C.Values w (Eval.applyTo run label fn args) (Eval.applyTo run label fn' args') := by
  simp only [Eval.applyTo, h.isMacro_eq, h.isCallable_eq]
  split
  · exact .throw _
  · split
    · exact hr.call h ha
    · exact .throw _

/-- The two frames are filled in step, each binding in the world that those before it lead to. -/
theorem bindFrame_sim (hr : C.Follows run) {v v' : Value} (h : Value.Alike (C.link w) v v')
    (hk : ∀ es, v = .mapping es → ∀ e ∈ es, k.Binds e.1 ∧ k.Runs C.names e.2)
    (he : C.chains w k env env') (ho : (C.link w).options options options') :
    Sim (fun w => C.chains w k) w (Eval.bindFrame run v env options)
      (Eval.bindFrame run v' env' options') := by
  have shown := h.display_eq
  cases h with
  | @mapping es fs h =>
      clear shown
      replace hk := hk es rfl
      refine .bind (.allocate (k := k) (fun _ _ => .nil) .nil) fun w₁ i j hw₁ hp => ?_
      -- By induction on the entries, in whatever world those before have led to.
      have fills : ∀ w₂, C.Le w₁ w₂ → Sim (fun _ _ _ => True) w₂
          (es.forM fun e => run (.eval e.2 (i :: env) options) >>= fun v =>
            EvalM.bindName i e.1 (tag e.1 v))
          (fs.forM fun e => run (.eval e.2 (j :: env') options') >>= fun v =>
            EvalM.bindName j e.1 (tag e.1 v)) := by
        induction h with
        | nil => exact fun _ _ => .pure fun _ _ => trivial
        | @cons name v v' es fs h _ ih =>
            intro w₂ hw₂
            rw [List.forall_mem_cons] at hk
            have hw := hw₁.trans hw₂
            have inner := C.chains_cons (hw₂.paired hp) (hw.chains he)
            refine .bind (.bind (hr.eval inner (hw.link.options ho) hk.1.2 (h.mono hw.link))
              fun w₃ v v' hw₃ hv => .bindName ((hw₂.trans hw₃).paired hp) hk.1.1 hv)
              fun w₄ _ _ hw₄ _ => ih hk.2 w₄ (hw₂.trans hw₄)
      refine .bind (fills w₁ (.refl _ _)) fun w₂ _ _ hw₂ _ => .pure fun w₃ hw₃ => ?_
      have hw := hw₂.trans hw₃
      exact C.chains_cons (hw.paired hp) ((hw₁.trans hw).chains he)
  | _ =>
      simp only [Eval.bindFrame, shown]
      exact .throw _

/-- Alike special forms go alike.  A case for each kind: the parts are evaluated in step, `let`
fills two frames together, `lambda` makes closures that correspond, and a `cond` that finds no
clause is where the switches of the two runs may tell. -/
theorem special_sim (hr : C.Follows run) (he : C.chains w k env env')
    (ho : (C.link w).options options options') {form form' : SpecialForm}
    (hk : k.RunsForm C.names form) (h : SpecialForm.Alike (C.link w) form form') :
    Sim C.Values w (Eval.special run env options form) (Eval.special run env' options' form') := by
  cases h with
  | quote h => exact .value h
  | quasiquote h => exact fill_sim (hr.later he ho) hk.quasiquote h
  | letIn h hb =>
      cases hb with
      | none => exact .throw _
      | some hb =>
          have bindings := bindFrame_sim hr h (fun es hv => by subst hv; exact hk.letIn) he ho
          refine .bind bindings fun w₁ _ _ hw₁ hc => ?_
          exact hr.eval hc (hw₁.link.options ho) hk.letBody (hb.mono hw₁.link)
  | @lambda v v' a b h hb =>
      cases hb with
      | none => exact .throw _
      | some hb =>
          simp only [Eval.special, parameters_eq h.operands]
          refine .bind_lift _ fun params hparams => ?_
          refine .bind .nextClosure fun w₁ i j hw₁ hi => .value ?_
          rw [← parameters_eq h.operands] at hparams
          exact hi k params _ _ _ _ _ _ (hw₁.chains he) hk.lambda.2
            (fun name hn => hk.lambda.1 name (mem_of_parameters hparams hn)) (hw₁.link.options ho)
            (hb.mono hw₁.link)
  | cond h =>
      have shown := h.display_eq
      cases h with
      | list h => exact clauses_sim (hr.later he ho) ho hk.cond h
      | tuple h => exact clauses_sim (hr.later he ho) ho hk.cond h
      | _ =>
          simp only [Eval.special, shown]
          exact .throw _
  | apply h hb =>
      cases hb with
      | none => exact .throw _
      | some hb =>
          simp only [Eval.special, h.display_eq]
          refine .bind (hr.eval he ho hk.apply.1 h) fun w₁ fn fn' hw₁ hfn => ?_
          have args := hb.operands.imp fun _ _ k => k.mono hw₁.link
          refine .bind (.mapM (fun w' v v' hw => ?_) hk.apply.2 args) fun w₂ vs vs' hw₂ hvs => ?_
          · exact hr.later he ho w' v v' (hw₁.trans hw)
          · exact applyTo_sim hr _ (hfn.mono hw₂.link) hvs

/-- Where the operators name alike values, the two calls go on alike.  What a macro answers with has
to be code that may run there. -/
theorem headed_sim (hr : C.Follows run) (he : C.chains w k env env')
    (ho : (C.link w).options options options') (name : String) {head head' : Value}
    (hv : Value.Alike (C.link w) head head') {es fs : Entries Value}
    (h : Entries.Forall₂ (Value.Alike (C.link w)) es fs) {under under' : Value}
    (hu : Value.Alike (C.link w) under under') (hk : ∀ e ∈ under.operands, k.Runs C.names e)
    (hm : head.isMacro = true → k = .narrow → ∃ m : Standard,
      head = .tagged .expander (.standard m) ∧
      ∀ answer, m.apply (.mapping es :: under.operands) = .ok answer → k.Runs C.names answer) :
    Sim C.Values w (Eval.headed run name head es under env options)
      (Eval.headed run name head' fs under' env' options') := by
  have operands := hu.operands
  simp only [Eval.headed, ← hv.kindName_eq, ← hv.isMacro_eq, ← hv.isCallable_eq,
    ← operands.length_eq]
  refine .bind (.emit fun _ _ => .call _ _ _) fun w₁ _ _ hw₁ _ => ?_
  have items := operands.imp fun _ _ k => k.mono hw₁.link
  -- A macro is given the form itself; a function is given values.
  split
  · rename_i isMacro
    have form := Value.Alike.mapping (h.imp fun _ _ k => k.mono hw₁.link)
    have answers : Sim (fun w v v' => C.Values w v v' ∧ k.Runs C.names v) w₁
        (run (.call head (.mapping es :: under.operands)))
        (run (.call head' (.mapping fs :: under'.operands))) := by
      have call := hr.call (hv.mono hw₁.link) (.cons form items)
      cases k with
      | free => exact call.imp fun _ _ _ h => ⟨h, .free _⟩
      | narrow =>
          -- The macro is a standard one, so its answer is known.
          obtain ⟨m, rfl, runs⟩ := hm isMacro rfl
          have known := call.of_refines ((hr.standard m _).2 .expander)
          exact known.imp fun _ _ _ h => ⟨h.1, runs _ h.2⟩
    refine .bind answers fun w₂ v v' hw₂ ha => ?_
    refine .bind (.emit fun w' hw' => ?_) fun w₃ _ _ hw₃ _ => ?_
    · exact .expansion (form.mono (hw₂.trans hw').link) (ha.1.mono hw'.link)
    · exact hr.later he ho w₃ _ _ (hw₁.trans (hw₂.trans hw₃)) ha.2 (ha.1.mono hw₃.link)
  · split
    · refine .bind (.mapM (fun w' v v' hw' => hr.later he ho w' v v' (hw₁.trans hw')) hk items)
        fun w₂ vs vs' hw₂ hvs => ?_
      exact applyTo_sim hr name (hv.mono (hw₁.trans hw₂).link) hvs
    · exact .throw _

/-- Alike calls by name go alike.  The operators are the same text; under it both runs find alike
values, or neither finds any, or the second alone finds none and stops short. -/
theorem generic_sim (hr : C.Follows run) (he : C.chains w k env env')
    (ho : (C.link w).options options options') {es fs : Entries Value}
    (hf : SpecialForm.ofEntries? es = none) (hk : k.Runs C.names (.mapping es))
    (h : Entries.Forall₂ (Value.Alike (C.link w)) es fs) :
    Sim C.Values w (Eval.generic run es env options) (Eval.generic run fs env' options') := by
  have op : Sim (fun w e f => (e.1 = f.1 ∧ C.Values w e.2 f.2) ∧ operator es = .ok e) w
      (EvalM.lift (operator es)) (EvalM.lift (operator fs)) :=
    .lift (operator_alike h).and_answer fun w' e f hw h => ⟨⟨h.1.1, h.1.2.mono hw.link⟩, h.2⟩
  rw [Eval.generic_eq, Eval.generic_eq]
  refine .bind op fun w₁ e f hw₁ hop => ?_
  obtain ⟨name, under⟩ := e
  obtain ⟨name', under'⟩ := f
  obtain ⟨⟨rfl, hu⟩, hop⟩ := hop
  refine .bind (.resolve (hw₁.chains he) (hk.sees hf hop)) fun w₂ a b hw₂ hres => ?_
  obtain ⟨found, hmacro⟩ := hres
  have goes : ∀ {head head'}, a = some head → C.Values w₂ head head' → Sim C.Values w₂
      (Eval.headed run name head es under env options)
      (Eval.headed run name head' fs under' env' options') := by
    intro head head' ha hv
    have hw := hw₁.trans hw₂
    refine headed_sim hr (hw.chains he) (hw.link.options ho) name hv
      (h.imp fun _ _ k => k.mono hw.link) (hu.mono hw₂.link) (hk.operands hf hop)
      fun hm narrow => ?_
    obtain ⟨m, hs, rfl, hn⟩ := hmacro head ha hm narrow
    exact ⟨m, hs, fun _ answer => hk.answer hf hop hn answer⟩
  cases found with
  | neither => exact .throw _
  | both hv => exact goes rfl hv
  | first hv hc => exact .cut (hc _ (by dsimp only; split <;> rfl)) (goes rfl hv)

/-- Alike expressions are evaluated alike. -/
theorem expression_sim (hr : C.Follows run) (he : C.chains w k env env')
    (ho : (C.link w).options options options') {e e' : Value} (hk : k.Runs C.names e)
    (h : Value.Alike (C.link w) e e') :
    Sim C.Values w (Eval.expression run e env options) (Eval.expression run e' env' options') := by
  have whole := h
  cases h with
  | text name => exact .lookup he hk.text
  | list h =>
      exact .bind (.mapM (hr.later he ho) hk.list h) fun _ _ _ _ hvs => .value (.list hvs)
  | tuple h =>
      exact .bind (.mapM (hr.later he ho) hk.tuple h) fun _ _ _ _ hvs => .value (.list hvs)
  | @mapping es fs h =>
      simp only [Eval.expression]
      have hf := SpecialForm.ofEntries?_rel h
      generalize ha : SpecialForm.ofEntries? es = a, SpecialForm.ofEntries? fs = b at hf ⊢
      cases hf with
      | none => exact generic_sim hr he ho ha hk h
      | some hf =>
          simp only [hf.kind_eq]
          refine .bind (.emit fun _ _ => .specialForm _) fun w₁ _ _ hw₁ _ => ?_
          exact special_sim hr (hw₁.chains he) (hw₁.link.options ho) (hk.special ha)
            (hf.mono hw₁.link)
  | _ => exact .value whole

theorem step_follows (hr : C.Follows run) : C.Follows (Eval.step host run) where
  eval he ho hk h := expression_sim hr he ho hk h
  call h ha := call_sim hr h ha
  standard m args := ⟨.refl _, fun _ => (hr.standard m args).1⟩

end Rules

/-- **Two runs of alike tasks go alike.** -/
theorem run_follows (C : Correspondence host) (fuel : Nat) : C.Follows (run host fuel) := by
  induction fuel with
  | zero =>
      exact ⟨fun _ _ _ _ => .exhausted, fun _ _ => .exhausted,
        fun _ _ => ⟨.exhausted _, fun _ => .exhausted _⟩⟩
  | succ fuel ih => exact step_follows ih

end Correspondence

end FormLang
