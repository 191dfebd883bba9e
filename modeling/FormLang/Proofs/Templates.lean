import FormLang.Proofs.Binding
import FormLang.Proofs.Macros

/-!
# Templates — macros that substitute

A macro whose body is a template answers with the template filled in: its parameters are bound to
the operands as they stand, unevaluated, so what stands in the place of an escape of a parameter is
the operand itself.  The answer is then evaluated where the macro was called.

So **a call of a template macro does what the template does with the operands put in**
(`template_macro_substitutes`).  `Value.substitute` says what that is without any evaluation.  The
call makes one frame more, that of the parameters, which nothing can reach any more when the answer
is evaluated; so the outcomes are the same up to the frames and closures that are new.
-/

namespace FormLang

/-! ### Substitution -/

namespace Value

mutual
/-- The template with `code` in the place of its outermost escapes, by name, and with lists in the
place of its own sequences.  An escape of anything else than a name of `code` stays. -/
def substitute (code : Entries Value) : Value → Value
  | .list items | .tuple items => .list (substituteItems code items)
  | .mapping entries =>
    match Entries.get? "$_" entries with
    | some (.text name) => (Entries.get? name code).getD (.mapping entries)
    | some _ => .mapping entries
    | none => .mapping (substituteEntries code entries)
  | v => v
termination_by structural v => v

def substituteItems (code : Entries Value) : List Value → List Value
  | [] => []
  | v :: rest => substitute code v :: substituteItems code rest
termination_by structural vs => vs

def substituteEntries (code : Entries Value) : List (String × Value) → List (String × Value)
  | [] => []
  | (name, v) :: rest => (name, substitute code v) :: substituteEntries code rest
termination_by structural es => es
end

/-- A template and code that correspond give code that corresponds. -/
theorem Alike.substitute {l : Link} {code code' : Entries Value}
    (hc : Entries.Forall₂ (Alike l) code code') {v w : Value} (h : Alike l v w) :
    Alike l (v.substitute code) (w.substitute code') := by
  have items : ∀ {vs ws : List Value}, List.Forall₂ (fun v w => ∃ _ : Alike l v w,
      Alike l (v.substitute code) (w.substitute code')) vs ws →
      List.Forall₂ (Alike l) (substituteItems code vs) (substituteItems code' ws) := by
    intro vs ws h
    induction h with
    | nil => exact .nil
    | cons h _ ih => exact .cons h.2 ih
  have entries : ∀ {es fs : Entries Value}, Entries.Forall₂ (fun v w => ∃ _ : Alike l v w,
      Alike l (v.substitute code) (w.substitute code')) es fs →
      Entries.Forall₂ (Alike l) (substituteEntries code es) (substituteEntries code' fs) := by
    intro es fs h
    induction h with
    | nil => exact .nil
    | cons h _ ih => exact .cons h.2 ih
  have whole := h
  induction h with
  | list _ ih => exact .list (items (ih.imp fun _ _ k => ⟨k.1, k.2 k.1⟩))
  | tuple _ ih => exact .list (items (ih.imp fun _ _ k => ⟨k.1, k.2 k.1⟩))
  | @mapping es fs h ih =>
      simp only [Value.substitute]
      have hr := h.get? "$_"
      generalize Entries.get? "$_" es = a, Entries.get? "$_" fs = b at hr ⊢
      cases hr with
      | none => exact .mapping (entries (ih.imp fun _ _ k => ⟨k.1, k.2 k.1⟩))
      | some he =>
          cases he with
          | text name =>
              have hr := hc.get? name
              dsimp only
              generalize Entries.get? name code = a, Entries.get? name code' = b at hr ⊢
              cases hr with
              | none => exact whole
              | some hv => exact hv
          | _ => exact whole
  | _ => exact whole

end Value

/-! ### Filling in a template -/

namespace Eval

section Fill

variable {code : Entries Value} {s : State} (eval : Value → EvalM Value)

/-- In `s`, what stands under an escape is a name, which evaluates to its code. -/
def Supplies (code : Entries Value) (s : State) (e : Value) : Prop :=
  ∃ name v, e = .text name ∧ Entries.get? name code = some v ∧
    (eval e).runFrom s = some (.ok v, s)

mutual
/-- Filling in a template puts code in the place of its escapes. -/
theorem fill_eq_substitute : (template : Value) → (∀ e ∈ escapes template, Supplies eval code s e) →
    (fill eval template).runFrom s = some (.ok (template.substitute code), s)
  | .list items, h | .tuple items, h => by
      rw [escapes] at h
      rw [fill, EvalM.runFrom_bind, fillItems_eq_substituteItems items h]
      rfl
  | .mapping entries, h => by
      simp only [escapes] at h
      simp only [fill, Value.substitute]
      generalize hg : Entries.get? "$_" entries = escaped at h ⊢
      cases escaped with
      | none =>
          dsimp only at h ⊢
          rw [EvalM.runFrom_bind, fillEntries_eq_substituteEntries entries h]
          rfl
      | some escaped =>
          obtain ⟨name, v, rfl, hv, he⟩ := h escaped List.mem_cons_self
          simp [hv, he]
  | .null, _ | .bool _, _ | .int _, _ | .float _, _ | .text _, _ | .undefined, _
  | .closure .., _ | .standard _, _ | .host _, _ | .tagged .., _ => rfl

theorem fillItems_eq_substituteItems : (items : List Value) →
    (∀ e ∈ itemEscapes items, Supplies eval code s e) →
    (fillItems eval items).runFrom s = some (.ok (Value.substituteItems code items), s)
  | [], _ => rfl
  | v :: rest, h => by
      rw [itemEscapes, List.forall_mem_append] at h
      rw [fillItems, EvalM.runFrom_bind, fill_eq_substitute v h.1]
      dsimp only
      rw [EvalM.runFrom_bind, fillItems_eq_substituteItems rest h.2]
      rfl

theorem fillEntries_eq_substituteEntries : (entries : List (String × Value)) →
    (∀ e ∈ entryEscapes entries, Supplies eval code s e) →
    (fillEntries eval entries).runFrom s = some (.ok (Value.substituteEntries code entries), s)
  | [], _ => rfl
  | (name, v) :: rest, h => by
      rw [entryEscapes, List.forall_mem_append] at h
      rw [fillEntries, EvalM.runFrom_bind, fill_eq_substitute v h.1]
      dsimp only
      rw [EvalM.runFrom_bind, fillEntries_eq_substituteEntries rest h.2]
      rfl
end

end Fill

end Eval

/-! ### Template macros -/

variable {host : Host} {s : State} {env : Chain} {options : Options}

/-- A macro that answers with the template, its parameters put in.  Beside these it takes the form
in which it is called. -/
def templateForm (params : List String) (template : Value) : Value :=
  lambdaForm ("form" :: params) (.mapping [("_$", template)])

/-- The parameters of a template macro are bound to the operands as they stand. -/
theorem Frame.get?_bindArguments_template {params : List String}
    (distinct : ("form" :: params).Nodup) {operands : List Value}
    (length : operands.length = params.length) (code : ∀ e ∈ operands, e.isCallable = false)
    (form : Value) {p : String} (hp : p ∈ params) :
    ∃ v, Entries.get? p (params.zip operands) = some v ∧
      Entries.get? p (Frame.bindArguments [] ("form" :: params) (form :: operands)) = some v := by
  have keys : Entries.keys (params.zip operands) = params := List.map_fst_zip (by omega)
  have values : (params.zip operands).map Prod.snd = operands := List.map_snd_zip (by omega)
  have entries := Frame.bindArguments_keys (("form", form) :: params.zip operands) []
  rw [Entries.keys_cons, List.map_cons, keys, values] at entries
  have found : p ∈ Entries.keys (params.zip operands) := by rwa [keys]
  have other : "form" ≠ p := by
    rintro rfl
    exact (List.nodup_cons.1 distinct).1 hp
  rw [← Entries.has_iff_mem_keys, Entries.has, Option.isSome_iff_exists] at found
  obtain ⟨v, hv⟩ := found
  have plain : v.isCallable = false :=
    code v (values ▸ List.mem_map_of_mem (Entries.mem_of_get? hv))
  refine ⟨v, hv, ?_⟩
  rw [entries, Frame.get?_bindAll_nil (by rwa [Entries.keys_cons, keys]), Frame.ofEntries,
    Entries.get?_mapValues, Entries.get?_cons, if_neg other, hv]
  simp [tag, plain]

section Template

variable {params : List String} {template : Value} {operands : List Value}
  (distinct : ("form" :: params).Nodup)
  (escapes : ∀ e ∈ Eval.escapes template, ∃ p ∈ params, e = .text p)
  (length : operands.length = params.length) (code : ∀ e ∈ operands, e.isCallable = false)
include distinct escapes length code

/-- A template macro answers with the template, the operands put in, and leaves a frame behind. -/
theorem run_template (fuel id : Nat) (form : Value) (s : State) :
    ∃ log, (run host (fuel + 4) (.call (.tagged .expander (.closure id ("form" :: params)
        (.mapping [("_$", template)]) env options)) (form :: operands))).runFrom s =
      some (.ok (template.substitute (params.zip operands)),
        s.entered (Frame.bindArguments [] ("form" :: params) (form :: operands)) log) := by
  refine ⟨_, Eval.fill_eq_substitute (fun e =>
    run host (fuel + 1) (.eval e (s.frames.size :: env) options)) template fun e he => ?_⟩
  obtain ⟨p, hp, rfl⟩ := escapes e he
  obtain ⟨v, hv, hb⟩ := Frame.get?_bindArguments_template distinct length code form hp
  refine ⟨p, v, rfl, hv, (EvalM.runFrom_lookup _ p _).trans ?_⟩
  simp [State.resolve, hb]

/-- So its expansion evaluates that, where the macro is called. -/
theorem expand_template (fuel id : Nat) (form : Value) (env' : Chain) (options' : Options)
    (s : State) :
    ∃ t, s.Grows s.frames.size t ∧
      (Eval.expand (run host (fuel + 4)) (.tagged .expander (.closure id ("form" :: params)
        (.mapping [("_$", template)]) env options)) form operands env' options').runFrom s =
      (run host (fuel + 4) (.eval (template.substitute (params.zip operands)) env'
        options')).runFrom t := by
  obtain ⟨log, answered⟩ := run_template distinct escapes length code fuel id form s
  have grows := run_grows host s.frames.size _ _ _ _ _ (Nat.le_refl _) answered
  refine ⟨s.entered (Frame.bindArguments [] ("form" :: params) (form :: operands))
    (.expansion form (template.substitute (params.zip operands)) :: log),
    ⟨grows.kept, grows.frames, grows.closures⟩, ?_⟩
  rw [Eval.expand, EvalM.runFrom_bind, answered]
  rfl

end Template

/-- A `let` of a template macro makes one closure and binds it. -/
theorem bindFrame_template {name : String} (hn : isMacroName name = true) (params : List String)
    (template : Value) (host : Host) (env : Chain) (options : Options) (fuel : Nat) (s : State) :
    (Eval.bindFrame (run host (fuel + 1)) (.mapping [(name, templateForm params template)])
        env options).runFrom s =
      some (.ok (s.frames.size :: env), { s with closures := s.closures + 1 }.entered
        [(name, .tagged .expander (.closure s.closures ("form" :: params)
          (.mapping [("_$", template)]) (s.frames.size :: env) options))]
        (.specialForm .lambda :: s.log)) := by
  have tagged : tag name (.closure s.closures ("form" :: params) (.mapping [("_$", template)])
      (s.frames.size :: env) options) = .tagged .expander (.closure s.closures ("form" :: params)
        (.mapping [("_$", template)]) (s.frames.size :: env) options) := by
    simp [tag, Value.isCallable, hn, Value.untagged]
  simp only [Eval.bindFrame, List.forM, templateForm]
  rw [EvalM.runFrom_bind, EvalM.runFrom_allocate]
  dsimp only
  rw [EvalM.runFrom_bind, EvalM.runFrom_bind, EvalM.runFrom_bind, run_lambdaForm]
  simp [tagged, modify_push_size, State.entered, Entries.insert]

/-- Whatever stands in a `let` of a template macro is evaluated behind one new frame, in a closed
state. -/
theorem run_letIn_template {held : String → Extent} (hu : host.Uniform held) {name : String}
    (hn : isMacroName name = true) (params : List String) {template : Value} {s : State}
    (closed : s.Closed held) (known : template.Known held s.extent) {env : Chain}
    (there : ∀ i ∈ env, i < s.frames.size) (options : Options) :
    ∃ t, t.Closed held ∧ (Renaming.same s.extent).Le (.same t.extent) ∧
      List.Forall₂ (Renaming.same t.extent).frames (s.frames.size :: env) (s.frames.size :: env) ∧
      t.resolve (s.frames.size :: env) name = some (.tagged .expander (.closure s.closures
        ("form" :: params) (.mapping [("_$", template)]) (s.frames.size :: env) options)) ∧
      ∀ fuel body, (run host (fuel + 2) (.eval (letIn (.mapping [(name, templateForm params
          template)]) body) env options)).runFrom s =
        (run host (fuel + 1) (.eval body (s.frames.size :: env) options)).runFrom t := by
  have bindings : (Value.mapping [(name, templateForm params template)]).Known held s.extent := by
    have texts : ∀ v ∈ ("form" :: params).map Value.text, v.Known held s.extent := by
      intro v hv
      obtain ⟨p, -, rfl⟩ := List.mem_map.1 hv
      exact .text p
    exact .mapping (.cons (.mapping (.cons (.list (List.forall₂_same.2 texts))
      (.cons (.mapping (.cons known .nil)) .nil))) .nil)
  have bound := fun fuel => bindFrame_template hn params template host env options fuel
    { s with log := .specialForm .letIn :: s.log }
  have sim := Correspondence.bindFrame_sim (C := .known hu) (w := s.extent) (k := .free)
    (Correspondence.run_follows _ 1) bindings (fun _ _ _ _ => ⟨.free _, .free _⟩)
    (Renaming.same_chain there) (rfl : options = options)
  obtain ⟨closed', chain⟩ := Correspondence.Sim.closed
    (s := { s with log := .specialForm .letIn :: s.log }) sim ⟨closed.frames, closed.closures⟩
    (bound 0)
  refine ⟨_, closed', Renaming.same_le ?_ (Nat.le_succ _), chain _ rfl, ?_, fun fuel body => ?_⟩
  · simp [State.extent, State.entered]
  · simp [State.resolve, State.entered, Entries.get?]
  · rw [run_letIn, EvalM.runFrom_bind, bound fuel]

/-- **A template macro substitutes.**  Let the parameters be distinct, none of them `form`, and let
the template escape parameters only.  In a `let` that binds a template macro, its call with as many
operands as it has parameters, none of them callable, has the outcome of the template with the
operands put in, unevaluated, in the place of the parameters.  This holds in every environment and
under any switches; the outcomes are the same up to the frames and closures that are new. -/
theorem template_macro_substitutes {held : String → Extent} (hu : host.Uniform held)
    {params : List String} {template : Value} {operands : List Value} {name : String}
    (distinct : ("form" :: params).Nodup)
    (escapes : ∀ e ∈ Eval.escapes template, ∃ p ∈ params, e = .text p)
    (hn : isMacroName name = true) (hq : name ≠ "$")
    (length : operands.length = params.length) (code : ∀ e ∈ operands, e.isCallable = false)
    {s : State} (closed : s.Closed held) (known : template.Known held s.extent)
    (knowns : ∀ e ∈ operands, e.Known held s.extent) {env : Chain}
    (there : ∀ i ∈ env, i < s.frames.size) (options : Options) (fuel : Nat) :
    Option.Rel (SameOutcome held (.same s.extent))
      ((run host (fuel + 6) (.eval (letIn (.mapping [(name, templateForm params template)])
        (.mapping [(name, .list operands)])) env options)).runFrom s)
      ((run host (fuel + 5) (.eval (letIn (.mapping [(name, templateForm params template)])
        (template.substitute (params.zip operands))) env options)).runFrom s) := by
  obtain ⟨t, closed', le, chain, resolved, unfolds⟩ :=
    run_letIn_template hu hn params closed known there options
  have answer : (template.substitute (params.zip operands)).Known held s.extent :=
    .substitute (.same fun e he => knowns e.2 (List.of_mem_zip he).2) known
  obtain ⟨u, grows, expanded⟩ := expand_template distinct escapes length code fuel s.closures
    (.mapping [(name, .list operands)]) (s.frames.size :: env) options _
  rw [unfolds (fuel + 4), unfolds (fuel + 3), run_macro hn hq rfl resolved]
  refine SameOutcome.weaken le (expanded ▸ ?_)
  -- The frame of the parameters has no counterpart, and nothing leads to it.
  have matched : Matched held (.same t.extent) u t :=
    MatchedBy.grow closed' ⟨grows.kept, grows.frames, grows.closures⟩ (.refl _ _)
  exact run_matched hu matched (.eval (answer.mono le.link) chain rfl) (fuel + 4)

/-- A template that binds `x` around its operand. -/
def capturing : Value :=
  letIn (.mapping [("x", .int 2)])
    (.mapping [("plus", .tuple [.mapping [("$_", .text "e")], .text "x"])])

/-- Substitution is textual: a template that binds `x` captures the `x` of its operand, which means
nothing outside. -/
theorem template_macro_substitutes_capturing :
    capturing.substitute [("e", .text "x")] = letIn (.mapping [("x", .int 2)])
      (.mapping [("plus", .list [.text "x", .text "x"])]) ∧
    ∃ s t,
      (run hostTools 10 (.eval (letIn (.mapping [("$bump", templateForm ["e"] capturing)])
        (.mapping [("$bump", .list [.text "x"])])) [0] .lenient)).runFrom .initial =
          some (.ok (.int 4), s) ∧
      SameOutcome holdsNothing (.same State.initial.extent) (.ok (.int 4), s) (.ok (.int 4), t) ∧
      (run hostTools 9 (.eval (letIn (.mapping [("$bump", templateForm ["e"] capturing)])
        (capturing.substitute [("e", .text "x")])) [0] .lenient)).runFrom .initial =
          some (.ok (.int 4), t) := by
  have operator : (Value.mapping [("plus", .tuple [.mapping [("$_", .text "e")],
      .text "x"])]).Known holdsNothing State.initial.extent :=
    .mapping (.cons (.tuple (.cons (.mapping (.cons (.text _) .nil)) (.cons (.text _) .nil))) .nil)
  have known : capturing.Known holdsNothing State.initial.extent :=
    .mapping (.cons (.mapping (.cons (.int 2) .nil)) (.cons operator .nil))
  have escapes : ∀ e ∈ Eval.escapes capturing, ∃ p ∈ ["e"], e = .text p :=
    fun e he => ⟨"e", by decide, List.mem_singleton.1 he⟩
  have plain : ∀ e ∈ [Value.text "x"], e.isCallable = false ∧
      e.Known holdsNothing State.initial.extent := by
    intro e he
    cases List.mem_singleton.1 he
    exact ⟨rfl, .text _⟩
  have same := template_macro_substitutes (hostTools_uniform holdsNothing) (by decide) escapes
    (by decide : isMacroName "$bump" = true) (by decide) rfl (fun e he => (plain e he).1)
    (State.initial_closed _) known (fun e he => (plain e he).2)
    (by decide : ∀ i ∈ [0], i < State.initial.frames.size) .lenient 4
  cases same with
  | some same => exact ⟨rfl, _, _, rfl, same, rfl⟩

end FormLang
