import FormLang.Host
import FormLang.Proofs.Alike.Standard
import FormLang.Eval.Step

/-!
# Alike — frames, forms, tasks and replies

The relation of alike values, carried over to what is made of values.  Alike values are bound as
alike values and read as alike forms, so that the rules of evaluation split into cases on both
sides at once.

Frames are compared by what their names are bound to, whatever the order of their entries: nothing
in an evaluation sees that order.
-/

namespace FormLang

open Value (Alike)

variable {l : Link}

/-! ### Bindings -/

theorem untagged_alike {v w : Value} (h : Alike l v w) : Alike l v.untagged w.untagged := by
  have whole := h
  cases h with
  | tagged h => exact h
  | _ => exact whole

/-- Alike values are tagged alike. -/
theorem tag_alike (name : String) {v w : Value} (h : Alike l v w) :
    Alike l (tag name v) (tag name w) := by
  have fn := untagged_alike h
  have marked : ∀ t : Tag, Alike l (.tagged t v.untagged) (.tagged t w.untagged) :=
    fun _ => .tagged fn
  simp only [tag, ← h.isCallable_eq, ← fn.isClosure_eq]
  split
  · exact h
  · have whole := h
    split
    · cases h with
      | @tagged t => cases t with
        | function => exact marked .expander
        | expander => exact whole
      | _ => exact marked .expander
    · cases h with
      | @tagged t => cases t with
        | function => exact whole
        | expander =>
            dsimp only
            split
            · exact fn
            · exact marked .function
      | _ =>
          dsimp only
          split
          · exact fn
          · exact marked .function

/-- Every name is bound in both frames, to alike values, or in neither. -/
def Frame.Alike (l : Link) (f g : Frame) : Prop :=
  ∀ name, Option.Rel (Value.Alike l) (Entries.get? name f) (Entries.get? name g)

namespace Frame.Alike

theorem mono {l' : Link} (hl : l.Le l') {f g : Frame} (h : Frame.Alike l f g) :
    Frame.Alike l' f g :=
  fun name => Value.Alike.option_mono hl (h name)

theorem nil : Frame.Alike l [] [] :=
  fun _ => .none

theorem of_forall₂ {f g : Frame} (h : Entries.Forall₂ (Value.Alike l) f g) : Frame.Alike l f g :=
  h.get?

/-- Alike bindings under one name. -/
theorem insert {f g : Frame} (h : Frame.Alike l f g) (name : String) {v w : Value}
    (hv : Value.Alike l v w) :
    Frame.Alike l (Entries.insert name v f) (Entries.insert name w g) := by
  intro other
  rw [Entries.get?_insert, Entries.get?_insert]
  split
  · exact .some hv
  · exact h other

/-- Alike arguments under the same parameters.  By induction on the parameters; where arguments are
missing, both sides bind the absent value. -/
theorem bindArguments (params : List String) :
    ∀ {f g : Frame} {vs ws : List Value}, Frame.Alike l f g →
      List.Forall₂ (Value.Alike l) vs ws →
      Frame.Alike l (Frame.bindArguments f params vs) (Frame.bindArguments g params ws) := by
  induction params with
  | nil => exact fun h _ => h
  | cons p ps ih =>
      intro f g vs ws h hs
      cases hs with
      | nil => exact ih (h.insert p .undefined) .nil
      | cons hv hs => exact ih (h.insert p (tag_alike p hv)) hs

/-- The standard frame mentions no closures, so it is alike to itself under every link. -/
theorem standard (l : Link) : Frame.Alike l Frame.standard Frame.standard := by
  have all : Entries.Forall₂ (Value.Alike l) (Standard.all.map fun s => (s.symbol, .standard s))
      (Standard.all.map fun s => (s.symbol, .standard s)) := by
    refine .same fun e he => ?_
    obtain ⟨s, -, rfl⟩ := List.mem_map.1 he
    exact .standard s
  exact .of_forall₂ (all.mapValues fun name _ _ => tag_alike name)

end Frame.Alike

/-! ### Forms -/

/-- The same kind of form, with alike parts. -/
inductive SpecialForm.Alike (l : Link) : SpecialForm → SpecialForm → Prop where
  | quote {v w : Value} (h : Value.Alike l v w) : Alike l (.quote v) (.quote w)
  | quasiquote {v w : Value} (h : Value.Alike l v w) : Alike l (.quasiquote v) (.quasiquote w)
  | letIn {v w : Value} {a b : Option Value} (h : Value.Alike l v w)
      (hb : Option.Rel (Value.Alike l) a b) : Alike l (.letIn v a) (.letIn w b)
  | lambda {v w : Value} {a b : Option Value} (h : Value.Alike l v w)
      (hb : Option.Rel (Value.Alike l) a b) : Alike l (.lambda v a) (.lambda w b)
  | cond {v w : Value} (h : Value.Alike l v w) : Alike l (.cond v) (.cond w)
  | apply {v w : Value} {a b : Option Value} (h : Value.Alike l v w)
      (hb : Option.Rel (Value.Alike l) a b) : Alike l (.apply v a) (.apply w b)

theorem SpecialForm.Alike.kind_eq {f g : SpecialForm} (h : SpecialForm.Alike l f g) :
    f.kind = g.kind := by
  cases h <;> rfl

theorem SpecialForm.Alike.mono {l' : Link} (hl : l.Le l') {f g : SpecialForm}
    (h : SpecialForm.Alike l f g) : SpecialForm.Alike l' f g := by
  cases h with
  | quote h => exact .quote (h.mono hl)
  | quasiquote h => exact .quasiquote (h.mono hl)
  | letIn h hb => exact .letIn (h.mono hl) (Alike.option_mono hl hb)
  | lambda h hb => exact .lambda (h.mono hl) (Alike.option_mono hl hb)
  | cond h => exact .cond (h.mono hl)
  | apply h hb => exact .apply (h.mono hl) (Alike.option_mono hl hb)

/-- Alike mappings are alike special forms, or neither is one. -/
theorem SpecialForm.ofEntries?_rel {es fs : Entries Value}
    (h : Entries.Forall₂ (Value.Alike l) es fs) :
    Option.Rel (SpecialForm.Alike l) (ofEntries? es) (ofEntries? fs) := by
  have orElse : ∀ {a b c d : Option SpecialForm}, Option.Rel (SpecialForm.Alike l) a b →
      Option.Rel (SpecialForm.Alike l) c d →
      Option.Rel (SpecialForm.Alike l) (a <|> c) (b <|> d) := by
    intro a b c d hab hcd
    cases hab with
    | some h => exact .some h
    | none => exact hcd
  have under : ∀ (name : String) {f g : Value → SpecialForm},
      (∀ v w, Value.Alike l v w → SpecialForm.Alike l (f v) (g w)) →
      Option.Rel (SpecialForm.Alike l) ((Entries.get? name es).map f)
        ((Entries.get? name fs).map g) := by
    intro name f g hfg
    have hr := h.get? name
    generalize Entries.get? name es = a, Entries.get? name fs = b at hr ⊢
    cases hr with
    | some h => exact .some (hfg _ _ h)
    | none => exact .none
  refine orElse (under "$" fun _ _ => .quote) (orElse (under "_$" fun _ _ => .quasiquote) ?_)
  refine orElse (under "let" fun _ _ hv => .letIn hv (h.get? "in")) ?_
  refine orElse (under "lambda" fun _ _ hv => .lambda hv (h.get? "body")) ?_
  exact orElse (under "cond" fun _ _ => .cond)
    (under "apply" fun _ _ hv => .apply hv (h.get? "args"))

/-- Alike mappings have alike operators, or fail alike. -/
theorem operator_alike {es fs : Entries Value} (h : Entries.Forall₂ (Value.Alike l) es fs) :
    AnswersAlike (fun e f => e.1 = f.1 ∧ Value.Alike l e.2 f.2) (operator es) (operator fs) := by
  have found : ∀ {es fs : Entries Value}, Entries.Forall₂ (Value.Alike l) es fs →
      Option.Rel (fun e f => e.1 = f.1 ∧ Value.Alike l e.2 f.2)
        (es.find? fun e => isMacroName e.1) (fs.find? fun e => isMacroName e.1) := by
    intro es fs h
    induction h with
    | nil => exact .none
    | @cons name v w es fs h _ ih =>
        simp only [List.find?_cons]
        cases isMacroName name with
        | true => exact .some ⟨rfl, h⟩
        | false => exact ih
  have hr : Option.Rel (fun e f => e.1 = f.1 ∧ Value.Alike l e.2 f.2) (operator? es)
      (operator? fs) := by
    rcases h with _ | ⟨hv, _ | ⟨hw, hs⟩⟩
    · exact .none
    · exact .some ⟨rfl, hv⟩
    · exact found (.cons hv (.cons hw hs))
  simp only [operator, h.keys_eq]
  generalize operator? es = a, operator? fs = b at hr ⊢
  cases hr with
  | some h => exact .ok h
  | none => exact .error _

theorem parameter_eq {v w : Value} (h : Alike l v w) : Eval.parameter v = Eval.parameter w := by
  have shown := h.display_eq
  cases h with
  | text s => rfl
  | _ => simp only [Eval.parameter, shown]

/-- Alike parameters are the same names. -/
theorem parameters_eq {vs ws : List Value} (h : List.Forall₂ (Alike l) vs ws) :
    vs.mapM Eval.parameter = ws.mapM Eval.parameter := by
  induction h with
  | nil => rfl
  | cons h _ ih => rw [List.mapM_cons, List.mapM_cons, parameter_eq h, ih]

/-- Each name of a list of parameters is written there as a text. -/
theorem mem_of_parameters {vs : List Value} {names : List String}
    (h : vs.mapM Eval.parameter = .ok names) {name : String} (hn : name ∈ names) :
    .text name ∈ vs := by
  induction vs generalizing names with
  | nil => cases h; cases hn
  | cons v vs ih =>
      rw [List.mapM_cons] at h
      cases v with
      | text first =>
          cases hvs : vs.mapM Eval.parameter with
          | error e => rw [hvs] at h; cases h
          | ok rest =>
              rw [hvs] at h
              cases h
              rcases List.mem_cons.1 hn with rfl | hn
              · exact List.mem_cons_self
              · exact List.mem_cons_of_mem _ (ih hvs hn)
      | _ => cases h

/-! ### Tasks, events and replies -/

/-- The same task, on alike values in corresponding environments. -/
inductive Task.Alike (l : Link) : Task → Task → Prop where
  | eval {e e' : Value} {env env' : Chain} {options options' : Options}
      (h : Value.Alike l e e') (he : l.chains env env') (ho : l.options options options') :
      Alike l (.eval e env options) (.eval e' env' options')
  | call {fn fn' : Value} {args args' : List Value} (h : Value.Alike l fn fn')
      (ha : List.Forall₂ (Value.Alike l) args args') : Alike l (.call fn args) (.call fn' args')

/-- The same event, of alike values. -/
inductive Event.Alike (l : Link) : Event → Event → Prop where
  | specialForm (kind : FormKind) : Alike l (.specialForm kind) (.specialForm kind)
  | call (name kind : String) (operands : Nat) :
      Alike l (.call name kind operands) (.call name kind operands)
  | expansion {form form' answer answer' : Value} (hf : Value.Alike l form form')
      (ha : Value.Alike l answer answer') :
      Alike l (.expansion form answer) (.expansion form' answer')
  | application {fn fn' : Value} {args args' : List Value} (h : Value.Alike l fn fn')
      (ha : List.Forall₂ (Value.Alike l) args args') :
      Alike l (.application fn args) (.application fn' args')
  | bound (count : Nat) : Alike l (.bound count) (.bound count)
  | loading (path : String) (count : Nat) : Alike l (.loading path count) (.loading path count)

/-- Alike events are worded the same. -/
theorem Event.Alike.message_eq {e f : Event} (h : Event.Alike l e f) : e.message = f.message := by
  cases h with
  | expansion hf ha =>
      exact congrArg₂ (fun form answer => "expand " ++ form ++ " -> " ++ answer) hf.display_eq
        ha.display_eq
  | application h ha =>
      exact congrArg₂ (fun closure args => "apply closure " ++ closure ++ " to " ++ args)
        h.display_eq (Value.Alike.list ha).display_eq
  | _ => rfl

/-- The log as it is shown, oldest entry first. -/
def State.messages (s : State) : List String :=
  (s.log.map Event.message).reverse

/-- Alike events leave logs that are shown the same. -/
theorem Event.Alike.messages_eq {e f : Event} (h : Event.Alike l e f) {s t : State}
    (hs : s.messages = t.messages) :
    { s with log := e :: s.log }.messages = { t with log := f :: t.log }.messages := by
  simp only [State.messages, List.map_cons, List.reverse_cons] at hs ⊢
  rw [hs, h.message_eq]

/-- The host does the same with alike values, and goes on alike from alike outcomes. -/
inductive Reply.Alike (l : Link) : Reply → Reply → Prop where
  | value {v w : Value} (h : Value.Alike l v w) : Alike l (.value v) (.value w)
  | fault (e : Fault) : Alike l (.fault e) (.fault e)
  | call {fn fn' : Value} {args args' : List Value} {resume resume' : Except Fault Value → Reply}
      (h : Value.Alike l fn fn') (ha : List.Forall₂ (Value.Alike l) args args')
      (hr : ∀ o p, AnswersAlike (Value.Alike l) o p → Alike l (resume o) (resume' p)) :
      Alike l (.call fn args resume) (.call fn' args' resume')

/-- The functions of the host that correspond to themselves reply alike to alike arguments: a
reply depends on nothing but the arguments, and on a closure only for what closures that correspond
have in common. -/
def Host.Respects (host : Host) (l : Link) : Prop :=
  ∀ name args args', l.hosts name → List.Forall₂ (Value.Alike l) args args' →
    Reply.Alike l (host name args) (host name args')

/-- Where a call ends in the fault, so does the function that made it. -/
def Reply.HandsOn (e : Fault) : Reply → Prop
  | .value _ | .fault _ => True
  | .call _ _ resume => resume (.error e) = .fault e ∧ ∀ o, (resume o).HandsOn e

/-- No function of the host catches the fault. -/
def Host.HandsOn (host : Host) (e : Fault) : Prop :=
  ∀ name args, (host name args).HandsOn e

theorem Host.handsOn_nothing (host : Host) (e : Fault) (h : False) : host.HandsOn e :=
  h.elim

end FormLang
