import FormLang.Eval.Step

/-!
# Scope — the names that code reads

`Reads N e` says that to evaluate `e` is to look up names of `N` only, and to bind no macro names.
It follows the rules of evaluation: a special form asks for the parts that it evaluates, a template
for what stands under its escapes, and a call of a standard macro for the form that the macro
answers with.  Text inside quoted data is not read as a name, and nothing is asked of it.

An environment is narrow when nothing more is known of it than what the names of `N` mean there, and
that no macros but the standard ones are bound in it.  Only code that reads the names of `N` may run
there; in a free environment any code may (`Scope`).
-/

namespace FormLang

/-! ### Escapes -/

namespace Eval

mutual
/-- What stands under the outermost escapes of a template, in order. -/
def escapes : Value → List Value
  | .list items | .tuple items => itemEscapes items
  | .mapping entries =>
    match Entries.get? "$_" entries with
    | some escaped => [escaped]
    | none => entryEscapes entries
  | _ => []
termination_by structural v => v

def itemEscapes : List Value → List Value
  | [] => []
  | v :: rest => escapes v ++ itemEscapes rest
termination_by structural vs => vs

def entryEscapes : List (String × Value) → List Value
  | [] => []
  | (_, v) :: rest => escapes v ++ entryEscapes rest
termination_by structural es => es
end

end Eval

/-! ### Names that code reads -/

/-- The value evaluates to itself. -/
def Value.isConstant : Value → Bool
  | .text _ | .list _ | .tuple _ | .mapping _ => false
  | _ => true

mutual
/-- Evaluating the expression looks up only names of `N`, and binds no macro names. -/
inductive Reads (N : String → Prop) : Value → Prop where
  | constant {v : Value} (h : v.isConstant = true) : Reads N v
  | text {name : String} (h : N name) : Reads N (.text name)
  | list {items : List Value} (h : ∀ e ∈ items, Reads N e) : Reads N (.list items)
  | tuple {items : List Value} (h : ∀ e ∈ items, Reads N e) : Reads N (.tuple items)
  | special {es : Entries Value} {form : SpecialForm} (hf : SpecialForm.ofEntries? es = some form)
      (h : FormReads N form) : Reads N (.mapping es)
  | call {es : Entries Value} (hf : SpecialForm.ofEntries? es = none)
      (hn : ∀ name under, operator es = .ok (name, under) → N name)
      (ho : ∀ name under, operator es = .ok (name, under) → ∀ e ∈ under.operands, Reads N e)
      (hm : ∀ (m : Standard) under, operator es = .ok (m.symbol, under) →
        isMacroName m.symbol = true →
        ∀ answer, m.apply (.mapping es :: under.operands) = .ok answer → Reads N answer) :
      Reads N (.mapping es)

/-- Evaluating the special form looks up only names of `N`, and binds no macro names. -/
inductive FormReads (N : String → Prop) : SpecialForm → Prop where
  | quote (datum : Value) : FormReads N (.quote datum)
  | quasiquote {template : Value} (h : ∀ e ∈ Eval.escapes template, Reads N e) :
      FormReads N (.quasiquote template)
  | letIn {bindings : Value} {body : Option Value}
      (hp : ∀ es, bindings = .mapping es → ∀ e ∈ es, isMacroName e.1 = false)
      (hb : ∀ es, bindings = .mapping es → ∀ e ∈ es, Reads N e.2)
      (h : ∀ e, body = some e → Reads N e) : FormReads N (.letIn bindings body)
  | lambda {params : Value} {body : Option Value}
      (hp : ∀ name, .text name ∈ params.operands → isMacroName name = false)
      (h : ∀ e, body = some e → Reads N e) : FormReads N (.lambda params body)
  | cond {clauses : Value}
      (h : ∀ clause, .mapping clause ∈ clauses.operands → ∀ e ∈ clause, Reads N e.2) :
      FormReads N (.cond clauses)
  | apply {callee : Value} {args : Option Value} (hc : Reads N callee)
      (h : ∀ a, args = some a → ∀ e ∈ a.operands, Reads N e) : FormReads N (.apply callee args)
end

/-- The value is a standard macro, bound under its own name. -/
def IsStandardMacro (name : String) (v : Value) : Prop :=
  ∃ m : Standard, v = .tagged .expander (.standard m) ∧ m.symbol = name ∧ isMacroName name = true

/-! ### Scopes -/

/-- What is known of an environment. -/
inductive Scope where
  /-- All that the code run there may ask. -/
  | free
  /-- What the names mean that the code run there reads. -/
  | narrow

namespace Scope

variable {N : String → Prop} {k : Scope}

/-- The code may run in environments of the scope. -/
def Runs (N : String → Prop) (k : Scope) (e : Value) : Prop :=
  k = .narrow → Reads N e

/-- The special form may be evaluated in environments of the scope. -/
def RunsForm (N : String → Prop) (k : Scope) (form : SpecialForm) : Prop :=
  k = .narrow → FormReads N form

/-- Code of the scope may look up the name. -/
def Sees (N : String → Prop) (k : Scope) (name : String) : Prop :=
  k = .narrow → N name

/-- Code of the scope may bind the name. -/
def Binds (k : Scope) (name : String) : Prop :=
  k = .narrow → isMacroName name = false

/-- The frame may stand in environments of the scope. -/
def Fits (k : Scope) (f : Frame) : Prop :=
  k = .narrow →
    ∀ name v, Entries.get? name f = some v → isMacroName name = false ∧ v.isMacro = false

theorem Sees.free (name : String) : Scope.free.Sees N name := by
  intro hk
  cases hk

theorem Binds.free (name : String) : Scope.free.Binds name := by
  intro hk
  cases hk

namespace Runs

/-- Any code may run in free environments. -/
theorem free (e : Value) : Scope.free.Runs N e := by
  intro hk
  cases hk

theorem undefined : k.Runs N .undefined :=
  fun _ => .constant rfl

theorem text {name : String} (h : k.Runs N (.text name)) : k.Sees N name := by
  intro hk
  cases h hk with
  | constant hc => cases hc
  | text h => exact h

theorem list {items : List Value} (h : k.Runs N (.list items)) : ∀ e ∈ items, k.Runs N e := by
  intro e he hk
  cases h hk with
  | constant hc => cases hc
  | list h => exact h e he

theorem tuple {items : List Value} (h : k.Runs N (.tuple items)) : ∀ e ∈ items, k.Runs N e := by
  intro e he hk
  cases h hk with
  | constant hc => cases hc
  | tuple h => exact h e he

variable {es : Entries Value}

/-- What code of a scope does in a special form. -/
theorem special (h : k.Runs N (.mapping es)) {form : SpecialForm}
    (hf : SpecialForm.ofEntries? es = some form) : k.RunsForm N form := by
  intro hk
  cases h hk with
  | constant hc => cases hc
  | special hf' h =>
      cases hf.symm.trans hf'
      exact h
  | call hf' => cases hf.symm.trans hf'

variable (h : k.Runs N (.mapping es)) (hf : SpecialForm.ofEntries? es = none)
include h hf

/-- The operator of a call is looked up. -/
theorem sees {name : String} {under : Value} (ho : operator es = .ok (name, under)) :
    k.Sees N name := by
  intro hk
  cases h hk with
  | constant hc => cases hc
  | special hf' => cases hf.symm.trans hf'
  | call _ hn => exact hn name under ho

/-- The operands of a call may be evaluated. -/
theorem operands {name : String} {under : Value} (ho : operator es = .ok (name, under)) :
    ∀ e ∈ under.operands, k.Runs N e := by
  intro e he hk
  cases h hk with
  | constant hc => cases hc
  | special hf' => cases hf.symm.trans hf'
  | call _ _ hr => exact hr name under ho e he

/-- What a standard macro answers with may run where the macro is called. -/
theorem answer {m : Standard} {under answer : Value}
    (ho : operator es = .ok (m.symbol, under)) (hm : isMacroName m.symbol = true)
    (ha : m.apply (.mapping es :: under.operands) = .ok answer) : k.Runs N answer := by
  intro hk
  cases h hk with
  | constant hc => cases hc
  | special hf' => cases hf.symm.trans hf'
  | call _ _ _ hr => exact hr m under ho hm answer ha

end Runs

namespace RunsForm

theorem quasiquote {template : Value} (h : k.RunsForm N (.quasiquote template)) :
    ∀ e ∈ Eval.escapes template, k.Runs N e := by
  intro e he hk
  cases h hk with
  | quasiquote h => exact h e he

/-- The bindings of a `let` are evaluated, and their names bound. -/
theorem letIn {es : Entries Value} {body : Option Value}
    (h : k.RunsForm N (.letIn (.mapping es) body)) :
    ∀ e ∈ es, k.Binds e.1 ∧ k.Runs N e.2 := by
  refine fun e he => ⟨fun hk => ?_, fun hk => ?_⟩
  · cases h hk with
    | letIn hp => exact hp es rfl e he
  · cases h hk with
    | letIn _ hb => exact hb es rfl e he

theorem letBody {bindings body : Value} (h : k.RunsForm N (.letIn bindings (some body))) :
    k.Runs N body := by
  intro hk
  cases h hk with
  | letIn _ _ h => exact h body rfl

/-- The parameters of a `lambda` are bound, and its body is evaluated. -/
theorem lambda {params body : Value} (h : k.RunsForm N (.lambda params (some body))) :
    (∀ name, .text name ∈ params.operands → k.Binds name) ∧ k.Runs N body := by
  refine ⟨fun name hn hk => ?_, fun hk => ?_⟩
  · cases h hk with
    | lambda hp => exact hp name hn
  · cases h hk with
    | lambda _ h => exact h body rfl

theorem cond {clauses : Value} (h : k.RunsForm N (.cond clauses)) :
    ∀ clause, .mapping clause ∈ clauses.operands → ∀ e ∈ clause, k.Runs N e.2 := by
  intro clause hc e he hk
  cases h hk with
  | cond h => exact h clause hc e he

theorem apply {callee args : Value} (h : k.RunsForm N (.apply callee (some args))) :
    k.Runs N callee ∧ ∀ e ∈ args.operands, k.Runs N e := by
  refine ⟨fun hk => ?_, fun e he hk => ?_⟩
  · cases h hk with
    | apply hc => exact hc
  · cases h hk with
    | apply _ h => exact h args rfl e he

end RunsForm

/-- The relation, for the free scope alone. -/
def only {α β : Type} (R : α → β → Prop) : Scope → α → β → Prop
  | .free => R
  | .narrow => fun _ _ => False

theorem only.holds {α β : Type} {R : α → β → Prop} {a : α} {b : β} (h : only R k a b) : R a b := by
  cases k with
  | free => exact h
  | narrow => exact h.elim

theorem only.imp {α β : Type} {R S : α → β → Prop} {a a' : α} {b b' : β} (h : only R k a b)
    (hRS : R a b → S a' b') : only S k a' b' := by
  cases k with
  | free => exact hRS h
  | narrow => exact h

/-! ### Frames of a scope -/

namespace Fits

theorem free (f : Frame) : Scope.free.Fits f := by
  intro hk
  cases hk

theorem nil : k.Fits [] :=
  fun _ _ _ h => nomatch h

/-- A new binding fits, if its name may be bound and it is no macro under a plain name. -/
theorem insert {f : Frame} (h : k.Fits f) {name : String} (hn : k.Binds name) {v : Value}
    (hv : isMacroName name = false → v.isMacro = false) : k.Fits (Entries.insert name v f) := by
  intro hk other w hw
  rw [Entries.get?_insert] at hw
  split at hw
  · rename_i same
    cases hw
    subst same
    exact ⟨hn hk, hv (hn hk)⟩
  · exact h hk other w hw

/-- Whatever it was before, a value is no macro under a name that is not a macro's. -/
theorem isMacro_tag {name : String} (hn : isMacroName name = false) (v : Value) :
    (tag name v).isMacro = false := by
  simp only [tag, hn, Bool.false_eq_true, if_false]
  cases v with
  | tagged t fn =>
      cases t with
      | function => rfl
      | expander =>
          simp only [Value.isCallable, Value.untagged, Bool.not_true, Bool.false_eq_true, if_false]
          cases fn <;> rfl
  | _ => rfl

/-- The frame of a call fits, whatever the arguments are: they are tagged for their names. -/
theorem bindArguments (params : List String) (hp : ∀ p ∈ params, k.Binds p) {f : Frame}
    (args : List Value) (h : k.Fits f) : k.Fits (Frame.bindArguments f params args) := by
  induction params generalizing f args with
  | nil => exact h
  | cons p params ih =>
      rw [List.forall_mem_cons] at hp
      cases args with
      | nil => exact ih hp.2 [] (h.insert hp.1 fun _ => rfl)
      | cons v args => exact ih hp.2 args (h.insert hp.1 fun hn => isMacro_tag hn v)

end Fits

end Scope

end FormLang
