import FormLang.Tagging

/-!
# FormLang — mappings as forms

A mapping with a reserved key is a special form: the first reserved key in the order `$`, `_$`,
`let`, `lambda`, `cond`, `apply` decides which, and beside that key only its companion is read
(`SpecialForm.ofEntries?`).  Every other mapping is a call, whose operator is its only key or its
first key that is a macro name (`operator?`).
-/

namespace FormLang

/-- The kinds of special forms. -/
inductive FormKind where
  | quote | quasiquote | letIn | lambda | cond | apply
  deriving DecidableEq

/-- The name of a kind in the log. -/
def FormKind.name : FormKind → String
  | .quote => "quote_form"
  | .quasiquote => "quasiquote_form"
  | .letIn => "let_form"
  | .lambda => "lambda_form"
  | .cond => "cond_form"
  | .apply => "apply_form"

/-- A special form: what stands under its key, and its companion. -/
inductive SpecialForm where
  | quote (datum : Value)
  | quasiquote (template : Value)
  | letIn (bindings : Value) (body : Option Value)
  | lambda (params : Value) (body : Option Value)
  | cond (clauses : Value)
  | apply (callee : Value) (args : Option Value)

namespace SpecialForm

def kind : SpecialForm → FormKind
  | .quote _ => .quote
  | .quasiquote _ => .quasiquote
  | .letIn .. => .letIn
  | .lambda .. => .lambda
  | .cond _ => .cond
  | .apply .. => .apply

/-- The special form that a mapping is. -/
def ofEntries? (es : Entries Value) : Option SpecialForm :=
  (Entries.get? "$" es).map .quote
    <|> (Entries.get? "_$" es).map .quasiquote
    <|> (Entries.get? "let" es).map (.letIn · (Entries.get? "in" es))
    <|> (Entries.get? "lambda" es).map (.lambda · (Entries.get? "body" es))
    <|> (Entries.get? "cond" es).map .cond
    <|> (Entries.get? "apply" es).map (.apply · (Entries.get? "args" es))

/-- What stands under the form's key, and under that of its companion. -/
def parts : SpecialForm → List Value
  | .quote v | .quasiquote v | .cond v => [v]
  | .letIn v companion | .lambda v companion | .apply v companion => v :: companion.toList

/-- Where the parts of a special form stand. -/
theorem ofEntries?_cases {es : Entries Value} {form : SpecialForm} (h : ofEntries? es = some form) :
    (∃ v, Entries.get? "$" es = some v ∧ form = .quote v) ∨
    (∃ v, Entries.get? "_$" es = some v ∧ form = .quasiquote v) ∨
    (∃ v, Entries.get? "let" es = some v ∧ form = .letIn v (Entries.get? "in" es)) ∨
    (∃ v, Entries.get? "lambda" es = some v ∧ form = .lambda v (Entries.get? "body" es)) ∨
    (∃ v, Entries.get? "cond" es = some v ∧ form = .cond v) ∨
    ∃ v, Entries.get? "apply" es = some v ∧ form = .apply v (Entries.get? "args" es) := by
  have under : ∀ {name : String} {f : Value → SpecialForm} {rest : Option SpecialForm},
      ((Entries.get? name es).map f <|> rest) = some form →
        (∃ v, Entries.get? name es = some v ∧ form = f v) ∨ rest = some form := by
    intro name f rest h
    cases hg : Entries.get? name es with
    | some v =>
      rw [hg] at h
      exact .inl ⟨v, rfl, (Option.some.inj h).symm⟩
    | none =>
      rw [hg] at h
      exact .inr h
  refine (under h).imp id fun h => (under h).imp id fun h => (under h).imp id fun h =>
    (under h).imp id fun h => (under h).imp id fun h => ?_
  obtain ⟨v, hv, rfl⟩ := Option.map_eq_some_iff.mp h
  exact ⟨v, hv, rfl⟩

/-- The parts of a special form are values of its entries.  A case for each form, in the order in
which they are tried. -/
theorem mem_of_mem_parts {es : Entries Value} {form : SpecialForm} (h : ofEntries? es = some form)
    {v : Value} (hv : v ∈ form.parts) : ∃ name, (name, v) ∈ es := by
  have companion : ∀ {name : String} {w : Value}, w ∈ (Entries.get? name es).toList →
      ∃ name, (name, w) ∈ es := fun hw =>
    ⟨_, Entries.mem_of_get? (Option.mem_toList.mp hw)⟩
  obtain ⟨w, hw, rfl⟩ | ⟨w, hw, rfl⟩ | ⟨w, hw, rfl⟩ | ⟨w, hw, rfl⟩ | ⟨w, hw, rfl⟩ | ⟨w, hw, rfl⟩ :=
    ofEntries?_cases h
  all_goals
    rcases List.mem_cons.mp hv with rfl | hv
    · exact ⟨_, Entries.mem_of_get? hw⟩
  · cases hv
  · cases hv
  · exact companion hv
  · exact companion hv
  · cases hv
  · exact companion hv

end SpecialForm

/-- The key of a call that names what is called, with what stands under it. -/
def operator? : Entries Value → Option (String × Value)
  | [e] => some e
  | es => es.find? fun e => isMacroName e.1

/-- The operator of a call, which has to be there. -/
def operator (es : Entries Value) : Except Fault (String × Value) :=
  match operator? es with
  | some e => .ok e
  | none => .error (.ambiguousForm (Entries.keys es))

/-- The operator of a form is one of its entries. -/
theorem operator_mem {es : Entries Value} {e : String × Value} (h : operator es = .ok e) :
    e ∈ es := by
  unfold operator operator? at h
  split at h
  · rename_i found
    cases h
    split at found
    · cases found
      exact List.mem_singleton_self _
    · exact List.mem_of_find?_eq_some found
  · cases h

end FormLang
