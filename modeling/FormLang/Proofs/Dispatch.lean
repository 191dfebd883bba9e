import FormLang.Eval.Run
import FormLang.HostTools

/-!
# Forms — a special form reads its own keys

A mapping may have several reserved keys.  The first in the order `$`, `_$`, `let`, `lambda`,
`cond`, `apply` decides what form it is, wherever it stands in the mapping
(`FormKind.ofEntries?`); of the rest only the companion of that key is read (`FormKind.reads`).

So **what a special form does depends on its own keys alone** (`special_form_reads_own_keys`): every
other entry may go, come or change, reserved keys of a later kind and macro names included, and the
entries may stand in any order.  Not even the log can tell.
-/

namespace FormLang

namespace Entries

variable {α : Type} {name : String}

/-- The entries called by one of the names, in order. -/
def restrict (names : List String) (es : Entries α) : Entries α :=
  es.filter fun e => names.contains e.1

/-- The names that are kept are found as before. -/
theorem get?_restrict {names : List String} (h : name ∈ names) (es : Entries α) :
    get? name (restrict names es) = get? name es := by
  induction es with
  | nil => rfl
  | cons e rest ih =>
      obtain ⟨n, v⟩ := e
      by_cases hn : n = name
      · subst hn
        simp [restrict, h, get?]
      · by_cases hk : n ∈ names
        · simpa [restrict, hk, get?, hn] using ih
        · simpa [restrict, hk, get?, hn] using ih

theorem has_of_has_restrict {names : List String} {es : Entries α}
    (h : has name (restrict names es) = true) : has name es = true := by
  rw [has_iff_mem_keys] at h ⊢
  exact List.mem_map.2 ((List.mem_map.1 h).imp fun _ he => ⟨(List.mem_filter.1 he.1).1, he.2⟩)

end Entries

/-! ### Kinds and their keys -/

namespace FormKind

/-- The kinds, in the order in which their keys are looked for. -/
def order : List FormKind :=
  [.quote, .quasiquote, .letIn, .lambda, .cond, .apply]

/-- The reserved key of a kind. -/
def key : FormKind → String
  | .quote => "$"
  | .quasiquote => "_$"
  | .letIn => "let"
  | .lambda => "lambda"
  | .cond => "cond"
  | .apply => "apply"

/-- The key that goes with it. -/
def companion? : FormKind → Option String
  | .letIn => some "in"
  | .lambda => some "body"
  | .apply => some "args"
  | .quote | .quasiquote | .cond => none

/-- The keys that a form of the kind reads. -/
def reads (kind : FormKind) : List String :=
  kind.key :: kind.companion?.toList

/-- The kind of form that a mapping is: the first one whose key it has. -/
def ofEntries? (es : Entries Value) : Option FormKind :=
  order.find? fun kind => Entries.has kind.key es

/-- The form of a kind, from what stands under its key and under that of its companion. -/
def form : FormKind → Value → Option Value → SpecialForm
  | .quote, v, _ => .quote v
  | .quasiquote, v, _ => .quasiquote v
  | .letIn, v, companion => .letIn v companion
  | .lambda, v, companion => .lambda v companion
  | .cond, v, _ => .cond v
  | .apply, v, companion => .apply v companion

/-- The form of a kind, read off a mapping. -/
def read (kind : FormKind) (es : Entries Value) : Option SpecialForm :=
  (Entries.get? kind.key es).map fun v => kind.form v (kind.companion?.bind (Entries.get? · es))

variable {kind : FormKind} {es fs : Entries Value}

theorem key_mem_reads (kind : FormKind) : kind.key ∈ kind.reads :=
  List.mem_cons_self

theorem has_key (h : ofEntries? es = some kind) : Entries.has kind.key es = true := by
  rw [ofEntries?, List.find?_eq_some_iff_append] at h
  exact h.1

/-- A form is read from the names of its kind, so it does not depend on any other. -/
theorem read_congr (h : ∀ name ∈ kind.reads, Entries.get? name fs = Entries.get? name es) :
    kind.read fs = kind.read es := by
  have companion : kind.companion?.bind (Entries.get? · fs) =
      kind.companion?.bind (Entries.get? · es) := by
    cases hc : kind.companion? with
    | none => rfl
    | some name => exact h name (List.mem_cons_of_mem _ (by simp [hc]))
  rw [read, read, h _ kind.key_mem_reads, companion]

/-- The reserved keys are tried one after the other. -/
theorem findSome?_read (es : Entries Value) :
    SpecialForm.ofEntries? es = order.findSome? fun kind => kind.read es := by
  simp only [order, List.findSome?_cons, List.findSome?_nil]
  simp only [SpecialForm.ofEntries?, read, key, companion?, Option.bind_some]
  cases Entries.get? "$" es with
  | some v => rfl
  | none =>
  cases Entries.get? "_$" es with
  | some v => rfl
  | none =>
  cases Entries.get? "let" es with
  | some v => rfl
  | none =>
  cases Entries.get? "lambda" es with
  | some v => rfl
  | none =>
  cases Entries.get? "cond" es with
  | some v => rfl
  | none => cases Entries.get? "apply" es <;> rfl

/-- A mapping is a form of the first kind whose key it has. -/
theorem ofEntries?_eq_read (h : ofEntries? es = some kind) :
    SpecialForm.ofEntries? es = kind.read es := by
  rw [findSome?_read]
  unfold ofEntries? at h
  generalize order = kinds at h
  induction kinds with
  | nil => cases h
  | cons k rest ih =>
      rw [List.find?_cons] at h
      rw [List.findSome?_cons]
      split at h
      · rename_i there
        cases h
        obtain ⟨v, hv⟩ := Option.isSome_iff_exists.1 there
        simp [read, hv]
      · rename_i missing
        have none : k.read es = none := by
          simpa [read, Entries.has] using missing
        simpa [none] using ih h

/-- Without the entries that a form of its kind does not read, a mapping is of the same kind. -/
theorem ofEntries?_restrict (h : ofEntries? es = some kind) :
    ofEntries? (Entries.restrict kind.reads es) = some kind := by
  rw [ofEntries?, List.find?_eq_some_iff_append] at h ⊢
  obtain ⟨there, before, after, split, missing⟩ := h
  refine ⟨?_, before, after, split, fun k hk => ?_⟩
  · rwa [Entries.has, Entries.get?_restrict kind.key_mem_reads]
  · have := missing k hk
    simp only [Bool.not_eq_true'] at this ⊢
    exact Bool.eq_false_iff.2 fun hr => by
      rw [Entries.has_of_has_restrict hr] at this
      cases this

end FormKind

/-! ### Evaluation -/

/-- Mappings of one kind that have the same under the keys of that kind are evaluated alike. -/
theorem run_congr_of_reads {es fs : Entries Value} {kind : FormKind}
    (hes : FormKind.ofEntries? es = some kind) (hfs : FormKind.ofEntries? fs = some kind)
    (h : ∀ name ∈ kind.reads, Entries.get? name fs = Entries.get? name es) (host : Host)
    (fuel : Nat) (env : Chain) (options : Options) :
    run host fuel (.eval (.mapping es) env options) =
      run host fuel (.eval (.mapping fs) env options) := by
  cases fuel with
  | zero => rfl
  | succ fuel =>
      obtain ⟨v, hv⟩ := Option.isSome_iff_exists.1 (FormKind.has_key hes)
      have read : kind.read es = some (kind.form v _) := congrArg (Option.map _) hv
      have first := (FormKind.ofEntries?_eq_read hes).trans read
      have second := (FormKind.ofEntries?_eq_read hfs).trans ((FormKind.read_congr h).trans read)
      simp only [run, Eval.step, Eval.expression, first, second]

/-- **A special form depends only on its own keys.**  Let a mapping have a reserved key, and let
`kind` be the first in order of those that it has.  In every environment, under any switches and
with any fuel, to evaluate the mapping is to evaluate what is left of it under the key of its kind
and that of its companion: the same value or fault, in the same state, with the same log.  So it is
to evaluate any mapping of that kind that has the same under these keys, whatever the order of its
entries and whatever else it has. -/
theorem special_form_reads_own_keys (host : Host) {es : Entries Value} {kind : FormKind}
    (h : FormKind.ofEntries? es = some kind) (env : Chain) (options : Options) (fuel : Nat) :
    run host fuel (.eval (.mapping es) env options) =
      run host fuel (.eval (.mapping (Entries.restrict kind.reads es)) env options) ∧
    ∀ fs : Entries Value, FormKind.ofEntries? fs = some kind →
      (∀ name ∈ kind.reads, Entries.get? name fs = Entries.get? name es) →
      run host fuel (.eval (.mapping es) env options) =
        run host fuel (.eval (.mapping fs) env options) := by
  refine ⟨?_, fun fs hfs agree => run_congr_of_reads h hfs agree host fuel env options⟩
  exact run_congr_of_reads h (FormKind.ofEntries?_restrict h)
    (fun name hn => Entries.get?_restrict hn es) host fuel env options

/-- A `let` among keys of other kinds, of a macro and of no kind at all. -/
def crowdedLet : Entries Value :=
  [("args", .list []), ("in", .mapping [("plus", .list [.text "x", .int 1])]),
    ("cond", .text "nothing"), ("$if", .bool true), ("let", .mapping [("x", .int 2)]),
    ("body", .null), ("apply", .text "fail")]

/-- The keys of the other kinds are not read, though some stand before its own. -/
theorem special_form_reads_own_keys_crowded :
    FormKind.ofEntries? crowdedLet = some .letIn ∧
    Entries.restrict FormKind.letIn.reads crowdedLet =
      [("in", .mapping [("plus", .list [.text "x", .int 1])]), ("let", .mapping [("x", .int 2)])] ∧
    (∀ env options fuel, run hostTools fuel (.eval (.mapping crowdedLet) env options) =
      run hostTools fuel (.eval (.mapping [("in", .mapping [("plus", .list [.text "x", .int 1])]),
        ("let", .mapping [("x", .int 2)])]) env options)) ∧
    (∀ env options fuel, run hostTools fuel (.eval (.mapping crowdedLet) env options) =
      run hostTools fuel (.eval (.mapping crowdedLet.reverse) env options)) ∧
    ∃ t, (run hostTools 5 (.eval (.mapping crowdedLet) [0] .lenient)).runFrom .initial =
      some (.ok (.int 3), t) := by
  have kind : FormKind.ofEntries? crowdedLet = some .letIn := by decide
  refine ⟨kind, rfl, fun env options fuel => ?_, fun env options fuel => ?_, _, rfl⟩
  · exact (special_form_reads_own_keys hostTools kind env options fuel).1
  · refine (special_form_reads_own_keys hostTools kind env options fuel).2 _ (by decide) ?_
    intro name hn
    rcases List.mem_cons.1 hn with rfl | hn
    · rfl
    · cases List.mem_singleton.1 hn
      rfl

end FormLang
