import FormLang.Proofs.Binding
import FormLang.Proofs.Equality

/-!
# Equivalence — what the function `eq` answers

The function `eq` answers for any two values, and doubles aside **its answers are those of an
equivalence** (`eq_is_equivalence`).  Which values are equal can be told from what they are:
mappings that have equal values under the same names, in whatever order, a truth value and the
number that it counts as, a tagged callable and an equal one under the same tag.  A list and a tuple
never are.

A closure equals itself alone.  Its number is what it is known by, and the number that a `lambda`
takes is one that no closure before it has, so a closure that has just been made equals nothing that
there was (`Value.equal_new_closure`).
-/

namespace FormLang

/-- The function `eq` gives this answer for the two values. -/
def EqAnswers (v w : Value) (answer : Bool) : Prop :=
  Standard.eq.apply [v, w] = .ok (.bool answer)

theorem eqAnswers_iff {v w : Value} {answer : Bool} :
    EqAnswers v w answer ↔ v.equal w = answer := by
  simp [EqAnswers, Standard.apply]

namespace Value

variable {v : Value}

/-- A tagged callable is equal to those of the same tag around an equal one. -/
theorem equal_tagged_iff {tag : Tag} {fn : Value} :
    (Value.tagged tag fn).equal v = true ↔ ∃ fn', v = .tagged tag fn' ∧ fn.equal fn' = true := by
  constructor
  · intro h
    cases v with
    | tagged tag' fn' =>
        rw [equal, Bool.and_eq_true, beq_iff_eq] at h
        obtain ⟨rfl, h⟩ := h
        exact ⟨fn', rfl, h⟩
    | _ => cases h
  · rintro ⟨fn', rfl, h⟩
    simp [equal, h]

/-- A closure is equal to those of its own number, whatever these look like. -/
theorem equal_closure_iff {id : Nat} {params : List String} {body : Value} {env : Chain}
    {options : Options} : (Value.closure id params body env options).equal v = true ↔
      ∃ params' body' env' options', v = .closure id params' body' env' options' := by
  constructor
  · intro h
    cases v with
    | closure id' params' body' env' options' =>
        rw [equal, beq_iff_eq] at h
        exact ⟨params', body', env', options', by rw [h]⟩
    | _ => cases h
  · rintro ⟨params', body', env', options', rfl⟩
    simp [equal]

/-- What there is when a closure takes its number does not have that number. -/
theorem equal_new_closure {held : String → Extent} {s : State} (h : v.Known held s.extent)
    (params : List String) (body : Value) (env : Chain) (options : Options) :
    (Value.closure s.closures params body env options).equal v = false := by
  rw [← Bool.not_eq_true, equal_closure_iff]
  rintro ⟨params', body', env', options', rfl⟩
  cases h with
  | closure hi => exact absurd hi.2 (Nat.lt_irrefl _)

end Value

/-- **Equality is an equivalence.**  For values without doubles `eq` always answers, it answers that
a value equals itself, it answers the same both ways round, and what equals an equal value is equal.

Mappings are equal if they have equal values under the same names.  A list and a tuple are not
equal; the truth values equal one and zero; a tagged callable equals an equal one under its tag and
nothing else; a closure equals itself and nothing else, and the closure that a `lambda` makes equals
nothing that has been there. -/
theorem eq_is_equivalence {a b c : Value} (ha : a.Exact) (hb : b.Exact) (hc : c.Exact) :
    EqAnswers a a true ∧
    (∃ answer, EqAnswers a b answer ∧ EqAnswers b a answer) ∧
    (EqAnswers a b true → EqAnswers b c true → EqAnswers a c true) ∧
    (∀ es fs, a = .mapping es → b = .mapping fs → (EqAnswers a b true ↔ ∀ name,
      Option.Rel (EqAnswers · · true) (Entries.get? name es) (Entries.get? name fs))) ∧
    (∀ xs ys, EqAnswers (.list xs) (.tuple ys) false ∧ EqAnswers (.tuple ys) (.list xs) false) ∧
    (∀ p n, EqAnswers (.bool p) (.int n) (n == if p then 1 else 0)) ∧
    (∀ tag fn v, EqAnswers (.tagged tag fn) v true ↔
      ∃ fn', v = .tagged tag fn' ∧ EqAnswers fn fn' true) ∧
    (∀ id params body env options v, EqAnswers (.closure id params body env options) v true ↔
      ∃ params' body' env' options', v = .closure id params' body' env' options') ∧
    ∀ (host : Host) (fuel : Nat) (params : List String) (body : Value) (env : Chain)
      (options : Options) (held : String → Extent) (s : State) (v : Value),
      v.Known held s.extent → ∃ fn t,
        (run host (fuel + 1) (.eval (lambdaForm params body) env options)).runFrom s =
          some (.ok fn, t) ∧ EqAnswers fn v false := by
  simp only [eqAnswers_iff]
  refine ⟨Value.equal_refl ha, ⟨_, Value.equal_comm ha hb, rfl⟩, Value.equal_trans ha hb hc,
    ?_, fun _ _ => ⟨rfl, rfl⟩, ?_, fun _ _ _ => Value.equal_tagged_iff,
    fun _ _ _ _ _ _ => Value.equal_closure_iff, ?_⟩
  · rintro es fs rfl rfl
    cases ha with
    | mapping hes =>
        cases hb with
        | mapping hfs =>
            rw [← Value.equalMappings_iff hes hfs, Value.equal, Bool.and_eq_true, beq_iff_eq]
  · intro p n
    rw [Value.equal_of_integer? (rfl : (Value.bool p).integer? = some (if p then 1 else 0))
      (rfl : (Value.int n).integer? = some n), Bool.eq_iff_iff]
    simp only [beq_iff_eq, compare_eq_iff_eq]
    exact eq_comm
  · intro host fuel params body env options held s v hv
    exact ⟨_, _, run_lambdaForm fuel params body s, Value.equal_new_closure hv ..⟩

/-- A truth value, a mapping with a tagged callable, and a closure. -/
def assorted : Value :=
  .list [.bool true, .mapping [("x", .int 0), ("f", .tagged .function (.host "count"))],
    .closure 0 [] .null [0] .lenient]

/-- The same with numbers and truth values exchanged and the entries in another order. -/
def reassorted : Value :=
  .list [.int 1, .mapping [("f", .tagged .function (.host "count")), ("x", .bool false)],
    .closure 0 [] .null [0] .lenient]

/-- The values equal each other, and each itself.  The closure that is made next, by the same
`lambda`, does not equal the one inside them. -/
theorem eq_is_equivalence_assorted :
    assorted.Exact ∧ reassorted.Exact ∧ EqAnswers assorted assorted true ∧
      EqAnswers assorted reassorted true ∧ EqAnswers reassorted assorted true ∧
      ∃ fn t, (run hostTools 1 (.eval (lambdaForm [] .null) [0] .lenient)).runFrom
          { State.initial with closures := 1 } = some (.ok fn, t) ∧
        EqAnswers fn (.closure 0 [] .null [0] .lenient) false := by
  have count := Value.Exact.tagged .function (.host "count")
  have left : assorted.Exact := by
    refine .list ?_
    simp [Value.Exact.bool, Value.Exact.int, Value.Exact.mapping, Value.Exact.closure, Entries.keys,
      count]
  have right : reassorted.Exact := by
    refine .list ?_
    simp [Value.Exact.bool, Value.Exact.int, Value.Exact.mapping, Value.Exact.closure, Entries.keys,
      count]
  have known : (Value.closure 0 [] .null [0] .lenient).Known holdsNothing
      (State.extent { State.initial with closures := 1 }) :=
    .closure ⟨rfl, Nat.zero_lt_one⟩ .null (Renaming.same_chain (by decide)) rfl trivial
  have equal : EqAnswers assorted reassorted true := rfl
  obtain ⟨self, ⟨answer, there, back⟩, -, -, -, -, -, -, fresh⟩ := eq_is_equivalence left right left
  cases (eqAnswers_iff.1 there).symm.trans (eqAnswers_iff.1 equal)
  exact ⟨left, right, self, equal, back, fresh hostTools 0 [] .null [0] .lenient _ _ _ known⟩

end FormLang
