import FormLang.Proofs.Mentions

/-!
# Termination — how deep code nests

Code is first-order when there is no closure in it, it makes none, and it binds no macros
(`FirstOrder`).  Then all that is evaluated stands inside the program, or is put together by a
standard macro from what stands there.

`Nests n e` says that evaluations nest at most `n` deep when `e` is evaluated.  It follows the rules
of evaluation, whatever the names mean that are looked up on the way.  An expansion is larger than
the form that it stands for, but each of the standard macros puts the parts of the form at most one
level deeper than they stood.  So **evaluations of first-order code nest at most twice as deep as
the code itself** (`FirstOrder.nests`).
-/

namespace FormLang

open Value (Inside)

/-! ### First-order code -/

/-- The value is a mapping with the key of `lambda`. -/
def Value.hasLambda : Value → Bool
  | .mapping es => Entries.has "lambda" es
  | _ => false

/-- No closure is in the code, it makes none, and it binds no macros. -/
structure FirstOrder (e : Value) : Prop where
  closures : e.holds Value.isClosure = false
  lambdas : e.holds Value.hasLambda = false
  macros : e.holds Value.bindsMacro = false

theorem FirstOrder.inside {u v : Value} (h : FirstOrder v) (hu : Inside u v) : FirstOrder u :=
  ⟨Value.not_holds_of_inside h.closures hu, Value.not_holds_of_inside h.lambdas hu,
    Value.not_holds_of_inside h.macros hu⟩

/-- What is evaluated when the form is, wherever the form is one that can be. -/
def SpecialForm.code : SpecialForm → List Value
  | .quasiquote template => Eval.escapes template
  | .letIn (.mapping bindings) body => bindings.map Prod.snd ++ body.toList
  | .cond clauses => clauses.operands.flatMap Value.parts
  | .apply callee args => callee :: args.toList.flatMap Value.operands
  | .quote _ | .letIn .. | .lambda .. => []

namespace FirstOrder

variable {es : Entries Value} {form : SpecialForm}

/-- No form of a first-order program is a `lambda`. -/
theorem kind_ne_lambda (h : FirstOrder (.mapping es)) (hf : SpecialForm.ofEntries? es = some form) :
    form.kind ≠ .lambda := by
  have absent : Entries.get? "lambda" es = none := by
    by_contra found
    have has : (Value.mapping es).hasLambda = true := Option.isSome_iff_ne_none.2 found
    exact absurd (Value.holds_self has) (Bool.eq_false_iff.1 h.lambdas)
  obtain ⟨v, hv, rfl⟩ | ⟨v, hv, rfl⟩ | ⟨v, hv, rfl⟩ | ⟨v, hv, rfl⟩ | ⟨v, hv, rfl⟩ | ⟨v, hv, rfl⟩ :=
    SpecialForm.ofEntries?_cases hf
  case inr.inr.inr.inl => cases absent.symm.trans hv
  all_goals simp [SpecialForm.kind]

end FirstOrder

/-- What is evaluated of a form stands inside it. -/
theorem inside_of_mem_code {es : Entries Value} {form : SpecialForm}
    (hf : SpecialForm.ofEntries? es = some form) {e : Value} (he : e ∈ form.code) :
    Inside e (.mapping es) := by
  obtain ⟨v, hv, rfl⟩ | ⟨v, hv, rfl⟩ | ⟨v, hv, rfl⟩ | ⟨v, hv, rfl⟩ | ⟨v, hv, rfl⟩ | ⟨v, hv, rfl⟩ :=
    SpecialForm.ofEntries?_cases hf
  · cases he
  · exact (Eval.inside_of_mem_escapes he).trans (.get? hv)
  · cases v with
    | mapping bindings =>
        rcases List.mem_append.1 he with he | he
        · exact Value.Inside.trans (v := .mapping bindings) (.item he) (.get? hv)
        · exact .get? (Option.mem_toList.1 he)
    | _ => cases he
  · cases he
  · obtain ⟨clause, hc, he⟩ := List.mem_flatMap.1 he
    exact Value.Inside.trans (.item he) (Value.Inside.operands (.get? hv) hc)
  · rcases List.mem_cons.1 he with rfl | he
    · exact .get? hv
    · obtain ⟨args, ha, he⟩ := List.mem_flatMap.1 he
      exact Value.Inside.operands (.get? (Option.mem_toList.1 ha)) he

/-! ### How deep evaluations nest -/

/-- Evaluations nest at most so deep when the expression is evaluated, the first of them included,
as long as no macros but the standard ones are found. -/
inductive Nests : Nat → Value → Prop where
  | constant {n : Nat} {v : Value} (h : v.isConstant = true) : Nests (n + 1) v
  | text {n : Nat} (name : String) : Nests (n + 1) (.text name)
  | list {n : Nat} {items : List Value} (h : ∀ e ∈ items, Nests n e) : Nests (n + 1) (.list items)
  | tuple {n : Nat} {items : List Value} (h : ∀ e ∈ items, Nests n e) :
      Nests (n + 1) (.tuple items)
  | special {n : Nat} {es : Entries Value} {form : SpecialForm}
      (hf : SpecialForm.ofEntries? es = some form) (hl : form.kind ≠ .lambda)
      (hb : ∀ name ∈ form.binders, isMacroName name = false) (h : ∀ e ∈ form.code, Nests n e) :
      Nests (n + 1) (.mapping es)
  | call {n : Nat} {es : Entries Value} (hf : SpecialForm.ofEntries? es = none)
      (ho : ∀ name under, operator es = .ok (name, under) → ∀ e ∈ under.operands, Nests n e)
      (hm : ∀ (m : Standard) under, operator es = .ok (m.symbol, under) →
        isMacroName m.symbol = true →
        ∀ answer, m.apply (.mapping es :: under.operands) = .ok answer → Nests n answer) :
      Nests (n + 1) (.mapping es)

namespace Nests

variable {n : Nat}

/-- The bound may be larger. -/
theorem succ {e : Value} (h : Nests n e) : Nests (n + 1) e := by
  induction h with
  | constant h => exact .constant h
  | text name => exact .text name
  | list _ ih => exact .list ih
  | tuple _ ih => exact .tuple ih
  | special hf hl hb _ ih => exact .special hf hl hb ih
  | call hf _ _ iho ihm => exact .call hf iho ihm

theorem mono {m : Nat} {e : Value} (h : Nests m e) (hn : m ≤ n) : Nests n e := by
  induction hn with
  | refl => exact h
  | step _ ih => exact ih.succ

theorem quotation (v : Value) : Nests (n + 1) (Expansion.quotation v) :=
  .special rfl (by simp [SpecialForm.kind]) (List.forall_mem_nil _) (List.forall_mem_nil _)

/-- A call under a single name that is not a standard macro's. -/
theorem single {name : String} {under : Value}
    (hf : SpecialForm.ofEntries? [(name, under)] = none)
    (plain : ∀ m : Standard, m.symbol = name → isMacroName m.symbol = false)
    (ho : ∀ e ∈ under.operands, Nests n e) : Nests (n + 1) (.mapping [(name, under)]) := by
  refine .call hf ?_ ?_
  · rintro _ _ ⟨⟩
    exact ho
  · rintro m _ h hm
    cases h
    rw [plain m rfl] at hm
    cases hm

end Nests

/-! ### Expansions -/

section Expansions

variable {n : Nat} {es : Entries Value}
  (inside : ∀ u, Inside u (.mapping es) → Nests (n + 1) u)

/-- A dotted path expands to a call whose operands are a symbol and quotations. -/
theorem nests_getPath {path answer : Value} (h : Expansion.getPath path = .ok answer) :
    Nests (n + 2) answer := by
  have get : ∀ items, (∀ e ∈ items, Nests (n + 1) e) →
      Nests (n + 2) (.mapping [("get", .list items)]) :=
    fun items hi => .single rfl (fun _ hm => hm ▸ rfl) hi
  cases path with
  | text s =>
      rw [Expansion.getPath] at h
      split at h
      · cases h
        refine get _ (List.forall_mem_cons.2 ⟨.text _, fun e he => ?_⟩)
        obtain ⟨key, -, rfl⟩ := List.mem_map.1 he
        exact .quotation _
      · cases h
        exact get _ (List.forall_mem_nil _)
  | _ => cases h

theorem nests_omitKeys (keys : Value) {object : Value} (ho : Nests (n + 1) object) :
    Nests (n + 2) (Expansion.omitKeys keys object) := by
  refine .special rfl (by simp [SpecialForm.kind]) (List.forall_mem_nil _) ?_
  exact List.forall_mem_cons.2 ⟨.text _, List.forall_mem_cons.2
    ⟨.quotation keys, List.forall_mem_singleton.2 ho⟩⟩

include inside

/-- A `$if` expands to a `cond` over parts of its form. -/
theorem nests_ifElse {condition answer : Value} (hc : Nests (n + 1) condition)
    (h : Expansion.ifElse (.mapping es) condition = .ok answer) : Nests (n + 2) answer := by
  have companion : ∀ name, Nests (n + 1) ((Entries.get? name es).getD .undefined) := by
    intro name
    cases hg : Entries.get? name es with
    | none => exact .constant rfl
    | some v => exact inside v (.get? hg)
  cases h
  refine .special rfl (by simp [SpecialForm.kind]) (List.forall_mem_nil _) ?_
  exact List.forall_mem_cons.2 ⟨hc, List.forall_mem_cons.2
    ⟨companion "then", List.forall_mem_singleton.2 (companion "else")⟩⟩

/-- The entries of a record stand two levels deep in their form, and as deep in the template that
it expands to. -/
theorem nests_record (deeper : ∀ u v, Inside u v → Inside v (.mapping es) → Nests n u)
    {description answer : Value} (hd : Inside description (.mapping es))
    (h : Expansion.record description = .ok answer) : Nests (n + 2) answer := by
  cases description with
  | mapping fields =>
      cases h
      refine .special rfl (by simp [SpecialForm.kind]) (List.forall_mem_nil _) fun e he => ?_
      rw [SpecialForm.code, Eval.escapes, Entries.get?_mapValues] at he
      cases hg : Entries.get? "$_" fields with
      | some v =>
          -- The template is then one escape, of a call by that name.
          rw [hg] at he
          cases List.mem_singleton.1 he
          refine .single rfl (fun m hm => ?_) fun u hu => ?_
          · cases m <;> simp [Standard.symbol] at hm
          · exact deeper u _ (Value.Inside.operands (.get? hg) hu) hd
      | none =>
          rw [hg, Option.map_none, Eval.entryEscapes_eq, Entries.mapValues, List.map_map] at he
          obtain ⟨_, hf, he⟩ := Eval.mem_itemEscapes he
          obtain ⟨⟨name, v⟩, hv, rfl⟩ := List.mem_map.1 hf
          cases List.mem_singleton.1 he
          exact inside v (Value.Inside.trans (.entry hv) hd)
  | _ => cases h

/-- What a standard macro answers with nests one level deeper than the parts of the form. -/
theorem nests_answer (deeper : ∀ u v, Inside u v → Inside v (.mapping es) → Nests n u)
    {m : Standard} (hm : isMacroName m.symbol = true) {operands : List Value}
    (ho : ∀ e ∈ operands, Inside e (.mapping es)) {answer : Value}
    (h : m.apply (.mapping es :: operands) = .ok answer) : Nests (n + 2) answer := by
  cases m with
  | getPath =>
      match operands, ho, h with
      | [], _, h => cases h
      | [_], _, h => exact nests_getPath h
      | _ :: _ :: _, _, h => cases h
  | ifElse =>
      match operands, ho, h with
      | [], _, h => exact nests_ifElse inside (.constant rfl) h
      | [condition], ho, h =>
        exact nests_ifElse inside (inside _ (ho condition List.mem_cons_self)) h
      | _ :: _ :: _, _, h => cases h
  | omitKeys =>
      match operands, ho, h with
      | [], _, h => cases h
      | [_], _, h => cases h
      | [keys, object], ho, h =>
        cases h
        exact nests_omitKeys keys (inside object (ho object (by simp)))
      | _ :: _ :: _ :: _, _, h => cases h
  | record =>
      match operands, ho, h with
      | [], _, h => cases h
      | [description], ho, h =>
        exact nests_record inside deeper (ho description List.mem_cons_self) h
      | _ :: _ :: _, _, h => cases h
  | _ => exact absurd hm (by decide)

end Expansions

/-- **Evaluations of first-order code nest at most twice as deep as the code**, and once more. -/
theorem FirstOrder.nests {e : Value} (h : FirstOrder e) : Nests (2 * e.height + 1) e := by
  induction e using Value.inside_wellFounded.induction with
  | _ e ih =>
      -- What stands inside takes one level less than there is for it, and may stand so much deeper.
      have inside : ∀ u, Inside u e → ∀ n, 2 * e.height ≤ n + 1 → Nests n u := by
        intro u hu n hn
        have lower := Value.height_lt_of_inside hu
        exact (ih u hu (h.inside hu)).mono (by omega)
      cases e with
      | text name => exact .text name
      | list items => exact .list fun u hu => inside u (.item hu) _ (by omega)
      | tuple items => exact .tuple fun u hu => inside u (.item hu) _ (by omega)
      | mapping es =>
          cases hf : SpecialForm.ofEntries? es with
          | some form =>
              exact .special hf (h.kind_ne_lambda hf) (SpecialForm.binders_plain h.macros hf)
                fun u hu => inside u (inside_of_mem_code hf hu) _ (by omega)
          | none =>
              have operands : ∀ {name under}, operator es = .ok (name, under) →
                  ∀ u ∈ under.operands, Inside u (.mapping es) := fun ho u hu =>
                Value.Inside.operands (.entry (operator_mem ho)) hu
              refine .call hf (fun name under ho u hu => inside u (operands ho u hu) _ (by omega))
                fun m under ho hm answer ha => ?_
              have lower := Value.height_lt_of_inside (.entry (operator_mem ho))
              obtain ⟨k, hk⟩ : ∃ k, (Value.mapping es).height = k + 1 :=
                Nat.exists_eq_succ_of_ne_zero (by omega)
              have deeper : ∀ u v, Inside u v → Inside v (.mapping es) → Nests (2 * k) u := by
                intro u v hu hv
                have lowest := Value.height_lt_of_inside hu
                have lower := Value.height_lt_of_inside hv
                exact (ih u (hu.trans hv) (h.inside (hu.trans hv))).mono (by omega)
              rw [hk]
              exact nests_answer (fun u hu => inside u hu _ (by omega)) deeper hm (operands ho) ha
      | _ => exact .constant rfl

end FormLang
