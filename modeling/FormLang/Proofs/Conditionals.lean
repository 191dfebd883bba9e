import FormLang.Proofs.Alike.Log
import FormLang.Proofs.Environment
import FormLang.Proofs.Macros

/-!
# Conditionals — `cond` and nested `$if`

A `cond` tries its clauses in a loop; a `$if` is a macro, which expands to a `cond` with two
clauses, and chains of conditions are written by nesting one in the other.  Both come down to the
same step: evaluate the condition, and go on with the branch or with what follows (`Eval.branch`).

Nesting takes more fuel than the loop does, so outcomes are compared without it: `Ends` says what a
task ends in, given fuel, and `SameEnds` that two tasks end alike but for the log.  `Decided` says
what one condition decides, and `Chosen` what a chain of them does.  **A `cond` and the nesting of
its clauses end alike, and both end as the branch of the first condition that holds**, whatever
stands in the branches before it and in all that follows it (`cond_is_nested_if`).
-/

namespace FormLang

/-! ### What a task ends in -/

/-- Given fuel, the task ends so. -/
def Ends (host : Host) (task : Task) (s : State) (r : Except Fault Value × State) : Prop :=
  ∃ fuel, (run host fuel task).runFrom s = some r

/-- For every outcome of the one there is one of the other, with the same fault or value, in states
that differ in the log only. -/
structure SameEnds (P Q : Except Fault Value × State → Prop) : Prop where
  forth : ∀ r, P r → ∃ q, Q q ∧ EqualOutcome r q
  back : ∀ q, Q q → ∃ r, P r ∧ EqualOutcome r q

namespace EqualOutcome

variable {p q r : Except Fault Value × State}

theorem symm (h : EqualOutcome r q) : EqualOutcome q r :=
  ⟨h.1.symm, h.2.symm⟩

theorem trans (h : EqualOutcome p q) (h' : EqualOutcome q r) : EqualOutcome p r :=
  ⟨h.1.trans h'.1, h.2.trans h'.2⟩

end EqualOutcome

namespace SameEnds

variable {P Q R : Except Fault Value × State → Prop}

theorem of_iff (h : ∀ r, P r ↔ Q r) : SameEnds P Q :=
  ⟨fun r hr => ⟨r, (h r).1 hr, rfl, .refl _⟩, fun r hr => ⟨r, (h r).2 hr, rfl, .refl _⟩⟩

theorem symm (h : SameEnds P Q) : SameEnds Q P := by
  refine ⟨fun q hq => ?_, fun r hr => ?_⟩
  · obtain ⟨r, hr, same⟩ := h.back q hq
    exact ⟨r, hr, same.symm⟩
  · obtain ⟨q, hq, same⟩ := h.forth r hr
    exact ⟨q, hq, same.symm⟩

theorem trans (h : SameEnds P Q) (h' : SameEnds Q R) : SameEnds P R := by
  refine ⟨fun p hp => ?_, fun r hr => ?_⟩
  · obtain ⟨q, hq, same⟩ := h.forth p hp
    obtain ⟨r, hr, same'⟩ := h'.forth q hq
    exact ⟨r, hr, same.trans same'⟩
  · obtain ⟨q, hq, same'⟩ := h'.back r hr
    obtain ⟨p, hp, same⟩ := h.back q hq
    exact ⟨p, hp, same.trans same'⟩

end SameEnds

namespace Ends

variable {host : Host} {task : Task} {s t : State} {r q : Except Fault Value × State}

/-- A task has one outcome. -/
theorem unique (h : Ends host task s r) (h' : Ends host task s q) : r = q := by
  obtain ⟨m, hm⟩ := h
  obtain ⟨n, hn⟩ := h'
  have left := run_refines host (Nat.le_max_left m n) task s r hm
  have right := run_refines host (Nat.le_max_right m n) task s q hn
  exact Option.some.inj (left.symm.trans right)

/-- A task ends alike from states that differ in the log. -/
theorem sameButLog (h : SameButLog s t) (hr : Ends host task s r) :
    ∃ q, Ends host task t q ∧ EqualOutcome r q := by
  obtain ⟨fuel, hr⟩ := hr
  have same := run_sameButLog host fuel task h
  rw [hr] at same
  generalize hq : (run host fuel task).runFrom t = o at same
  cases same with
  | some same => exact ⟨_, ⟨fuel, hq⟩, same⟩

theorem alike (h : SameButLog s t) : SameEnds (Ends host task s) (Ends host task t) := by
  refine ⟨fun r => sameButLog h, fun q hq => ?_⟩
  obtain ⟨r, hr, same⟩ := sameButLog h.symm hq
  exact ⟨r, hr, same.symm⟩

/-- A run keeps the frames that were there. -/
theorem grows (hr : Ends host task s r) : s.Grows s.frames.size r.2 := by
  obtain ⟨fuel, hr⟩ := hr
  exact run_grows host s.frames.size fuel task s _ _ (Nat.le_refl _) hr

end Ends

/-! ### Branches -/

/-- A list or a tuple. -/
def Value.isSequence : Value → Bool
  | .list _ | .tuple _ => true
  | _ => false

theorem Value.operands_of_not_isSequence {v : Value} (h : v.isSequence = false) :
    v.operands = [v] := by
  cases v <;> first | rfl | cases h

/-- A condition, and the expression to go on with where it holds, if there is one. -/
structure Branch where
  test : Value
  result? : Option Value

namespace Branch

/-- A branch without an expression gives the absent value. -/
def result (b : Branch) : Value :=
  b.result?.getD .undefined

/-- The entry for the expression, if there is one. -/
def thenEntry (b : Branch) : Entries Value :=
  b.result?.toList.map fun e => ("then", e)

/-- The branch as a clause of a `cond`. -/
def clause (b : Branch) : Value :=
  .mapping (("if", b.test) :: b.thenEntry)

/-- The branch as a `$if`, with what follows it as its alternative. -/
def ifForm (b : Branch) (otherwise : Value) : Entries Value :=
  ("$if", b.test) :: b.thenEntry ++ [("else", otherwise)]

end Branch

/-- A `cond` with the branches as clauses, one clause for all else, and whatever comes after it. -/
def condForm (branches : List Branch) (otherwise : Value) (junk : List Value) : Value :=
  .mapping [("cond", .list (branches.map Branch.clause ++ .mapping [("else", otherwise)] :: junk))]

/-- Each branch as the alternative of the one before it. -/
def nestedIf (branches : List Branch) (otherwise : Value) : Value :=
  branches.foldr (fun b rest => .mapping (b.ifForm rest)) otherwise

namespace Eval

/-- Goes on with a branch where its condition holds, else with what follows it. -/
def branch (eval : Value → EvalM Value) (b : Branch) (otherwise : EvalM Value) : EvalM Value := do
  let v ← eval b.test
  if v.truthy then eval b.result else otherwise

/-- The clauses of a chain are tried one after the other, and what comes after the last is not. -/
theorem clauses_chain (eval : Value → EvalM Value) (options : Options) (branches : List Branch)
    (otherwise : Value) (junk : List Value) :
    clauses eval options (branches.map Branch.clause ++ .mapping [("else", otherwise)] :: junk) =
      branches.foldr (branch eval) (eval otherwise) := by
  induction branches with
  | nil => rfl
  | cons b rest ih =>
      obtain ⟨test, result?⟩ := b
      rw [List.map_cons, List.cons_append, List.foldr_cons, ← ih]
      cases result? <;> rfl

end Eval

/-! ### What a chain of conditions decides -/

section Chain

variable (host : Host) (env : Chain) (options : Options)

/-- The outcome of a branch: its condition fails, or its value decides between the expression of the
branch and what follows it. -/
def Decided (b : Branch) (otherwise : State → Except Fault Value × State → Prop) (s : State)
    (r : Except Fault Value × State) : Prop :=
  (∃ e t, Ends host (.eval b.test env options) s (.error e, t) ∧ r = (.error e, t)) ∨
  ∃ v t, Ends host (.eval b.test env options) s (.ok v, t) ∧
    if v.truthy then Ends host (.eval b.result env options) t r else otherwise t r

/-- The outcome of a chain of branches. -/
def Chosen (branches : List Branch) (otherwise : Value) :
    State → Except Fault Value × State → Prop :=
  branches.foldr (Decided host env options) (Ends host (.eval otherwise env options))

variable {host env options}

/-- What a branch decides, given fuel. -/
theorem branch_ends_iff {k : Nat → EvalM Value} (mono : ∀ {m n}, m ≤ n → (k m).Refines (k n))
    (b : Branch) (s : State) (r : Except Fault Value × State) :
    (∃ fuel, (Eval.branch (fun e => run host fuel (.eval e env options)) b (k fuel)).runFrom s =
      some r) ↔
    Decided host env options b (fun t q => ∃ fuel, (k fuel).runFrom t = some q) s r := by
  constructor
  · rintro ⟨fuel, h⟩
    rw [Eval.branch, EvalM.runFrom_bind] at h
    split at h
    · rename_i v t hv
      refine .inr ⟨v, t, ⟨fuel, hv⟩, ?_⟩
      split at h
      · rw [if_pos ‹_›]
        exact ⟨fuel, h⟩
      · rw [if_neg ‹_›]
        exact ⟨fuel, h⟩
    · rename_i e t he
      exact .inl ⟨e, t, ⟨fuel, he⟩, (Option.some.inj h).symm⟩
    · cases h
  · rintro (⟨e, t, ⟨fuel, he⟩, rfl⟩ | ⟨v, t, ⟨fuel, hv⟩, h⟩)
    · exact ⟨fuel, by rw [Eval.branch, EvalM.runFrom_bind, he]⟩
    · -- Both parts are done with the larger of the two fuels.
      have more : ∀ n, (run host (max fuel n) (.eval b.test env options)).runFrom s =
          some (.ok v, t) := fun n => run_refines host (Nat.le_max_left fuel n) _ _ _ hv
      split at h
      · obtain ⟨n, h⟩ := h
        refine ⟨max fuel n, ?_⟩
        rw [Eval.branch, EvalM.runFrom_bind, more]
        dsimp only
        rw [if_pos ‹_›]
        exact run_refines host (Nat.le_max_right fuel n) _ _ _ h
      · obtain ⟨n, h⟩ := h
        refine ⟨max fuel n, ?_⟩
        rw [Eval.branch, EvalM.runFrom_bind, more]
        dsimp only
        rw [if_neg ‹_›]
        exact mono (Nat.le_max_right fuel n) _ _ h

/-- What a branch decides, it decides whatever the log holds. -/
theorem Decided.transfer {b : Branch} {P Q : State → Except Fault Value × State → Prop}
    {s s' : State} (h : SameButLog s s')
    (follow : ∀ {v t t'}, Ends host (.eval b.test env options) s (.ok v, t) →
      Ends host (.eval b.test env options) s' (.ok v, t') → SameButLog t t' →
      ∀ r, P t r → ∃ q, Q t' q ∧ EqualOutcome r q)
    {r : Except Fault Value × State} (hr : Decided host env options b P s r) :
    ∃ q, Decided host env options b Q s' q ∧ EqualOutcome r q := by
  rcases hr with ⟨e, t, he, rfl⟩ | ⟨v, t, hv, hr⟩
  · obtain ⟨⟨o, t'⟩, he', same⟩ := he.sameButLog h
    cases same.1
    exact ⟨_, .inl ⟨e, t', he', rfl⟩, same⟩
  · obtain ⟨⟨o, t'⟩, hv', same⟩ := hv.sameButLog h
    cases same.1
    by_cases holds : v.truthy = true
    · rw [if_pos holds] at hr
      obtain ⟨q, hq, equal⟩ := hr.sameButLog same.2
      exact ⟨q, .inr ⟨v, t', hv', by rwa [if_pos holds]⟩, equal⟩
    · rw [if_neg holds] at hr
      obtain ⟨q, hq, equal⟩ := follow hv hv' same.2 r hr
      exact ⟨q, .inr ⟨v, t', hv', by rwa [if_neg holds]⟩, equal⟩

/-- Branches end alike, if what follows them does. -/
theorem Decided.alike {b : Branch} {P Q : State → Except Fault Value × State → Prop}
    {s s' : State} (h : SameButLog s s')
    (follow : ∀ {t t'}, s.Grows s.frames.size t → SameButLog t t' → SameEnds (P t) (Q t')) :
    SameEnds (Decided host env options b P s) (Decided host env options b Q s') := by
  refine ⟨fun r => transfer h fun hv _ same => (follow hv.grows same).forth, fun q hq => ?_⟩
  obtain ⟨r, hr, same⟩ := transfer h.symm (fun _ hv same =>
    (follow hv.grows same.symm).symm.forth) hq
  exact ⟨r, hr, same.symm⟩

/-- Once its condition has been evaluated, a branch has decided. -/
theorem Decided.iff_of_ends {b : Branch} {P : State → Except Fault Value × State → Prop}
    {s t : State} {v : Value} (hv : Ends host (.eval b.test env options) s (.ok v, t))
    (r : Except Fault Value × State) :
    Decided host env options b P s r ↔
      if v.truthy then Ends host (.eval b.result env options) t r else P t r := by
  constructor
  · rintro (⟨e, u, he, -⟩ | ⟨w, u, hw, h⟩)
    · cases he.unique hv
    · cases hw.unique hv
      exact h
  · exact fun h => .inr ⟨v, t, hv, h⟩

theorem Chosen.alike (branches : List Branch) (otherwise : Value) {s s' : State}
    (h : SameButLog s s') : SameEnds (Chosen host env options branches otherwise s)
      (Chosen host env options branches otherwise s') := by
  induction branches generalizing s s' with
  | nil => exact Ends.alike h
  | cons b rest ih => exact Decided.alike h fun _ => ih

/-- The conditions are tried in order from `s`; all are false but the last, which holds and leaves
`t` behind. -/
inductive FirstHolds (host : Host) (env : Chain) (options : Options) :
    List Value → State → State → Prop where
  | here {c v : Value} {s t : State} (h : Ends host (.eval c env options) s (.ok v, t))
      (hv : v.truthy = true) : FirstHolds host env options [c] s t
  | later {c v : Value} {cs : List Value} {s t u : State}
      (h : Ends host (.eval c env options) s (.ok v, t)) (hv : v.truthy = false)
      (rest : FirstHolds host env options cs t u) : FirstHolds host env options (c :: cs) s u

/-- A chain ends as the branch of the first condition that holds. -/
theorem chosen_iff_of_firstHolds {before : List Branch} {b : Branch} {s t : State}
    (h : FirstHolds host env options ((before ++ [b]).map Branch.test) s t) (after : List Branch)
    (otherwise : Value) (r : Except Fault Value × State) :
    Chosen host env options (before ++ b :: after) otherwise s r ↔
      Ends host (.eval b.result env options) t r := by
  induction before generalizing s with
  | nil =>
      cases h with
      | here h hv => exact (Decided.iff_of_ends h r).trans (by rw [if_pos hv])
      | later _ _ rest => cases rest
  | cons c before ih =>
      rw [List.cons_append, List.map_cons] at h
      generalize tests : (before ++ [b]).map Branch.test = cs at h
      cases h with
      | here => simp at tests
      | later h hv rest =>
          subst tests
          refine (Decided.iff_of_ends h r).trans ?_
          rw [hv]
          exact ih rest

end Chain

/-! ### The two forms -/

section Forms

variable {host : Host} {env : Chain} {options : Options} {s : State}

/-- A nesting of branches keeps its outcomes with more fuel. -/
theorem foldr_branch_refines (branches : List Branch) (otherwise : Value) {m n : Nat}
    (h : m ≤ n) :
    (branches.foldr (Eval.branch fun e => run host m (.eval e env options))
      (run host m (.eval otherwise env options))).Refines
    (branches.foldr (Eval.branch fun e => run host n (.eval e env options))
      (run host n (.eval otherwise env options))) := by
  induction branches with
  | nil => exact run_refines host h _
  | cons b rest ih =>
      refine .bind (run_refines host h _) fun v => ?_
      split
      · exact run_refines host h _
      · exact ih

/-- **With enough fuel, a nesting of branches ends as the branch does that is chosen.**  By
induction on the branches, the first outermost. -/
theorem foldr_branch_ends_iff (branches : List Branch) (otherwise : Value) (s : State)
    (r : Except Fault Value × State) :
    (∃ fuel, (branches.foldr (Eval.branch fun e => run host fuel (.eval e env options))
      (run host fuel (.eval otherwise env options))).runFrom s = some r) ↔
    Chosen host env options branches otherwise s r := by
  induction branches generalizing s r with
  | nil => exact Iff.rfl
  | cons b rest ih =>
      refine (branch_ends_iff (foldr_branch_refines rest otherwise) b s r).trans ?_
      simp only [ih]
      rfl

/-- A `cond` ends as the chain of its branches does. -/
theorem condForm_chosen (branches : List Branch) (otherwise : Value) (junk : List Value)
    (s : State) :
    SameEnds (Ends host (.eval (condForm branches otherwise junk) env options) s)
      (Chosen host env options branches otherwise s) := by
  have form : ∀ fuel,
      (run host (fuel + 1) (.eval (condForm branches otherwise junk) env options)).runFrom s =
        (branches.foldr (Eval.branch fun e => run host fuel (.eval e env options))
          (run host fuel (.eval otherwise env options))).runFrom
            { s with log := .specialForm .cond :: s.log } := by
    intro fuel
    rw [← Eval.clauses_chain _ options branches otherwise junk]
    rfl
  have ends : ∀ r, Ends host (.eval (condForm branches otherwise junk) env options) s r ↔
      Chosen host env options branches otherwise
        { s with log := .specialForm .cond :: s.log } r := by
    intro r
    rw [← foldr_branch_ends_iff]
    constructor
    · rintro ⟨fuel, h⟩
      cases fuel with
      | zero => cases h
      | succ fuel => exact ⟨fuel, (form fuel).symm.trans h⟩
    · rintro ⟨fuel, h⟩
      exact ⟨fuel + 1, (form fuel).trans h⟩
  exact (SameEnds.of_iff ends).trans (Chosen.alike branches otherwise (.of_frames rfl rfl))

/-- A `$if` is a call of that name. -/
theorem operator_ifForm (b : Branch) (otherwise : Value) :
    SpecialForm.ofEntries? (b.ifForm otherwise) = none ∧
      operator (b.ifForm otherwise) = .ok ("$if", b.test) := by
  have name : isMacroName "$if" = true := by decide
  obtain ⟨test, result?⟩ := b
  cases result? <;>
    exact ⟨rfl, by simp [operator, operator?, Branch.ifForm, Branch.thenEntry, name]⟩

section If

variable (host options)
  (standard : s.resolve env "$if" = some (.tagged .expander (.standard .ifElse)))
  {b : Branch} (plain : b.test.isSequence = false) (otherwise : Value)
include standard plain

/-- A `$if` is evaluated as the branch that it stands for. -/
theorem run_ifForm : ∃ log, ∀ fuel,
    (run host (fuel + 3) (.eval (.mapping (b.ifForm otherwise)) env options)).runFrom s =
      (Eval.branch (fun e => run host (fuel + 1) (.eval e env options)) b
        (run host (fuel + 1) (.eval otherwise env options))).runFrom { s with log := log } := by
  obtain ⟨call, op⟩ := operator_ifForm b otherwise
  have answer : Standard.ifElse.apply (.mapping (b.ifForm otherwise) :: b.test.operands) =
      .ok (.mapping [("cond", .list [.mapping [("if", b.test), ("then", b.result)],
        .mapping [("else", otherwise)]])]) := by
    rw [Value.operands_of_not_isSequence plain]
    obtain ⟨test, result?⟩ := b
    cases result? <;> rfl
  exact ⟨_, fun fuel => run_standardMacro call op standard answer fuel⟩

/-- A `$if` ends as its branch decides: it expands to a `cond` of two clauses, as the log shows. -/
theorem ifForm_ends_iff : ∃ log, ∀ r,
    Ends host (.eval (.mapping (b.ifForm otherwise)) env options) s r ↔
      Decided host env options b (Ends host (.eval otherwise env options))
        { s with log := log } r := by
  obtain ⟨call, op⟩ := operator_ifForm b otherwise
  obtain ⟨log, form⟩ := run_ifForm host options standard plain otherwise
  refine ⟨log, fun r => ?_⟩
  refine Iff.trans ?_ (branch_ends_iff (fun h => run_refines host h _) b _ r)
  constructor
  · rintro ⟨fuel, h⟩
    rcases Nat.lt_or_ge fuel 3 with short | enough
    · rw [run_standardMacro_short call op standard short] at h
      cases h
    · obtain ⟨fuel, rfl⟩ := Nat.exists_eq_add_of_le' enough
      exact ⟨fuel + 1, (form fuel).symm.trans h⟩
  · rintro ⟨fuel, h⟩
    cases fuel with
    | zero => cases h
    | succ fuel => exact ⟨fuel + 3, (form fuel).trans h⟩

end If

/-- Nested `$if`s end as the chain of their branches does. -/
theorem nestedIf_chosen {branches : List Branch}
    (plain : ∀ b ∈ branches, b.test.isSequence = false) (otherwise : Value)
    (there : ∀ i ∈ env, i < s.frames.size)
    (standard : s.resolve env "$if" = some (.tagged .expander (.standard .ifElse))) :
    SameEnds (Ends host (.eval (nestedIf branches otherwise) env options) s)
      (Chosen host env options branches otherwise s) := by
  induction branches generalizing s with
  | nil => exact Ends.alike (.refl s)
  | cons b rest ih =>
      rw [List.forall_mem_cons] at plain
      obtain ⟨log, ends⟩ :=
        ifForm_ends_iff host options standard plain.1 (nestedIf rest otherwise)
      refine (SameEnds.of_iff ends).trans (Decided.alike (.of_frames rfl rfl) fun grows same => ?_)
      -- A condition changes no frame that is there, so that `$if` is still the standard macro.
      refine (ih plain.2 (fun i hi => ?_) ?_).trans (Chosen.alike rest otherwise same)
      · exact Nat.lt_of_lt_of_le (there i hi) grows.frames
      · rw [State.resolve_congr fun i hi => grows.kept i (there i hi)]
        exact standard

theorem nestedIf_append (before after : List Branch) (otherwise : Value) :
    nestedIf (before ++ after) otherwise = nestedIf before (nestedIf after otherwise) :=
  List.foldr_append

end Forms

/-- **A `cond` is a nesting of `$if`s.**  Let `$if` be the standard macro.  A `cond` of any branches
and an `else` clause, whatever comes after that, ends as the branches written as nested `$if`s do,
if no condition is a list or a tuple: both have no outcome, or the same fault or value.

From where the first condition that holds leaves the state, its branch ends as the `cond` and the
nesting do.  So nothing depends on the branches before it, on later conditions and branches, or on
the alternative: they are not evaluated. -/
theorem cond_is_nested_if (host : Host) {env : Chain} {s : State}
    (there : ∀ i ∈ env, i < s.frames.size)
    (standard : s.resolve env "$if" = some (.tagged .expander (.standard .ifElse)))
    (options : Options) (otherwise : Value) (junk : List Value) :
    (∀ branches : List Branch, (∀ b ∈ branches, b.test.isSequence = false) →
      SameEnds (Ends host (.eval (condForm branches otherwise junk) env options) s)
        (Ends host (.eval (nestedIf branches otherwise) env options) s)) ∧
    ∀ (before after : List Branch) (b : Branch) (t : State),
      FirstHolds host env options ((before ++ [b]).map Branch.test) s t →
      SameEnds (Ends host (.eval (condForm (before ++ b :: after) otherwise junk) env options) s)
        (Ends host (.eval b.result env options) t) ∧
      ((∀ c ∈ before ++ [b], c.test.isSequence = false) →
        SameEnds (Ends host (.eval (nestedIf (before ++ b :: after) otherwise) env options) s)
          (Ends host (.eval b.result env options) t)) := by
  refine ⟨fun branches plain => ?_, fun before after b t first => ⟨?_, fun plain => ?_⟩⟩
  · exact (condForm_chosen branches otherwise junk s).trans
      (nestedIf_chosen plain otherwise there standard).symm
  · exact (condForm_chosen _ otherwise junk s).trans
      (.of_iff (chosen_iff_of_firstHolds first after otherwise))
  · -- What follows the branch is the alternative of a shorter nesting.
    have split : nestedIf (before ++ b :: after) otherwise =
        nestedIf (before ++ [b]) (nestedIf after otherwise) := by
      rw [← nestedIf_append, List.append_assoc, List.singleton_append]
    rw [split]
    exact (nestedIf_chosen plain _ there standard).trans
      (.of_iff (chosen_iff_of_firstHolds first [] _))

/-- An expression without an outcome: a function that calls itself. -/
def endless : Value :=
  .mapping [("let", .mapping [("f", .mapping [("lambda", .list []),
    ("body", .mapping [("f", .list [])])])]), ("in", .mapping [("f", .list [])])]

/-- A condition that is false, one that holds, with no expression in its branch, and one that does
not end. -/
def threeBranches : List Branch :=
  [⟨.mapping [("gt", .list [.int 1, .int 2])], some (.text "x")⟩,
    ⟨.mapping [("gt", .list [.int 2, .int 1])], none⟩, ⟨endless, some endless⟩]

/-- The unbound symbol is passed over, and what follows the second condition, be it endless or no
clause at all, is not looked at. -/
theorem cond_is_nested_if_endless :
    (∀ i ∈ [0], i < State.initial.frames.size) ∧
    State.initial.resolve [0] "$if" = some (.tagged .expander (.standard .ifElse)) ∧
    SameEnds (Ends hostTools (.eval (condForm threeBranches endless [.null]) [0] ⟨true⟩) .initial)
      (Ends hostTools (.eval (nestedIf threeBranches endless) [0] ⟨true⟩) .initial) ∧
    ∃ s, FirstHolds hostTools [0] ⟨true⟩ ((threeBranches.take 2).map Branch.test) .initial s ∧
      (∃ t, Ends hostTools (.eval (condForm threeBranches endless [.null]) [0] ⟨true⟩) .initial
        (.ok .undefined, t)) ∧
      ∃ t, Ends hostTools (.eval (nestedIf threeBranches endless) [0] ⟨true⟩) .initial
        (.ok .undefined, t) := by
  have there : ∀ i ∈ [0], i < State.initial.frames.size := by decide
  have chain := cond_is_nested_if hostTools there rfl ⟨true⟩ endless [.null]
  have plain : ∀ b ∈ threeBranches, b.test.isSequence = false := by
    simp [threeBranches, Value.isSequence, endless]
  obtain ⟨s, first⟩ : ∃ s, FirstHolds hostTools [0] ⟨true⟩
      ((threeBranches.take 2).map Branch.test) .initial s :=
    ⟨_, .later ⟨4, rfl⟩ rfl (.here ⟨4, rfl⟩ rfl)⟩
  have absent : Ends hostTools (.eval .undefined [0] ⟨true⟩) s (.ok .undefined, s) := ⟨1, rfl⟩
  have chosen := chain.2 (threeBranches.take 1) (threeBranches.drop 2)
    ⟨.mapping [("gt", .list [.int 2, .int 1])], none⟩ s first
  refine ⟨there, rfl, chain.1 threeBranches plain, s, first, ?_, ?_⟩
  · obtain ⟨⟨o, t⟩, ends, equal⟩ := chosen.1.back _ absent
    cases equal.1
    exact ⟨t, ends⟩
  · obtain ⟨⟨o, t⟩, ends, equal⟩ := (chosen.2 fun b hb =>
      plain b (List.mem_of_mem_take (i := 2) hb)).back _ absent
    cases equal.1
    exact ⟨t, ends⟩

end FormLang
