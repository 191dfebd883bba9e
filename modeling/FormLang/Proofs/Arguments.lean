import FormLang.Proofs.Calls

/-!
# Arguments — parameters are bound by position

A call of a closure binds its parameters in a new frame, one after the other, each to the argument
at its position, under the tag that its name calls for.  A parameter without an argument is bound to
the absent value, and arguments beyond the parameters are dropped.  A name may be that of several
parameters.  Each of them writes over the one before, so **the last position counts**, and it counts
also when the arguments do not reach it (`Frame.get?_bindArguments`).

The frame does not change when the arguments are cut or filled up to the number of the parameters
(`Frame.bindArguments_fitted`), so neither does what the call comes to
(`arguments_bind_by_position`).
-/

namespace FormLang

/-- The parameter at position `k` is the last one of its name. -/
def LastAt (name : String) (params : List String) (k : Nat) : Prop :=
  params[k]? = some name ∧ ∀ j, k < j → params[j]? ≠ some name

theorem LastAt.cons {name : String} {params : List String} {k : Nat} (h : LastAt name params k)
    (p : String) : LastAt name (p :: params) (k + 1) := by
  refine ⟨h.1, fun j hj => ?_⟩
  cases j with
  | zero => exact absurd hj (Nat.not_lt_zero _)
  | succ j => exact h.2 j (Nat.lt_of_succ_lt_succ hj)

theorem LastAt.head {name : String} {params : List String} (h : name ∉ params) :
    LastAt name (name :: params) 0 := by
  refine ⟨rfl, fun j hj found => ?_⟩
  cases j with
  | zero => exact absurd hj (Nat.lt_irrefl _)
  | succ j => exact h (List.mem_of_getElem? found)

/-- What a parameter at position `k` is bound to: the argument there, if there is one. -/
def argumentAt (name : String) (args : List Value) (k : Nat) : Value :=
  args[k]?.elim .undefined (tag name)

theorem argumentAt_tail (name : String) (args : List Value) (k : Nat) :
    argumentAt name args.tail k = argumentAt name args (k + 1) := by
  rw [argumentAt, argumentAt, List.getElem?_tail]

/-- Exactly `n` arguments: the first ones, filled up with the absent value if there are fewer. -/
def fitted (n : Nat) (args : List Value) : List Value :=
  args.take n ++ List.replicate (n - args.length) .undefined

theorem length_fitted (n : Nat) (args : List Value) : (fitted n args).length = n := by
  rw [fitted, List.length_append, List.length_take, List.length_replicate]
  omega

theorem fitted_succ (n : Nat) (args : List Value) :
    fitted (n + 1) args = args.headD .undefined :: fitted n args.tail := by
  cases args with
  | nil => simp [fitted, List.replicate_succ]
  | cons v args => simp [fitted]

/-! ### The frame of a call -/

namespace Frame

variable {f : Frame} {params : List String} {args : List Value} {name : String}

theorem bindArguments_cons (p : String) : f.bindArguments (p :: params) args =
    bindArguments (Entries.insert p (argumentAt p args 0) f) params args.tail := by
  cases args <;> rfl

/-- A name that is no parameter keeps its binding. -/
theorem get?_bindArguments_of_notMem (h : name ∉ params) :
    Entries.get? name (f.bindArguments params args) = Entries.get? name f := by
  induction params generalizing f args with
  | nil => rfl
  | cons p params ih =>
      rw [List.mem_cons, not_or] at h
      rw [bindArguments_cons, ih h.2, Entries.get?_insert, if_neg (Ne.symm h.1)]

/-- **The last position of a name counts.** -/
theorem get?_bindArguments (h : name ∈ params) : ∃ k, LastAt name params k ∧
    Entries.get? name (f.bindArguments params args) = some (argumentAt name args k) := by
  induction params generalizing f args with
  | nil => cases h
  | cons p params ih =>
      rw [bindArguments_cons]
      by_cases later : name ∈ params
      · -- What is written for the first parameter is written over.
        obtain ⟨k, last, bound⟩ := @ih (Entries.insert p (argumentAt p args 0) f) args.tail later
        exact ⟨k + 1, last.cons p, by rw [bound, argumentAt_tail]⟩
      · obtain rfl := (List.mem_cons.1 h).resolve_right later
        refine ⟨0, .head later, ?_⟩
        rw [get?_bindArguments_of_notMem later, Entries.get?_insert, if_pos rfl]

/-- Arguments in excess are dropped, and the absent value stands for those that are missing. -/
theorem bindArguments_fitted (f : Frame) (params : List String) (args : List Value) :
    f.bindArguments params (fitted params.length args) = f.bindArguments params args := by
  induction params generalizing f args with
  | nil => rfl
  | cons p params ih =>
      have first : argumentAt p (fitted (params.length + 1) args) 0 = argumentAt p args 0 := by
        rw [fitted_succ]
        cases args <;> rfl
      rw [List.length_cons, bindArguments_cons, first, fitted_succ, List.tail_cons, ih,
        bindArguments_cons]

end Frame

/-! ### Calls -/

/-- From the chain `inner` of `t` each parameter means its argument, and any other name what it
means from the chain `env` of `s`. -/
structure BoundByPosition (params : List String) (args : List Value) (s : State) (env : Chain)
    (t : State) (inner : Chain) : Prop where
  parameter : ∀ name ∈ params, ∃ k, LastAt name params k ∧
    t.resolve inner name = some (argumentAt name args k)
  other : ∀ name, name ∉ params → t.resolve inner name = s.resolve env name

/-- In the frame of a call each parameter means the argument of the last position that it names; all
other names mean what they did. -/
theorem boundByPosition_entered (params : List String) (args : List Value) {s : State} {env : Chain}
    (h : ∀ i ∈ env, i < s.frames.size) (log : List Event) :
    BoundByPosition params args s env (s.entered (Frame.bindArguments [] params args) log)
      (s.frames.size :: env) := by
  have nearest : ∀ name, (s.entered (Frame.bindArguments [] params args) log).resolve
      (s.frames.size :: env) name =
        (Entries.get? name (Frame.bindArguments [] params args)).or (s.resolve env name) := by
    intro name
    rw [State.resolve_cons, State.entered, Array.getElem?_push_size, Option.bind_some]
    exact congrArg _ (State.resolve_push h _ name)
  refine ⟨fun name hn => ?_, fun name hn => ?_⟩
  · obtain ⟨k, last, bound⟩ := @Frame.get?_bindArguments [] _ args _ hn
    exact ⟨k, last, by rw [nearest, bound, Option.some_or]⟩
  · rw [nearest, Frame.get?_bindArguments_of_notMem hn, Entries.get?_nil, Option.none_or]

/-- **Arguments are bound by position.**  A call of a closure evaluates its body in an environment
where each parameter means the argument at the last position of its name, tagged for that name, or
the absent value if the arguments do not reach so far; every other name means what it does in the
captured environment.  So whichever way the closure is called, the outcome is the one that it has
with exactly as many arguments as parameters, the surplus cut and what is missing absent. -/
theorem arguments_bind_by_position (host : Host) (fuel : Nat) (id : Nat) (params : List String)
    (body : Value) (env : Chain) (options : Options) (args : List Value) (s : State) :
    ((∀ i ∈ env, i < s.frames.size) → ∃ t inner,
      (run host (fuel + 1) (.call (.closure id params body env options) args)).runFrom s =
        (run host fuel (.eval body inner options)).runFrom t ∧
      inner = s.frames.size :: env ∧ t.frames = s.frames.push (Frame.bindArguments [] params args) ∧
      BoundByPosition params args s env t inner) ∧
    (fitted params.length args).length = params.length ∧
    ∀ {x y : EvalM Value}, Calls host fuel s (.closure id params body env options) args x →
      Calls host fuel s (.closure id params body env options) (fitted params.length args) y →
      Option.Rel EqualOutcome (x.runFrom s) (y.runFrom s) := by
  refine ⟨fun h => ?_, length_fitted _ _, fun hx hy => ?_⟩
  · exact ⟨_, _, rfl, rfl, rfl, boundByPosition_entered params args h _⟩
  · refine hx.rel hy fun n log log' => ?_
    rw [Frame.bindArguments_fitted]
    exact run_sameButLog host n _ (.of_frames rfl rfl)

/-- Two parameters of one name, and one with the name of a macro. -/
def repeating : Value :=
  .closure 0 ["x", "$m", "x"] (.list [.text "x", .text "$m", .text "plus"]) [0] .lenient

/-- The arguments do not reach the second `x`, so `x` is absent, though there is one for the first.
The function bound to `$m` is a macro, and `plus` is what it was. -/
theorem arguments_bind_by_position_repeated :
    (∃ t, (run hostTools 3 (.call repeating [.int 1, .host "list"])).runFrom .initial =
      some (.ok (.list [.undefined, .tagged .expander (.host "list"),
        .tagged .function (.standard .plus)]), t)) ∧
    fitted 3 [.int 1, .host "list"] = [.int 1, .host "list", .undefined] ∧
    (∃ t, BoundByPosition ["x", "$m", "x"] [.int 1, .host "list"] .initial [0] t [1, 0]) ∧
    ∀ fuel, Option.Rel EqualOutcome
      ((run hostTools fuel (.call repeating [.int 1, .host "list"])).runFrom .initial)
      ((run hostTools fuel (.call repeating [.int 1, .host "list", .undefined])).runFrom
        .initial) := by
  have bound := fun fuel => arguments_bind_by_position hostTools fuel 0 ["x", "$m", "x"]
    (.list [.text "x", .text "$m", .text "plus"]) [0] .lenient [.int 1, .host "list"] .initial
  obtain ⟨t, inner, -, rfl, -, position⟩ := (bound 0).1 (by decide)
  exact ⟨⟨_, rfl⟩, rfl, ⟨t, position⟩, fun fuel => (bound fuel).2.2 .host .host⟩

end FormLang
