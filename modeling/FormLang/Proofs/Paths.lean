import FormLang.Proofs.Calls
import FormLang.Proofs.Macros

/-!
# Paths — lookups that follow one key after the other

`get` follows keys into a value one at a time, and a key that leads nowhere leads to the absent
value, from which nothing leads further.  So **to follow two lists of keys is to follow the one and
then the other**, and it fails where one of the two does.

The macro `$get` takes such a path as a text.  It cuts the text at its dots and answers with a call
of `get`: the first part is looked up as a symbol, and the others are quoted, so that they are keys
as they stand (`run_getForm`).  A dot and a key at the end of a text are one key more at the end of
the path (`Text.split_dot`), whatever the text before it.  So **a longer path goes on from where the
shorter one leads to**, and fails only where that one does (`paths_compose`).
-/

namespace FormLang

open Expansion (quotation)

/-! ### Cutting texts -/

namespace Text

variable {sep : Char}

theorem splitChars_of_not_mem {cs : List Char} (h : sep ∉ cs) : splitChars sep cs = [cs] := by
  induction cs with
  | nil => rfl
  | cons c cs ih =>
      rw [List.mem_cons, not_or] at h
      rw [splitChars, if_neg (Ne.symm h.1), ih h.2]

/-- A separator ends one part and begins the next. -/
theorem splitChars_append (cs ds : List Char) :
    splitChars sep (cs ++ sep :: ds) = splitChars sep cs ++ splitChars sep ds := by
  induction cs with
  | nil => simp [splitChars]
  | cons c cs ih =>
      rw [List.cons_append, splitChars, splitChars, ih]
      split
      · rfl
      · obtain ⟨part, parts, hp⟩ := List.exists_cons_of_ne_nil (splitChars_ne_nil sep cs)
        simp [hp]

theorem split_of_not_mem {s : String} (h : sep ∉ s.toList) : split sep s = [s] := by
  rw [split, splitChars_of_not_mem h, List.map_singleton, String.ofList_toList]

theorem split_dot (path : String) {key : String} (h : '.' ∉ key.toList) :
    split '.' (path ++ "." ++ key) = split '.' path ++ [key] := by
  have chars : (path ++ "." ++ key).toList = path.toList ++ '.' :: key.toList := by simp
  rw [← split_of_not_mem h, split, chars, splitChars_append, List.map_append, split, split]

end Text

/-- The parts of a path, with dots between them. -/
def dotted (head : String) (keys : List String) : String :=
  keys.foldl (fun path key => path ++ "." ++ key) head

/-- A dotted path splits into its head and its keys. -/
theorem Text.split_dotted (head : String) {keys : List String}
    (h : ∀ key ∈ keys, '.' ∉ key.toList) :
    Text.split '.' (dotted head keys) = Text.split '.' head ++ keys := by
  induction keys generalizing head with
  | nil => rw [dotted, List.foldl_nil, List.append_nil]
  | cons key keys ih =>
      rw [List.forall_mem_cons] at h
      have step : dotted head (key :: keys) = dotted (head ++ "." ++ key) keys := rfl
      rw [step, ih _ h.2, split_dot head h.1, List.append_assoc, List.singleton_append]

/-! ### Following keys -/

namespace Projection

theorem get_append (v : Value) (keys more : List Value) :
    get v (keys ++ more) = get v keys >>= fun w => get w more :=
  List.foldlM_append

theorem get_single (v key : Value) : get v [key] = getOne v key := by
  simp [get]

/-- A path of texts is followed one text at a time. -/
theorem get_eq_foldlM (v : Value) (keys : List String) :
    get v (keys.map .text) = keys.foldlM (fun v key => get v [.text key]) v := by
  rw [get, List.foldlM_map]
  simp only [get_single]

/-- A text is a key for every value. -/
theorem getOne_text (v : Value) (key : String) : ∃ w, getOne v (.text key) = .ok w := by
  cases v <;> exact ⟨_, rfl⟩

/-- To follow texts never fails: a key that leads nowhere leads to the absent value. -/
theorem get_texts (v : Value) (keys : List String) : ∃ w, get v (keys.map .text) = .ok w := by
  induction keys generalizing v with
  | nil => exact ⟨v, rfl⟩
  | cons key keys ih =>
      obtain ⟨w, hw⟩ := getOne_text v key
      obtain ⟨u, hu⟩ := ih w
      refine ⟨u, ?_⟩
      rw [List.map_cons, ← List.singleton_append, get_append, get_single, hw]
      exact hu

end Projection

/-! ### Dotted paths -/

/-- A call of `$get`. -/
def getForm (path : String) : Value :=
  .mapping [("$get", .text path)]

/-- The standard function `get`, as it is bound. -/
def getFunction : Value :=
  .tagged .function (.standard .get)

section Form

variable {host : Host} {env : Chain} {options : Options} {s : State}

theorem getPath_of_split {path head : String} {keys : List String}
    (parts : Text.split '.' path = head :: keys) :
    Expansion.getPath (.text path) =
      .ok (.mapping [("get", .list (.text head :: (keys.map .text).map quotation))]) := by
  simp [Expansion.getPath, parts]

/-- The evaluation of the parts of a path: the head is a symbol, the others stand for themselves. -/
theorem mapM_parts (host : Host) (env : Chain) (options : Options) (head : String)
    (keys : List String) (fuel : Nat) (s : State) :
    ∃ log, ((Value.text head :: (keys.map Value.text).map quotation).mapM fun e =>
        run host (fuel + 1) (.eval e env options)).runFrom s =
      some (match s.resolve env head with
        | none => .error (.undefinedSymbol (Text.quoted head))
        | some v => .ok (v :: keys.map .text), { s with log := log }) := by
  obtain ⟨log, quoted⟩ := mapM_quotation host env options fuel (keys.map .text) s
  have symbol : (run host (fuel + 1) (.eval (.text head) env options)).runFrom s = _ :=
    EvalM.runFrom_lookup env head s
  rw [List.mapM_cons, EvalM.runFrom_bind, symbol]
  cases s.resolve env head with
  | none => exact ⟨s.log, rfl⟩
  | some v =>
      refine ⟨log, ?_⟩
      dsimp only
      rw [EvalM.runFrom_bind, quoted]
      rfl

/-- A call of `get` with the parts of a path. -/
theorem run_getCall (function : s.resolve env "get" = some getFunction) (head : String)
    (keys : List String) (fuel : Nat) :
    ∃ log, (run host (fuel + 2) (.eval (.mapping [("get",
        .list (.text head :: (keys.map .text).map quotation))]) env options)).runFrom s =
      match s.resolve env head with
      | none => some (.error (.undefinedSymbol (Text.quoted head)), { s with log := log })
      | some v => (run host (fuel + 1) (.call getFunction (v :: keys.map .text))).runFrom
          { s with log := log } := by
  have plain : PlainName "get" := ⟨by decide, by decide⟩
  rw [run_named rfl rfl plain function, Eval.applied, EvalM.runFrom_bind]
  generalize Event.call "get" _ _ :: s.log = before
  obtain ⟨log, evaluated⟩ := mapM_parts host env options head keys fuel { s with log := before }
  have same : State.resolve { s with log := before } env head = s.resolve env head := rfl
  refine ⟨log, ?_⟩
  rw [Value.operands, evaluated, same]
  cases s.resolve env head <;> rfl

variable (host options)
  (expander : s.resolve env "$get" = some (.tagged .expander (.standard .getPath)))
include expander

/-- With too little fuel to be expanded, a path has no outcome. -/
theorem run_getForm_short (path : String) {fuel : Nat} (h : fuel < 3) :
    (run host fuel (.eval (getForm path) env options)).runFrom s = none :=
  run_standardMacro_short (ofEntries?_of_macroName (by decide) (by decide) _) rfl expander h

/-- A path looks up its head as a symbol, and calls `get` with what that is bound to and with the
other parts as keys. -/
theorem run_getForm (function : s.resolve env "get" = some getFunction) {path head : String}
    {keys : List String} (parts : Text.split '.' path = head :: keys) (fuel : Nat) :
    ∃ log, (run host (fuel + 3) (.eval (getForm path) env options)).runFrom s =
      match s.resolve env head with
      | none => some (.error (.undefinedSymbol (Text.quoted head)), { s with log := log })
      | some v => (run host (fuel + 1) (.call getFunction (v :: keys.map .text))).runFrom
          { s with log := log } := by
  have expanded : (run host (fuel + 3) (.eval (getForm path) env options)).runFrom s = _ :=
    run_standardMacro (ofEntries?_of_macroName (by decide) (by decide) (.text path)) rfl expander
      (getPath_of_split parts) fuel
  rw [expanded]
  generalize Event.expansion _ _ :: _ = before
  exact run_getCall (s := { s with log := before }) function head keys fuel

end Form

/-- The outcome of a path with one more key, beside that of the path: the same fault, or what `get`
finds under that key in the value, in states that differ in the log only. -/
def Onward (key : String) (r q : Except Fault Value × State) : Prop :=
  SameButLog r.2 q.2 ∧
    AnswersAlike (fun w v => Standard.get.apply [v, .text key] = .ok w) r.1 q.1

/-- What `get` answers to a path of texts. -/
theorem run_getFunction (host : Host) (v : Value) (keys : List String) (fuel : Nat) (s : State) :
    (run host (fuel + 2) (.call getFunction (v :: keys.map .text))).runFrom s =
      some (Projection.get v (keys.map .text), s) :=
  EvalM.runFrom_lift (Projection.get v (keys.map .text)) s

/-- One key more, followed from what the others lead to. -/
theorem run_getFunction_onward (host : Host) (v : Value) (keys : List String) (key : String)
    (fuel : Nat) {s t : State} (h : SameButLog s t) :
    Option.Rel (Onward key)
      ((run host fuel (.call getFunction (v :: (keys ++ [key]).map .text))).runFrom s)
      ((run host fuel (.call getFunction (v :: keys.map .text))).runFrom t) := by
  match fuel with
  | 0 => exact .none
  | 1 => exact .none
  | fuel + 2 =>
      obtain ⟨w, hw⟩ := Projection.get_texts v keys
      obtain ⟨u, hu⟩ := Projection.get_texts w [key]
      have further : Projection.get v ((keys ++ [key]).map .text) = .ok u := by
        rw [List.map_append, Projection.get_append, hw]
        exact hu
      rw [run_getFunction, run_getFunction, further, hw]
      exact .some ⟨h, .ok hu⟩

/-- **Lookups compose.**  `get` with two lists of keys, of whatever kind, answers what it answers
with the second list to the answer of the first, or fails as one of the two does.

Where `$get` and `get` are the standard bindings, a path with a dot and a key at its end, in which
there is no further dot, fails exactly as the path does, and otherwise evaluates to what `get` finds
under the key in the value of the path.  So a path evaluates to what its head is bound to, followed
by one key after the other, and fails only where no frame binds its head. -/
theorem paths_compose :
    (∀ (v : Value) (keys more : List Value), Standard.get.apply (v :: (keys ++ more)) =
      Standard.get.apply (v :: keys) >>= fun w => Standard.get.apply (w :: more)) ∧
    ∀ (host : Host) (env : Chain) (s : State),
      s.resolve env "$get" = some (.tagged .expander (.standard .getPath)) →
      s.resolve env "get" = some (.tagged .function (.standard .get)) → ∀ options : Options,
      (∀ path key : String, '.' ∉ key.toList → ∀ fuel, Option.Rel (Onward key)
        ((run host fuel (.eval (getForm (path ++ "." ++ key)) env options)).runFrom s)
        ((run host fuel (.eval (getForm path) env options)).runFrom s)) ∧
      ∀ (head : String) (keys : List String), (∀ part ∈ head :: keys, '.' ∉ part.toList) →
        ∀ fuel, ∃ t, SameButLog s t ∧
          (run host (fuel + 4) (.eval (getForm (dotted head keys)) env options)).runFrom s =
            some (match s.resolve env head with
              | none => .error (.undefinedSymbol (Text.quoted head))
              | some v => keys.foldlM (fun v key => Standard.get.apply [v, .text key]) v, t) := by
  refine ⟨Projection.get_append, fun host env s expander function options => ⟨?_, ?_⟩⟩
  · intro path key plain fuel
    rcases Nat.lt_or_ge fuel 3 with short | enough
    · rw [run_getForm_short host options expander _ short,
        run_getForm_short host options expander _ short]
      exact .none
    obtain ⟨fuel, rfl⟩ := Nat.exists_eq_add_of_le' enough
    obtain ⟨head, keys, parts⟩ : ∃ head keys, Text.split '.' path = head :: keys :=
      List.exists_cons_of_ne_nil (by simp [Text.split, Text.splitChars_ne_nil])
    have further : Text.split '.' (path ++ "." ++ key) = head :: (keys ++ [key]) := by
      rw [Text.split_dot path plain, parts, List.cons_append]
    obtain ⟨log, short⟩ := run_getForm host options expander function parts fuel
    obtain ⟨log', long⟩ := run_getForm host options expander function further fuel
    rw [short, long]
    have same : SameButLog { s with log := log' } { s with log := log } := .of_frames rfl rfl
    cases s.resolve env head with
    | none => exact .some ⟨same, .error _⟩
    | some v => exact run_getFunction_onward host v keys key (fuel + 1) same
  · intro head keys plain fuel
    rw [List.forall_mem_cons] at plain
    have parts : Text.split '.' (dotted head keys) = head :: keys := by
      rw [Text.split_dotted head plain.2, Text.split_of_not_mem plain.1, List.singleton_append]
    obtain ⟨log, found⟩ := run_getForm host options expander function parts (fuel + 1)
    refine ⟨{ s with log := log }, .of_frames rfl rfl, found.trans ?_⟩
    cases s.resolve env head with
    | none => rfl
    | some v =>
        dsimp only
        rw [run_getFunction, Projection.get_eq_foldlM]
        rfl

/-- A frame that binds a mapping with a mapping and a list inside. -/
def withUser : State :=
  { State.initial with
    frames := State.initial.frames.push [("user", .mapping
      [("address", .mapping [("city", .text "Oslo")]), ("tags", .list [.text "new"])])] }

/-- A path into the mapping; one key more than it has leads to the absent value, and so does a key
of a list.  A key that cannot be looked for fails only where there is a mapping to look in. -/
theorem paths_compose_user :
    withUser.resolve [1, 0] "$get" = some (.tagged .expander (.standard .getPath)) ∧
    withUser.resolve [1, 0] "get" = some (.tagged .function (.standard .get)) ∧
    dotted "user" ["address", "city"] = "user.address.city" ∧
    (∃ t, (run hostTools 4 (.eval (getForm (dotted "user" ["address", "city"])) [1, 0]
      .lenient)).runFrom withUser = some (.ok (.text "Oslo"), t)) ∧
    (∃ t, (run hostTools 4 (.eval (getForm (dotted "tags" ["0"])) [1, 0] .lenient)).runFrom
      withUser = some (.error (.undefinedSymbol (Text.quoted "tags")), t)) ∧
    (∀ fuel, Option.Rel (Onward "name")
      ((run hostTools fuel (.eval (getForm ("user.address.city" ++ "." ++ "name")) [1, 0]
        .lenient)).runFrom withUser)
      ((run hostTools fuel (.eval (getForm "user.address.city") [1, 0] .lenient)).runFrom
        withUser)) ∧
    Standard.get.apply [.mapping [("a", .null)], .text "a", .list []] =
      Standard.get.apply [.null, .list []] ∧
    Standard.get.apply [.mapping [("a", .mapping [])], .text "a", .list []] =
      .error .unusableKey := by
  have paths := paths_compose.2 hostTools [1, 0] withUser rfl rfl .lenient
  refine ⟨rfl, rfl, by decide, ?_, ?_, ?_, ?_, ?_⟩
  · obtain ⟨t, -, found⟩ := paths.2 "user" ["address", "city"] (by decide) 0
    exact ⟨t, found⟩
  · obtain ⟨t, -, failed⟩ := paths.2 "tags" ["0"] (by decide) 0
    exact ⟨t, failed⟩
  · exact paths.1 "user.address.city" "name" (by decide)
  · exact paths_compose.1 _ [.text "a"] [.list []]
  · exact paths_compose.1 _ [.text "a"] [.list []]

end FormLang
