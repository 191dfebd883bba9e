import FormLang.Proofs.Templates
import FormLang.Value.Copy

/-!
# Quasiquotes — templates and the values of their escapes

To fill a template is to evaluate what stands under its outermost escapes, one after the other, and
to put the values in their places.  `Value.plug` puts them there, without evaluating anything and
without a look at what the values hold; `Eval.fill_eq_plug` is the equation.  All that can fail is
the evaluation of the escapes, so **a quasiquote ends as the list of its escapes does**
(`quasiquote_plugs_escapes`).

The macro `$record` answers with a template that escapes every entry, so **a record is what its
description says** (`record_builds_description`), but for an entry called `$_`: with it the template
is itself an escape (`record_of_escape_fails`).
-/

namespace FormLang

namespace Value

/-- A template does not stand for itself where it holds the value: a tuple gives way to a list, an
escape to the value of what stands under it. -/
def givesWay : Value → Bool
  | .tuple _ => true
  | .mapping entries => Entries.has "$_" entries
  | _ => false

mutual
/-- The template with the values in the place of its outermost escapes, in order, and with lists in
the place of its own sequences.  Nothing inside the values is looked at. -/
def plug : Value → List Value → Value
  | .list items, vs | .tuple items, vs => .list (plugItems items vs)
  | .mapping entries, vs =>
    match Entries.get? "$_" entries with
    | some _ => vs.headD (.mapping entries)
    | none => .mapping (plugEntries entries vs)
  | v, _ => v
termination_by structural v => v

/-- Each item takes as many of the values as it has escapes. -/
def plugItems : List Value → List Value → List Value
  | [], _ => []
  | v :: rest, vs =>
    plug v (vs.take (Eval.escapes v).length) :: plugItems rest (vs.drop (Eval.escapes v).length)
termination_by structural items => items

def plugEntries : List (String × Value) → List Value → List (String × Value)
  | [], _ => []
  | (name, v) :: rest, vs =>
    (name, plug v (vs.take (Eval.escapes v).length)) ::
      plugEntries rest (vs.drop (Eval.escapes v).length)
termination_by structural entries => entries
end

end Value

namespace Eval

variable (eval : Value → EvalM Value)

theorem length_of_mapM {es vs : List Value} {s s' : State}
    (h : (es.mapM eval).runFrom s = some (.ok vs, s')) : vs.length = es.length := by
  induction es generalizing vs s with
  | nil =>
      cases h
      rfl
  | cons e es ih =>
      rw [List.mapM_cons] at h
      obtain ⟨v, t, -, h⟩ := EvalM.runFrom_bind_ok h
      obtain ⟨ws, t', hws, h⟩ := EvalM.runFrom_bind_ok h
      cases h
      rw [List.length_cons, List.length_cons, ih hws]

/-- What follows an evaluation of expressions one by one is given as many values. -/
theorem mapM_bind_congr {α : Type} {es : List Value} {f g : List Value → EvalM α}
    (h : ∀ vs, vs.length = es.length → f vs = g vs) :
    es.mapM eval >>= f = es.mapM eval >>= g := by
  refine EvalM.ext fun s => ?_
  rw [EvalM.runFrom_bind, EvalM.runFrom_bind]
  split
  · rename_i vs t hr
    rw [h vs (length_of_mapM eval hr)]
  · rfl
  · rfl

/-- Expressions in two groups: what is made of all the values is made of those of each group. -/
theorem mapM_append_bind {α β γ : Type} (es fs : List Value) {f : List Value → α}
    {g : List Value → β} {h : List Value → γ} {k : α → β → γ}
    (split : ∀ vs ws, vs.length = es.length → h (vs ++ ws) = k (f vs) (g ws)) :
    (es ++ fs).mapM eval >>= (fun vs => (pure (h vs) : EvalM γ)) = (do
      let a ← es.mapM eval >>= fun vs => pure (f vs)
      let b ← fs.mapM eval >>= fun ws => pure (g ws)
      return k a b) := by
  simp only [List.mapM_append, bind_assoc, pure_bind]
  refine mapM_bind_congr eval fun vs hvs => ?_
  simp only [split vs _ hvs]

mutual
/-- **To fill a template is to evaluate its escapes in order and to plug the values in.**  By
recursion on the template; of the values a container takes as many as its first part has escapes,
and then goes on. -/
theorem fill_eq_plug : (template : Value) →
    fill eval template = (escapes template).mapM eval >>= fun vs => pure (template.plug vs)
  | .list items | .tuple items => by
      rw [fill, fillItems_eq_plugItems items, bind_assoc]
      simp only [pure_bind, escapes, Value.plug]
  | .mapping entries => by
      simp only [fill, escapes, Value.plug]
      cases Entries.get? "$_" entries with
      | some escaped => simp
      | none =>
          rw [fillEntries_eq_plugEntries entries]
          simp
  | .null | .bool _ | .int _ | .float _ | .text _ | .undefined | .closure .. | .standard _
  | .host _ | .tagged .. => by simp [fill, escapes, Value.plug]

theorem fillItems_eq_plugItems : (items : List Value) → fillItems eval items =
    (itemEscapes items).mapM eval >>= fun vs => pure (Value.plugItems items vs)
  | [] => by simp [fillItems, itemEscapes, Value.plugItems]
  | v :: rest => by
      rw [fillItems, fill_eq_plug v, fillItems_eq_plugItems rest, itemEscapes]
      refine (mapM_append_bind eval _ _ fun vs ws hvs => ?_).symm
      rw [Value.plugItems, List.take_left' hvs, List.drop_left' hvs]

theorem fillEntries_eq_plugEntries : (entries : List (String × Value)) → fillEntries eval entries =
    (entryEscapes entries).mapM eval >>= fun vs => pure (Value.plugEntries entries vs)
  | [] => by simp [fillEntries, entryEscapes, Value.plugEntries]
  | (name, v) :: rest => by
      rw [fillEntries, fill_eq_plug v, fillEntries_eq_plugEntries rest, entryEscapes]
      refine (mapM_append_bind eval _ _ fun vs ws hvs => ?_).symm
      rw [Value.plugEntries, List.take_left' hvs, List.drop_left' hvs]
end

mutual
/-- A template in which nothing gives way is what it describes. -/
theorem plug_literal : (v : Value) → v.holds Value.givesWay = false →
    escapes v = [] ∧ ∀ vs, v.plug vs = v
  | .list items, h => by
      have parts := plugItems_literal items h
      simp [escapes, Value.plug, parts]
  | .tuple items, h => by cases h
  | .mapping entries, h => by
      rw [Value.holds, Bool.or_eq_false_iff] at h
      have plain : Entries.get? "$_" entries = none := by
        simpa [Value.givesWay, Entries.has] using h.1
      have parts := plugEntries_literal entries h.2
      simp [escapes, Value.plug, plain, parts]
  | .null, _ | .bool _, _ | .int _, _ | .float _, _ | .text _, _ | .undefined, _
  | .closure .., _ | .standard _, _ | .host _, _ | .tagged .., _ => by simp [escapes, Value.plug]

theorem plugItems_literal : (items : List Value) → Value.anyHolds Value.givesWay items = false →
    itemEscapes items = [] ∧ ∀ vs, Value.plugItems items vs = items
  | [], _ => by simp [itemEscapes, Value.plugItems]
  | v :: rest, h => by
      rw [Value.anyHolds, Bool.or_eq_false_iff] at h
      simp [itemEscapes, Value.plugItems, plug_literal v h.1, plugItems_literal rest h.2]

theorem plugEntries_literal : (entries : List (String × Value)) →
    Value.anyEntryHolds Value.givesWay entries = false →
    entryEscapes entries = [] ∧ ∀ vs, Value.plugEntries entries vs = entries
  | [], _ => by simp [entryEscapes, Value.plugEntries]
  | (name, v) :: rest, h => by
      rw [Value.anyEntryHolds, Bool.or_eq_false_iff] at h
      simp [entryEscapes, Value.plugEntries, plug_literal v h.1, plugEntries_literal rest h.2]
end

end Eval

/-! ### Quasiquotes -/

variable {host : Host} {env : Chain} {options : Options} {s : State}

/-- The outcome of a template beside that of the list of its escapes: the same fault, or the
template with the items of the list plugged in, in states that differ in the log only. -/
def Plugged (template : Value) (r q : Except Fault Value × State) : Prop :=
  SameButLog r.2 q.2 ∧ AnswersAlike (fun v w => ∃ vs : List Value, w = .list vs ∧
    vs.length = (Eval.escapes template).length ∧ v = template.plug vs) r.1 q.1

/-- To fill a template is to do what the list of its escapes does, but for what is made of the
values. -/
theorem fill_plugged {template : Value} {fuel : Nat} {q : Option (Except Fault Value × State)}
    (h : Option.Rel EqualOutcome
      ((run host (fuel + 1) (.eval (.list (Eval.escapes template)) env options)).runFrom s) q) :
    Option.Rel (Plugged template)
      ((Eval.fill (fun e => run host fuel (.eval e env options)) template).runFrom s) q := by
  have listed : run host (fuel + 1) (.eval (.list (Eval.escapes template)) env options) =
      ((Eval.escapes template).mapM fun e => run host fuel (.eval e env options)) >>=
        fun vs => pure (.list vs) := rfl
  rw [listed, EvalM.runFrom_bind] at h
  rw [Eval.fill_eq_plug, EvalM.runFrom_bind]
  split at h
  · rename_i vs t hr
    have length := Eval.length_of_mapM _ hr
    cases h with
    | @some _ q h => exact .some ⟨h.2, h.1 ▸ .ok ⟨vs, rfl, length, rfl⟩⟩
  · rename_i e t hr
    cases h with
    | @some _ q h => exact .some ⟨h.2, h.1 ▸ .error e⟩
  · cases h
    exact .none

/-- **A quasiquote plugs the values of its escapes into the template.**  It has an outcome exactly
when the list of what stands under the outermost escapes, in order, has one: the same fault, or the
template with the items of the list in the places of the escapes.  A template in which nothing gives
way is its own value. -/
theorem quasiquote_plugs_escapes (host : Host) (template : Value) (env : Chain) (options : Options)
    (s : State) :
    (∀ fuel, Option.Rel (Plugged template)
      ((run host fuel (.eval (.mapping [("_$", template)]) env options)).runFrom s)
      ((run host fuel (.eval (.list (Eval.escapes template)) env options)).runFrom s)) ∧
    (template.holds Value.givesWay = false → ∀ fuel,
      (run host (fuel + 1) (.eval (.mapping [("_$", template)]) env options)).runFrom s =
        some (.ok template, { s with log := .specialForm .quasiquote :: s.log })) := by
  have form : ∀ fuel,
      (run host (fuel + 1) (.eval (.mapping [("_$", template)]) env options)).runFrom s =
        (Eval.fill (fun e => run host fuel (.eval e env options)) template).runFrom
          { s with log := .specialForm .quasiquote :: s.log } := fun _ => rfl
  refine ⟨fun fuel => ?_, fun literal fuel => ?_⟩
  · cases fuel with
    | zero => exact .none
    | succ fuel =>
        rw [form]
        have start : SameButLog { s with log := .specialForm .quasiquote :: s.log } s :=
          .of_frames rfl rfl
        exact fill_plugged (run_sameButLog host (fuel + 1) _ start)
  · obtain ⟨none, self⟩ := Eval.plug_literal template literal
    rw [form, Eval.fill_eq_plug, none]
    simp [self]

/-- A template with a quotation and a quasiquote of its own, which are data there, and with an
escape that has another entry; what this one evaluates to is an escape again. -/
def nestedTemplate : Value :=
  .mapping [
    ("a", .tuple [.int 1,
      .mapping [("b", .int 2), ("$_", .mapping [("$", .mapping [("$_", .text "x")])])]]),
    ("_$", .mapping [("$", .mapping [("$_", .mapping [("plus", .list [.int 1, .int 2])])])])]

theorem quasiquote_plugs_escapes_nested :
    (∃ s t,
      (run hostTools 5 (.eval (.mapping [("_$", nestedTemplate)]) [0] .lenient)).runFrom .initial =
        some (.ok (.mapping [("a", .list [.int 1, .mapping [("$_", .text "x")]]),
          ("_$", .mapping [("$", .int 3)])]), s) ∧
      (run hostTools 5 (.eval (.list (Eval.escapes nestedTemplate)) [0] .lenient)).runFrom
        .initial = some (.ok (.list [.mapping [("$_", .text "x")], .int 3]), t) ∧
      Plugged nestedTemplate
        (.ok (.mapping [("a", .list [.int 1, .mapping [("$_", .text "x")]]),
          ("_$", .mapping [("$", .int 3)])]), s)
        (.ok (.list [.mapping [("$_", .text "x")], .int 3]), t)) ∧
    (Value.mapping [("plus", .list [.text "x", .null])]).holds Value.givesWay = false ∧
    ∃ s, (run hostTools 1 (.eval (.mapping [("_$", .mapping [("plus", .list [.text "x", .null])])])
      [0] .lenient)).runFrom .initial =
        some (.ok (.mapping [("plus", .list [.text "x", .null])]), s) := by
  refine ⟨?_, rfl, _, (quasiquote_plugs_escapes hostTools _ [0] .lenient .initial).2 rfl 0⟩
  have plugged := (quasiquote_plugs_escapes hostTools nestedTemplate [0] .lenient .initial).1 5
  cases plugged with
  | some plugged => exact ⟨_, _, rfl, rfl, plugged⟩

/-! ### Records -/

/-- The template of a record: an escape for every entry. -/
def recordTemplate (description : Entries Value) : Entries Value :=
  Entries.mapValues (fun _ e => .mapping [("$_", e)]) description

/-- The entries of a record: its names in order, each with the value of what stands under it. -/
def buildRecord (eval : Value → EvalM Value) (description : Entries Value) :
    EvalM (Entries Value) :=
  description.mapM fun e => do return (e.1, ← eval e.2)

section Record

variable (eval : Value → EvalM Value) (description : Entries Value)

theorem buildRecord_cons (e : String × Value) : buildRecord eval (e :: description) = (do
    let v ← eval e.2
    let rest ← buildRecord eval description
    return (e.1, v) :: rest) := by
  simp [buildRecord]

/-- The record has the names of its description, in their order. -/
theorem keys_of_buildRecord {entries : Entries Value} {s s' : State}
    (h : (buildRecord eval description).runFrom s = some (.ok entries, s')) :
    Entries.keys entries = Entries.keys description := by
  induction description generalizing entries s with
  | nil =>
      cases h
      rfl
  | cons e rest ih =>
      rw [buildRecord_cons] at h
      obtain ⟨v, t, -, h⟩ := EvalM.runFrom_bind_ok h
      obtain ⟨others, t', hr, h⟩ := EvalM.runFrom_bind_ok h
      cases h
      exact congrArg (e.1 :: ·) (ih hr)

/-- An entry of the template is the value of what stands under its name. -/
theorem fillEntries_recordTemplate :
    Eval.fillEntries eval (recordTemplate description) = buildRecord eval description := by
  induction description with
  | nil => rfl
  | cons e rest ih =>
      rw [buildRecord_cons, ← ih]
      rfl

variable {description}

/-- Without an entry called `$_` the template of a record is no escape itself. -/
theorem fill_recordTemplate (plain : "$_" ∉ Entries.keys description) :
    Eval.fill eval (.mapping (recordTemplate description)) = (do
      return .mapping (← buildRecord eval description)) := by
  have unescaped : Entries.get? "$_" (recordTemplate description) = none := by
    rwa [Entries.get?_eq_none_iff, recordTemplate, Entries.keys_mapValues]
  rw [Eval.fill, unescaped, ← fillEntries_recordTemplate]

end Record

/-- The state when the entries of a record are about to be evaluated: the log tells of the call and
its expansion. -/
def State.describing (s : State) (description : Entries Value) : State :=
  { s with
    log := .specialForm .quasiquote ::
      .expansion (.mapping [("$record", .mapping description)])
        (.mapping [("_$", .mapping (recordTemplate description))]) ::
      .call "$record" (Value.tagged .expander (.standard .record)).kindName 1 :: s.log }

/-- **A record is what its description says.**  Where `$record` is the standard macro, a call of it
evaluates what stands under the names of the description in the environment of the call, each once
and in order.  The first fault is the fault of the call; if there is none, its value is the mapping
with the same names in the same order, each with its value.  No name may be `$_`. -/
theorem record_builds_description (host : Host) {description : Entries Value} {env : Chain}
    {s : State} (standard : s.resolve env "$record" = some (.tagged .expander (.standard .record)))
    (plain : "$_" ∉ Entries.keys description) (options : Options) (fuel : Nat) :
    (run host (fuel + 3) (.eval (.mapping [("$record", .mapping description)]) env options)).runFrom
      s = (do
        let entries ← buildRecord (fun e => run host (fuel + 1) (.eval e env options)) description
        return Value.mapping entries).runFrom (s.describing description) ∧
    ∀ entries t, (buildRecord (fun e => run host (fuel + 1) (.eval e env options))
      description).runFrom (s.describing description) = some (.ok entries, t) →
        Entries.keys entries = Entries.keys description := by
  refine ⟨?_, fun entries t h => keys_of_buildRecord _ _ h⟩
  rw [← fill_recordTemplate _ plain, run_macro (by decide) (by decide) rfl standard]
  rfl

/-- Reserved keys and macro names are plain names in a record. -/
theorem record_builds_description_reserved :
    State.initial.resolve [0] "$record" = some (.tagged .expander (.standard .record)) ∧
    "$_" ∉ Entries.keys [("let", Value.mapping [("plus", .list [.int 1, .int 2])]), ("$", .null)] ∧
    ∃ t, (run hostTools 5 (.eval (.mapping [("$record",
        .mapping [("let", .mapping [("plus", .list [.int 1, .int 2])]), ("$", .null)])]) [0]
          .lenient)).runFrom .initial =
      some (.ok (.mapping [("let", .int 3), ("$", .null)]), t) :=
  ⟨rfl, by decide, _,
    (record_builds_description hostTools rfl (by decide) .lenient 2).1.trans rfl⟩

/-- With an entry called `$_` the template is itself an escape, and what stands under it is
evaluated as it is, a call of the macro `$_`, which is bound to nothing. -/
theorem record_of_escape_fails :
    State.initial.resolve [0] "$record" = some (.tagged .expander (.standard .record)) ∧
    (∃ t, (buildRecord (fun e => run hostTools 2 (.eval e [0] .lenient))
      [("$_", .int 1)]).runFrom .initial = some (.ok [("$_", .int 1)], t)) ∧
    ∃ t, (run hostTools 4 (.eval (.mapping [("$record", .mapping [("$_", .int 1)])]) [0]
      .lenient)).runFrom .initial = some (.error (.undefinedMacro "$_"), t) :=
  ⟨rfl, ⟨_, rfl⟩, _, rfl⟩

end FormLang
