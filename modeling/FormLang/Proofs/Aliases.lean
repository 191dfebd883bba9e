import FormLang.Proofs.LetFrames

/-!
# Aliases — only the last name counts

A value that goes from name to name is tagged anew under each of them.  A name takes the tag off
that a callable has, and puts on the one that it asks for.  What is under the tag stays, and no tag
comes to stand around another (`tag_keeps`), so a name leaves nothing behind that the next one could
see (`tag_tag`).

In the language a value goes from name to name in nested `let`s, each of which binds a name to the
one before it (`aliases`).  Every frame on the way is the one that binds the value itself under its
name (`run_aliases`), and **the whole evaluates to the value as the last name binds it**
(`last_alias_counts`).
-/

namespace FormLang

open Expansion (quotation)

/-! ### One name after the other -/

section Tags

variable {v : Value} (h : v.isClosureFunction = false)
include h

/-- A name changes nothing of a callable but its tag. -/
theorem tag_keeps (hc : v.isCallable = true) (name : String) :
    (tag name v).isCallable = true ∧ (tag name v).isClosureFunction = false ∧
      (tag name v).untagged = v.untagged := by
  rw [tag_of_isCallable name h hc]
  split
  · exact ⟨rfl, rfl, rfl⟩
  · split
    · rename_i hcl
      generalize v.untagged = fn at hcl
      cases fn with
      | closure => exact ⟨rfl, rfl, rfl⟩
      | _ => cases hcl
    · rename_i hcl
      exact ⟨rfl, Bool.eq_false_iff.2 hcl, rfl⟩

theorem isClosureFunction_tag (name : String) : (tag name v).isClosureFunction = false := by
  by_cases hc : v.isCallable = true
  · exact (tag_keeps h hc name).2.1
  · rwa [tag_of_not_isCallable name hc]

/-- The callable under the tag is not lost, and no tag is put around another. -/
theorem untagged_tag (name : String) : (tag name v).untagged = v.untagged := by
  by_cases hc : v.isCallable = true
  · exact (tag_keeps h hc name).2.2
  · rw [tag_of_not_isCallable name hc]

/-- Under the second name, the first one does not matter. -/
theorem tag_tag (first second : String) : tag second (tag first v) = tag second v := by
  by_cases hc : v.isCallable = true
  · obtain ⟨hc', h', same⟩ := tag_keeps h hc first
    rw [tag_of_isCallable second h' hc', same, tag_of_isCallable second h hc]
  · rw [tag_of_not_isCallable first hc]

/-- Of the names under which a value is bound one after the other, the last one decides. -/
theorem foldl_tag (name : String) (rest : List String) :
    (name :: rest).foldl (fun w n => tag n w) v =
      tag ((name :: rest).getLast (List.cons_ne_nil name rest)) v := by
  induction rest generalizing name v with
  | nil => rfl
  | cons next rest ih =>
      rw [List.foldl_cons, ih (isClosureFunction_tag h name) next, tag_tag h,
        List.getLast_cons_cons]

end Tags

/-- A closure with the tag of a function loses it for good under the name of a macro. -/
example : tag "f" (tag "$f" (.tagged .function (.closure 0 [] .null [0] .lenient))) =
      .closure 0 [] .null [0] .lenient ∧
    tag "f" (.tagged .function (.closure 0 [] .null [0] .lenient)) =
      .tagged .function (.closure 0 [] .null [0] .lenient) :=
  ⟨rfl, rfl⟩

/-! ### Nested `let`s -/

/-- What `source` names, handed on from name to name: each is bound in a `let` to the one before it,
and the innermost expression is the last. -/
def aliases (source : String) : List String → Value
  | [] => .text source
  | name :: rest => letIn (.mapping [(name, .text source)]) (aliases name rest)

/-- An empty frame is not seen. -/
theorem State.resolve_push_nil (s : State) (env : Chain) (name : String) :
    { s with frames := s.frames.push [] }.resolve env name = s.resolve env name := by
  have each : ∀ i : Nat, (s.frames.push [])[i]?.bind (Entries.get? name) =
      s.frames[i]?.bind (Entries.get? name) := by
    intro i
    rw [Array.getElem?_push]
    split
    · rename_i hi
      rw [hi, Array.getElem?_eq_none (Nat.le_refl _)]
      rfl
    · rfl
  simp only [resolve, each]

theorem State.resolve_entered_one (s : State) (env : Chain) (name : String) (v : Value)
    (log : List Event) :
    (s.entered (Frame.ofEntries [(name, v)]) log).resolve (s.frames.size :: env) name =
      some (tag name v) := by
  have frame : (s.entered (Frame.ofEntries [(name, v)]) log).frames[s.frames.size]? =
      some (Frame.ofEntries [(name, v)]) := Array.getElem?_push_size
  rw [resolve_ofEntries frame, Entries.get?_cons, if_pos rfl]
  rfl

section Chains

variable (host : Host) (options : Options) {s : State} {env : Chain}

/-- A `let` that binds a name to another evaluates its body behind a frame with what the other one
names. -/
theorem run_alias {source : String} {w : Value} (hr : s.resolve env source = some w)
    (name : String) (body : Value) (fuel : Nat) :
    (run host (fuel + 2) (.eval (letIn (.mapping [(name, .text source)]) body) env options)).runFrom
        s =
      (run host (fuel + 1) (.eval body (s.frames.size :: env) options)).runFrom
        (s.entered (Frame.ofEntries [(name, w)]) s.inLet.log) := by
  -- The new frame is still empty when the other name is looked up, so the two may be the same.
  have named : (s.inLet.entered [] s.inLet.log).resolve (s.frames.size :: env) source = some w := by
    rw [State.resolve_cons, State.entered, State.inLet, Array.getElem?_push_size,
      State.resolve_push_nil]
    exact hr
  have bound : (Eval.bindFrame (run host (fuel + 1)) (.mapping [(name, .text source)]) env
      options).runFrom s.inLet = some (.ok (s.frames.size :: env),
        s.entered (Frame.ofEntries [(name, w)]) s.inLet.log) := by
    refine bindFrame_ok_iff.2 ⟨rfl, [(name, w)], .cons (run_symbol named fuel) ?_⟩
    simp only [State.entered, State.inLet, modify_push_size]
    exact .nil _
  refine (run_letIn ..).trans ((EvalM.runFrom_bind ..).trans ?_)
  rw [← State.inLet, bound]

/-- Every further name is bound in a frame of its own, as if it were the only one. -/
theorem run_aliases {v : Value} (h : v.isClosureFunction = false) {source : String}
    (rest : List String) (hr : s.resolve env source = some (tag source v)) {fuel : Nat}
    (enough : rest.length < fuel) :
    ∃ log, (run host fuel (.eval (aliases source rest) env options)).runFrom s =
      some (.ok (tag ((source :: rest).getLast (List.cons_ne_nil source rest)) v),
        { s with
          frames := s.frames ++ (rest.map fun name => Frame.ofEntries [(name, v)]).toArray
          log := log }) := by
  induction rest generalizing source s env fuel with
  | nil =>
      obtain ⟨fuel, rfl⟩ : ∃ k, fuel = k + 1 := ⟨fuel - 1, by omega⟩
      refine ⟨s.log, (run_symbol hr fuel).trans ?_⟩
      simp
  | cons name rest ih =>
      rw [List.length_cons] at enough
      obtain ⟨fuel, rfl⟩ : ∃ k, fuel = k + 2 := ⟨fuel - 2, by omega⟩
      have same : Frame.ofEntries [(name, tag source v)] = Frame.ofEntries [(name, v)] := by
        simp only [Frame.ofEntries, Entries.mapValues, List.map_cons, List.map_nil, tag_tag h]
      have step := run_alias host options hr name (aliases name rest) fuel
      rw [same] at step
      obtain ⟨log, others⟩ := ih (State.resolve_entered_one s env name v s.inLet.log)
        (by omega : rest.length < fuel + 1)
      refine ⟨log, step.trans (others.trans ?_)⟩
      simp [State.entered]

end Chains

/-- **Only the last alias counts.**  Take any value but a closure with the tag of a function: one
that is no callable, a callable without a tag, or one with the tag that some name asks for.  Tagged
under one name after the other, it is as the last name alone tags it, and under its tag it is what
it was.  So in nested `let`s that bind it under the first name and each further name to the one
before it, in every environment, the last name evaluates to the value as that name binds it; the
frames of all the names are made on the way, each as if its name were the only one. -/
theorem last_alias_counts {v : Value} (h : v.isClosureFunction = false) (name : String)
    (rest : List String) :
    (name :: rest).foldl (fun w n => tag n w) v =
      tag ((name :: rest).getLast (List.cons_ne_nil name rest)) v ∧
    (tag ((name :: rest).getLast (List.cons_ne_nil name rest)) v).untagged = v.untagged ∧
    ∀ (host : Host) (options : Options) (env : Chain) (s : State) (fuel : Nat),
      rest.length + 2 ≤ fuel → ∃ log,
      (run host fuel (.eval (letIn (.mapping [(name, quotation v)]) (aliases name rest)) env
          options)).runFrom s =
        some (.ok (tag ((name :: rest).getLast (List.cons_ne_nil name rest)) v),
          { s with
            frames := s.frames ++ ((name :: rest).map fun n => Frame.ofEntries [(n, v)]).toArray
            log := log }) := by
  refine ⟨foldl_tag h name rest, untagged_tag h _, fun host options env s fuel enough => ?_⟩
  obtain ⟨fuel, rfl⟩ : ∃ k, fuel = k + 1 := ⟨fuel - 1, by omega⟩
  obtain ⟨log, first⟩ := runFrom_in_let host s env options fuel [(name, v)] (aliases name rest)
  obtain ⟨log', others⟩ := run_aliases host options h rest
    (State.resolve_entered_one s env name v log) (by omega : rest.length < fuel)
  refine ⟨log', first.trans (others.trans ?_)⟩
  simp [State.entered]

/-- The identity, as a macro. -/
def identityMacro : Value :=
  .tagged .expander (.closure 0 ["x"] (.text "x") [0] .lenient)

/-- A macro around a closure becomes a closure under a plain name, a macro again, and at last a
closure under a name that it has had before. -/
theorem last_alias_counts_returning :
    identityMacro.isClosureFunction = false ∧
    ["id", "$id", "id"].foldl (fun w n => tag n w) identityMacro =
      .closure 0 ["x"] (.text "x") [0] .lenient ∧
    ∃ s, (run hostTools 4 (.eval (letIn (.mapping [("id", quotation identityMacro)])
        (aliases "id" ["$id", "id"])) [0] .lenient)).runFrom .initial =
          some (.ok (.closure 0 ["x"] (.text "x") [0] .lenient), s) ∧
      s.frames[1]? = some [("id", .closure 0 ["x"] (.text "x") [0] .lenient)] ∧
      s.frames[2]? = some [("$id", identityMacro)] ∧ s.frames[3]? = s.frames[1]? := by
  obtain ⟨tags, -, runs⟩ := last_alias_counts (rfl : identityMacro.isClosureFunction = false) "id"
    ["$id", "id"]
  obtain ⟨log, ran⟩ := runs hostTools .lenient [0] .initial 4 (by decide)
  exact ⟨rfl, tags, _, ran, rfl, rfl, rfl⟩

end FormLang
