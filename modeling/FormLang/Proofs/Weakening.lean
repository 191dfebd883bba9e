import FormLang.Proofs.Resolution

/-!
# Weakening — further names do not matter

A host hands in one frame more, with names that are bound neither in its other frames nor in the
standard one.  A program may bind some of these names itself; but a `let` fills its frame step by
step, and a lookup that comes too early falls through to the frames further out.  There it finds the
new binding, where it would have found nothing.  From then on the two evaluations have nothing to do
with each other, but the one without the frame is over: no rule recovers from a failed lookup, and
no function of the host that hands such a fault on.

So **an evaluation that does not end for want of a binding ends in the same way with the further
frame, wherever that stands** (`further_names_do_not_matter`).
-/

namespace FormLang

/-! ### Names that no frame binds -/

theorem nearest_eq_none_iff {fs : List Frame} {name : String} :
    nearest fs name = none ↔ ∀ f ∈ fs, name ∉ Entries.keys f := by
  simp only [nearest, List.findSome?_eq_none_iff, Entries.get?_eq_none_iff]

/-- A frame that does not bind the name may be left out. -/
theorem meaning_without {f : Frame} {name : String} (h : name ∉ Entries.keys f)
    (fs gs : List Frame) : meaning (fs ++ gs) name = meaning (fs ++ f :: gs) name := by
  have unbound : Entries.get? name f = none := Entries.get?_eq_none_iff.2 h
  simp only [meaning, nearest_append, nearest_cons, unbound, Option.none_or]

/-- Without a frame of names that are bound nowhere else, these are unbound, and the others mean
what they do with it. -/
theorem meaning_narrower {before after : List (Entries Value)} {extra : Entries Value}
    (further : ∀ name ∈ Entries.keys extra, ∀ es ∈ before ++ after ++ [Frame.standard],
      name ∉ Entries.keys es) (name : String) :
    meaning ((before ++ after).map Frame.ofEntries) name =
        meaning ((before ++ extra :: after).map Frame.ofEntries) name ∨
      meaning ((before ++ after).map Frame.ofEntries) name = none := by
  by_cases hn : name ∈ Entries.keys extra
  · right
    refine nearest_eq_none_iff.2 fun f hf => ?_
    rcases List.mem_append.1 hf with hf | hf
    · obtain ⟨es, he, rfl⟩ := List.mem_map.1 hf
      rw [Frame.ofEntries, Entries.keys_mapValues]
      exact further name hn es (List.mem_append_left _ he)
    · exact further name hn f (List.mem_append_right _ hf)
  · left
    have unbound : name ∉ Entries.keys (Frame.ofEntries extra) := by
      rwa [Frame.ofEntries, Entries.keys_mapValues]
    rw [List.map_append, List.map_append, List.map_cons]
    exact meaning_without unbound _ _

/-! ### Evaluations -/

variable {held : String → Extent} {host : Host}

/-- **Further names do not matter.**  Let no function of the host catch that a name is unbound, and
let a frame bind names that are bound neither in the other frames nor in the standard one.  If
without it an evaluation ends in a value, or in a fault other than that a name is unbound, then with
it, wherever it stands among the others, the evaluation ends in the same outcome, up to the closures
that are new, and with the same log. -/
theorem further_names_do_not_matter (hp : host.Pure held)
    (hh : ∀ e : Fault, e.isUnbound = true → host.HandsOn e) {s₀ : State} (hc : s₀.Closed held)
    (hs : s₀.frames[0]? = some Frame.standard) {expr : Value} (he : expr.Known held s₀.extent)
    {before after : List (Entries Value)} {extra : Entries Value}
    (hk : (Value.list ((before ++ extra :: after).map .mapping)).Known held s₀.extent)
    (further : ∀ name ∈ Entries.keys extra, ∀ es ∈ before ++ after ++ [Frame.standard],
      name ∉ Entries.keys es)
    (options : Options) (fuel : Nat) {r : Except Fault Value × State}
    (h : (evaluate host fuel expr (.list ((before ++ after).map .mapping)) options).runFrom s₀ =
      some r)
    (bound : ∀ e, r.1 = .error e → e.isUnbound = false) :
    ∃ q, (evaluate host fuel expr (.list ((before ++ extra :: after).map .mapping))
        options).runFrom s₀ = some q ∧
      SameOutcomeOn held
        (s₀.chained standardChain ((before ++ extra :: after).map Frame.ofEntries))
        (s₀.chained standardChain ((before ++ after).map Frame.ofEntries)) s₀.extent q r := by
  have means : ∀ name, Scope.free.Sees (fun _ => True) name →
      meaning ((before ++ after).map Frame.ofEntries) name =
          meaning ((before ++ extra :: after).map Frame.ofEntries) name ∨
        True ∧ meaning ((before ++ after).map Frame.ofEntries) name = none :=
    fun name _ => (meaning_narrower further name).imp id fun unbound => ⟨trivial, unbound⟩
  -- The evaluation with the further frame comes first: it is the one that may go on alone.
  have covers := evaluate_covers hp (fun e cut => hh e cut.2) hc hs he (.free expr) hk
    (hostFrames_mappings _) (hostFrames_mappings _) (fun f _ => .free f) means options fuel
  rw [h] at covers
  generalize (evaluate host fuel expr _ options).runFrom s₀ = q at covers ⊢
  cases covers with
  | whole ends =>
      have same := Rebased.sameOutcome rfl ends
      cases same with
      | some same => exact ⟨_, rfl, same⟩
  | short _ _ cut _ =>
      have unbound := bound _ rfl
      rw [cut.2] at unbound
      cases unbound

/-- Binds `x` after a closure that reads it, calls the closure through a macro, and answers with the
closure as well. -/
def lateBinding : Value :=
  .mapping [
    ("let", .mapping [
      ("$m", .mapping [("lambda", .list [.text "form", .text "e"]), ("body", .text "e")]),
      ("f", .mapping [("lambda", .list []), ("body", .text "x")]),
      ("x", .int 1)]),
    ("in", .mapping [("$m", .list [.list [.mapping [("f", .list [])], .text "f"]])])]

/-- A further frame that binds the name which a program binds late does not matter, although the
closure has captured it. -/
theorem further_names_do_not_matter_late :
    ∃ s t, (evaluate hostTools 8 lateBinding (.list [.mapping [("y", .int 2)]])
        .lenient).runFrom .initial =
          some (.ok (.list [.int 1, .closure 1 [] (.text "x") [2, 1, 0] .lenient]), s) ∧
      (evaluate hostTools 8 lateBinding (.list [.mapping [("x", .int 5)], .mapping [("y", .int 2)]])
        .lenient).runFrom .initial =
          some (.ok (.list [.int 1, .closure 1 [] (.text "x") [3, 2, 1, 0] .lenient]), t) ∧
      SameOutcomeOn holdsNothing [2, 1, 0] [1, 0] State.initial.extent
        (.ok (.list [.int 1, .closure 1 [] (.text "x") [3, 2, 1, 0] .lenient]), t)
        (.ok (.list [.int 1, .closure 1 [] (.text "x") [2, 1, 0] .lenient]), s) := by
  have runs : ∃ s t, (evaluate hostTools 8 lateBinding (.list [.mapping [("y", .int 2)]])
        .lenient).runFrom .initial =
          some (.ok (.list [.int 1, .closure 1 [] (.text "x") [2, 1, 0] .lenient]), s) ∧
      (evaluate hostTools 8 lateBinding (.list [.mapping [("x", .int 5)], .mapping [("y", .int 2)]])
        .lenient).runFrom .initial =
          some (.ok (.list [.int 1, .closure 1 [] (.text "x") [3, 2, 1, 0] .lenient]), t) :=
    ⟨_, _, rfl, rfl⟩
  obtain ⟨s, t, narrow, wide⟩ := runs
  have expander : (Value.mapping [("lambda", .list [.text "form", .text "e"]),
      ("body", .text "e")]).Known holdsNothing State.initial.extent :=
    .mapping (.cons (.list (.cons (.text _) (.cons (.text _) .nil))) (.cons (.text _) .nil))
  have closure : (Value.mapping [("lambda", .list []), ("body", .text "x")]).Known holdsNothing
      State.initial.extent := .mapping (.cons (.list .nil) (.cons (.text _) .nil))
  have expansion : (Value.mapping [("$m", .list [.list [.mapping [("f", .list [])],
      .text "f"]])]).Known holdsNothing State.initial.extent :=
    .mapping (.cons (.list (.cons (.list (.cons (.mapping (.cons (.list .nil) .nil))
      (.cons (.text _) .nil))) .nil)) .nil)
  have expr : lateBinding.Known holdsNothing State.initial.extent :=
    .mapping (.cons (.mapping (.cons expander (.cons closure (.cons (.int 1) .nil))))
      (.cons expansion .nil))
  have frames : (Value.list (([] ++ [("x", Value.int 5)] :: [[("y", Value.int 2)]]).map
      .mapping)).Known holdsNothing State.initial.extent :=
    .list (.cons (.mapping (.cons (.int 5) .nil)) (.cons (.mapping (.cons (.int 2) .nil)) .nil))
  have further : ∀ name ∈ Entries.keys [("x", Value.int 5)],
      ∀ es ∈ [] ++ [[("y", Value.int 2)]] ++ [Frame.standard], name ∉ Entries.keys es := by
    decide
  obtain ⟨q, hq, same⟩ := further_names_do_not_matter (hostTools_pure holdsNothing)
    (fun _ _ => hostTools_handsOn _) (State.initial_closed _) rfl expr frames further .lenient 8
    narrow (fun _ he => by cases he)
  cases wide.symm.trans hq
  exact ⟨s, t, narrow, wide, same⟩

end FormLang
