import FormLang.Proofs.Alike.Rebase

/-!
# Resolution — the shape of the environment does not matter

A host hands in frames, nearest first.  **Two lists of frames in which every name means the same
cannot be told apart by a program** (`only_meanings_matter`): however many frames there are, what
they bind that nearer ones hide, and in which order.  So frames may be merged into one in which the
nearer ones have won (`Entries.merged`), and the entries of a frame may be put in any order.
-/

namespace FormLang

namespace Entries

variable {α : Type}

/-- The second entries, with the first ones written over them. -/
def overlay (es fs : Entries α) : Entries α :=
  es.foldr (fun e rest => insert e.1 e.2 rest) fs

/-- All entries in one, of which the nearer ones win. -/
def merged (ess : List (Entries α)) : Entries α :=
  ess.foldr overlay []

/-- The first of the two decides, where it has the name. -/
theorem get?_overlay (es fs : Entries α) (name : String) :
    get? name (overlay es fs) = (get? name es).or (get? name fs) := by
  induction es with
  | nil => rfl
  | cons e es ih =>
      obtain ⟨n, v⟩ := e
      rw [overlay, List.foldr_cons, get?_insert, get?_cons]
      split
      · rfl
      · exact ih

/-- In the merged mapping a name means what the first mapping that has it says. -/
theorem get?_merged (ess : List (Entries α)) (name : String) :
    get? name (merged ess) = ess.findSome? (get? name) := by
  induction ess with
  | nil => rfl
  | cons es ess ih =>
      rw [merged, List.foldr_cons, get?_overlay, List.findSome?_cons, ← ih]
      cases get? name es <;> rfl

/-- Entries with distinct names may be put in any order. -/
theorem get?_perm {es fs : Entries α} (h : es.Perm fs) (hn : (keys es).Nodup) (name : String) :
    get? name es = get? name fs := by
  have hk : (keys es).Perm (keys fs) := h.map Prod.fst
  cases hg : get? name es with
  | some v => exact (get?_of_mem (hk.nodup hn) (h.mem_iff.1 (mem_of_get? hg))).symm
  | none =>
      rw [get?_eq_none_iff] at hg
      exact (get?_eq_none_iff.2 fun hm => hg (hk.mem_iff.2 hm)).symm

end Entries

/-! ### Frames in which names mean the same -/

theorem get?_ofEntries (es : Entries Value) (name : String) :
    Entries.get? name (Frame.ofEntries es) = (Entries.get? name es).map (tag name) :=
  Entries.get?_mapValues tag name es

/-- Frames may be merged into one. -/
theorem nearest_merged (ess : List (Entries Value)) (name : String) :
    nearest (ess.map Frame.ofEntries) name =
      nearest [Frame.ofEntries (Entries.merged ess)] name := by
  rw [nearest_cons, nearest_nil, Option.or_none, get?_ofEntries, Entries.get?_merged]
  induction ess with
  | nil => rfl
  | cons es ess ih =>
      rw [List.map_cons, nearest_cons, get?_ofEntries, ih, List.findSome?_cons]
      cases Entries.get? name es <;> rfl

/-- The entries of a frame may be put in any order. -/
theorem nearest_perm {es es' : Entries Value} (h : es.Perm es') (hn : (Entries.keys es).Nodup)
    (name : String) : nearest [Frame.ofEntries es] name = nearest [Frame.ofEntries es'] name := by
  rw [nearest_cons, nearest_cons, get?_ofEntries, get?_ofEntries, Entries.get?_perm h hn]

/-- A list of mappings gives a frame for each. -/
theorem hostFrames_mappings (ess : List (Entries Value)) :
    hostFrames (.list (ess.map .mapping)) = .ok (ess.map Frame.ofEntries) := by
  rw [hostFrames]
  induction ess with
  | nil => rfl
  | cons es ess ih =>
      rw [List.map_cons, List.mapM_cons, ih]
      rfl

/-! ### Evaluations -/

variable {held : String → Extent} {host : Host}

/-- Frames in which all names mean the same are the same to an evaluation. -/
theorem evaluate_congr (hp : host.Pure held) {s₀ : State} (hc : s₀.Closed held)
    (hs : s₀.frames[0]? = some Frame.standard) {expr frames frames' : Value}
    (he : expr.Known held s₀.extent) (hk : frames.Known held s₀.extent) {fs fs' : List Frame}
    (hf : hostFrames frames = .ok fs) (hf' : hostFrames frames' = .ok fs')
    (means : ∀ name, meaning fs name = meaning fs' name) (options : Options) (fuel : Nat) :
    SameEvaluation held s₀ fs fs' ((evaluate host fuel expr frames options).runFrom s₀)
      ((evaluate host fuel expr frames' options).runFrom s₀) :=
  evaluate_rebased (N := fun _ => True) hp hc hs he (.free expr) hk hf hf' (fun f _ => .free f)
    (fun name _ => means name) options fuel

/-- **Only the meanings of names matter.**  With frames in which every name means the same, an
evaluation has the same outcome, up to the closures that are new and what they have captured, and
the same log, or none with either.  Such are a list of frames and what it merges into, and a frame
and one with its entries in another order. -/
theorem only_meanings_matter (hp : host.Pure held) {s₀ : State} (hc : s₀.Closed held)
    (hs : s₀.frames[0]? = some Frame.standard) {expr : Value} (he : expr.Known held s₀.extent)
    (options : Options) (fuel : Nat) :
    (∀ {frames frames' : Value} {fs fs' : List Frame}, frames.Known held s₀.extent →
      hostFrames frames = .ok fs → hostFrames frames' = .ok fs' →
      (∀ name, meaning fs name = meaning fs' name) →
      SameEvaluation held s₀ fs fs' ((evaluate host fuel expr frames options).runFrom s₀)
        ((evaluate host fuel expr frames' options).runFrom s₀)) ∧
    (∀ ess : List (Entries Value), (Value.list (ess.map .mapping)).Known held s₀.extent →
      SameEvaluation held s₀ (ess.map Frame.ofEntries) [Frame.ofEntries (Entries.merged ess)]
        ((evaluate host fuel expr (.list (ess.map .mapping)) options).runFrom s₀)
        ((evaluate host fuel expr (.mapping (Entries.merged ess)) options).runFrom s₀)) ∧
    (∀ es es' : Entries Value, es.Perm es' → (Entries.keys es).Nodup →
      (Value.mapping es).Known held s₀.extent →
      SameEvaluation held s₀ [Frame.ofEntries es] [Frame.ofEntries es']
        ((evaluate host fuel expr (.mapping es) options).runFrom s₀)
        ((evaluate host fuel expr (.mapping es') options).runFrom s₀)) := by
  refine ⟨fun hk hf hf' means => ?_, fun ess hk => ?_, fun es es' perm nodup hk => ?_⟩
  · exact evaluate_congr hp hc hs he hk hf hf' means options fuel
  · exact evaluate_congr hp hc hs he hk (hostFrames_mappings ess) rfl
      (meaning_congr (nearest_merged ess)) options fuel
  · exact evaluate_congr hp hc hs he hk rfl rfl (meaning_congr (nearest_perm perm nodup)) options
      fuel

/-- A closure made with two frames, of which the nearer hides a binding of the other, and with one
frame that they merge into: the closures have captured chains of different lengths. -/
theorem only_meanings_matter_merged :
    ∃ s t, (evaluate hostTools 1 (.mapping [("lambda", .text "n"), ("body", .text "x")])
        (.list [.mapping [("x", .int 1)], .mapping [("x", .int 5), ("y", .int 2)]])
        .lenient).runFrom .initial =
          some (.ok (.closure 0 ["n"] (.text "x") [2, 1, 0] .lenient), s) ∧
      (evaluate hostTools 1 (.mapping [("lambda", .text "n"), ("body", .text "x")])
        (.mapping [("y", .int 2), ("x", .int 1)]) .lenient).runFrom .initial =
          some (.ok (.closure 0 ["n"] (.text "x") [1, 0] .lenient), t) ∧
      SameOutcomeOn holdsNothing [2, 1, 0] [1, 0] State.initial.extent
        (.ok (.closure 0 ["n"] (.text "x") [2, 1, 0] .lenient), s)
        (.ok (.closure 0 ["n"] (.text "x") [1, 0] .lenient), t) := by
  have expr : (Value.mapping [("lambda", .text "n"), ("body", .text "x")]).Known holdsNothing
      State.initial.extent := .mapping (.cons (.text _) (.cons (.text _) .nil))
  have frames : (Value.list [.mapping [("x", .int 1)],
      .mapping [("x", .int 5), ("y", .int 2)]]).Known holdsNothing State.initial.extent :=
    .list (.cons (.mapping (.cons (.int 1) .nil))
      (.cons (.mapping (.cons (.int 5) (.cons (.int 2) .nil))) .nil))
  have same := (only_meanings_matter (hostTools_pure holdsNothing) (State.initial_closed _) rfl expr
    .lenient 1).2.1 [[("x", .int 1)], [("x", .int 5), ("y", .int 2)]] frames
  obtain ⟨h⟩ := same
  exact ⟨_, _, rfl, rfl, h⟩

end FormLang
