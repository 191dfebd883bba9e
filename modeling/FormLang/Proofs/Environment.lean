import FormLang.Proofs.Frames
import FormLang.Proofs.Hereditary

/-!
# Environments — frames of the host and what they resolve

An evaluation puts the frames of the host before the standard one and runs in the chain of them
(`runFrom_evaluate`).  In that chain a name means what the nearest frame binds it to that binds it
at all (`State.resolve_eq_meaning`), wherever in the store the frames stand.
-/

namespace FormLang

/-- What the first of the frames that binds `name` binds it to. -/
def nearest (fs : List Frame) (name : String) : Option Value :=
  fs.findSome? (Entries.get? name)

@[simp] theorem nearest_nil (name : String) : nearest [] name = none := rfl

theorem nearest_cons (f : Frame) (fs : List Frame) (name : String) :
    nearest (f :: fs) name = (Entries.get? name f).or (nearest fs name) := by
  rw [nearest, List.findSome?_cons]
  cases Entries.get? name f <;> rfl

theorem nearest_append (fs gs : List Frame) (name : String) :
    nearest (fs ++ gs) name = (nearest fs name).or (nearest gs name) := by
  rw [nearest, List.findSome?_append]
  rfl

theorem mem_of_nearest {fs : List Frame} {name : String} {v : Value}
    (h : nearest fs name = some v) : ∃ f ∈ fs, Entries.get? name f = some v :=
  List.exists_of_findSome?_eq_some h

/-- Every standard binding stands under its own name. -/
theorem Frame.eq_standard {name : String} {v : Value}
    (h : Entries.get? name Frame.standard = some v) :
    ∃ m : Standard, m.symbol = name ∧ v = tag name (.standard m) := by
  rw [Frame.standard, Frame.ofEntries, Entries.get?_mapValues] at h
  obtain ⟨u, hu, rfl⟩ := Option.map_eq_some_iff.1 h
  obtain ⟨m, -, hm⟩ := List.mem_map.1 (Entries.mem_of_get? hu)
  cases hm
  exact ⟨m, rfl, rfl⟩

/-- The frames of a host are the mappings that it hands in, bound under their names. -/
theorem mem_hostFrames {frames : Value} {fs : List Frame} (h : hostFrames frames = .ok fs) :
    ∀ f ∈ fs, ∃ es, .mapping es ∈ frames.operands ∧ f = Frame.ofEntries es := by
  have each : ∀ {items : List Value}, AnswerHas
      (fun fs => ∀ f ∈ fs, ∃ es, .mapping es ∈ items ∧ f = Frame.ofEntries es)
      (items.mapM Frame.ofValue) := by
    refine .mapM fun item hi f hf => ?_
    cases item with
    | mapping es =>
        cases hf
        exact ⟨es, hi, rfl⟩
    | _ => cases hf
  cases frames with
  | null =>
      cases h
      exact List.forall_mem_nil _
  | mapping es =>
      cases h
      exact List.forall_mem_singleton.2 ⟨es, List.mem_singleton_self _, rfl⟩
  | list items => exact each fs h
  | tuple items => exact each fs h
  | text s =>
      rw [hostFrames] at h
      split at h
      · cases h
        exact List.forall_mem_nil _
      · cases h
  | _ => cases h

/-- What `name` means to a program that is run with the frames of a host. -/
def meaning (fs : List Frame) (name : String) : Option Value :=
  nearest (fs ++ [Frame.standard]) name

theorem meaning_cons (f : Frame) (fs : List Frame) (name : String) :
    meaning (f :: fs) name = (Entries.get? name f).or (meaning fs name) :=
  nearest_cons f _ name

theorem meaning_congr {fs gs : List Frame} (h : ∀ name, nearest fs name = nearest gs name)
    (name : String) : meaning fs name = meaning gs name := by
  rw [meaning, nearest_append, h, ← nearest_append, meaning]

/-- What a name means is bound in a frame of the host or in the standard one. -/
theorem mem_of_meaning {fs : List Frame} {name : String} {v : Value}
    (h : meaning fs name = some v) :
    (∃ f ∈ fs, Entries.get? name f = some v) ∨ Entries.get? name Frame.standard = some v := by
  obtain ⟨f, hf, hv⟩ := mem_of_nearest h
  rcases List.mem_append.1 hf with hf | hf
  · exact .inl ⟨f, hf, hv⟩
  · exact .inr (List.mem_singleton.1 hf ▸ hv)

/-! ### Looking up -/

namespace State

/-- Only the frames of a chain matter for it. -/
theorem resolve_congr {s t : State} {env : Chain} (h : ∀ i ∈ env, s.frames[i]? = t.frames[i]?)
    (name : String) : s.resolve env name = t.resolve env name := by
  induction env with
  | nil => rfl
  | cons i env ih =>
      rw [List.forall_mem_cons] at h
      simp only [resolve, List.findSome?_cons, h.1]
      cases t.frames[i]?.bind (Entries.get? name) with
      | some v => rfl
      | none => exact ih h.2

theorem resolve_cons (s : State) (i : Nat) (env : Chain) (name : String) :
    s.resolve (i :: env) name =
      (s.frames[i]?.bind (Entries.get? name)).or (s.resolve env name) := by
  rw [resolve, List.findSome?_cons]
  cases s.frames[i]?.bind (Entries.get? name) <;> rfl

theorem resolve_append (s : State) (c d : Chain) (name : String) :
    s.resolve (c ++ d) name = (s.resolve c name).or (s.resolve d name) := by
  rw [resolve, List.findSome?_append]
  rfl

/-- A chain does not see a frame that is newer than its own. -/
theorem resolve_push {s : State} {env : Chain} (h : ∀ i ∈ env, i < s.frames.size) (f : Frame)
    (name : String) :
    { s with frames := s.frames.push f }.resolve env name = s.resolve env name := by
  refine resolve_congr (fun i hi => ?_) name
  rw [Array.getElem?_push, if_neg (Nat.ne_of_lt (h i hi))]

/-- A chain does not see what happens to other frames. -/
theorem resolve_modify {s : State} {env : Chain} {j : Nat} (h : ∀ i ∈ env, i ≠ j)
    (g : Frame → Frame) (name : String) :
    { s with frames := s.frames.modify j g }.resolve env name = s.resolve env name := by
  refine resolve_congr (fun i hi => ?_) name
  rw [Array.getElem?_modify, if_neg (Ne.symm (h i hi))]

/-! ### Chains of new frames -/

/-- The state with new frames, of which the last is the oldest. -/
def withFrames (s : State) : List Frame → State
  | [] => s
  | f :: fs => { s.withFrames fs with frames := (s.withFrames fs).frames.push f }

/-- The chain of the new frames before `outer`, the newest nearest. -/
def chained (s : State) (outer : Chain) : List Frame → Chain
  | [] => outer
  | _ :: fs => (s.frames.size + fs.length) :: s.chained outer fs

@[simp] theorem withFrames_closures (s : State) (fs : List Frame) :
    (s.withFrames fs).closures = s.closures := by
  induction fs with
  | nil => rfl
  | cons f fs ih => exact ih

@[simp] theorem withFrames_log (s : State) (fs : List Frame) :
    (s.withFrames fs).log = s.log := by
  induction fs with
  | nil => rfl
  | cons f fs ih => exact ih

@[simp] theorem withFrames_size (s : State) (fs : List Frame) :
    (s.withFrames fs).frames.size = s.frames.size + fs.length := by
  induction fs with
  | nil => rfl
  | cons f fs ih =>
      simp only [withFrames, Array.size_push, ih, List.length_cons]
      omega

theorem withFrames_kept (s : State) (fs : List Frame) {i : Nat} (hi : i < s.frames.size) :
    (s.withFrames fs).frames[i]? = s.frames[i]? := by
  induction fs with
  | nil => rfl
  | cons f fs ih =>
      rw [withFrames, Array.getElem?_push, if_neg (by rw [withFrames_size]; omega), ih]

theorem grows_withFrames (s : State) (fs : List Frame) :
    s.Grows s.frames.size (s.withFrames fs) where
  kept _ := s.withFrames_kept fs
  frames := by simp
  closures := by simp

/-- All frames of the chain are there, once those of the host are. -/
theorem mem_chained {s : State} {outer : Chain} (ho : ∀ i ∈ outer, i < s.frames.size)
    (fs : List Frame) : ∀ i ∈ s.chained outer fs, i < s.frames.size + fs.length := by
  induction fs with
  | nil => exact ho
  | cons f fs ih =>
      refine List.forall_mem_cons.2 ⟨by simp, fun i hi => ?_⟩
      have := ih i hi
      rw [List.length_cons]
      omega

/-- In the chain of new frames, a name is bound by the nearest of them, else as in `outer`. -/
theorem resolve_chained {s : State} {outer : Chain} (ho : ∀ i ∈ outer, i < s.frames.size)
    (fs : List Frame) (name : String) :
    (s.withFrames fs).resolve (s.chained outer fs) name =
      (nearest fs name).or (s.resolve outer name) := by
  induction fs with
  | nil => rfl
  | cons f fs ih =>
      have newest : (s.withFrames (f :: fs)).frames[s.frames.size + fs.length]? = some f := by
        rw [withFrames, ← withFrames_size, Array.getElem?_push_size]
      have older : (s.withFrames (f :: fs)).resolve (s.chained outer fs) name =
          (s.withFrames fs).resolve (s.chained outer fs) name :=
        resolve_push (fun i hi => by simpa using mem_chained ho fs i hi) f name
      rw [chained, resolve_cons, newest, older, ih, nearest_cons, Option.bind_some, Option.or_assoc]

theorem mem_standardChain {s : State} (h : s.frames[0]? = some Frame.standard) :
    ∀ i ∈ standardChain, i < s.frames.size :=
  List.forall_mem_singleton.2 (Array.getElem?_eq_some_iff.1 h).1

/-- In the chain of frames of a host, names have their meaning. -/
theorem resolve_eq_meaning {s : State} (h : s.frames[0]? = some Frame.standard) (fs : List Frame)
    (name : String) :
    (s.withFrames fs).resolve (s.chained standardChain fs) name = meaning fs name := by
  have standard : s.resolve standardChain name = nearest [Frame.standard] name := by
    rw [standardChain, resolve_cons, h, nearest_cons]
    rfl
  rw [resolve_chained (mem_standardChain h), standard, meaning, nearest_append]

end State

/-! ### Evaluations -/

/-- The frames of a host are allocated from the outermost to the nearest. -/
theorem runFrom_chain (outer : Chain) (fs : List Frame) (s : State) :
    (chain outer fs).runFrom s = some (.ok (s.chained outer fs), s.withFrames fs) := by
  induction fs with
  | nil => rfl
  | cons f fs ih =>
      rw [chain, EvalM.runFrom_bind, ih]
      dsimp only
      rw [EvalM.runFrom_bind, EvalM.runFrom_allocate, State.withFrames_size]
      rfl

/-- An evaluation is a run in the chain of the host's frames and the standard one. -/
theorem runFrom_evaluate (host : Host) (fuel : Nat) (expr frames : Value) (options : Options)
    (s : State) : (evaluate host fuel expr frames options).runFrom s =
      match hostFrames frames with
      | .error e => some (.error e, s)
      | .ok fs => (run host fuel (.eval expr (s.chained standardChain fs) options)).runFrom
          (s.withFrames fs) := by
  rw [evaluate, evaluateBy, environment, EvalM.runFrom_bind, EvalM.runFrom_bind, EvalM.runFrom_lift]
  cases hostFrames frames with
  | error e => rfl
  | ok fs => simp only [runFrom_chain]

end FormLang
