import FormLang.HostTools
import FormLang.Proofs.Alike.Runs
import FormLang.Proofs.Frames

/-!
# Alike — renaming the frames and closures of a run

A renaming says which frames and which closures of one state correspond to which of another, one
to one.  Two states are matched under it when the frames that correspond bind the same names, to
values that are alike under the renaming.  Frames and closures without a counterpart may hold
anything: no environment that corresponds to one of the other state leads to them.

**Runs of alike tasks from matched states end alike, in matched states** (`run_matched`).  Each new
frame and each new closure of the one run is added to the renaming, with the one that the other run
makes at the same time.

A value is known in a state when it mentions only frames and closures that are there, and a state
is closed when it binds known values only.  Both are the relations above between a state and
itself, under the renaming that changes nothing; a computation leads from a closed state to a
closed state (`Correspondence.Sim.closed`).

A function of the host may hold values of its own.  `held` bounds, for each function, the frames and
closures that these mention; a renaming lets the function stand for itself only where it fixes them.
-/

namespace FormLang

/-! ### Renamings -/

/-- How many frames and closures there are. -/
structure Extent where
  frames : Nat
  closures : Nat

/-- The frames and closures that there are. -/
def State.extent (s : State) : Extent :=
  ⟨s.frames.size, s.closures⟩

/-- Which frames and closures of one state correspond to which of another, one to one. -/
@[ext]
structure Renaming where
  frames : Nat → Nat → Prop
  closures : Nat → Nat → Prop
  frames_iff : ∀ {i j i' j'}, frames i i' → frames j j' → (i = j ↔ i' = j')
  closures_iff : ∀ {i j i' j'}, closures i i' → closures j j' → (i = j ↔ i' = j')

namespace Renaming

/-- The frames and closures within an extent correspond to themselves, and there are no others. -/
def same (x : Extent) : Renaming where
  frames i j := i = j ∧ i < x.frames
  closures i j := i = j ∧ i < x.closures
  frames_iff := by rintro i j i' j' ⟨rfl, -⟩ ⟨rfl, -⟩; rfl
  closures_iff := by rintro i j i' j' ⟨rfl, -⟩ ⟨rfl, -⟩; rfl

/-- In `ρ'` all corresponds that does in `ρ`. -/
structure Le (ρ ρ' : Renaming) : Prop where
  frames : ∀ {i j}, ρ.frames i j → ρ'.frames i j
  closures : ∀ {i j}, ρ.closures i j → ρ'.closures i j

theorem Le.refl (ρ : Renaming) : Le ρ ρ :=
  ⟨id, id⟩

theorem Le.trans {ρ ρ' ρ'' : Renaming} (h : Le ρ ρ') (h' : Le ρ' ρ'') : Le ρ ρ'' :=
  ⟨fun k => h'.frames (h.frames k), fun k => h'.closures (h.closures k)⟩

theorem same_le {x y : Extent} (hf : x.frames ≤ y.frames) (hc : x.closures ≤ y.closures) :
    Le (same x) (same y) :=
  ⟨fun k => ⟨k.1, Nat.lt_of_lt_of_le k.2 hf⟩, fun k => ⟨k.1, Nat.lt_of_lt_of_le k.2 hc⟩⟩

/-- What corresponds under a renaming: the frames of environments one by one, switches to
themselves, and a function of the host to itself where all it holds does. -/
def link (held : String → Extent) (ρ : Renaming) : Link where
  closures := ρ.closures
  chains := List.Forall₂ ρ.frames
  options := Eq
  hosts name := Le (same (held name)) ρ
  closures_iff := ρ.closures_iff

theorem Le.link {held : String → Extent} {ρ ρ' : Renaming} (h : Le ρ ρ') :
    (ρ.link held).Le (ρ'.link held) :=
  ⟨h.closures, fun k => k.imp fun _ _ => h.frames, id, fun k => k.trans h, fun _ _ _ => id⟩

/-- One more pair of frames, both new. -/
def withFrame (ρ : Renaming) (n m : Nat) (h : ∀ {i j}, ρ.frames i j → i < n ∧ j < m) :
    Renaming where
  frames i j := ρ.frames i j ∨ i = n ∧ j = m
  closures := ρ.closures
  frames_iff := by
    rintro i j i' j' (k | ⟨rfl, rfl⟩) (k' | ⟨rfl, rfl⟩)
    · exact ρ.frames_iff k k'
    · have := h k; omega
    · have := h k'; omega
    · simp
  closures_iff := ρ.closures_iff

/-- One more pair of closures, both new. -/
def withClosure (ρ : Renaming) (n m : Nat) (h : ∀ {i j}, ρ.closures i j → i < n ∧ j < m) :
    Renaming where
  frames := ρ.frames
  closures i j := ρ.closures i j ∨ i = n ∧ j = m
  frames_iff := ρ.frames_iff
  closures_iff := by
    rintro i j i' j' (k | ⟨rfl, rfl⟩) (k' | ⟨rfl, rfl⟩)
    · exact ρ.closures_iff k k'
    · have := h k; omega
    · have := h k'; omega
    · simp

variable {ρ : Renaming} {n m : Nat}

theorem le_withFrame (h : ∀ {i j}, ρ.frames i j → i < n ∧ j < m) : ρ.Le (ρ.withFrame n m h) :=
  ⟨.inl, id⟩

theorem le_withClosure (h : ∀ {i j}, ρ.closures i j → i < n ∧ j < m) :
    ρ.Le (ρ.withClosure n m h) :=
  ⟨id, .inl⟩

/-- A new frame in one and the same state corresponds to itself. -/
theorem same_withFrame {x : Extent} (hm : m = x.frames)
    (h : ∀ {i j}, (same x).frames i j → i < x.frames ∧ j < m) :
    (same x).withFrame x.frames m h = same ⟨x.frames + 1, x.closures⟩ := by
  ext i j
  · simp only [withFrame, same]
    omega
  · rfl

/-- A new closure in one and the same state corresponds to itself. -/
theorem same_withClosure {x : Extent} (hm : m = x.closures)
    (h : ∀ {i j}, (same x).closures i j → i < x.closures ∧ j < m) :
    (same x).withClosure x.closures m h = same ⟨x.frames, x.closures + 1⟩ := by
  ext i j
  · rfl
  · simp only [withClosure, same]
    omega

end Renaming

/-! ### Matched states -/

/-- Frames that correspond are there, and bind the same names to values that are alike under `l`;
closures that correspond have been made. -/
structure MatchedBy (l : Link) (ρ : Renaming) (s t : State) : Prop where
  frames : ∀ {i j}, ρ.frames i j →
    ∃ f g, s.frames[i]? = some f ∧ t.frames[j]? = some g ∧ Frame.Alike l f g
  closures : ∀ {i j}, ρ.closures i j → i < s.closures ∧ j < t.closures

namespace MatchedBy

variable {l l' : Link} {ρ : Renaming} {s t : State}

theorem frames_lt (h : MatchedBy l ρ s t) {i j : Nat} (hij : ρ.frames i j) :
    i < s.frames.size ∧ j < t.frames.size := by
  obtain ⟨f, g, hf, hg, -⟩ := h.frames hij
  exact ⟨(Array.getElem?_eq_some_iff.1 hf).1, (Array.getElem?_eq_some_iff.1 hg).1⟩

theorem mono (hl : l.Le l') (h : MatchedBy l ρ s t) : MatchedBy l' ρ s t := by
  refine ⟨fun hij => ?_, h.closures⟩
  obtain ⟨f, g, hf, hg, hfg⟩ := h.frames hij
  exact ⟨f, g, hf, hg, hfg.mono hl⟩

/-- What happens to frames and closures that are new on either side does not matter. -/
theorem grow (h : MatchedBy l ρ s t) {s' t' : State} (hs : s.Grows s.frames.size s')
    (ht : t.Grows t.frames.size t') : MatchedBy l ρ s' t' := by
  constructor
  · intro i j hij
    obtain ⟨f, g, hf, hg, hfg⟩ := h.frames hij
    obtain ⟨hi, hj⟩ := h.frames_lt hij
    exact ⟨f, g, (hs.kept i hi).trans hf, (ht.kept j hj).trans hg, hfg⟩
  · intro i j hij
    obtain ⟨hi, hj⟩ := h.closures hij
    exact ⟨Nat.lt_of_lt_of_le hi hs.closures, Nat.lt_of_lt_of_le hj ht.closures⟩

theorem emit (h : MatchedBy l ρ s t) (e f : Event) :
    MatchedBy l ρ { s with log := e :: s.log } { t with log := f :: t.log } :=
  ⟨h.frames, h.closures⟩

/-- Renamings are one to one, so a write on the one side is to a frame that the other side does not
write to only where the two do not correspond. -/
theorem bindName (h : MatchedBy l ρ s t) {i j : Nat} (hij : ρ.frames i j) (name : String)
    {v w : Value} (hv : v.Alike l w) :
    MatchedBy l ρ { s with frames := s.frames.modify i (Entries.insert name v) }
      { t with frames := t.frames.modify j (Entries.insert name w) } := by
  refine ⟨fun {i' j'} hij' => ?_, h.closures⟩
  obtain ⟨f, g, hf, hg, hfg⟩ := h.frames hij'
  have hiff := ρ.frames_iff hij hij'
  simp only [Array.getElem?_modify, hf, hg, Option.map_some]
  by_cases hi : i = i'
  · rw [if_pos hi, if_pos (hiff.1 hi)]
    exact ⟨_, _, rfl, rfl, hfg.insert name hv⟩
  · rw [if_neg hi, if_neg fun hj => hi (hiff.2 hj)]
    exact ⟨_, _, rfl, rfl, hfg⟩

/-- New frames that are alike correspond from now on. -/
theorem allocate (h : MatchedBy l ρ s t) (hl : l.Le l') {f g : Frame}
    (hfg : Frame.Alike l f g) :
    MatchedBy l' (ρ.withFrame s.frames.size t.frames.size h.frames_lt)
      { s with frames := s.frames.push f } { t with frames := t.frames.push g } := by
  refine ⟨?_, h.closures⟩
  -- A pair from before keeps its frames; the new pair has the two that are pushed.
  rintro i j (hij | ⟨rfl, rfl⟩)
  · obtain ⟨f', g', hf, hg, hfg'⟩ := h.frames hij
    obtain ⟨hi, hj⟩ := h.frames_lt hij
    refine ⟨f', g', ?_, ?_, hfg'.mono hl⟩
    · rw [Array.getElem?_push, if_neg (by omega), hf]
    · rw [Array.getElem?_push, if_neg (by omega), hg]
  · exact ⟨f, g, Array.getElem?_push_size, Array.getElem?_push_size, hfg.mono hl⟩

/-- New closures correspond from now on. -/
theorem nextClosure (h : MatchedBy l ρ s t) (hl : l.Le l') :
    MatchedBy l' (ρ.withClosure s.closures t.closures h.closures)
      { s with closures := s.closures + 1 } { t with closures := t.closures + 1 } := by
  constructor
  · intro i j hij
    obtain ⟨f, g, hf, hg, hfg⟩ := h.frames hij
    exact ⟨f, g, hf, hg, hfg.mono hl⟩
  · rintro i j (hij | ⟨rfl, rfl⟩)
    · obtain ⟨hi, hj⟩ := h.closures hij
      exact ⟨Nat.lt_succ_of_lt hi, Nat.lt_succ_of_lt hj⟩
    · exact ⟨Nat.lt_succ_self _, Nat.lt_succ_self _⟩

/-- The frames of the two environments bind a name in step, so the nearest that does is the same on
both sides. -/
theorem resolve (h : MatchedBy l ρ s t) {c d : Chain} (hc : List.Forall₂ ρ.frames c d)
    (name : String) : Option.Rel (Value.Alike l) (s.resolve c name) (t.resolve d name) := by
  induction hc with
  | nil => exact .none
  | @cons i j c d hij _ ih =>
      obtain ⟨f, g, hf, hg, hfg⟩ := h.frames hij
      have hr := hfg name
      simp only [State.resolve, List.findSome?_cons, hf, hg, Option.bind_some]
      generalize Entries.get? name f = a, Entries.get? name g = b at hr ⊢
      cases hr with
      | none => exact ih
      | some hv => exact .some hv

end MatchedBy

/-- The states are matched by values that are alike under the renaming itself. -/
abbrev Matched (held : String → Extent) (ρ : Renaming) : State → State → Prop :=
  MatchedBy (ρ.link held) ρ

/-- The outcomes of two runs are the same up to the frames and closures that are new: the same
fault, or values that are alike under a renaming that extends `ρ` and matches the states after. -/
def SameOutcome (held : String → Extent) (ρ : Renaming) (r q : Except Fault Value × State) : Prop :=
  ∃ ρ', ρ.Le ρ' ∧ Matched held ρ' r.2 q.2 ∧ AnswersAlike (Value.Alike (ρ'.link held)) r.1 q.1

/-- Runs whose outcomes are the same under a renaming have the same outcomes under a smaller one. -/
theorem SameOutcome.weaken {held : String → Extent} {ρ ρ' : Renaming} (hl : ρ.Le ρ')
    {r q : Option (Except Fault Value × State)} (h : Option.Rel (SameOutcome held ρ') r q) :
    Option.Rel (SameOutcome held ρ) r q := by
  cases h with
  | none => exact .none
  | some h =>
      obtain ⟨ρ'', hl', h⟩ := h
      exact .some ⟨ρ'', hl.trans hl', h⟩

/-! ### Known values and closed states -/

variable {held : String → Extent}

/-- The value mentions only frames and closures within `x`. -/
def Value.Known (held : String → Extent) (x : Extent) (v : Value) : Prop :=
  v.Alike ((Renaming.same x).link held) v

/-- All frames bind only values that are known. -/
def State.Closed (held : String → Extent) (s : State) : Prop :=
  Matched held (.same s.extent) s s

theorem State.initial_closed (held : String → Extent) : State.initial.Closed held := by
  refine ⟨?_, fun h => absurd h.2 (Nat.not_lt_zero _)⟩
  rintro i j ⟨rfl, hi⟩
  obtain rfl := Nat.lt_one_iff.1 hi
  exact ⟨Frame.standard, Frame.standard, rfl, rfl, .standard _⟩

/-- An environment corresponds to itself when all its frames are within the extent. -/
theorem Renaming.same_chain {x : Extent} {env : Chain} (h : ∀ i ∈ env, i < x.frames) :
    List.Forall₂ (Renaming.same x).frames env env :=
  List.forall₂_same.2 fun i hi => ⟨rfl, h i hi⟩

theorem State.Grows.same_le {n : Nat} {s s' : State} (h : s.Grows n s') :
    (Renaming.same s.extent).Le (.same s'.extent) :=
  Renaming.same_le h.frames h.closures

theorem State.Grows.known {n : Nat} {s s' : State} (h : s.Grows n s') {v : Value}
    (hv : v.Known held s.extent) : v.Known held s'.extent :=
  hv.mono h.same_le.link

/-! ### Runs -/

/-- No reply of the host depends on how frames and closures are numbered, and none mentions others
than those of the arguments and those that the function holds. -/
def Host.Uniform (host : Host) (held : String → Extent) : Prop :=
  ∀ ρ : Renaming, host.Respects (ρ.link held)

/-- No reply of the host depends on more of a closure than what closures that correspond have in
common, in whatever way they do, as long as all that the function holds corresponds to itself. -/
def Host.Pure (host : Host) (held : String → Extent) : Prop :=
  ∀ l : Link, (∀ name, l.hosts name → ((Renaming.same (held name)).link held).Le l) →
    host.Respects l

namespace Correspondence

variable {host : Host}

/-- States that a renaming matches. -/
def renamed (hu : host.Uniform held) : Correspondence host where
  World := Renaming
  Le := Renaming.Le
  link := Renaming.link held
  chains ρ := Scope.only (List.Forall₂ ρ.frames)
  paired ρ _ := ρ.frames
  Agree := Matched held
  le_refl := .refl
  le_trans h h' := h.trans h'
  le_link h := h.link
  le_chains h hc := hc.imp fun k => k.imp fun _ _ => h.frames
  le_paired h := h.frames
  chains_cons hp hc := hc.imp fun k => .cons hp k
  options_cases h := .inl h
  respects := hu
  handsOn := host.handsOn_nothing
  captured hc _ := ⟨.free, hc, .free _, fun _ _ => .free _⟩
  emit h _ := ⟨_, .refl _, h.emit _ _⟩
  bindName h hij _ hv := h.bindName hij _ (tag_alike _ hv)
  allocate h hfg _ := by
    have hl := Renaming.le_withFrame h.frames_lt
    exact ⟨_, hl, .inr ⟨rfl, rfl⟩, h.allocate hl.link hfg⟩
  nextClosure h := by
    have hl := Renaming.le_withClosure h.closures
    refine ⟨_, hl, fun hc _ _ ho hb => ?_, h.nextClosure hl.link⟩
    exact .closure (.inr ⟨rfl, rfl⟩) hb hc.holds ho trivial
  resolve h hc _ := .of_rel (h.resolve hc.holds _)
  macros _ hc := hc.elim

/-- States that are matched under the renaming that changes nothing. -/
def known (hu : host.Uniform held) : Correspondence host where
  World := Extent
  Le x y := (Renaming.same x).Le (.same y)
  link x := (Renaming.same x).link held
  chains x := Scope.only (List.Forall₂ (Renaming.same x).frames)
  paired x _ := (Renaming.same x).frames
  Agree x s t := s.extent = x ∧ t.extent = x ∧ Matched held (.same x) s t
  le_refl _ := .refl _
  le_trans h h' := h.trans h'
  le_link h := h.link
  le_chains h hc := hc.imp fun k => k.imp fun _ _ => h.frames
  le_paired h := h.frames
  chains_cons hp hc := hc.imp fun k => .cons hp k
  options_cases h := .inl h
  respects _ := hu _
  handsOn := host.handsOn_nothing
  captured hc _ := ⟨.free, hc, .free _, fun _ _ => .free _⟩
  emit h _ := ⟨_, .refl _, h.1, h.2.1, h.2.2.emit _ _⟩
  bindName h hij _ hv := by
    obtain ⟨rfl, ht, h⟩ := h
    refine ⟨by simp [State.extent], ?_, h.bindName hij _ (tag_alike _ hv)⟩
    simpa [State.extent] using ht
  allocate := by
    rintro x s t f g _ ⟨rfl, ht, h⟩ hfg _
    obtain ⟨hn, hc⟩ := Extent.mk.inj ht
    have h' := h.allocate (Renaming.le_withFrame h.frames_lt).link hfg
    have hl : Renaming.Le (.same s.extent) (.same ⟨s.frames.size + 1, s.closures⟩) :=
      Renaming.same_le (Nat.le_succ _) (Nat.le_refl _)
    refine ⟨⟨s.frames.size + 1, s.closures⟩, hl, ?_, ?_, ?_, ?_⟩
    · exact ⟨hn.symm, Nat.lt_succ_self _⟩
    · simp [State.extent]
    · simp [State.extent, hn, hc]
    · exact Renaming.same_withFrame (x := s.extent) hn h.frames_lt ▸ h'
  nextClosure := by
    rintro x s t ⟨rfl, ht, h⟩
    obtain ⟨hn, hc⟩ := Extent.mk.inj ht
    have h' := h.nextClosure (Renaming.le_withClosure h.closures).link
    have hl : Renaming.Le (.same s.extent) (.same ⟨s.frames.size, s.closures + 1⟩) :=
      Renaming.same_le (Nat.le_refl _) (Nat.le_succ _)
    refine ⟨⟨s.frames.size, s.closures + 1⟩, hl, ?_, rfl, ?_, ?_⟩
    · exact fun hch _ _ ho hb => .closure ⟨hc.symm, Nat.lt_succ_self _⟩ hb hch.holds ho trivial
    · simp [State.extent, hn, hc]
    · exact Renaming.same_withClosure (x := s.extent) hc h.closures ▸ h'
  resolve h hc _ := .of_rel (h.2.2.resolve hc.holds _)
  macros _ hc := hc.elim

end Correspondence

variable {host : Host}

/-- **Runs of alike tasks from matched states end alike, in matched states.** -/
theorem run_matched (hu : host.Uniform held) {ρ : Renaming} {s t : State}
    (h : Matched held ρ s t) {task task' : Task} (ht : Task.Alike (ρ.link held) task task')
    (fuel : Nat) : Option.Rel (SameOutcome held ρ) ((run host fuel task).runFrom s)
      ((run host fuel task').runFrom t) := by
  have sim : Correspondence.Sim (Correspondence.renamed hu).Values ρ (run host fuel task)
      (run host fuel task') := (Correspondence.run_follows _ fuel).task id ht
  have ends := sim.ends (fun _ => id) h
  generalize (run host fuel task).runFrom s = r, (run host fuel task').runFrom t = q at ends ⊢
  cases ends with
  | exhausted => exact .none
  | error hw hs e => exact .some ⟨_, hw, hs, .error e⟩
  | ok hw hs hv => exact .some ⟨_, hw, hs, .ok hv⟩

/-- A computation that treats known values as such leads from a closed state to a closed state, and
to a result of the same kind. -/
theorem Correspondence.Sim.closed {hu : host.Uniform held} {α : Type} {x : EvalM α}
    {R : Extent → α → α → Prop} {s s' : State} {o : Except Fault α}
    (hx : Sim (C := known hu) R s.extent x x) (hs : s.Closed held)
    (h : x.runFrom s = some (o, s')) : s'.Closed held ∧ ∀ a, o = .ok a → R s'.extent a a := by
  have ends := hx.ends (fun _ => id) (t := s) ⟨rfl, rfl, hs⟩
  rw [h] at ends
  cases ends with
  | error _ hs' e =>
      obtain ⟨rfl, -, hs'⟩ := hs'
      exact ⟨hs', fun _ h => nomatch h⟩
  | ok _ hs' hR =>
      obtain ⟨rfl, -, hs'⟩ := hs'
      refine ⟨hs', fun a ha => ?_⟩
      cases ha
      exact hR

/-! ### The small host -/

/-- Values are texts exactly where alike values are, and then the same ones. -/
theorem textsOf?_eq {l : Link} {vs ws : List Value} (h : List.Forall₂ (Value.Alike l) vs ws) :
    textsOf? vs = textsOf? ws := by
  induction h with
  | nil => rfl
  | cons h _ ih =>
      cases h with
      | text s => simp only [textsOf?, ih]
      | _ => rfl

theorem getElem?_alike {l : Link} {vs ws : List Value} (h : List.Forall₂ (Value.Alike l) vs ws)
    (n : Nat) : Value.Alike l (vs[n]?.getD .undefined) (ws[n]?.getD .undefined) := by
  induction h generalizing n with
  | nil => exact .undefined
  | cons h _ ih =>
      cases n with
      | zero => exact h
      | succ n => exact ih n

/-- No function of the host holds values of its own. -/
def holdsNothing : String → Extent :=
  fun _ => ⟨0, 0⟩

/-- The small host holds no values, so it depends on nothing but its arguments. -/
theorem hostTools_respects (l : Link) : hostTools.Respects l := by
  intro name args args' _ h
  unfold hostTools
  split
  · rw [textsOf?_eq h]
    cases textsOf? args' with
    | none => exact .fault _
    | some texts => exact .value (.text _)
  · exact .value (.list h)
  · exact .value (.mapping (.cons (.list h) .nil))
  · rw [h.length_eq]
    exact .value (.int _)
  · rw [List.head?_eq_getElem?, List.head?_eq_getElem?]
    exact .value (getElem?_alike h 0)
  · exact .value (getElem?_alike h 1)
  · cases h with
    | nil => exact .fault _
    | cons h hs =>
        dsimp only
        rw [h.isCallable_eq]
        split
        · refine .call h hs fun o p ho => ?_
          cases ho with
          | ok hv => exact .value hv
          | error e => exact .fault e
        · exact .fault _
  · exact .fault _
  · exact .fault _

/-- The small host catches nothing. -/
theorem hostTools_handsOn (e : Fault) : hostTools.HandsOn e := by
  have outcome : ∀ o, (Reply.ofOutcome o).HandsOn e := by
    intro o
    cases o with
    | ok v => exact trivial
    | error e => exact trivial
  intro name args
  unfold hostTools
  split
  · split
    · exact trivial
    · exact trivial
  · exact trivial
  · exact trivial
  · exact trivial
  · exact trivial
  · exact trivial
  · split
    · split
      · exact ⟨rfl, outcome⟩
      · exact trivial
    · exact trivial
  · exact trivial
  · exact trivial

theorem hostTools_uniform (held : String → Extent) : hostTools.Uniform held :=
  fun _ => hostTools_respects _

theorem hostTools_pure (held : String → Extent) : hostTools.Pure held :=
  fun l _ => hostTools_respects l

end FormLang
