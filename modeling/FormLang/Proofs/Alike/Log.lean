import FormLang.Proofs.Alike.Runs

/-!
# Alike — the log is written and not read

Two states may be the same in all but their logs (`SameButLog`).  What a run does from the one, it
does from the other: **it ends in the very same fault or value, and in states that are again the
same in all but their logs** (`run_sameButLog`).  Nothing is renamed here, and nothing has to be
assumed of the host: under the link that relates everything to itself alone, alike values are equal
(`Link.alike_same_iff`).

Frames are compared by what they bind, as everywhere in `Alike`; the order of their entries may
differ.
-/

namespace FormLang

/-! ### Everything corresponds to itself -/

theorem Link.eq_one_to_one {i j i' j' : Nat} (hi : i = i') (hj : j = j') : i = j ↔ i' = j' := by
  rw [hi, hj]

/-- Everything corresponds to itself, and to nothing else. -/
def Link.same : Link where
  closures := Eq
  chains := Eq
  options := Eq
  hosts _ := True
  closures_iff := @eq_one_to_one

namespace Link

theorem alike_same (v : Value) : v.Alike Link.same v :=
  .refl (fun _ => rfl) (fun _ => rfl) (fun _ => rfl) (fun _ => trivial) (fun _ => trivial) v

/-- Alike values are equal. -/
theorem alike_same_iff {v w : Value} : v.Alike Link.same w ↔ v = w := by
  refine ⟨fun h => ?_, fun h => h ▸ alike_same v⟩
  have items : ∀ {vs ws : List Value},
      List.Forall₂ (fun v w => ∃ _ : v.Alike Link.same w, v = w) vs ws → vs = ws := by
    intro vs ws h
    induction h with
    | nil => rfl
    | cons h _ ih => rw [h.2, ih]
  induction h with
  | list _ ih => rw [items ih]
  | tuple _ ih => rw [items ih]
  | mapping _ ih =>
      have entries : ∀ {es fs : Entries Value},
          Entries.Forall₂ (fun v w => ∃ _ : v.Alike Link.same w, v = w) es fs → es = fs := by
        intro es fs h
        induction h with
        | nil => rfl
        | cons h _ ih => rw [h.2, ih]
      rw [entries ih]
  | closure hi _ he ho _ ih =>
      cases hi
      cases he
      cases ho
      rw [ih]
  | tagged _ ih => rw [ih]
  | _ => rfl

theorem forall₂_alike_same_iff {vs ws : List Value} :
    List.Forall₂ (Value.Alike Link.same) vs ws ↔ vs = ws := by
  have equal : Value.Alike Link.same = Eq := by
    funext v w
    exact propext alike_same_iff
  rw [equal, List.forall₂_eq_eq_eq]

theorem option_alike_same_iff {a b : Option Value} :
    Option.Rel (Value.Alike Link.same) a b ↔ a = b := by
  constructor
  · intro h
    cases h with
    | none => rfl
    | some h => rw [alike_same_iff.1 h]
  · rintro rfl
    cases a with
    | none => exact .none
    | some v => exact .some (alike_same v)

end Link

/-- A reply is alike to itself: it goes on in one way from one outcome. -/
theorem Reply.alike_same (r : Reply) : r.Alike Link.same r := by
  induction r with
  | value v => exact .value (Link.alike_same v)
  | fault e => exact .fault e
  | call fn args resume ih =>
      refine .call (Link.alike_same fn) (Link.forall₂_alike_same_iff.2 rfl) fun o p h => ?_
      cases h with
      | ok h =>
          cases Link.alike_same_iff.1 h
          exact ih _
      | error e => exact ih _

/-- A host cannot tell apart what is the same. -/
theorem Host.respects_same (host : Host) : host.Respects Link.same := by
  intro name args args' _ h
  cases Link.forall₂_alike_same_iff.1 h
  exact Reply.alike_same _

/-! ### States that differ in the log -/

/-- The frames of the states bind the same, and as many closures have been made. -/
structure SameButLog (s t : State) : Prop where
  frames : ∀ i : Nat, Option.Rel
    (fun f g => ∀ name, Entries.get? name f = Entries.get? name g) s.frames[i]? t.frames[i]?
  closures : s.closures = t.closures

namespace SameButLog

variable {s t : State}

theorem of_frames (h : s.frames = t.frames) (hc : s.closures = t.closures) : SameButLog s t := by
  refine ⟨fun i => ?_, hc⟩
  rw [h]
  cases t.frames[i]? with
  | none => exact .none
  | some f => exact .some fun _ => rfl

theorem refl (s : State) : SameButLog s s :=
  .of_frames rfl rfl

theorem symm (h : SameButLog s t) : SameButLog t s := by
  refine ⟨fun i => ?_, h.closures.symm⟩
  have hf := h.frames i
  generalize s.frames[i]? = a, t.frames[i]? = b at hf ⊢
  cases hf with
  | none => exact .none
  | some hf => exact .some fun name => (hf name).symm

theorem trans {u : State} (h : SameButLog s t) (h' : SameButLog t u) : SameButLog s u := by
  refine ⟨fun i => ?_, h.closures.trans h'.closures⟩
  have hf := h.frames i
  have hf' := h'.frames i
  generalize s.frames[i]? = a, t.frames[i]? = b, u.frames[i]? = c at hf hf' ⊢
  cases hf with
  | none => exact hf'
  | some hf =>
      cases hf' with
      | some hf' => exact .some fun name => (hf name).trans (hf' name)

/-- The states have as many frames, because each has a frame at every number at which the other has
one. -/
theorem size_eq (h : SameButLog s t) : s.frames.size = t.frames.size := by
  have left := h.frames s.frames.size
  have right := h.frames t.frames.size
  rw [Array.getElem?_size] at left right
  generalize ha : t.frames[s.frames.size]? = a at left
  generalize hb : s.frames[t.frames.size]? = b at right
  cases left
  cases right
  have := Array.getElem?_eq_none_iff.1 ha
  have := Array.getElem?_eq_none_iff.1 hb
  omega

/-- A name means the same in both states, by induction on the chain. -/
theorem resolve_eq (h : SameButLog s t) (env : Chain) (name : String) :
    s.resolve env name = t.resolve env name := by
  have bound : ∀ i : Nat,
      s.frames[i]?.bind (Entries.get? name) = t.frames[i]?.bind (Entries.get? name) := by
    intro i
    have hf := h.frames i
    generalize s.frames[i]? = a, t.frames[i]? = b at hf ⊢
    cases hf with
    | none => rfl
    | some hf => exact hf name
  simp only [State.resolve, bound]

/-- New frames that bind the same. -/
theorem push (h : SameButLog s t) {f g : Frame}
    (hf : ∀ name, Entries.get? name f = Entries.get? name g) :
    SameButLog { s with frames := s.frames.push f } { t with frames := t.frames.push g } := by
  refine ⟨fun i => ?_, h.closures⟩
  rw [Array.getElem?_push, Array.getElem?_push, h.size_eq]
  split
  · exact .some hf
  · exact h.frames i

/-- The same binding, written into frames of one number. -/
theorem modify (h : SameButLog s t) (i : Nat) (name : String) (v : Value) :
    SameButLog { s with frames := s.frames.modify i (Entries.insert name v) }
      { t with frames := t.frames.modify i (Entries.insert name v) } := by
  refine ⟨fun j => ?_, h.closures⟩
  have hf := h.frames j
  simp only [Array.getElem?_modify]
  split
  · generalize s.frames[j]? = a, t.frames[j]? = b at hf ⊢
    cases hf with
    | none => exact .none
    | some hf => exact .some fun other => by rw [Entries.get?_insert, Entries.get?_insert, hf other]
  · exact hf

end SameButLog

/-! ### Runs -/

/-- Two runs from states that differ in the log only.  Nothing has to be kept in its worlds. -/
def Correspondence.unlogged (host : Host) : Correspondence host where
  World := Unit
  Le _ _ := True
  link _ := .same
  chains _ := Scope.only Eq
  paired _ _ := Eq
  Agree _ := SameButLog
  le_refl _ := trivial
  le_trans _ _ := trivial
  le_link _ := .refl _
  le_chains _ hc := hc
  le_paired _ hp := hp
  chains_cons hp hc := hc.imp fun h => by rw [hp, h]
  options_cases h := .inl h
  respects _ := host.respects_same
  handsOn := host.handsOn_nothing
  captured hc _ := ⟨.free, hc, .free _, fun _ _ => .free _⟩
  emit h _ := ⟨(), trivial, h.frames, h.closures⟩
  bindName h hij _ hv := by
    cases hij
    cases Link.alike_same_iff.1 hv
    exact h.modify _ _ _
  allocate h hf _ := by
    refine ⟨(), trivial, h.size_eq, h.push fun name => ?_⟩
    exact Link.option_alike_same_iff.1 (hf name)
  nextClosure h := by
    refine ⟨(), trivial, fun hc _ _ ho hb => ?_, h.frames, congrArg (· + 1) h.closures⟩
    exact .closure h.closures hb hc.holds ho trivial
  resolve h hc _ := by
    cases hc.holds
    exact .of_rel (Link.option_alike_same_iff.2 (h.resolve_eq _ _))
  macros _ hc := hc.elim

/-- The outcomes are the same fault or the same value, in states that differ in the log only. -/
def EqualOutcome (r q : Except Fault Value × State) : Prop :=
  r.1 = q.1 ∧ SameButLog r.2 q.2

/-- A computation that goes alike with itself has equal outcomes, whatever the log. -/
theorem Correspondence.Sim.equalOutcome {host : Host} {x : EvalM Value}
    (h : Sim (C := .unlogged host) (Correspondence.unlogged host).Values () x x) {s t : State}
    (hs : SameButLog s t) : Option.Rel EqualOutcome (x.runFrom s) (x.runFrom t) := by
  have ends := h.ends (fun _ => id) hs
  generalize x.runFrom s = r, x.runFrom t = q at ends ⊢
  cases ends with
  | exhausted => exact .none
  | error _ hs e => exact .some ⟨rfl, hs⟩
  | ok _ hs hv => exact .some ⟨congrArg Except.ok (Link.alike_same_iff.1 hv), hs⟩

/-- **What a run does, it does whatever the log holds.** -/
theorem run_sameButLog (host : Host) (fuel : Nat) (task : Task) {s t : State}
    (h : SameButLog s t) :
    Option.Rel EqualOutcome ((run host fuel task).runFrom s) ((run host fuel task).runFrom t) := by
  have hr := (Correspondence.unlogged host).run_follows fuel
  refine Correspondence.Sim.equalOutcome (hr.task id ?_) h
  cases task with
  | eval e env options => exact .eval (Link.alike_same e) rfl rfl
  | call fn args => exact .call (Link.alike_same fn) (Link.forall₂_alike_same_iff.2 rfl)

end FormLang
