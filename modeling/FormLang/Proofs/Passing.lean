import FormLang.Eval.Fuel
import FormLang.Proofs.Congruence

/-!
# Passing — what a run keeps of a task that it has begun

A run that begins a task goes on when the task has ended, and may then write into frames again: into
those of the `let`s around the task, which are still being filled.  These frames are older than the
task.  **What a task has made stays as the task has left it, at every later moment of the run**
(`Passes.passed`).

That a run comes to a moment after it has begun a task is said with an evaluator that may not begin
it: `runBarring` has no outcome when a barred task begins.  Where it has none, and the run that is
free to begin the task has one, the run has begun it on the way.
-/

namespace FormLang

open EvalM (Grows Refines)

/-- Does a task as `runUntil` does, but has no outcome when a barred task begins. -/
def runBarring (host : Host) (bar stop : Task → State → Bool) :
    (fuel : Nat) → Task → EvalM Value
  | 0, _ => EvalM.exhausted
  | fuel + 1, task => do
    let s ← get
    if bar task s then EvalM.exhausted
    else if stop task s then throw .interrupted
    else Eval.step host (runBarring host bar stop fuel) task

/-- No task. -/
def never : Task → State → Bool :=
  fun _ _ => false

section Barring

variable (host : Host) (bar stop : Task → State → Bool)

/-- A barred task has no outcome, and any other is done as `runUntil` does it. -/
theorem runFrom_runBarring (fuel : Nat) (task : Task) (s : State) :
    (runBarring host bar stop (fuel + 1) task).runFrom s =
      if bar task s then none
      else if stop task s then some (.error .interrupted, s)
      else (Eval.step host (runBarring host bar stop fuel) task).runFrom s := by
  have h : (runBarring host bar stop (fuel + 1) task).runFrom s =
      (if bar task s then EvalM.exhausted
        else if stop task s then throw .interrupted
        else Eval.step host (runBarring host bar stop fuel) task : EvalM Value).runFrom s := rfl
  rw [h]
  split
  · rfl
  · split <;> rfl

/-- With nothing barred, it is `runUntil`. -/
theorem runBarring_never (fuel : Nat) :
    runBarring host never stop fuel = runUntil host stop fuel := by
  induction fuel with
  | zero => rfl
  | succ fuel ih =>
      funext task
      refine EvalM.ext fun s => ?_
      rw [runFrom_runBarring, runFrom_runUntil, ih]
      rfl

variable {bar stop}

/-- An evaluator that bars less, with at least as much fuel, has every outcome of one that bars
more, if the two stop alike. -/
theorem runBarring_refines {bar' stop' : Task → State → Bool}
    (less : ∀ t s, bar t s = false → bar' t s = false ∧ stop t s = stop' t s) {m n : Nat}
    (hmn : m ≤ n) (task : Task) :
    Refines (runBarring host bar stop m task) (runBarring host bar' stop' n task) := by
  induction m generalizing n task with
  | zero => exact .exhausted _
  | succ m ih =>
      obtain ⟨n, rfl⟩ : ∃ k, n = k + 1 := ⟨n - 1, by omega⟩
      intro s r h
      rw [runFrom_runBarring] at h ⊢
      cases hb : bar task s with
      | true =>
          rw [hb] at h
          cases h
      | false =>
          obtain ⟨hb', hs⟩ := less task s hb
          rw [hb] at h
          rw [hb', ← hs]
          cases hs : stop task s with
          | true => rwa [hs] at h
          | false =>
              rw [hs] at h
              exact Eval.step_refines host (fun t => ih (by omega) t) task s r h

variable {m n : Nat} (h : m ≤ n) (task : Task)
include h

/-- What is done without a barred task is what is done at all. -/
theorem runBarring_refines_run :
    Refines (runBarring host bar never m task) (run host n task) := by
  rw [← runUntil_never, ← runBarring_never]
  exact runBarring_refines host (fun _ _ _ => ⟨rfl, rfl⟩) h task

/-- What is done without the tasks at which to stop is done without a stop. -/
theorem runBarring_refines_runUntil :
    Refines (runBarring host stop never m task) (runUntil host stop n task) := by
  rw [← runBarring_never]
  exact runBarring_refines host (fun _ _ free => ⟨rfl, free.symm⟩) h task

theorem runUntil_refines : Refines (runUntil host stop m task) (runUntil host stop n task) := by
  rw [← runBarring_never, ← runBarring_never]
  exact runBarring_refines host (fun _ _ free => ⟨free, rfl⟩) h task

end Barring

/-! ### What a task has made -/

/-- From `s` to `s'` no frame is unmade, and all but those of `own` keep their bindings. -/
structure State.KeepsBut (own : Nat → Prop) (s s' : State) : Prop where
  kept : ∀ i < s.frames.size, ¬ own i → s'.frames[i]? = s.frames[i]?
  frames : s.frames.size ≤ s'.frames.size

namespace State.KeepsBut

variable {own : Nat → Prop} {s s' s'' : State}

theorem trans (h : KeepsBut own s s') (h' : KeepsBut own s' s'') : KeepsBut own s s'' where
  kept i hi ho := (h'.kept i (Nat.lt_of_lt_of_le hi h.frames) ho).trans (h.kept i hi ho)
  frames := Nat.le_trans h.frames h'.frames

theorem push (own : Nat → Prop) (s : State) (f : Frame) :
    KeepsBut own s { s with frames := s.frames.push f } := by
  refine ⟨fun i hi _ => ?_, by simp⟩
  rw [Array.getElem?_push, if_neg (Nat.ne_of_lt hi)]

theorem modify (s : State) (i : Nat) (g : Frame → Frame) :
    KeepsBut (· = i) s { s with frames := s.frames.modify i g } := by
  refine ⟨fun j _ hj => ?_, by simp⟩
  rw [Array.getElem?_modify, if_neg (Ne.symm hj)]

end State.KeepsBut

theorem State.Grows.keepsBut {s s' : State} (h : s.Grows s.frames.size s') (own : Nat → Prop) :
    s.KeepsBut own s' :=
  ⟨fun i hi _ => h.kept i hi, h.frames⟩

/-- Between `s` and `s'` the task has been begun in `σ`, and the frames that it has made are in `s'`
as it has left them. -/
structure Passed (host : Host) (stop : Task → State → Bool) (task : Task) (σ s s' : State) :
    Prop where
  since : s.frames.size ≤ σ.frames.size
  made : ∃ fuel o τ, (runUntil host stop fuel task).runFrom σ = some (o, τ) ∧
    τ.frames.size ≤ s'.frames.size ∧
    ∀ i, σ.frames.size ≤ i → i < τ.frames.size → s'.frames[i]? = τ.frames[i]?

namespace Passed

variable {host : Host} {stop : Task → State → Bool} {task : Task} {σ s s' t : State}

theorem earlier (h : Passed host stop task σ t s') (hs : s.frames.size ≤ t.frames.size) :
    Passed host stop task σ s s' :=
  ⟨Nat.le_trans hs h.since, h.made⟩

/-- Frames that are older than the task may be written into afterwards. -/
theorem later {own : Nat → Prop} (h : Passed host stop task σ s t) (kept : t.KeepsBut own s')
    (older : ∀ i, own i → i < s.frames.size) : Passed host stop task σ s s' := by
  obtain ⟨fuel, o, τ, run, size, made⟩ := h.made
  refine ⟨h.since, fuel, o, τ, run, Nat.le_trans size kept.frames, fun i hi ht => ?_⟩
  have foreign : ¬ own i := fun ho => by
    have := older i ho
    have := h.since
    omega
  rw [kept.kept i (Nat.lt_of_lt_of_le ht size) foreign, made i hi ht]

end Passed

/-- `x` keeps all frames but those of `own`; and where `y` has not the outcome of `x`, the task has
been begun on the way. -/
def Passing (host : Host) (stop : Task → State → Bool) (task : Task) (σ : State)
    (own : Nat → Prop) {α : Type} (x y : EvalM α) : Prop :=
  ∀ s o s', (∀ i, own i → i < s.frames.size) → x.runFrom s = some (o, s') →
    s.KeepsBut own s' ∧ (y.runFrom s = some (o, s') ∨ Passed host stop task σ s s')

namespace Passing

variable {host : Host} {stop : Task → State → Bool} {task : Task} {σ : State}
  {own own' : Nat → Prop} {α β : Type}

theorem same {x : EvalM α} (h : ∀ n, Grows n x) : Passing host stop task σ own x x :=
  fun s _ _ _ hx => ⟨(h s.frames.size s _ _ (Nat.le_refl _) hx).keepsBut own, .inl hx⟩

theorem imp {x y : EvalM α} (h : Passing host stop task σ own x y) (ho : ∀ i, own i → own' i) :
    Passing host stop task σ own' x y := by
  intro s o s' older hx
  obtain ⟨kept, passed⟩ := h s o s' (fun i hi => older i (ho i hi)) hx
  exact ⟨⟨fun i hi hn => kept.kept i hi fun hi => hn (ho i hi), kept.frames⟩, passed⟩

/-- One computation after another.  If the task was begun in the first, what it has made is kept by
the second, which writes only into frames that are older. -/
theorem bind {x y : EvalM α} {f g : α → EvalM β} (h : Passing host stop task σ own x y)
    (hf : ∀ a, Passing host stop task σ own (f a) (g a)) :
    Passing host stop task σ own (x >>= f) (y >>= g) := by
  intro s o s' older hx
  rw [EvalM.runFrom_bind] at hx
  cases e : x.runFrom s with
  | none =>
      rw [e] at hx
      cases hx
  | some r =>
      obtain ⟨p, t⟩ := r
      rw [e] at hx
      obtain ⟨kept, passed⟩ := h s p t older e
      cases p with
      | error e =>
          cases hx
          exact ⟨kept, passed.imp (fun hy => by rw [EvalM.runFrom_bind, hy]) id⟩
      | ok a =>
          have older' : ∀ i, own i → i < t.frames.size :=
            fun i hi => Nat.lt_of_lt_of_le (older i hi) kept.frames
          obtain ⟨kept', passed'⟩ := hf a t o s' older' hx
          refine ⟨kept.trans kept', ?_⟩
          -- The task has been begun in the first part, or in the second, or not at all.
          rcases passed with hy | passed
          · rcases passed' with hg | passed'
            · exact .inl (by rw [EvalM.runFrom_bind, hy]; exact hg)
            · exact .inr (passed'.earlier kept.frames)
          · exact .inr (passed.later kept' older)

/-- A fault that is caught, after the task or before it. -/
theorem attempt {x y : EvalM α} (h : Passing host stop task σ own x y) :
    Passing host stop task σ own (EvalM.attempt x) (EvalM.attempt y) := by
  intro s o s' older hx
  rw [EvalM.runFrom_attempt] at hx
  obtain ⟨r, hr, hx⟩ := Option.map_eq_some_iff.1 hx
  cases hx
  obtain ⟨kept, passed⟩ := h s r.1 r.2 older hr
  refine ⟨kept, passed.imp (fun hy => ?_) id⟩
  rw [EvalM.runFrom_attempt, hy]
  rfl

/-- A new frame may be written into by what follows. -/
theorem allocate {f g : Nat → EvalM β} (frame : Frame)
    (h : ∀ i, Passing host stop task σ (· = i) (f i) (g i)) :
    Passing host stop task σ (fun _ => False) (EvalM.allocate frame >>= f)
      (EvalM.allocate frame >>= g) := by
  intro s o s' _ hx
  rw [EvalM.runFrom_bind, EvalM.runFrom_allocate] at hx ⊢
  have pushed := State.KeepsBut.push (· = s.frames.size) s frame
  obtain ⟨kept, passed⟩ := h s.frames.size _ o s' (by rintro i rfl; simp) hx
  have all := pushed.trans kept
  exact ⟨⟨fun i hi _ => all.kept i hi (Nat.ne_of_lt hi), all.frames⟩,
    passed.imp id (·.earlier pushed.frames)⟩

theorem bindName (i : Nat) (name : String) (v : Value) :
    Passing host stop task σ (· = i) (EvalM.bindName i name v) (EvalM.bindName i name v) := by
  intro s o s' _ hx
  refine ⟨?_, .inl hx⟩
  rw [EvalM.runFrom_bindName] at hx
  cases hx
  exact .modify s i _

theorem forM {f g : α → EvalM Unit} (h : ∀ a, Passing host stop task σ own (f a) (g a))
    (as : List α) : Passing host stop task σ own (as.forM f) (as.forM g) := by
  induction as with
  | nil => exact same fun _ => .pure _
  | cons a rest ih => exact bind (h a) fun _ => ih

end Passing

/-- The frame of a `let` is newer than any task that was begun before it, and older than any that is
begun while it is filled. -/
def Congruence.passing (host : Host) (stop : Task → State → Bool) (task : Task) (σ : State) :
    Congruence where
  rel := Passing host stop task σ fun _ => False
  same := .same
  bind := .bind
  attempt := .attempt
  bindFrame h bindings env options := by
    cases bindings with
    | mapping entries =>
        refine .allocate [] fun i => .bind (.forM (fun e => ?_) entries) fun _ =>
          .same fun _ => .pure _
        exact .bind ((h _).imp fun _ => False.elim) fun v => .bindName i e.1 (tag e.1 v)
    | _ => exact .same fun _ => .throw _

open Classical in
/-- That task, begun in that state. -/
noncomputable def exactly (task : Task) (σ : State) : Task → State → Bool :=
  fun t s => decide (t = task ∧ s = σ)

theorem exactly_iff {task t : Task} {σ s : State} :
    exactly task σ t s = true ↔ t = task ∧ s = σ := by
  simp only [exactly, decide_eq_true_eq]

/-- **A run that the bar would have changed has begun the task.**  By induction on the fuel; the
step at which the two differ is the one that begins the task. -/
theorem runUntil_passing (host : Host) (stop : Task → State → Bool) (task : Task) (σ : State)
    (fuel : Nat) (t : Task) :
    (Congruence.passing host stop task σ).rel (runUntil host stop fuel t)
      (runBarring host (exactly task σ) stop fuel t) := by
  induction fuel generalizing t with
  | zero =>
      intro s o s' _ h
      cases h
  | succ fuel ih =>
      intro s o s' older h
      cases hb : exactly task σ t s with
      | true =>
          obtain ⟨rfl, rfl⟩ := exactly_iff.1 hb
          have kept := runUntil_grows host stop s.frames.size (fuel + 1) t s o s' (Nat.le_refl _) h
          have made : Passed host stop t s s s' :=
            ⟨Nat.le_refl _, fuel + 1, o, s', h, Nat.le_refl _, fun _ _ _ => rfl⟩
          exact ⟨kept.keepsBut _, .inr made⟩
      | false =>
          have barred := runFrom_runBarring host (exactly task σ) stop fuel t s
          rw [hb, if_neg Bool.false_ne_true] at barred
          rw [runFrom_runUntil] at h
          rw [barred]
          split
          · rename_i hs
            rw [if_pos hs] at h
            cases h
            exact ⟨⟨fun _ _ _ => rfl, Nat.le_refl _⟩, .inl rfl⟩
          · rename_i hs
            rw [if_neg hs] at h
            exact (Congruence.passing host stop task σ).step ih host t s o s' older h

/-- Begun in `s₀`, what `x` does with the evaluator comes to `s'` after it has begun `task` in `σ`:
kept from beginning it there, it would have no outcome. -/
def Passes {α : Type} (host : Host) (stop : Task → State → Bool)
    (x : (Task → EvalM Value) → EvalM α) (s₀ : State) (task : Task) (σ s' : State) : Prop :=
  ∃ fuel o, (x (runUntil host stop fuel)).runFrom s₀ = some (o, s') ∧
    (x (runBarring host (exactly task σ) stop fuel)).runFrom s₀ = none

/-- **What a task has made stays as the task has left it, at every later moment of the run.** -/
theorem Passes.passed {α : Type} {host : Host} {stop : Task → State → Bool}
    {x : (Task → EvalM Value) → EvalM α} (hx : Use x) {s₀ σ s' : State} {task : Task}
    (h : Passes host stop x s₀ task σ s') : Passed host stop task σ s₀ s' := by
  obtain ⟨fuel, o, ran, barred⟩ := h
  obtain ⟨-, same | passed⟩ := (Congruence.passing host stop task σ).use
    (runUntil_passing host stop task σ fuel) hx s₀ o s' (fun _ => False.elim) ran
  · rw [barred] at same
    cases same
  · exact passed

end FormLang
