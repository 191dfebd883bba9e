import FormLang.Eval.Fuel
import FormLang.Proofs.Alike.Forms
import FormLang.Proofs.Scope

/-!
# Alike — two computations side by side

A correspondence says when the states of two runs agree.  Its worlds hold what corresponds so far:
a link of values, environments with the code that may run in them, and the pairs of frames that the
two runs fill together.  Worlds grow as the runs go on.  All that a correspondence has to show is
what it does at the six operations on the state: a log entry, a new frame, a new binding, a new
closure, a lookup, and a reply of the host.

`Sim R w x y` says that two computations go alike from `w` on: from states that agree they both run
out of fuel, or end in the same fault, or in results that `R` relates, in states that agree again
(`Ends`).  A correspondence may let the second run stop short with some faults.  Up to that point
the two have gone alike; of what the first does from there, it is known that it is what a
computation does that goes alike with another one (`Covers`), which is enough for it to go on.
In particular, the first run may find more names bound than the second (`Finds`), where the second
may stop short for want of a binding.
-/

namespace FormLang

/-! ### What two runs find under a name -/

/-- No frame binds a name that is looked up. -/
def Fault.isUnbound : Fault → Bool
  | .undefinedSymbol _ | .undefinedFunction _ | .undefinedMacro _ => true
  | _ => false

/-- Nothing on either side, or alike values; or something on the first side alone, where the second
run may stop with any fault of an unbound name. -/
inductive Finds (l : Link) (cuts : Fault → Prop) : Option Value → Option Value → Prop where
  | neither : Finds l cuts none none
  | both {v v' : Value} (h : Value.Alike l v v') : Finds l cuts (some v) (some v')
  | first {v v' : Value} (h : Value.Alike l v v') (hc : ∀ e : Fault, e.isUnbound = true → cuts e) :
      Finds l cuts (some v) none

namespace Finds

variable {l : Link} {cuts : Fault → Prop} {a b : Option Value}

theorem of_rel (h : Option.Rel (Value.Alike l) a b) : Finds l cuts a b := by
  cases h with
  | none => exact .neither
  | some h => exact .both h

theorem mono {l' : Link} (hl : l.Le l') (h : Finds l cuts a b) : Finds l' cuts a b := by
  cases h with
  | neither => exact .neither
  | both h => exact .both (h.mono hl)
  | first h hc => exact .first (h.mono hl) hc

/-- Frames that correspond stand before environments in which this is found. -/
theorem or {c d : Option Value} (h : Option.Rel (Value.Alike l) a b) (h' : Finds l cuts c d) :
    Finds l cuts (a.or c) (b.or d) := by
  cases h with
  | none => exact h'
  | some h => exact .both h

end Finds

/-! ### Correspondences -/

/-- When the states of two runs agree, and what corresponds then. -/
structure Correspondence (host : Host) where
  World : Type
  /-- In the second world all corresponds that does in the first. -/
  Le : World → World → Prop
  link : World → Link
  /-- Environments that correspond, for the code of a scope. -/
  chains : World → Scope → Chain → Chain → Prop
  /-- Frames that the two runs fill together, in environments for the code of a scope. -/
  paired : World → Scope → Nat → Nat → Prop
  /-- The names that code of the narrow scope reads. -/
  names : String → Prop := fun _ => True
  /-- The faults with which the second run may stop short. -/
  cuts : Fault → Prop := fun _ => False
  Agree : World → State → State → Prop
  le_refl : ∀ w, Le w w
  le_trans : ∀ {w w' w''}, Le w w' → Le w' w'' → Le w w''
  le_link : ∀ {w w'}, Le w w' → (link w).Le (link w')
  le_chains : ∀ {w w' k c d}, Le w w' → chains w k c d → chains w' k c d
  le_paired : ∀ {w w' k i j}, Le w w' → paired w k i j → paired w' k i j
  chains_cons : ∀ {w k i j c d}, paired w k i j → chains w k c d → chains w k (i :: c) (j :: d)
  options_cases : ∀ {w o p}, (link w).options o p →
    o = p ∨ cuts .noClauseMatched ∧ o.strictCond = false ∧ p.strictCond = true
  respects : ∀ w, host.Respects (link w)
  /-- Where the second run stops short, no function of the host keeps it from stopping. -/
  handsOn : ∀ e, cuts e → host.HandsOn e
  /-- The body of a closure may run in the environment that the closure has captured. -/
  captured : ∀ {w i j params body body' c d o p}, (link w).chains c d →
    (link w).admits (.closure i params body c o) (.closure j params body' d p) →
    ∃ k : Scope, chains w k c d ∧ k.Runs names body ∧ ∀ name ∈ params, k.Binds name
  emit : ∀ {w s t e f}, Agree w s t → Event.Alike (link w) e f →
    ∃ w', Le w w' ∧ Agree w' { s with log := e :: s.log } { t with log := f :: t.log }
  bindName : ∀ {w s t i j v v'} {k : Scope} {name : String}, Agree w s t → paired w k i j →
    k.Binds name → Value.Alike (link w) v v' →
    Agree w { s with frames := s.frames.modify i (Entries.insert name (tag name v)) }
      { t with frames := t.frames.modify j (Entries.insert name (tag name v')) }
  allocate : ∀ {w s t f g} {k : Scope}, Agree w s t → Frame.Alike (link w) f g → k.Fits f →
    ∃ w', Le w w' ∧ paired w' k s.frames.size t.frames.size ∧
      Agree w' { s with frames := s.frames.push f } { t with frames := t.frames.push g }
  /-- A new closure of code that may run in the environment which it captures. -/
  nextClosure : ∀ {w s t}, Agree w s t → ∃ w', Le w w' ∧
    (∀ {k : Scope} {params body body' c d o p}, chains w' k c d → k.Runs names body →
      (∀ name ∈ params, k.Binds name) → (link w').options o p →
      Value.Alike (link w') body body' → Value.Alike (link w')
        (.closure s.closures params body c o) (.closure t.closures params body' d p)) ∧
    Agree w' { s with closures := s.closures + 1 } { t with closures := t.closures + 1 }
  resolve : ∀ {w s t c d} {k : Scope} {name : String}, Agree w s t → chains w k c d →
    k.Sees names name → Finds (link w) cuts (s.resolve c name) (t.resolve d name)
  /-- No macro but a standard one, under its own name, is found in a narrow environment. -/
  macros : ∀ {w s t c d} {name : String} {v : Value}, Agree w s t → chains w .narrow c d →
    s.resolve c name = some v → v.isMacro = true → IsStandardMacro name v

namespace Correspondence

variable {host : Host} (C : Correspondence host)

theorem Le.refl (w : C.World) : C.Le w w :=
  C.le_refl w

variable {C}

namespace Le

variable {w w' w'' : C.World} (h : C.Le w w')
include h

theorem trans (h' : C.Le w' w'') : C.Le w w'' :=
  C.le_trans h h'

theorem link : (C.link w).Le (C.link w') :=
  C.le_link h

theorem chains {k : Scope} {c d : Chain} (hc : C.chains w k c d) : C.chains w' k c d :=
  C.le_chains h hc

theorem paired {k : Scope} {i j : Nat} (hp : C.paired w k i j) : C.paired w' k i j :=
  C.le_paired h hp

end Le

/-! ### Ends -/

variable {α α' β β' : Type}

/-- Two ends of runs that began in `w`: no outcome on either side, the same fault, or results that
are related, in states that agree. -/
inductive Ends (R : C.World → α → α' → Prop) (w : C.World) :
    Option (Except Fault α × State) → Option (Except Fault α' × State) → Prop where
  | exhausted : Ends R w none none
  | error {w' : C.World} {s t : State} (hw : C.Le w w') (hs : C.Agree w' s t) (e : Fault) :
      Ends R w (some (.error e, s)) (some (.error e, t))
  | ok {w' : C.World} {s t : State} {a : α} {b : α'} (hw : C.Le w w') (hs : C.Agree w' s t)
      (h : R w' a b) : Ends R w (some (.ok a, s)) (some (.ok b, t))

/-- Ends that are related from a later world on are from an earlier one. -/
theorem Ends.weaken {R : C.World → α → α' → Prop} {w w' : C.World} (hw : C.Le w w')
    {r : Option (Except Fault α × State)} {q : Option (Except Fault α' × State)}
    (h : Ends R w' r q) : Ends R w r q := by
  cases h with
  | exhausted => exact .exhausted
  | error hw' hs e => exact .error (hw.trans hw') hs e
  | ok hw' hs h => exact .ok (hw.trans hw') hs h

/-- Two runs that end alike end in the same faults. -/
theorem Ends.error_iff {R : C.World → α → α' → Prop} {w : C.World}
    {r : Option (Except Fault α × State)} {q : Option (Except Fault α' × State)}
    (h : Ends R w r q) (e : Fault) :
    (∃ s, r = some (.error e, s)) ↔ ∃ t, q = some (.error e, t) := by
  cases h with
  | exhausted => simp
  | error _ _ e' => simp
  | ok _ _ _ => simp

/-- The two runs end alike, or the second stops short: at a point where the states agree, with the
first run to end as if the second went on in some way. -/
inductive Covers (R : C.World → α → α' → Prop) (w : C.World)
    (r : Option (Except Fault α × State)) : Option (Except Fault α' × State) → Prop where
  | whole {q : Option (Except Fault α' × State)} (h : Ends R w r q) : Covers R w r q
  | short {w' : C.World} {s t : State} {e : Fault} {q : Option (Except Fault α' × State)}
      (hw : C.Le w w') (hs : C.Agree w' s t) (he : C.cuts e) (h : Ends R w' r q) :
      Covers R w r (some (.error e, t))

theorem Covers.weaken {R : C.World → α → α' → Prop} {w w' : C.World} (hw : C.Le w w')
    {r : Option (Except Fault α × State)} {q : Option (Except Fault α' × State)}
    (h : Covers R w' r q) : Covers R w r q := by
  cases h with
  | whole h => exact .whole (h.weaken hw)
  | short hw' hs he h => exact .short (hw.trans hw') hs he h

theorem Ends.imp {R R' : C.World → α → α' → Prop} (hR : ∀ w a b, R w a b → R' w a b)
    {w : C.World} {r : Option (Except Fault α × State)} {q : Option (Except Fault α' × State)}
    (h : Ends R w r q) : Ends R' w r q := by
  cases h with
  | exhausted => exact .exhausted
  | error hw hs e => exact .error hw hs e
  | ok hw hs h => exact .ok hw hs (hR _ _ _ h)

theorem Covers.imp {R R' : C.World → α → α' → Prop} (hR : ∀ w a b, R w a b → R' w a b)
    {w : C.World} {r : Option (Except Fault α × State)} {q : Option (Except Fault α' × State)}
    (h : Covers R w r q) : Covers R' w r q := by
  cases h with
  | whole h => exact .whole (h.imp hR)
  | short hw hs he h => exact .short hw hs he (h.imp hR)

/-- Whether or not the second run stops short, the first ends as it does beside some run. -/
theorem Covers.ends {R : C.World → α → α' → Prop} {w : C.World}
    {r : Option (Except Fault α × State)} {q : Option (Except Fault α' × State)}
    (h : Covers R w r q) : ∃ q', Ends R w r q' := by
  cases h with
  | whole h => exact ⟨_, h⟩
  | short hw _ _ h => exact ⟨_, h.weaken hw⟩

/-! ### Computations that go alike -/

/-- From states that agree in `w`, or later, the two computations end alike, unless the second stops
short. -/
def Sim (R : C.World → α → α' → Prop) (w : C.World) (x : EvalM α) (y : EvalM α') : Prop :=
  ∀ w' s t, C.Le w w' → C.Agree w' s t → Covers R w' (x.runFrom s) (y.runFrom t)

/-- Alike values, in a world. -/
def Values (C : Correspondence host) (w : C.World) (v v' : Value) : Prop :=
  Value.Alike (C.link w) v v'

namespace Sim

variable {R : C.World → α → α' → Prop} {S : C.World → β → β' → Prop} {w : C.World}

/-- Where no fault may stop the second run short, the two end alike. -/
theorem ends {x : EvalM α} {y : EvalM α'} (h : Sim R w x y) (hc : ∀ e, ¬ C.cuts e) {s t : State}
    (hs : C.Agree w s t) : Ends R w (x.runFrom s) (y.runFrom t) := by
  have h := h w s t (.refl _ _) hs
  generalize x.runFrom s = r, y.runFrom t = q at h ⊢
  cases h with
  | whole h => exact h
  | short _ _ he _ => exact absurd he (hc _)

theorem later {w' : C.World} (hw : C.Le w w') {x : EvalM α} {y : EvalM α'} (h : Sim R w x y) :
    Sim R w' x y :=
  fun w'' s t hw' hs => h w'' s t (hw.trans hw') hs

theorem imp {R' : C.World → α → α' → Prop} (hR : ∀ w a b, R w a b → R' w a b) {x : EvalM α}
    {y : EvalM α'} (h : Sim R w x y) : Sim R' w x y := by
  intro w' s t hw hs
  exact (h w' s t hw hs).imp hR

theorem pure {a : α} {b : α'} (h : ∀ w', C.Le w w' → R w' a b) :
    Sim R w (Pure.pure a) (Pure.pure b) := by
  intro w' s t hw hs
  rw [EvalM.runFrom_pure, EvalM.runFrom_pure]
  exact .whole (.ok (.refl _ _) hs (h w' hw))

theorem value {v v' : Value} (h : Value.Alike (C.link w) v v') :
    Sim C.Values w (Pure.pure v) (Pure.pure v') :=
  .pure fun _ hw => h.mono hw.link

theorem throw (e : Fault) : Sim R w (throw e) (throw e) := by
  intro w' s t _ hs
  rw [EvalM.runFrom_throw, EvalM.runFrom_throw]
  exact .whole (.error (.refl _ _) hs e)

/-- The second run stops, where the first goes on as it would beside some computation. -/
theorem cut {e : Fault} (he : C.cuts e) {x : EvalM α} {y : EvalM α'} (h : Sim R w x y) :
    Sim R w x (MonadExcept.throw e : EvalM α') := by
  intro w' s t hw hs
  rw [EvalM.runFrom_throw]
  obtain ⟨q, hq⟩ := (h w' s t hw hs).ends
  exact .short (.refl _ _) hs he hq

theorem exhausted : Sim R w EvalM.exhausted EvalM.exhausted :=
  fun _ _ _ _ _ => .whole .exhausted

/-- What follows related results goes alike.  Where the second run stops short in the first part,
the first goes on beside the run that the second might have been. -/
theorem bind {x : EvalM α} {y : EvalM α'} {f : α → EvalM β} {g : α' → EvalM β'}
    (hx : Sim R w x y) (hf : ∀ w' a b, C.Le w w' → R w' a b → Sim S w' (f a) (g b)) :
    Sim S w (x >>= f) (y >>= g) := by
  intro w₁ s t hw hs
  rw [EvalM.runFrom_bind, EvalM.runFrom_bind]
  have h := hx w₁ s t hw hs
  generalize x.runFrom s = r, y.runFrom t = q at h ⊢
  cases h with
  | whole h =>
      cases h with
      | exhausted => exact .whole .exhausted
      | error hw' hs' e => exact .whole (.error hw' hs' e)
      | ok hw' hs' h => exact (hf _ _ _ (hw.trans hw') h _ _ _ (.refl _ _) hs').weaken hw'
  | short hw' hs' he h =>
      -- The first run goes on beside the run that the second might have been.
      cases h with
      | exhausted => exact .short hw' hs' he .exhausted
      | error hw'' hs'' e => exact .short hw' hs' he (.error hw'' hs'' e)
      | ok hw'' hs'' h =>
          have hr := hf _ _ _ (hw.trans (hw'.trans hw'')) h _ _ _ (.refl _ _) hs''
          obtain ⟨q, hq⟩ := hr.ends
          exact .short hw' hs' he (hq.weaken hw'')

/-- Outcomes that are alike are both caught, or neither is. -/
theorem caught_bind {f : Except Fault α → EvalM β} {g : Except Fault α' → EvalM β'}
    {o : Except Fault α} {p : Except Fault α'} (h : AnswersAlike (R w) o p)
    (hf : Sim S w (f o) (g p)) :
    Sim S w (EvalM.lift (EvalM.caught o) >>= f) (EvalM.lift (EvalM.caught p) >>= g) := by
  cases h with
  | ok h => exact hf
  | error e =>
      by_cases he : e = .interrupted
      · subst he
        exact .throw .interrupted
      · rw [EvalM.caught_error he, EvalM.caught_error he]
        exact hf

/-- What goes on from outcomes goes alike from alike ones.  It has to hand on the faults with which
the second run may stop short. -/
theorem attempt_bind {x : EvalM α} {y : EvalM α'} {f : Except Fault α → EvalM β}
    {g : Except Fault α' → EvalM β'} (hx : Sim R w x y)
    (hf : ∀ w' o p, C.Le w w' → AnswersAlike (R w') o p → Sim S w' (f o) (g p))
    (hg : ∀ e, C.cuts e → g (.error e) = MonadExcept.throw e) :
    Sim S w (EvalM.attempt x >>= f) (EvalM.attempt y >>= g) := by
  have goes : ∀ {w' r q}, C.Le w w' → Ends R w' r q →
      Covers S w' (r.bind fun a => (EvalM.lift (EvalM.caught a.1) >>= f).runFrom a.2)
        (q.bind fun b => (EvalM.lift (EvalM.caught b.1) >>= g).runFrom b.2) := by
    intro w' r q hw h
    cases h with
    | exhausted => exact .whole .exhausted
    | error hw' hs e =>
        have next := hf _ _ _ (hw.trans hw') (.error e)
        exact (caught_bind (R := R) (.error e) next _ _ _ (.refl _ _) hs).weaken hw'
    | ok hw' hs h =>
        have next := hf _ _ _ (hw.trans hw') (.ok h)
        exact (caught_bind (.ok h) next _ _ _ (.refl _ _) hs).weaken hw'
  have handedOn : ∀ e, C.cuts e →
      EvalM.lift (EvalM.caught (.error e)) >>= g = MonadExcept.throw e := by
    intro e hc
    by_cases he : e = .interrupted
    · subst he
      rfl
    · rw [EvalM.caught_error he]
      exact hg e hc
  intro w₁ s t hw hs
  rw [EvalM.runFrom_attempt_bind, EvalM.runFrom_attempt_bind]
  have h := hx w₁ s t hw hs
  generalize x.runFrom s = r, y.runFrom t = q at h ⊢
  cases h with
  | whole h => exact goes hw h
  | short hw' hs' he h =>
      -- The second run stops here too; the first goes on beside what that might have been.
      rw [Option.bind_some, handedOn _ he, EvalM.runFrom_throw]
      obtain ⟨q, hq⟩ := (goes (hw.trans hw') h).ends
      exact .short hw' hs' he hq

theorem lift {x : Except Fault α} {y : Except Fault α'} {Q : α → α' → Prop}
    (h : AnswersAlike Q x y) (hQ : ∀ w' a b, C.Le w w' → Q a b → R w' a b) :
    Sim R w (EvalM.lift x) (EvalM.lift y) := by
  cases h with
  | ok h => exact .pure fun w' hw => hQ w' _ _ hw h
  | error e => exact .throw e

/-- What follows one and the same answer. -/
theorem bind_lift (x : Except Fault α) {f : α → EvalM β} {g : α → EvalM β'}
    (hf : ∀ a, x = .ok a → Sim S w (f a) (g a)) :
    Sim S w (EvalM.lift x >>= f) (EvalM.lift x >>= g) := by
  cases x with
  | error e => exact .bind (R := fun _ _ _ => False) (.throw e) fun _ _ _ _ h => h.elim
  | ok a => exact hf a rfl

/-- What the first computation is known to answer with, it answers with. -/
theorem of_refines {x : EvalM α} {y : EvalM α'} {answer : Except Fault α}
    (hx : x.Refines (EvalM.lift answer)) (h : Sim R w x y) :
    Sim (fun w a b => R w a b ∧ answer = .ok a) w x y := by
  intro w' s t hw hs
  have known : ∀ a s', x.runFrom s = some (.ok a, s') → answer = .ok a := by
    intro a s' hr
    have hr := hx s _ hr
    rw [EvalM.runFrom_lift] at hr
    cases hr
    rfl
  have ends : ∀ {w'} {q : Option (Except Fault α' × State)}, Ends R w' (x.runFrom s) q →
      Ends (fun w a b => R w a b ∧ answer = .ok a) w' (x.runFrom s) q := by
    intro w' q h
    generalize x.runFrom s = r at h known ⊢
    cases h with
    | exhausted => exact .exhausted
    | error hw hs e => exact .error hw hs e
    | ok hw hs h => exact .ok hw hs ⟨h, known _ _ rfl⟩
  have h := h w' s t hw hs
  generalize y.runFrom t = q at h ⊢
  cases h with
  | whole h => exact .whole (ends h)
  | short hw hs he h => exact .short hw hs he (ends h)

theorem emit {e f : Event} (h : ∀ w', C.Le w w' → Event.Alike (C.link w') e f) :
    Sim (fun _ _ _ => True) w (EvalM.emit e) (EvalM.emit f) := by
  intro w' s t hw hs
  rw [EvalM.runFrom_emit, EvalM.runFrom_emit]
  obtain ⟨w'', hl, hs'⟩ := C.emit hs (h w' hw)
  exact .whole (.ok hl hs' trivial)

theorem allocate {k : Scope} {f g : Frame} (h : ∀ w', C.Le w w' → Frame.Alike (C.link w') f g)
    (hk : k.Fits f) : Sim (fun w => C.paired w k) w (EvalM.allocate f) (EvalM.allocate g) := by
  intro w' s t hw hs
  rw [EvalM.runFrom_allocate, EvalM.runFrom_allocate]
  obtain ⟨w'', hl, hn, hs'⟩ := C.allocate hs (h w' hw) hk
  exact .whole (.ok hl hs' hn)

/-- Alike values are bound under one name in frames that are filled together. -/
theorem bindName {k : Scope} {i j : Nat} {name : String} {v v' : Value} (hp : C.paired w k i j)
    (hn : k.Binds name) (hv : Value.Alike (C.link w) v v') :
    Sim (fun _ _ _ => True) w (EvalM.bindName i name (tag name v))
      (EvalM.bindName j name (tag name v')) := by
  intro w' s t hw hs
  rw [EvalM.runFrom_bindName, EvalM.runFrom_bindName]
  exact .whole (.ok (.refl _ _) (C.bindName hs (hw.paired hp) hn (hv.mono hw.link)) trivial)

/-- The closures that can be made with the two numbers are alike. -/
theorem nextClosure : Sim (fun w i j => ∀ (k : Scope) params body body' c d o p,
    C.chains w k c d → k.Runs C.names body → (∀ name ∈ params, k.Binds name) →
    (C.link w).options o p → C.Values w body body' →
    C.Values w (.closure i params body c o) (.closure j params body' d p)) w
      EvalM.nextClosure EvalM.nextClosure := by
  intro w' s t _ hs
  rw [EvalM.runFrom_nextClosure, EvalM.runFrom_nextClosure]
  obtain ⟨w'', hl, hn, hs'⟩ := C.nextClosure hs
  exact .whole (.ok hl hs' fun _ _ _ _ _ _ _ _ hc hb hp ho h => hn hc hb hp ho h)

/-- What is found in a narrow environment is no macro, or a standard one. -/
theorem resolve {k : Scope} {c d : Chain} (h : C.chains w k c d) {name : String}
    (hn : k.Sees C.names name) :
    Sim (fun w a b => Finds (C.link w) C.cuts a b ∧ ∀ v, a = some v → v.isMacro = true →
      k = .narrow → IsStandardMacro name v) w (EvalM.resolve c name) (EvalM.resolve d name) := by
  intro w' s t hw hs
  rw [EvalM.runFrom_resolve, EvalM.runFrom_resolve]
  refine .whole (.ok (.refl _ _) hs ⟨C.resolve hs (hw.chains h) hn, fun v hv hm hk => ?_⟩)
  subst hk
  exact C.macros hs (hw.chains h) hv hm

/-- Names that are seen mean alike values; where only the first run finds one, the second stops
short. -/
theorem lookup {k : Scope} {c d : Chain} (h : C.chains w k c d) {name : String}
    (hn : k.Sees C.names name) : Sim C.Values w (EvalM.lookup c name) (EvalM.lookup d name) := by
  refine .bind (.resolve h hn) fun w' a b _ hr => ?_
  cases hr.1 with
  | neither => exact .throw _
  | both hv => exact .value hv
  | first hv hc => exact .cut (hc _ rfl) (.value hv)

/-- Item by item, each from the world that those before it lead to. -/
theorem mapM {P : Value → Prop} {f g : Value → EvalM Value} {vs ws : List Value}
    (hf : ∀ w' v v', C.Le w w' → P v → C.Values w' v v' → Sim C.Values w' (f v) (g v'))
    (hP : ∀ v ∈ vs, P v) (h : List.Forall₂ (Value.Alike (C.link w)) vs ws) :
    Sim (fun w => List.Forall₂ (C.Values w)) w (vs.mapM f) (ws.mapM g) := by
  induction h with
  | nil => exact .pure fun _ _ => .nil
  | cons h _ ih =>
      rw [List.forall_mem_cons] at hP
      rw [List.mapM_cons, List.mapM_cons]
      refine .bind (hf w _ _ (.refl _ _) hP.1 h) fun w₁ v v' hw₁ hv => ?_
      refine .bind ((ih hP.2).later hw₁) fun w₂ vs vs' hw₂ hvs => .pure fun w₃ hw₃ => ?_
      exact .cons (hv.mono (hw₂.trans hw₃).link) (hvs.imp fun _ _ k => k.mono hw₃.link)

end Sim

end Correspondence

end FormLang
