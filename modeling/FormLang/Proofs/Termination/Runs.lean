import FormLang.Eval.Fuel
import FormLang.Proofs.Frames
import FormLang.Proofs.Hereditary
import FormLang.Proofs.Termination.Nesting

/-!
# Termination — first-order programs end

Fuel bounds how deep tasks nest, evaluations and calls alike.  How deep calls nest is up to the
host; how deep evaluations do is up to the program alone, if it is first-order.  `runWithin` bounds
the two apart.

First-order code finds no closures and makes none, so no value is ever evaluated as code; what is
evaluated are expressions of the program and expansions of them.  A computation settles when it has
an outcome from some fuel for calls on, which stays the same with more (`Settles`).  **Code that
nests so deep settles when evaluations may nest so deep** (`Nests.evaluates`), by induction on the
depth.  With the bound of `FirstOrder.nests`, **every first-order program ends**
(`first_order_programs_end`).
-/

namespace FormLang

/-! ### Values without closures -/

namespace Value

/-- There is no closure in the value. -/
def ClosureFree (v : Value) : Prop :=
  v.holds isClosure = false

theorem closureFree_hereditary : Hereditary ClosureFree where
  null := rfl
  bool _ := rfl
  int _ := rfl
  float _ := rfl
  text _ := rfl
  undefined := rfl
  list := by simp [ClosureFree, holds, isClosure, anyHolds_eq]
  tuple := by simp [ClosureFree, holds, isClosure, anyHolds_eq]
  mapping := by simp [ClosureFree, holds, isClosure, anyEntryHolds_eq, anyHolds_eq]

theorem closureFree_tagged {t : Tag} {fn : Value} :
    (tagged t fn).ClosureFree ↔ fn.ClosureFree := by
  simp [ClosureFree, holds, isClosure]

theorem ClosureFree.inside {u v : Value} (h : v.ClosureFree) (hu : Inside u v) : u.ClosureFree :=
  not_holds_of_inside h hu

/-- To tag a value brings no closure in. -/
theorem ClosureFree.tag {v : Value} (h : v.ClosureFree) (name : String) :
    (tag name v).ClosureFree := by
  have untagged : v.untagged.ClosureFree := by
    cases v with
    | tagged t fn => exact closureFree_tagged.1 h
    | _ => exact h
  unfold FormLang.tag
  split
  · exact h
  · split
    · split
      · exact h
      · exact closureFree_tagged.2 untagged
    · split
      · exact h
      · split
        · exact untagged
        · exact closureFree_tagged.2 untagged

end Value

open Value (ClosureFree closureFree_hereditary)

/-! ### Calm environments -/

/-- The frame binds no closures, and no macros but standard ones under their own names. -/
def Frame.Tame (f : Frame) : Prop :=
  ∀ name v, Entries.get? name f = some v →
    v.ClosureFree ∧ (v.isMacro = true → IsStandardMacro name v)

namespace Frame.Tame

theorem nil : Frame.Tame [] := by
  intro name v h
  cases h

/-- A binding without closures under a plain name. -/
theorem insert {f : Frame} (h : f.Tame) {name : String} (hn : isMacroName name = false) {v : Value}
    (hv : v.ClosureFree) : Frame.Tame (Entries.insert name (tag name v) f) := by
  intro other w hw
  rw [Entries.get?_insert] at hw
  split at hw
  · cases hw
    refine ⟨hv.tag name, fun hm => ?_⟩
    rw [Scope.Fits.isMacro_tag hn] at hm
    cases hm
  · exact h other w hw

theorem standard : Frame.standard.Tame := by
  intro name v hv
  refine ⟨?_, isStandardMacro_of_standard hv⟩
  obtain ⟨m, -, rfl⟩ := Frame.eq_standard hv
  have free : (Value.standard m).ClosureFree := rfl
  exact free.tag name

end Frame.Tame

/-- The frames that were there in `s₀` are as they were, and those of the environment are tame. -/
structure Calm (s₀ : State) (env : Chain) (s : State) : Prop where
  since : s₀.Grows s₀.frames.size s
  frames : ∀ i ∈ env, ∃ f : Frame, s.frames[i]? = some f ∧ f.Tame

namespace Calm

variable {s₀ s t : State} {env : Chain}

theorem grow (h : Calm s₀ env s) (hs : s.Grows s.frames.size t) : Calm s₀ env t := by
  refine ⟨h.since.trans (hs.below h.since.frames), fun i hi => ?_⟩
  obtain ⟨f, hf, tame⟩ := h.frames i hi
  exact ⟨f, (hs.kept i (Array.getElem?_eq_some_iff.1 hf).1).trans hf, tame⟩

theorem emit (h : Calm s₀ env s) (e : Event) : Calm s₀ env { s with log := e :: s.log } :=
  h.grow ⟨fun _ _ => rfl, Nat.le_refl _, Nat.le_refl _⟩

theorem tail {i : Nat} (h : Calm s₀ (i :: env) s) : Calm s₀ env s :=
  ⟨h.since, fun j hj => h.frames j (List.mem_cons_of_mem i hj)⟩

/-- A new frame in front, of bindings without closures. -/
theorem push (h : Calm s₀ env s) {f : Frame} (hf : f.Tame) :
    Calm s₀ (s.frames.size :: env) { s with frames := s.frames.push f } := by
  have kept : s.Grows s.frames.size { s with frames := s.frames.push f } := by
    refine ⟨fun i hi => ?_, by simp, Nat.le_refl _⟩
    rw [Array.getElem?_push, if_neg (by omega)]
  refine ⟨(h.grow kept).since, fun i hi => ?_⟩
  rcases List.mem_cons.1 hi with rfl | hi
  · exact ⟨f, Array.getElem?_push_size, hf⟩
  · exact (h.grow kept).frames i hi

/-- A new frame can be filled with values under plain names. -/
theorem bindName {i : Nat} (h : Calm s₀ (i :: env) s) (hi : s₀.frames.size ≤ i) {name : String}
    (hn : isMacroName name = false) {v : Value} (hv : v.ClosureFree) :
    Calm s₀ (i :: env)
      { s with frames := s.frames.modify i (Entries.insert name (tag name v)) } := by
  refine ⟨⟨fun j hj => ?_, by simpa using h.since.frames, h.since.closures⟩, fun j hj => ?_⟩
  · rw [Array.getElem?_modify, if_neg (by omega)]
    exact h.since.kept j hj
  · obtain ⟨f, hf, tame⟩ := h.frames j hj
    rw [Array.getElem?_modify, hf]
    by_cases hij : i = j
    · rw [if_pos hij]
      exact ⟨_, rfl, tame.insert hn hv⟩
    · rw [if_neg hij]
      exact ⟨f, rfl, tame⟩

/-- What is found in a calm environment holds no closure, and is no macro but a standard one. -/
theorem resolve (h : Calm s₀ env s) {name : String} {v : Value}
    (hv : s.resolve env name = some v) :
    v.ClosureFree ∧ (v.isMacro = true → IsStandardMacro name v) := by
  obtain ⟨i, hi, hb⟩ := List.exists_of_findSome?_eq_some hv
  obtain ⟨f, hf, tame⟩ := h.frames i hi
  rw [hf, Option.bind_some] at hb
  exact tame name v hb

end Calm

/-! ### Computations that settle -/

/-- From some fuel on, the computation has one outcome from `s`, and if that is a result, the
result and the state after it are in `Q`. -/
def Settles {α : Type} (Q : α → State → Prop) (x : Nat → EvalM α) (s : State) : Prop :=
  ∃ k o t, (∀ n, k ≤ n → (x n).runFrom s = some (o, t)) ∧ ∀ a, o = .ok a → Q a t

namespace Settles

variable {α β : Type} {Q : α → State → Prop} {R : β → State → Prop} {s : State}

theorem pure {a : α} (h : Q a s) : Settles Q (fun _ => Pure.pure a) s := by
  refine ⟨0, .ok a, s, fun _ _ => rfl, ?_⟩
  rintro _ ⟨⟩
  exact h

theorem throw (e : Fault) : Settles Q (fun _ => throw e) s := by
  refine ⟨0, .error e, s, fun _ _ => rfl, ?_⟩
  rintro _ ⟨⟩

theorem lift {x : Except Fault α} (h : ∀ a, x = .ok a → Q a s) :
    Settles Q (fun _ => EvalM.lift x) s :=
  ⟨0, x, s, fun _ _ => EvalM.runFrom_lift x s, h⟩

theorem imp {Q' : α → State → Prop} {x : Nat → EvalM α} (h : Settles Q x s)
    (hQ : ∀ a t, Q a t → Q' a t) : Settles Q' x s := by
  obtain ⟨k, o, t, hx, ho⟩ := h
  exact ⟨k, o, t, hx, fun a ha => hQ a t (ho a ha)⟩

/-- One computation after another, with fuel enough for both. -/
theorem bind {x : Nat → EvalM α} {f : Nat → α → EvalM β} (hx : Settles Q x s)
    (hf : ∀ a t, Q a t → Settles R (fun n => f n a) t) :
    Settles R (fun n => x n >>= f n) s := by
  obtain ⟨k, o, t, hx, ho⟩ := hx
  cases o with
  | error e =>
      refine ⟨k, .error e, t, fun n hn => ?_, ?_⟩
      · rw [EvalM.runFrom_bind, hx n hn]
      · rintro _ ⟨⟩
  | ok a =>
      obtain ⟨l, o, u, hf, ho⟩ := hf a t (ho a rfl)
      refine ⟨max k l, o, u, fun n hn => ?_, ho⟩
      rw [EvalM.runFrom_bind, hx n (by omega)]
      exact hf n (by omega)

theorem emit {e : Event} {f : Nat → Unit → EvalM β}
    (h : Settles R (fun n => f n ()) { s with log := e :: s.log }) :
    Settles R (fun n => EvalM.emit e >>= f n) s :=
  h

/-- Item by item, with fuel enough for all. -/
theorem mapM {f : Nat → α → EvalM β} {P : β → Prop} {I : State → Prop} {as : List α}
    (hf : ∀ a ∈ as, ∀ s, I s → Settles (fun b t => P b ∧ I t) (fun n => f n a) s) (hs : I s) :
    Settles (fun bs t => (∀ b ∈ bs, P b) ∧ I t) (fun n => as.mapM (f n)) s := by
  induction as generalizing s with
  | nil => exact .pure ⟨List.forall_mem_nil _, hs⟩
  | cons a as ih =>
      rw [List.forall_mem_cons] at hf
      simp only [List.mapM_cons]
      refine .bind (hf.1 s hs) fun b t hb => .bind (ih hf.2 hb.2) fun bs u hbs => .pure ?_
      exact ⟨List.forall_mem_cons.2 ⟨hb.1, hbs.1⟩, hbs.2⟩

/-- An outcome that a run has with some fuel is its outcome from there on. -/
theorem of_run {host : Host} {Q : Value → State → Prop} {task : Task} {k : Nat}
    {o : Except Fault Value} {t : State} (h : (run host k task).runFrom s = some (o, t))
    (ho : ∀ v, o = .ok v → Q v t) : Settles Q (fun n => run host n task) s :=
  ⟨k, o, t, fun _ hn => run_refines host hn task _ _ h, ho⟩

end Settles

/-! ### Evaluations and calls -/

/-- Does a task as `run` does, while evaluations nest at most `depth` deep; each call has the fuel
`calls`. -/
def runWithin (host : Host) (calls : Nat) : (depth : Nat) → Task → EvalM Value
  | _, .call fn args => run host calls (.call fn args)
  | 0, .eval .. => EvalM.exhausted
  | depth + 1, .eval e env options =>
    Eval.expression (runWithin host calls depth) e env options

/-- To bound evaluations and calls apart is to bound them together. -/
theorem runWithin_refines (host : Host) (calls depth : Nat) (task : Task) :
    (runWithin host calls depth task).Refines (run host (depth + calls) task) := by
  induction depth generalizing task with
  | zero =>
      cases task with
      | eval e env options => exact .exhausted _
      | call fn args =>
          rw [runWithin]
          exact run_refines host (by omega) _
  | succ depth ih =>
      cases task with
      | eval e env options =>
          rw [show depth + 1 + calls = depth + calls + 1 by omega]
          exact Eval.step_refines host ih (.eval e env options)
      | call fn args =>
          rw [runWithin]
          exact run_refines host (by omega) _

/-- From the states that `s₀` leads to, all functions of the host end, given values without
closures, and return none. -/
def Host.TotalFrom (host : Host) (s₀ : State) : Prop :=
  ∀ s, s₀.Grows s₀.frames.size s → ∀ name args, (∀ v ∈ args, v.ClosureFree) →
    ∃ fuel o t, (run host fuel (.call (.host name) args)).runFrom s = some (o, t) ∧
      ∀ v, o = .ok v → v.ClosureFree

/-- The computation settles, with a value without closures and in a calm state. -/
abbrev Answers (s₀ : State) (env : Chain) : (Nat → EvalM Value) → State → Prop :=
  Settles fun v t => v.ClosureFree ∧ Calm s₀ env t

variable {host : Host} {s₀ s : State} {env : Chain} {options : Options}

/-- A call ends if it does where it comes to one of the host.  Tags are taken off one by one. -/
theorem call_settles {I : State → Prop} {args : List Value} (ha : ∀ v ∈ args, v.ClosureFree)
    (hs : I s) (hosts : ∀ name, Settles (fun v t => v.ClosureFree ∧ I t)
      (fun n => run host n (.call (.host name) args)) s) : (fn : Value) → fn.ClosureFree →
    Settles (fun v t => v.ClosureFree ∧ I t) (fun n => run host n (.call fn args)) s
  | .standard m, _ =>
      .of_run (k := 1) (EvalM.runFrom_lift (m.apply args) s) fun v hv =>
        ⟨m.apply_hereditary closureFree_hereditary ha v hv, hs⟩
  | .host name, _ => hosts name
  | .tagged tag fn, hf => by
      obtain ⟨k, o, t, h, ho⟩ := call_settles ha hs hosts fn (Value.closureFree_tagged.1 hf)
      exact .of_run (k := k + 1) (h k (Nat.le_refl k)) ho
  | .closure .., hf => by cases hf
  | .null, _ | .bool _, _ | .int _, _ | .float _, _ | .text _, _ | .list _, _ | .tuple _, _
  | .mapping _, _ | .undefined, _ =>
      .of_run (k := 1) (o := .error .calledNonCallable) rfl (by rintro _ ⟨⟩)

/-- A callable that is no closure answers, if the host does. -/
theorem call_answers (total : host.TotalFrom s₀) {fn : Value} (hf : fn.ClosureFree)
    {args : List Value} (ha : ∀ v ∈ args, v.ClosureFree) (hs : Calm s₀ env s) :
    Answers s₀ env (fun n => run host n (.call fn args)) s := by
  refine call_settles ha hs (fun name => ?_) fn hf
  obtain ⟨fuel, o, t, h, ho⟩ := total s hs.since name args ha
  have grows := run_grows host s.frames.size _ _ _ _ _ (Nat.le_refl _) h
  exact .of_run h fun v hv => ⟨ho v hv, hs.grow grows⟩

/-- Every application ends, whatever is applied. -/
theorem applyTo_answers (total : host.TotalFrom s₀) (depth : Nat) (label : String) {fn : Value}
    (hf : fn.ClosureFree) {args : List Value} (ha : ∀ v ∈ args, v.ClosureFree)
    (hs : Calm s₀ env s) :
    Answers s₀ env (fun n => Eval.applyTo (runWithin host n depth) label fn args) s := by
  unfold Eval.applyTo
  split
  · exact .throw _
  · split
    · simp only [runWithin]
      exact call_answers total hf ha hs
    · exact .throw _

/-! ### Parts of forms -/

section Parts

variable {eval : Nat → Value → EvalM Value} {I : State → Prop}

/-- Wherever it is evaluated, the expression settles. -/
def Evaluates (eval : Nat → Value → EvalM Value) (I : State → Prop) (e : Value) : Prop :=
  ∀ s, I s → Settles (fun v t => v.ClosureFree ∧ I t) (fun n => eval n e) s

mutual
/-- A template is filled, if its escapes are evaluated.  By recursion on the template. -/
theorem fill_settles : (template : Value) → template.ClosureFree →
    (∀ e ∈ Eval.escapes template, Evaluates eval I e) →
    Evaluates (fun n => Eval.fill (eval n)) I template
  | .list items, hc, h, s, hs | .tuple items, hc, h, s, hs => by
      have free := closureFree_hereditary.operands hc
      simp only [Eval.fill]
      rw [Eval.escapes] at h
      refine .bind (fillItems_settles items free h s hs) fun vs t hvs => .pure ?_
      exact ⟨closureFree_hereditary.list.2 hvs.1, hvs.2⟩
  | .mapping entries, hc, h, s, hs => by
      have free := closureFree_hereditary.mapping.1 hc
      simp only [Eval.fill]
      rw [Eval.escapes] at h
      cases hg : Entries.get? "$_" entries with
      | some escaped =>
          rw [hg] at h
          exact h escaped List.mem_cons_self s hs
      | none =>
          rw [hg] at h
          refine .bind (fillEntries_settles entries free h s hs) fun vs t hvs => .pure ?_
          exact ⟨closureFree_hereditary.mapping.2 hvs.1, hvs.2⟩
  | .null, hc, _, s, hs | .bool _, hc, _, s, hs | .int _, hc, _, s, hs | .float _, hc, _, s, hs
  | .text _, hc, _, s, hs | .undefined, hc, _, s, hs | .closure .., hc, _, s, hs
  | .standard _, hc, _, s, hs | .host _, hc, _, s, hs | .tagged .., hc, _, s, hs =>
      .pure ⟨hc, hs⟩

theorem fillItems_settles : (items : List Value) → (∀ v ∈ items, v.ClosureFree) →
    (∀ e ∈ Eval.itemEscapes items, Evaluates eval I e) → ∀ s, I s →
    Settles (fun vs t => (∀ v ∈ vs, v.ClosureFree) ∧ I t)
      (fun n => Eval.fillItems (eval n) items) s
  | [], _, _, s, hs => .pure ⟨List.forall_mem_nil _, hs⟩
  | v :: rest, hc, h, s, hs => by
      rw [List.forall_mem_cons] at hc
      rw [Eval.itemEscapes, List.forall_mem_append] at h
      refine .bind (fill_settles v hc.1 h.1 s hs) fun w t hw => ?_
      refine .bind (fillItems_settles rest hc.2 h.2 t hw.2) fun ws u hws => .pure ?_
      exact ⟨List.forall_mem_cons.2 ⟨hw.1, hws.1⟩, hws.2⟩

theorem fillEntries_settles : (entries : List (String × Value)) →
    (∀ e ∈ entries, e.2.ClosureFree) →
    (∀ e ∈ Eval.entryEscapes entries, Evaluates eval I e) → ∀ s, I s →
    Settles (fun es t => (∀ e ∈ es, Value.ClosureFree (Prod.snd e)) ∧ I t)
      (fun n => Eval.fillEntries (eval n) entries) s
  | [], _, _, s, hs => .pure ⟨List.forall_mem_nil _, hs⟩
  | (name, v) :: rest, hc, h, s, hs => by
      rw [List.forall_mem_cons] at hc
      rw [Eval.entryEscapes, List.forall_mem_append] at h
      refine .bind (fill_settles v hc.1 h.1 s hs) fun w t hw => ?_
      refine .bind (fillEntries_settles rest hc.2 h.2 t hw.2) fun ws u hws => .pure ?_
      exact ⟨List.forall_mem_cons.2 ⟨hw.1, hws.1⟩, hws.2⟩
end

/-- A clause without a `then` evaluates the absent value; where it has a test, that can be. -/
theorem clauses_settles (options : Options) {items : List Value}
    (h : ∀ e ∈ items.flatMap Value.parts, Evaluates eval I e ∧ Evaluates eval I .undefined)
    (hs : I s) :
    Settles (fun v t => v.ClosureFree ∧ I t) (fun n => Eval.clauses (eval n) options items) s := by
  induction items generalizing s with
  | nil =>
      simp only [Eval.clauses]
      split
      · exact .throw _
      · exact .pure ⟨rfl, hs⟩
  | cons v rest ih =>
      rw [List.flatMap_cons, List.forall_mem_append] at h
      cases v with
      | mapping clause =>
          have under : ∀ {name v}, Entries.get? name clause = some v →
              Evaluates eval I v ∧ Evaluates eval I .undefined := fun hg =>
            h.1 _ (List.mem_map_of_mem (Entries.mem_of_get? hg))
          simp only [Eval.clauses]
          cases he : Entries.get? "else" clause with
          | some otherwise => exact (under he).1 s hs
          | none =>
              cases ht : Entries.get? "if" clause with
              | none => exact .throw _
              | some test =>
                  refine .bind ((under ht).1 s hs) fun v t hv => ?_
                  split
                  · cases hg : Entries.get? "then" clause with
                    | some e => exact (under hg).1 t hv.2
                    | none => exact (under ht).2 t hv.2
                  · exact ih h.2 hv.2
      | _ => exact .throw _

end Parts

/-! ### Forms -/

section Forms

variable (total : host.TotalFrom s₀) {depth : Nat}

/-- Evaluates in an environment, as deep as may be. -/
abbrev evalWithin (host : Host) (depth : Nat) (options : Options) (env : Chain) (calls : Nat)
    (e : Value) : EvalM Value :=
  runWithin host calls depth (.eval e env options)

/-- Bindings lead to an environment that is calm too, if they bind no macro names. -/
theorem bindFrame_settles {entries : Entries Value}
    (plain : ∀ e ∈ entries, isMacroName e.1 = false)
    (h : ∀ e ∈ entries, ∀ env, Evaluates (evalWithin host depth options env) (Calm s₀ env) e.2)
    (hs : Calm s₀ env s) :
    Settles (fun inner t => (∃ i, inner = i :: env) ∧ Calm s₀ inner t)
      (fun n => Eval.bindFrame (runWithin host n depth) (.mapping entries) env options) s := by
  have fills : ∀ t, Calm s₀ (s.frames.size :: env) t →
      Settles (fun _ u => Calm s₀ (s.frames.size :: env) u) (fun n => entries.forM fun e =>
        runWithin host n depth (.eval e.2 (s.frames.size :: env) options) >>= fun v =>
          EvalM.bindName s.frames.size e.1 (tag e.1 v)) t := by
    induction entries with
    | nil => exact fun t ht => .pure ht
    | cons e entries ih =>
        intro t ht
        rw [List.forall_mem_cons] at plain h
        refine .bind (Q := fun _ u => Calm s₀ (s.frames.size :: env) u)
          (.bind (h.1 _ t ht) fun v u hv => ?_) fun _ u hu => ih plain.2 h.2 u hu
        refine ⟨0, .ok (), _, fun _ _ => rfl, fun _ _ => ?_⟩
        exact hv.2.bindName hs.since.frames plain.1 hv.1
  have allocated : Settles (fun i t => i = s.frames.size ∧ Calm s₀ (i :: env) t)
      (fun _ => EvalM.allocate []) s := by
    refine ⟨0, .ok s.frames.size, _, fun _ _ => rfl, ?_⟩
    rintro _ ⟨⟩
    exact ⟨rfl, hs.push .nil⟩
  simp only [Eval.bindFrame]
  refine .bind allocated fun i t hi => ?_
  obtain ⟨rfl, ht⟩ := hi
  exact .bind (fills t ht) fun _ u hu => .pure ⟨⟨_, rfl⟩, hu⟩

/-- A standard macro answers at once, and what it answers with is evaluated. -/
theorem expand_answers {m : Standard} {form : Value} {operands : List Value}
    (free : ∀ v ∈ form :: operands, v.ClosureFree)
    (h : ∀ answer, m.apply (form :: operands) = .ok answer → answer.ClosureFree →
      Evaluates (evalWithin host depth options env) (Calm s₀ env) answer)
    (hs : Calm s₀ env s) :
    Answers s₀ env (fun n => Eval.expand (runWithin host n depth)
      (.tagged .expander (.standard m)) form operands env options) s := by
  have answered : Settles (fun answer t => m.apply (form :: operands) = .ok answer ∧
      answer.ClosureFree ∧ Calm s₀ env t)
      (fun n => run host n (.call (.tagged .expander (.standard m)) (form :: operands))) s := by
    refine .of_run (k := 2) (EvalM.runFrom_lift (m.apply _) s) fun v hv => ⟨hv, ?_, hs⟩
    exact m.apply_hereditary closureFree_hereditary free v hv
  simp only [Eval.expand, runWithin]
  refine .bind answered fun answer t ha => .emit ?_
  exact h answer ha.1 ha.2.1 _ (ha.2.2.emit _)

/-- Where anything can be evaluated, the absent value can. -/
theorem Nests.evaluates_undefined {e : Value} (h : Nests depth e) (env : Chain) :
    Evaluates (evalWithin host depth options env) (Calm s₀ env) .undefined := by
  intro s hs
  cases h <;> exact .pure ⟨rfl, hs⟩

include total

/-- A special form settles when all that it evaluates does. -/
theorem special_answers {form : SpecialForm} (hl : form.kind ≠ .lambda)
    (plain : ∀ name ∈ form.binders, isMacroName name = false)
    (free : ∀ v ∈ form.parts, v.ClosureFree)
    (absent : form.code ≠ [] →
      ∀ env, Evaluates (evalWithin host depth options env) (Calm s₀ env) .undefined)
    (h : ∀ e ∈ form.code, ∀ env, Evaluates (evalWithin host depth options env) (Calm s₀ env) e)
    (hs : Calm s₀ env s) :
    Answers s₀ env (fun n => Eval.special (runWithin host n depth) env options form) s := by
  cases form with
  | quote datum => exact .pure ⟨free datum List.mem_cons_self, hs⟩
  | quasiquote template =>
      exact fill_settles template (free template List.mem_cons_self) (fun e he => h e he env) s hs
  | letIn bindings body =>
      cases body with
      | none => exact .throw _
      | some body =>
          cases bindings with
          | mapping entries =>
              rw [SpecialForm.code, List.forall_mem_append] at h
              have bound : Settles (fun inner t => (∃ i, inner = i :: env) ∧ Calm s₀ inner t)
                  (fun n => Eval.bindFrame (runWithin host n depth) (.mapping entries) env
                    options) s :=
                bindFrame_settles (fun e he => plain e.1 (List.mem_map_of_mem he))
                  (fun e he => h.1 e.2 (List.mem_map_of_mem he)) hs
              refine .bind bound fun inner t hi => ?_
              obtain ⟨⟨i, rfl⟩, ht⟩ := hi
              exact (h.2 body List.mem_cons_self _ t ht).imp fun v u hv => ⟨hv.1, hv.2.tail⟩
          | _ => exact .throw _
  | lambda params body => exact absurd rfl hl
  | cond clauses =>
      have parts : ∀ e ∈ clauses.operands.flatMap Value.parts,
          Evaluates (evalWithin host depth options env) (Calm s₀ env) e ∧
            Evaluates (evalWithin host depth options env) (Calm s₀ env) .undefined :=
        fun e he => ⟨h e he env, absent (List.ne_nil_of_mem he) env⟩
      cases clauses with
      | list items => exact clauses_settles options parts hs
      | tuple items => exact clauses_settles options parts hs
      | _ => exact .throw _
  | apply callee args =>
      cases args with
      | none => exact .throw _
      | some args =>
          rw [SpecialForm.code, List.forall_mem_cons] at h
          refine .bind (h.1 env s hs) fun fn t hfn => ?_
          refine .bind (.mapM (fun e he => h.2 e (by simpa using he) env) hfn.2) fun vs u hvs => ?_
          exact applyTo_answers total depth _ hfn.1 hvs.1 hvs.2

/-- A call settles when its operands do and, if it is of a standard macro, what the macro answers
with. -/
theorem generic_answers {es : Entries Value} (free : (Value.mapping es).ClosureFree)
    (ho : ∀ name under, operator es = .ok (name, under) → ∀ e ∈ under.operands,
      ∀ env, Evaluates (evalWithin host depth options env) (Calm s₀ env) e)
    (hm : ∀ (m : Standard) under, operator es = .ok (m.symbol, under) →
      isMacroName m.symbol = true → ∀ answer, m.apply (.mapping es :: under.operands) = .ok answer →
        answer.ClosureFree →
        ∀ env, Evaluates (evalWithin host depth options env) (Calm s₀ env) answer)
    (hs : Calm s₀ env s) :
    Answers s₀ env (fun n => Eval.generic (runWithin host n depth) es env options) s := by
  simp only [Eval.generic_eq]
  refine .bind (Q := fun a t => operator es = .ok a ∧ Calm s₀ env t) (.lift fun a ha => ⟨ha, hs⟩)
    fun a t hop => ?_
  obtain ⟨name, under⟩ := a
  obtain ⟨hop, ht⟩ := hop
  have operands : ∀ e ∈ under.operands, e.ClosureFree := fun e he =>
    free.inside (Value.Inside.operands (.entry (operator_mem hop)) he)
  have found : Settles (fun found u => (∀ head, found = some head → head.ClosureFree ∧
      (head.isMacro = true → IsStandardMacro name head)) ∧ Calm s₀ env u)
      (fun _ => EvalM.resolve env name) t := by
    refine ⟨0, .ok (t.resolve env name), t, fun _ _ => rfl, ?_⟩
    rintro _ ⟨⟩
    exact ⟨fun head hh => ht.resolve hh, ht⟩
  refine .bind found fun found u hfound => ?_
  obtain ⟨hfound, hu⟩ := hfound
  cases found with
  | none => exact .throw _
  | some head =>
      obtain ⟨hc, standard⟩ := hfound head rfl
      simp only [Eval.headed]
      refine .emit ?_
      have hu := hu.emit (.call name head.kindName under.operands.length)
      split
      · -- The macro is a standard one, and its answer is evaluated in its place.
        rename_i isMacro
        obtain ⟨m, rfl, rfl, hname⟩ := standard isMacro
        exact expand_answers (List.forall_mem_cons.2 ⟨free, operands⟩)
          (fun answer ha hc => hm m under hop hname answer ha hc env) hu
      · split
        · refine .bind (.mapM (fun e he => ho name under hop e he env) hu) fun vs t hvs => ?_
          exact applyTo_answers total depth _ hc hvs.1 hvs.2
        · exact .throw _

/-- **Code that nests so deep settles when evaluations may nest so deep.** -/
theorem Nests.evaluates {e : Value} (h : Nests depth e) (free : e.ClosureFree) (env : Chain) :
    Evaluates (evalWithin host depth options env) (Calm s₀ env) e := by
  induction h generalizing env with
  | @constant n v h =>
      intro s hs
      cases v with
      | text | list | tuple | mapping => cases h
      | _ => exact .pure ⟨free, hs⟩
  | text name =>
      intro s hs
      refine ⟨0, _, s, fun _ _ => EvalM.runFrom_lookup env name s, fun v hv => ?_⟩
      cases hr : s.resolve env name with
      | none =>
          rw [hr] at hv
          cases hv
      | some w =>
          rw [hr] at hv
          cases hv
          exact ⟨(hs.resolve hr).1, hs⟩
  | @list n items _ ih =>
      intro s hs
      have items := closureFree_hereditary.list.1 free
      refine .bind (.mapM (fun e he => ih e he (items e he) env) hs) fun vs t hvs => .pure ?_
      exact ⟨closureFree_hereditary.list.2 hvs.1, hvs.2⟩
  | @tuple n items _ ih =>
      intro s hs
      have items := closureFree_hereditary.tuple.1 free
      refine .bind (.mapM (fun e he => ih e he (items e he) env) hs) fun vs t hvs => .pure ?_
      exact ⟨closureFree_hereditary.list.2 hvs.1, hvs.2⟩
  | @special n es form hf hl hb h ih =>
      intro s hs
      simp only [evalWithin, runWithin, Eval.expression, hf]
      refine .emit (special_answers total hl hb (fun v hv => ?_) (fun hne env => ?_)
        (fun e he => ih e he (free.inside (inside_of_mem_code hf he))) (hs.emit _))
      · obtain ⟨name, hv⟩ := SpecialForm.mem_of_mem_parts hf hv
        exact free.inside (.entry hv)
      · obtain ⟨e, he⟩ := List.exists_mem_of_ne_nil _ hne
        exact (h e he).evaluates_undefined env
  | @call n es hf _ _ iho ihm =>
      intro s hs
      simp only [evalWithin, runWithin, Eval.expression, hf]
      refine generic_answers total free (fun name under ho e he => ?_)
        (fun m under ho hm answer ha hc => ihm m under ho hm answer ha hc) hs
      exact iho name under ho e he
        (free.inside (Value.Inside.operands (.entry (operator_mem ho)) he))

end Forms

/-! ### The small host -/

/-- What a function of the small host can reply to values without closures. -/
theorem hostTools_cases (name : String) {args : List Value} (h : ∀ v ∈ args, v.ClosureFree) :
    (∃ v, hostTools name args = .value v ∧ v.ClosureFree) ∨
    (∃ message, hostTools name args = .failure message) ∨
    ∃ fn rest, args = fn :: rest ∧ hostTools name args = .call fn rest .ofOutcome := by
  have item : ∀ i : Nat, (args[i]?.getD .undefined).ClosureFree := by
    intro i
    cases hi : args[i]? with
    | none => exact closureFree_hereditary.undefined
    | some v => exact h v (List.mem_of_getElem? hi)
  unfold hostTools
  split
  · split
    · exact .inl ⟨_, rfl, closureFree_hereditary.text _⟩
    · exact .inr (.inl ⟨_, rfl⟩)
  · exact .inl ⟨_, rfl, closureFree_hereditary.list.2 h⟩
  · refine .inl ⟨_, rfl, closureFree_hereditary.mapping.2 (List.forall_mem_singleton.2 ?_)⟩
    exact closureFree_hereditary.list.2 h
  · exact .inl ⟨_, rfl, closureFree_hereditary.int _⟩
  · rw [List.head?_eq_getElem?]
    exact .inl ⟨_, rfl, item 0⟩
  · exact .inl ⟨_, rfl, item 1⟩
  · split
    · split
      · exact .inr (.inr ⟨_, _, rfl, rfl⟩)
      · exact .inr (.inl ⟨_, rfl⟩)
    · exact .inr (.inl ⟨_, rfl⟩)
  · exact .inr (.inl ⟨_, rfl⟩)
  · exact .inr (.inl ⟨_, rfl⟩)

/-- To go on with whatever outcome a call has is to make the call. -/
theorem follow_ofOutcome (run : Task → EvalM Value) (fn : Value) (args : List Value) :
    Eval.follow run (.call fn args .ofOutcome) = run (.call fn args) := by
  refine EvalM.ext fun s => ?_
  rw [Eval.follow, EvalM.runFrom_attempt_bind]
  cases (run (.call fn args)).runFrom s with
  | none => rfl
  | some r =>
      obtain ⟨o, t⟩ := r
      cases o with
      | ok v => rfl
      | error e =>
          by_cases he : e = .interrupted
          · subst he
            rfl
          · rw [Option.bind_some, EvalM.caught_error he]
            rfl

/-- A function of the small host that calls a callable hands on fewer arguments. -/
theorem hostTools_settles (args : List Value) (ha : ∀ v ∈ args, v.ClosureFree) (name : String)
    (s : State) :
    Settles (fun v _ => v.ClosureFree ∧ True)
      (fun n => run hostTools n (.call (.host name) args)) s := by
  have follows : ∀ n, run hostTools (n + 1) (.call (.host name) args) =
      Eval.follow (run hostTools n) (hostTools name args) := fun _ => rfl
  obtain ⟨v, hr, hv⟩ | ⟨message, hr⟩ | ⟨fn, rest, rfl, hr⟩ := hostTools_cases name ha
  · refine .of_run (k := 1) (o := .ok v) (t := s) ?_ (by rintro _ ⟨⟩; exact ⟨hv, trivial⟩)
    rw [follows, hr]
    rfl
  · refine .of_run (k := 1) (o := .error (.hostFailure message)) (t := s) ?_ (by rintro _ ⟨⟩)
    rw [follows, hr]
    rfl
  · rw [List.forall_mem_cons] at ha
    obtain ⟨k, o, t, h, ho⟩ := call_settles ha.2 (I := fun _ => True) trivial
      (fun name => hostTools_settles rest ha.2 name s) fn ha.1
    refine .of_run (k := k + 1) (t := t) ?_ ho
    rw [follows, hr, follow_ofOutcome]
    exact h k (Nat.le_refl k)
termination_by args.length

theorem hostTools_total (s₀ : State) : hostTools.TotalFrom s₀ := by
  intro s _ name args ha
  obtain ⟨k, o, t, h, ho⟩ := hostTools_settles args ha name s
  exact ⟨k, o, t, h k (Nat.le_refl k), fun v hv => (ho v hv).1⟩

/-! ### First-order programs -/

/-- The environments that evaluations start in are calm, if the host binds neither closures nor
macro names. -/
theorem chain_settles (hs : Calm s₀ env s) {fs : List Frame} (hf : ∀ f ∈ fs, f.Tame) :
    Settles (fun env t => Calm s₀ env t) (fun _ => chain env fs) s := by
  induction fs with
  | nil => exact .pure hs
  | cons f fs ih =>
      rw [List.forall_mem_cons] at hf
      simp only [chain]
      refine .bind (ih hf.2) fun inner t ht => ?_
      refine ⟨0, .ok (t.frames.size :: inner), _, fun _ _ => rfl, ?_⟩
      rintro _ ⟨⟩
      exact ht.push hf.1

/-- The frames of a host are tame, if it binds neither closures nor macro names. -/
theorem tame_hostFrames {frames : Value} (free : frames.ClosureFree) {fs : List Frame}
    (hf : hostFrames frames = .ok fs)
    (plain : ∀ f ∈ fs, ∀ name ∈ Entries.keys f, isMacroName name = false) :
    ∀ f ∈ fs, f.Tame := by
  intro f hmem name v hv
  have fits := fits_hostFrames hf plain f hmem rfl name v hv
  obtain ⟨es, he, rfl⟩ := mem_hostFrames hf f hmem
  rw [Frame.ofEntries, Entries.get?_mapValues] at hv
  obtain ⟨u, hu, rfl⟩ := Option.map_eq_some_iff.1 hv
  have mapping : (Value.mapping es).ClosureFree := closureFree_hereditary.operands free _ he
  refine ⟨(mapping.inside (.get? hu)).tag name, fun hm => ?_⟩
  rw [fits.2] at hm
  cases hm

/-- **First-order programs end.**  Let there be no closure and no `lambda` in an expression, and let
none of its `let`s bind a macro name.  Let the frames of the host hold no closures and bind no macro
names, and let its functions end and return no closures.  Then an evaluation of the expression ends,
in a value or a fault, and evaluations nest no deeper in it than twice as deep as the expression
itself does, and once more.  The value holds no closures either. -/
theorem first_order_programs_end {s : State} (total : host.TotalFrom s)
    (standard : s.frames[0]? = some Frame.standard) {expr : Value} (first : FirstOrder expr)
    {frames : Value} (free : frames.ClosureFree)
    (plain : ∀ fs, hostFrames frames = .ok fs →
      ∀ f ∈ fs, ∀ name ∈ Entries.keys f, isMacroName name = false) (options : Options) :
    ∃ calls o t,
      (environment frames standardChain >>= fun env => runWithin host calls (2 * expr.height + 1)
        (.eval expr env options)).runFrom s = some (o, t) ∧
      (evaluate host (2 * expr.height + 1 + calls) expr frames options).runFrom s = some (o, t) ∧
      ∀ v, o = .ok v → v.ClosureFree := by
  have calm : Calm s standardChain s := by
    refine ⟨.refl _ _, fun i hi => ?_⟩
    rw [standardChain, List.mem_singleton] at hi
    exact ⟨Frame.standard, hi ▸ standard, .standard⟩
  have settled : Settles (fun env t => Calm s env t)
      (fun _ => environment frames standardChain) s := by
    refine .bind (Q := fun fs t => hostFrames frames = .ok fs ∧ Calm s standardChain t)
      (.lift fun fs hf => ⟨hf, calm⟩) fun fs t h => ?_
    exact chain_settles h.2 (tame_hostFrames free h.1 (plain fs h.1))
  have ran : Settles (fun v _ => v.ClosureFree) (fun n => environment frames standardChain >>=
      fun env => runWithin host n (2 * expr.height + 1) (.eval expr env options)) s :=
    .bind settled fun env t ht =>
      (first.nests.evaluates total first.closures env t ht).imp fun _ _ h => h.1
  obtain ⟨calls, o, t, ends, ho⟩ := ran
  have ended := ends calls (Nat.le_refl calls)
  refine ⟨calls, o, t, ended, ?_, ho⟩
  exact EvalM.Refines.bind (.refl _) (fun env => runWithin_refines host calls _ _) s _ ended

/-- A record with a choice in it and an omission in that, and a call that the host hands on. -/
def profile : Value :=
  .mapping [("$record", .mapping [
    ("user", .mapping [("$if", .text "on"),
      ("then", .mapping [("$omit", .list [.list [.text "key"], .text "user"])])]),
    ("sum", .mapping [("call", .list [.text "plus", .int 1, .int 2])])])]

/-- What `profile` is evaluated with. -/
def settings : Value :=
  .mapping [("on", .bool true), ("user", .mapping [("name", .text "ann"), ("key", .int 7)]),
    ("call", .host "call")]

/-- Nested macros end in a value, and evaluations of them nest at most thirteen deep. -/
theorem first_order_programs_end_profile :
    FirstOrder profile ∧ settings.ClosureFree ∧ ∃ calls t,
      (environment settings standardChain >>= fun env => runWithin hostTools calls 13
        (.eval profile env .lenient)).runFrom .initial =
          some (.ok (.mapping [("user", .mapping [("name", .text "ann")]), ("sum", .int 3)]), t) ∧
      (evaluate hostTools (13 + calls) profile settings .lenient).runFrom .initial =
        some (.ok (.mapping [("user", .mapping [("name", .text "ann")]), ("sum", .int 3)]), t) := by
  have first : FirstOrder profile := ⟨by decide, by decide, by decide⟩
  have free : settings.ClosureFree := rfl
  have plain : ∀ fs, hostFrames settings = .ok fs →
      ∀ f ∈ fs, ∀ name ∈ Entries.keys f, isMacroName name = false := by
    rintro _ ⟨⟩
    decide
  have computed : ∃ u, (evaluate hostTools 12 profile settings .lenient).runFrom .initial =
      some (.ok (.mapping [("user", .mapping [("name", .text "ann")]), ("sum", .int 3)]), u) :=
    ⟨_, rfl⟩
  obtain ⟨calls, o, t, within, ends, _⟩ :=
    first_order_programs_end (hostTools_total .initial) rfl first free plain .lenient
  obtain ⟨u, computed⟩ := computed
  have same := EvalM.Refines.bind (.refl _)
    (fun env => run_refines hostTools (by omega : 12 ≤ 13 + calls) _) .initial _ computed
  cases ends.symm.trans same
  exact ⟨first, free, calls, t, within, ends⟩

end FormLang
