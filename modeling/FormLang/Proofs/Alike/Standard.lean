import FormLang.Proofs.Alike.Values
import FormLang.Standard.Apply

/-!
# Alike — the standard bindings

The standard functions and macros answer alike arguments alike: with the same fault, or with
values that are alike (`Standard.apply_alike`).  They look into values only as far as alike values
are the same, compare closures only for being the same one, and put together what they are given.
-/

namespace FormLang

open Value (Alike)

/-! ### Answers -/

/-- Both end in the same fault, or in related values. -/
inductive AnswersAlike {α β : Type} (R : α → β → Prop) :
    Except Fault α → Except Fault β → Prop where
  | ok {a : α} {b : β} (h : R a b) : AnswersAlike R (.ok a) (.ok b)
  | error (e : Fault) : AnswersAlike R (.error e) (.error e)

namespace AnswersAlike

variable {α β γ δ ι κ : Type} {R : α → β → Prop} {S : γ → δ → Prop}

theorem bind {x : Except Fault α} {y : Except Fault β} {f : α → Except Fault γ}
    {g : β → Except Fault δ} (h : AnswersAlike R x y)
    (hf : ∀ a b, R a b → AnswersAlike S (f a) (g b)) : AnswersAlike S (x >>= f) (y >>= g) := by
  cases h with
  | ok h => exact hf _ _ h
  | error e => exact .error e

/-- Along two lists in step, from related beginnings. -/
theorem foldlM {T : ι → κ → Prop} {is : List ι} {ks : List κ} (h : List.Forall₂ T is ks)
    {f : α → ι → Except Fault α} {g : β → κ → Except Fault β}
    (hf : ∀ a b i k, R a b → T i k → AnswersAlike R (f a i) (g b k)) :
    ∀ {a : α} {b : β}, R a b → AnswersAlike R (is.foldlM f a) (ks.foldlM g b) := by
  induction h with
  | nil => exact fun h => .ok h
  | cons h _ ih => exact fun hab => .bind (hf _ _ _ _ hab h) fun _ _ => ih

theorem imp {S : α → β → Prop} {x : Except Fault α} {y : Except Fault β} (h : AnswersAlike R x y)
    (hS : ∀ a b, R a b → S a b) : AnswersAlike S x y := by
  cases h with
  | ok h => exact .ok (hS _ _ h)
  | error e => exact .error e

/-- What is related is the answer on the left. -/
theorem and_answer {x : Except Fault α} {y : Except Fault β} (h : AnswersAlike R x y) :
    AnswersAlike (fun a b => R a b ∧ x = .ok a) x y := by
  cases h with
  | ok h => exact .ok ⟨h, rfl⟩
  | error e => exact .error e

/-- What follows one and the same answer. -/
theorem bind_same (x : Except Fault α) {f : α → Except Fault γ} {g : α → Except Fault δ}
    (hf : ∀ a, AnswersAlike S (f a) (g a)) : AnswersAlike S (x >>= f) (x >>= g) := by
  cases x with
  | ok a => exact hf a
  | error e => exact .error e

theorem refl (x : Except Fault α) : AnswersAlike (· = ·) x x := by
  cases x with
  | ok a => exact .ok rfl
  | error e => exact .error e

end AnswersAlike

variable {l : Link}

/-! ### Arithmetic -/

theorem Number.toValue_alike (a : Number) : Alike l a.toValue a.toValue := by
  cases a with
  | int n => exact .int n
  | float x => exact .float x

namespace Arithmetic

theorem argument_eq (function : String) {v w : Value} (h : Alike l v w) :
    argument function v = argument function w := by
  rw [argument, argument, h.number?_eq]

/-- Sums depend on the numbers alone, and numbers are alike only to themselves. -/
theorem plus_alike {vs ws : List Value} (h : List.Forall₂ (Alike l) vs ws) :
    AnswersAlike (Alike l) (plus vs) (plus ws) := by
  have sums : AnswersAlike (· = ·)
      (vs.foldlM (fun total v => do total.add (← argument "plus" v)) (Number.int 0))
      (ws.foldlM (fun total v => do total.add (← argument "plus" v)) (Number.int 0)) := by
    refine .foldlM h (fun a b v w hab hvw => ?_) rfl
    subst hab
    rw [argument_eq "plus" hvw]
    exact .refl _
  exact sums.bind fun a b hab => hab ▸ .ok a.toValue_alike

/-- Repeated items are related in each of their copies. -/
theorem repeatItems_forall₂ {α β : Type} {R : α → β → Prop} (count : Nat) {vs : List α}
    {ws : List β} (h : List.Forall₂ R vs ws) :
    List.Forall₂ R (repeatItems count vs) (repeatItems count ws) := by
  have copies : List.Forall₂ R (List.replicate count vs).flatten
      (List.replicate count ws).flatten := by
    induction count with
    | zero => exact .nil
    | succ n ih =>
        rw [List.replicate_succ, List.replicate_succ, List.flatten_cons, List.flatten_cons]
        exact List.rel_append h ih
  unfold repeatItems
  cases h with
  | nil => exact .nil
  | cons => exact copies

/-- A text or a sequence repeated.  Sequences keep their items, which stay alike. -/
theorem repetition_alike (count : Int) {v w : Value} (h : Alike l v w) :
    AnswersAlike (Alike l) (repetition count v) (repetition count w) := by
  unfold repetition
  cases h with
  | text s =>
      simp only [repeated?]
      cases isCount count with
      | true => exact .ok (.text _)
      | false => exact .error _
  | list h =>
      simp only [repeated?]
      cases isCount count with
      | true => exact .ok (.list (repeatItems_forall₂ _ h))
      | false => exact .error _
  | tuple h =>
      simp only [repeated?]
      cases isCount count with
      | true => exact .ok (.tuple (repeatItems_forall₂ _ h))
      | false => exact .error _
  | _ => exact .error _

/-- A product of two values: of numbers, or of a count and what it repeats. -/
theorem times_alike {v v' w w' : Value} (h : Alike l v v') (k : Alike l w w') :
    AnswersAlike (Alike l) (times v w) (times v' w') := by
  unfold times
  rw [← h.number?_eq, ← k.number?_eq, ← h.integer?_eq, ← k.integer?_eq]
  split
  · exact .bind_same _ fun a => .ok a.toValue_alike
  · split
    · exact repetition_alike _ h
    · exact repetition_alike _ k
    · exact .error _

theorem mult_alike {vs ws : List Value} (h : List.Forall₂ (Alike l) vs ws) :
    AnswersAlike (Alike l) (mult vs) (mult ws) :=
  .foldlM h (fun _ _ _ _ => times_alike) (.int 1)

/-- The negative of a number, or the difference of two. -/
theorem minus_alike {vs ws : List Value} (h : List.Forall₂ (Alike l) vs ws) :
    AnswersAlike (Alike l) (minus vs) (minus ws) := by
  rcases h with _ | ⟨h, _ | ⟨k, _ | ⟨_, hs⟩⟩⟩
  · exact .error _
  · rw [minus, minus, argument_eq "minus" h]
    exact .bind_same _ fun a => .ok a.neg.toValue_alike
  · rw [minus, minus, argument_eq "minus" h, argument_eq "minus" k]
    refine .bind_same _ fun a => .bind_same _ fun b => ?_
    exact .bind_same _ fun c => .ok c.toValue_alike
  · simp only [minus, List.length_cons, hs.length_eq]
    exact .error _

theorem div_alike {v v' w w' : Value} (h : Alike l v v') (k : Alike l w w') :
    AnswersAlike (Alike l) (div v w) (div v' w') := by
  rw [div, div, argument_eq "div" h, argument_eq "div" k]
  refine .bind_same _ fun a => .bind_same _ fun b => ?_
  exact .bind_same _ fun x => .ok (.float x)

/-- A remainder of two numbers. -/
theorem mod_alike {v v' w w' : Value} (h : Alike l v v') (k : Alike l w w') :
    AnswersAlike (Alike l) (mod v w) (mod v' w') := by
  unfold mod
  rw [← h.integer?_eq, ← k.integer?_eq, argument_eq "mod" h, argument_eq "mod" k]
  split
  · split
    · exact .error _
    · exact .ok (.int _)
  · refine .bind_same _ fun a => .bind_same _ fun x => ?_
    refine .bind_same _ fun b => .bind_same _ fun y => ?_
    split
    · exact .ok (.float _)
    · exact .error _

end Arithmetic

/-! ### Parts of mappings and lists -/

namespace Projection

/-- Alike values can both be keys, or neither can. -/
theorem isKey_eq {v w : Value} (h : Alike l v w) : isKey v = isKey w := by
  have items : ∀ {vs ws : List Value}, List.Forall₂ (fun v w => ∃ _ : Alike l v w,
      isKey v = isKey w) vs ws → areKeys vs = areKeys ws := by
    intro vs ws h
    induction h with
    | nil => rfl
    | cons h _ ih => rw [areKeys, areKeys, h.2, ih]
  induction h with
  | tuple _ ih => rw [isKey, isKey, items ih]
  | tagged _ ih => rw [isKey, isKey, ih]
  | _ => rfl

/-- What is iterated over: items, names, or the characters of a text. -/
theorem elements_alike {v w : Value} (h : Alike l v w) :
    AnswersAlike (List.Forall₂ (Alike l)) (elements v) (elements w) := by
  cases h with
  | text s =>
      refine .ok (List.forall₂_same.mpr fun v hv => ?_)
      obtain ⟨c, -, rfl⟩ := List.mem_map.mp hv
      exact .text _
  | list h => exact .ok h
  | tuple h => exact .ok h
  | mapping h =>
      refine .ok ?_
      induction h with
      | nil => exact .nil
      | cons _ _ ih => exact .cons (.text _) ih
  | _ => exact .error _

/-- One key picked: a text is the same on both sides and picks alike values, or none. -/
theorem pickOne_alike {es fs : Entries Value} (h : Entries.Forall₂ (Alike l) es fs)
    {picked picked' : Entries Value} (hp : Entries.Forall₂ (Alike l) picked picked')
    {key key' : Value} (k : Alike l key key') :
    AnswersAlike (Entries.Forall₂ (Alike l)) (pickOne es picked key) (pickOne fs picked' key') := by
  unfold pickOne
  rw [← isKey_eq k]
  split
  · cases k with
    | text name =>
        have hr := h.get? name
        dsimp only
        generalize Entries.get? name es = a, Entries.get? name fs = b at hr ⊢
        cases hr with
        | none => exact .ok hp
        | some hv => exact .ok (hp.insert name hv)
    | _ => exact .ok hp
  · exact .error _

/-- Keys picked one after the other into a mapping that grows alike. -/
theorem pick_alike {keys keys' v w : Value} (k : Alike l keys keys') (h : Alike l v w) :
    AnswersAlike (Alike l) (pick keys v) (pick keys' w) := by
  have shown := h.display_eq
  cases h with
  | mapping h =>
      refine .bind (elements_alike k) fun _ _ hk => .bind (.foldlM hk ?_ .nil) fun _ _ h =>
        .ok (.mapping h)
      exact fun _ _ _ _ hp k => pickOne_alike h hp k
  | _ =>
      simp only [pick, shown]
      exact .error _

/-- Alike values name the same names, when they are taken as keys. -/
theorem names?_rel {v w : Value} (h : Alike l v w) :
    Option.Rel (fun p q => ∀ name, p name = q name) (names? v) (names? w) := by
  have items : ∀ {vs ws : List Value}, List.Forall₂ (Alike l) vs ws → ∀ name,
      (vs.any fun v => v.equal (.text name)) = ws.any fun v => v.equal (.text name) := by
    intro vs ws h name
    induction h with
    | nil => rfl
    | cons h _ ih => rw [List.any_cons, List.any_cons, h.equal_eq (.text name), ih]
  cases h with
  | text s => exact .some fun _ => rfl
  | list h => exact .some (items h)
  | tuple h => exact .some (items h)
  | mapping h => exact .some h.has_eq
  | _ => exact .none

/-- A mapping without the names of a list. -/
theorem without_alike {keys keys' v w : Value} (k : Alike l keys keys') (h : Alike l v w) :
    AnswersAlike (Alike l) (without keys v) (without keys' w) := by
  have shown := h.display_eq
  cases h with
  | mapping h =>
      have hn := names?_rel k
      simp only [without, h.isEmpty_eq]
      generalize names? keys = a, names? keys' = b at hn ⊢
      cases hn with
      | none =>
          dsimp only
          split
          · exact .ok (.mapping .nil)
          · exact .error _
      | some hn => exact .ok (.mapping (h.filter fun name => congrArg not (hn name)))
  | _ =>
      simp only [without, shown]
      exact .error _

/-- The item at an index, counted from either end. -/
theorem item?_rel {vs ws : List Value} (h : List.Forall₂ (Alike l) vs ws) (i : Int) :
    Option.Rel (Alike l) (item? vs i) (item? ws i) := by
  have at? : ∀ {vs ws : List Value}, List.Forall₂ (Alike l) vs ws → ∀ n : Nat,
      Option.Rel (Alike l) vs[n]? ws[n]? := by
    intro vs ws h
    induction h with
    | nil => exact fun _ => .none
    | cons h _ ih =>
        intro n
        cases n with
        | zero => exact .some h
        | succ n => simpa using ih n
  simp only [item?, h.length_eq]
  split
  · exact at? h _
  · split
    · exact at? h _
    · exact .none

theorem getD_alike {a b : Option Value} (h : Option.Rel (Alike l) a b) :
    Alike l (a.getD .undefined) (b.getD .undefined) := by
  cases h with
  | none => exact .undefined
  | some h => exact h

/-- One key followed into a value: a name into a mapping, or an index into a list. -/
theorem getOne_alike {v w key key' : Value} (h : Alike l v w) (k : Alike l key key') :
    AnswersAlike (Alike l) (getOne v key) (getOne w key') := by
  cases h with
  | mapping h =>
      simp only [getOne, ← isKey_eq k]
      split
      · cases k with
        | text name => exact .ok (getD_alike (h.get? name))
        | _ => exact .ok .undefined
      · exact .error _
  | list h =>
      cases k with
      | int i => exact .ok (getD_alike (item?_rel h i))
      | _ => exact .ok .undefined
  | _ => exact .ok .undefined

theorem get_alike {v w : Value} (h : Alike l v w) {keys keys' : List Value}
    (k : List.Forall₂ (Alike l) keys keys') :
    AnswersAlike (Alike l) (get v keys) (get w keys') :=
  .foldlM k (fun _ _ _ _ => getOne_alike) h

end Projection

/-! ### Macros -/

namespace Expansion

theorem quotation_alike {v w : Value} (h : Alike l v w) : Alike l (quotation v) (quotation w) :=
  .mapping (.cons h .nil)

/-- A dotted path expands to alike expressions, because it is the same text on both sides. -/
theorem getPath_alike {v w : Value} (h : Alike l v w) :
    AnswersAlike (Alike l) (getPath v) (getPath w) := by
  have shown := h.display_eq
  cases h with
  | text s =>
      have keys : ∀ ks : List String, List.Forall₂ (Alike l)
          (ks.map fun key => quotation (.text key)) (ks.map fun key => quotation (.text key)) :=
        fun ks => List.forall₂_same.mpr fun v hv => by
          obtain ⟨k, -, rfl⟩ := List.mem_map.mp hv
          exact quotation_alike (.text k)
      simp only [getPath]
      split
      · exact .ok (.mapping (.cons (.list (.cons (.text _) (keys _))) .nil))
      · exact .ok (.mapping (.cons (.list .nil) .nil))
  | _ =>
      simp only [getPath, shown]
      exact .error _

/-- A conditional expands to alike forms. -/
theorem ifElse_alike {form form' v w : Value} (hf : Alike l form form') (h : Alike l v w) :
    AnswersAlike (Alike l) (ifElse form v) (ifElse form' w) := by
  cases hf with
  | mapping hf =>
      have branch := fun name => Projection.getD_alike (hf.get? name)
      exact .ok (.mapping (.cons (.list (.cons
        (.mapping (.cons h (.cons (branch "then") .nil)))
        (.cons (.mapping (.cons (branch "else") .nil)) .nil))) .nil))
  | _ => exact .error _

theorem omitKeys_alike {keys keys' v w : Value} (k : Alike l keys keys') (h : Alike l v w) :
    Alike l (omitKeys keys v) (omitKeys keys' w) :=
  .mapping (.cons (.text _) (.cons (.list (.cons (quotation_alike k) (.cons h .nil))) .nil))

/-- A record expands to alike forms: the names are the same, and the expressions are alike. -/
theorem record_alike {v w : Value} (h : Alike l v w) :
    AnswersAlike (Alike l) (record v) (record w) := by
  have shown := h.display_eq
  cases h with
  | mapping h =>
      refine .ok (.mapping (.cons (.mapping (h.mapValues ?_)) .nil))
      exact fun _ _ _ h => .mapping (.cons h .nil)
  | _ =>
      simp only [record, shown]
      exact .error _

end Expansion

/-! ### All of them -/

namespace Standard

/-- Alike values compare the same, or cannot be compared with the same message. -/
theorem comparison_alike (name : String) (c : Comparison) {v v' w w' : Value}
    (h : Alike l v v') (k : Alike l w w') :
    AnswersAlike (Alike l) (comparison name c v w) (comparison name c v' w') := by
  simp only [comparison, h.compare?_eq c k, h.display_eq, k.display_eq]
  cases Value.compare? c v' w' with
  | some b => exact .ok (.bool b)
  | none => exact .error _

theorem eq_alike {v v' w w' : Value} (h : Alike l v v') (k : Alike l w w') :
    AnswersAlike (Alike l) (apply .eq [v, w]) (apply .eq [v', w']) := by
  rw [apply, apply, h.equal_eq k]
  exact .ok (.bool _)

/-- A function that takes two arguments, and fails when it gets fewer or more. -/
theorem apply_alike_of_two {s : Standard} (none : s.apply [] = .error .argumentCount)
    (one : ∀ v, s.apply [v] = .error .argumentCount)
    (more : ∀ v w x xs, s.apply (v :: w :: x :: xs) = .error .argumentCount)
    (two : ∀ {v v' w w'}, Alike l v v' → Alike l w w' →
      AnswersAlike (Alike l) (s.apply [v, w]) (s.apply [v', w'])) {vs ws : List Value}
    (h : List.Forall₂ (Alike l) vs ws) : AnswersAlike (Alike l) (s.apply vs) (s.apply ws) := by
  rcases h with _ | ⟨h, _ | ⟨k, _ | ⟨_, _⟩⟩⟩
  · rw [none]; exact .error _
  · rw [one, one]; exact .error _
  · exact two h k
  · rw [more, more]; exact .error _

theorem all_truthy_eq {vs ws : List Value} (h : List.Forall₂ (Alike l) vs ws) :
    vs.all Value.truthy = ws.all Value.truthy := by
  induction h with
  | nil => rfl
  | cons h _ ih => rw [List.all_cons, List.all_cons, h.truthy_eq, ih]

theorem any_truthy_eq {vs ws : List Value} (h : List.Forall₂ (Alike l) vs ws) :
    vs.any Value.truthy = ws.any Value.truthy := by
  induction h with
  | nil => rfl
  | cons h _ ih => rw [List.any_cons, List.any_cons, h.truthy_eq, ih]

/-- **Alike arguments are answered alike.** -/
theorem apply_alike (s : Standard) {vs ws : List Value} (h : List.Forall₂ (Alike l) vs ws) :
    AnswersAlike (Alike l) (s.apply vs) (s.apply ws) := by
  cases s with
  | plus => exact Arithmetic.plus_alike h
  | mult => exact Arithmetic.mult_alike h
  | minus => exact Arithmetic.minus_alike h
  | conj => simp only [apply, all_truthy_eq h]; exact .ok (.bool _)
  | disj => simp only [apply, any_truthy_eq h]; exact .ok (.bool _)
  | get =>
      cases h with
      | nil => exact .error _
      | cons h hs => exact Projection.get_alike h hs
  | div => exact apply_alike_of_two rfl (fun _ => rfl) (fun _ _ _ _ => rfl) Arithmetic.div_alike h
  | mod => exact apply_alike_of_two rfl (fun _ => rfl) (fun _ _ _ _ => rfl) Arithmetic.mod_alike h
  | eq => exact apply_alike_of_two rfl (fun _ => rfl) (fun _ _ _ _ => rfl) eq_alike h
  | gt | gte | lt | lte =>
      exact apply_alike_of_two rfl (fun _ => rfl) (fun _ _ _ _ => rfl) (comparison_alike _ _) h
  | pick =>
      exact apply_alike_of_two rfl (fun _ => rfl) (fun _ _ _ _ => rfl) Projection.pick_alike h
  | «omit» =>
      exact apply_alike_of_two rfl (fun _ => rfl) (fun _ _ _ _ => rfl) Projection.without_alike h
  | getPath =>
      rcases h with _ | ⟨_, _ | ⟨h, _ | ⟨_, _⟩⟩⟩
      · exact .error _
      · exact Expansion.getPath_alike .undefined
      · exact Expansion.getPath_alike h
      · exact .error _
  | ifElse =>
      rcases h with _ | ⟨hf, _ | ⟨h, _ | ⟨_, _⟩⟩⟩
      · exact .error _
      · exact Expansion.ifElse_alike hf .undefined
      · exact Expansion.ifElse_alike hf h
      · exact .error _
  | omitKeys =>
      rcases h with _ | ⟨_, _ | ⟨k, _ | ⟨h, _ | ⟨_, _⟩⟩⟩⟩
      · exact .error _
      · exact .error _
      · exact .error _
      · exact .ok (Expansion.omitKeys_alike k h)
      · exact .error _
  | record =>
      rcases h with _ | ⟨_, _ | ⟨h, _ | ⟨_, _⟩⟩⟩
      · exact .error _
      · exact Expansion.record_alike .undefined
      · exact Expansion.record_alike h
      · simp only [apply, h.display_eq]; exact .error _

end Standard

end FormLang
