import FormLang.Event
import FormLang.Value.Order
import Mathlib.Data.List.Forall2

/-!
# Alike — values of two runs

Two runs of one program need not number their frames and closures alike.  `v.Alike l w` says that
the values `v` of the one and `w` of the other are the same up to their closures: the same data in
the same places, and where there is a closure, closures that the link `l` relates, with the same
parameters and bodies that are alike.

A link relates numbers of closures one to one, environments, and switches, and may ask more of
closures as a whole; it also says which functions of the host correspond to themselves.  A larger
link relates more (`Value.Alike.mono`).

What a program can see of a value is the same of alike values: its text (`Value.Alike.spell_eq`),
its truth, its kind, equality (`Value.Alike.equal_eq`) and order (`Value.Alike.compare?_eq`).
-/

namespace FormLang

/-! ### Related entries -/

namespace Entries

variable {α β γ δ : Type} {R : α → β → Prop}

/-- The entries have the same names in the same order, and related values. -/
inductive Forall₂ (R : α → β → Prop) : Entries α → Entries β → Prop where
  | nil : Forall₂ R [] []
  | cons {name : String} {v : α} {w : β} {es : Entries α} {fs : Entries β} (h : R v w)
      (hs : Forall₂ R es fs) : Forall₂ R ((name, v) :: es) ((name, w) :: fs)

namespace Forall₂

theorem imp {S : α → β → Prop} (H : ∀ v w, R v w → S v w) {es : Entries α} {fs : Entries β}
    (h : Forall₂ R es fs) : Forall₂ S es fs := by
  induction h with
  | nil => exact .nil
  | cons h _ ih => exact .cons (H _ _ h) ih

theorem same {R : α → α → Prop} {es : Entries α} (h : ∀ e ∈ es, R e.2 e.2) : Forall₂ R es es := by
  induction es with
  | nil => exact .nil
  | cons e es ih =>
      rw [List.forall_mem_cons] at h
      exact .cons h.1 (ih h.2)

theorem keys_eq {es : Entries α} {fs : Entries β} (h : Forall₂ R es fs) : keys es = keys fs := by
  induction h with
  | nil => rfl
  | cons _ _ ih => rw [keys_cons, keys_cons, ih]

theorem length_eq {es : Entries α} {fs : Entries β} (h : Forall₂ R es fs) :
    es.length = fs.length := by
  have hk := congrArg List.length h.keys_eq
  simpa [keys] using hk

/-- Under one name related mappings have related values, or none. -/
theorem get? {es : Entries α} {fs : Entries β} (h : Forall₂ R es fs) (name : String) :
    Option.Rel R (Entries.get? name es) (Entries.get? name fs) := by
  induction h with
  | nil => exact .none
  | @cons n v w es fs h _ ih =>
      rw [get?_cons, get?_cons]
      by_cases hn : n = name
      · rw [if_pos hn, if_pos hn]; exact .some h
      · rw [if_neg hn, if_neg hn]; exact ih

/-- What is found on the left is an entry there. -/
theorem get?_mem {es : Entries α} {fs : Entries β} (h : Forall₂ R es fs) (name : String) :
    Option.Rel (fun v w => R v w ∧ (name, v) ∈ es) (Entries.get? name es)
      (Entries.get? name fs) := by
  have hr := h.get? name
  cases hv : Entries.get? name es with
  | none =>
      rw [hv] at hr
      generalize Entries.get? name fs = b at hr ⊢
      cases hr
      exact .none
  | some v =>
      rw [hv] at hr
      generalize Entries.get? name fs = b at hr ⊢
      cases hr with
      | some h => exact .some ⟨h, mem_of_get? hv⟩

theorem has_eq {es : Entries α} {fs : Entries β} (h : Forall₂ R es fs) (name : String) :
    has name es = has name fs := by
  have hr := h.get? name
  unfold has
  generalize Entries.get? name es = a, Entries.get? name fs = b at hr ⊢
  cases hr <;> rfl

/-- Related values, written under one name. -/
theorem insert {es : Entries α} {fs : Entries β} (h : Forall₂ R es fs) (name : String) {v : α}
    {w : β} (hv : R v w) : Forall₂ R (Entries.insert name v es) (Entries.insert name w fs) := by
  induction h with
  | nil => exact .cons hv .nil
  | @cons n v' w' es fs h hs ih =>
      simp only [Entries.insert]
      by_cases hn : n = name
      · rw [if_pos hn, if_pos hn]; exact .cons hv hs
      · rw [if_neg hn, if_neg hn]; exact .cons h ih

/-- What is done to related values under a name is related. -/
theorem mapValues {S : γ → δ → Prop} {f : String → α → γ} {g : String → β → δ}
    {es : Entries α} {fs : Entries β} (h : Forall₂ R es fs)
    (H : ∀ name v w, R v w → S (f name v) (g name w)) :
    Forall₂ S (Entries.mapValues f es) (Entries.mapValues g fs) := by
  induction h with
  | nil => exact .nil
  | cons h _ ih => exact .cons (H _ _ _ h) ih

theorem mapValues_same {S : γ → δ → Prop} {f : String → α → γ} {g : String → α → δ}
    {es : Entries α} (h : ∀ e ∈ es, S (f e.1 e.2) (g e.1 e.2)) :
    Forall₂ S (Entries.mapValues f es) (Entries.mapValues g es) := by
  induction es with
  | nil => exact .nil
  | cons e es ih =>
      rw [List.forall_mem_cons] at h
      exact .cons h.1 (ih h.2)

/-- The entries whose names pass the same test. -/
theorem filter {es : Entries α} {fs : Entries β} (h : Forall₂ R es fs) {p q : String → Bool}
    (hpq : ∀ name, p name = q name) :
    Forall₂ R (es.filter fun e => p e.1) (fs.filter fun e => q e.1) := by
  induction h with
  | nil => exact .nil
  | @cons n v w es fs h _ ih =>
      simp only [List.filter_cons, ← hpq n]
      cases p n with
      | true => exact .cons h ih
      | false => exact ih

theorem isEmpty_eq {es : Entries α} {fs : Entries β} (h : Forall₂ R es fs) :
    es.isEmpty = fs.isEmpty := by
  cases h <;> rfl

end Forall₂

end Entries

/-! ### Links -/

/-- What corresponds to what in two runs. -/
structure Link where
  /-- Numbers of closures. -/
  closures : Nat → Nat → Prop
  /-- Environments. -/
  chains : Chain → Chain → Prop
  /-- Switches. -/
  options : Options → Options → Prop
  /-- Functions of the host that correspond to themselves. -/
  hosts : String → Prop
  /-- What is asked of two closures beside that their parts correspond. -/
  admits : Value → Value → Prop := fun _ _ => True
  /-- A closure has one counterpart at most. -/
  closures_iff : ∀ {i j i' j'}, closures i i' → closures j j' → (i = j ↔ i' = j')

namespace Link

/-- `l'` relates all that `l` relates. -/
structure Le (l l' : Link) : Prop where
  closures : ∀ {i i'}, l.closures i i' → l'.closures i i'
  chains : ∀ {c c'}, l.chains c c' → l'.chains c c'
  options : ∀ {o o'}, l.options o o' → l'.options o o'
  hosts : ∀ {name}, l.hosts name → l'.hosts name
  admits : ∀ {i i' params body body' env env' options options'}, l.closures i i' →
    l.chains env env' → l.options options options' →
    l.admits (.closure i params body env options) (.closure i' params body' env' options') →
    l'.admits (.closure i params body env options) (.closure i' params body' env' options')

theorem Le.refl (l : Link) : Le l l :=
  ⟨id, id, id, id, fun _ _ _ => id⟩

theorem Le.trans {l l' l'' : Link} (h : Le l l') (h' : Le l' l'') : Le l l'' :=
  ⟨fun k => h'.closures (h.closures k), fun k => h'.chains (h.chains k),
    fun k => h'.options (h.options k), fun k => h'.hosts (h.hosts k),
    fun hi he ho k => h'.admits (h.closures hi) (h.chains he) (h.options ho) (h.admits hi he ho k)⟩

end Link

/-! ### Alike values -/

namespace Value

/-- The values are the same up to closures that `l` relates. -/
inductive Alike (l : Link) : Value → Value → Prop where
  | null : Alike l .null .null
  | bool (b : Bool) : Alike l (.bool b) (.bool b)
  | int (n : Int) : Alike l (.int n) (.int n)
  | float (x : Float) : Alike l (.float x) (.float x)
  | text (s : String) : Alike l (.text s) (.text s)
  | list {vs ws : List Value} (h : List.Forall₂ (Alike l) vs ws) : Alike l (.list vs) (.list ws)
  | tuple {vs ws : List Value} (h : List.Forall₂ (Alike l) vs ws) : Alike l (.tuple vs) (.tuple ws)
  | mapping {es fs : Entries Value} (h : Entries.Forall₂ (Alike l) es fs) :
      Alike l (.mapping es) (.mapping fs)
  | undefined : Alike l .undefined .undefined
  | closure {i i' : Nat} {params : List String} {body body' : Value} {env env' : Chain}
      {options options' : Options} (hi : l.closures i i') (hb : Alike l body body')
      (he : l.chains env env') (ho : l.options options options')
      (ha : l.admits (.closure i params body env options)
        (.closure i' params body' env' options')) :
      Alike l (.closure i params body env options) (.closure i' params body' env' options')
  | standard (s : Standard) : Alike l (.standard s) (.standard s)
  | host {name : String} (h : l.hosts name) : Alike l (.host name) (.host name)
  | tagged {tag : Tag} {fn fn' : Value} (h : Alike l fn fn') :
      Alike l (.tagged tag fn) (.tagged tag fn')

namespace Alike

variable {l : Link}

/-- Induction on alike values; what holds of the parts of lists and mappings is given beside the
parts' being alike. -/
@[induction_eliminator]
theorem induct {motive : (v w : Value) → Alike l v w → Prop}
    (null : motive .null .null .null) (bool : ∀ b, motive (.bool b) (.bool b) (.bool b))
    (int : ∀ n, motive (.int n) (.int n) (.int n))
    (float : ∀ x, motive (.float x) (.float x) (.float x))
    (text : ∀ s, motive (.text s) (.text s) (.text s))
    (list : ∀ {vs ws} (h : List.Forall₂ (Alike l) vs ws),
      List.Forall₂ (fun v w => ∃ k, motive v w k) vs ws → motive (.list vs) (.list ws) (.list h))
    (tuple : ∀ {vs ws} (h : List.Forall₂ (Alike l) vs ws),
      List.Forall₂ (fun v w => ∃ k, motive v w k) vs ws → motive (.tuple vs) (.tuple ws) (.tuple h))
    (mapping : ∀ {es fs} (h : Entries.Forall₂ (Alike l) es fs),
      Entries.Forall₂ (fun v w => ∃ k, motive v w k) es fs →
        motive (.mapping es) (.mapping fs) (.mapping h))
    (undefined : motive .undefined .undefined .undefined)
    (closure : ∀ {i i' params body body' env env' options options'} (hi : l.closures i i')
      (hb : Alike l body body') (he : l.chains env env') (ho : l.options options options')
      (ha : l.admits (.closure i params body env options)
        (.closure i' params body' env' options')),
      motive body body' hb → motive (.closure i params body env options)
        (.closure i' params body' env' options') (.closure hi hb he ho ha))
    (standard : ∀ s, motive (.standard s) (.standard s) (.standard s))
    (host : ∀ {name} (h : l.hosts name), motive (.host name) (.host name) (.host h))
    (tagged : ∀ {tag fn fn'} (h : Alike l fn fn'), motive fn fn' h →
      motive (.tagged tag fn) (.tagged tag fn') (.tagged h))
    {v w : Value} (h : Alike l v w) : motive v w h :=
  @Alike.rec l motive (fun vs ws _ => List.Forall₂ (fun v w => ∃ k, motive v w k) vs ws)
    (fun es fs _ => Entries.Forall₂ (fun v w => ∃ k, motive v w k) es fs)
    null bool int float text list tuple mapping undefined closure standard host tagged
    .nil (fun h _ ih ihs => .cons ⟨h, ih⟩ ihs) .nil (fun h _ ih ihs => .cons ⟨h, ih⟩ ihs) _ _ h

mutual
/-- Under a link that relates everything to itself, so is every value. -/
theorem refl (hi : ∀ i, l.closures i i) (he : ∀ c, l.chains c c) (ho : ∀ o, l.options o o)
    (hh : ∀ name, l.hosts name) (ha : ∀ v, l.admits v v) : (v : Value) → Alike l v v
  | .null => .null
  | .bool b => .bool b
  | .int n => .int n
  | .float x => .float x
  | .text s => .text s
  | .list items => .list (refl_items hi he ho hh ha items)
  | .tuple items => .tuple (refl_items hi he ho hh ha items)
  | .mapping entries => .mapping (refl_entries hi he ho hh ha entries)
  | .undefined => .undefined
  | .closure i _ body env options =>
    .closure (hi i) (refl hi he ho hh ha body) (he env) (ho options) (ha _)
  | .standard s => .standard s
  | .host name => .host (hh name)
  | .tagged _ fn => .tagged (refl hi he ho hh ha fn)

theorem refl_items (hi : ∀ i, l.closures i i) (he : ∀ c, l.chains c c) (ho : ∀ o, l.options o o)
    (hh : ∀ name, l.hosts name) (ha : ∀ v, l.admits v v) :
    (vs : List Value) → List.Forall₂ (Alike l) vs vs
  | [] => .nil
  | v :: vs => .cons (refl hi he ho hh ha v) (refl_items hi he ho hh ha vs)

theorem refl_entries (hi : ∀ i, l.closures i i) (he : ∀ c, l.chains c c) (ho : ∀ o, l.options o o)
    (hh : ∀ name, l.hosts name) (ha : ∀ v, l.admits v v) :
    (es : List (String × Value)) → Entries.Forall₂ (Alike l) es es
  | [] => .nil
  | (_, v) :: es => .cons (refl hi he ho hh ha v) (refl_entries hi he ho hh ha es)
end

/-- A larger link relates more. -/
theorem mono {l' : Link} (hl : l.Le l') {v w : Value} (h : Alike l v w) : Alike l' v w := by
  induction h with
  | null => exact .null
  | bool b => exact .bool b
  | int n => exact .int n
  | float x => exact .float x
  | text s => exact .text s
  | list _ ih => exact .list (ih.imp fun _ _ k => k.2)
  | tuple _ ih => exact .tuple (ih.imp fun _ _ k => k.2)
  | mapping _ ih => exact .mapping (ih.imp fun _ _ k => k.2)
  | undefined => exact .undefined
  | closure hi _ he ho ha ih =>
      exact .closure (hl.closures hi) ih (hl.chains he) (hl.options ho) (hl.admits hi he ho ha)
  | standard s => exact .standard s
  | host h => exact .host (hl.hosts h)
  | tagged _ ih => exact .tagged ih

theorem option_mono {l' : Link} (hl : l.Le l') {a b : Option Value}
    (h : Option.Rel (Alike l) a b) : Option.Rel (Alike l') a b := by
  cases h with
  | none => exact .none
  | some h => exact .some (h.mono hl)

/-! ### What a program sees of a value -/

theorem isCallable_eq {v w : Value} (h : Alike l v w) : v.isCallable = w.isCallable := by
  cases h <;> rfl

theorem isClosure_eq {v w : Value} (h : Alike l v w) : v.isClosure = w.isClosure := by
  cases h <;> rfl

theorem isMacro_eq {v w : Value} (h : Alike l v w) : v.isMacro = w.isMacro := by
  cases h with
  | @tagged tag => cases tag <;> rfl
  | _ => rfl

theorem kindName_eq {v w : Value} (h : Alike l v w) : v.kindName = w.kindName := by
  cases h with
  | @tagged tag => cases tag <;> rfl
  | _ => rfl

theorem number?_eq {v w : Value} (h : Alike l v w) : v.number? = w.number? := by
  cases h <;> rfl

theorem integer?_eq {v w : Value} (h : Alike l v w) : v.integer? = w.integer? := by
  cases h <;> rfl

theorem truthy_eq {v w : Value} (h : Alike l v w) : v.truthy = w.truthy := by
  cases h with
  | list h => cases h <;> rfl
  | tuple h => cases h <;> rfl
  | mapping h => cases h <;> rfl
  | _ => rfl

/-- Alike values stand for alike operands. -/
theorem operands {v w : Value} (h : Alike l v w) :
    List.Forall₂ (Alike l) v.operands w.operands := by
  have whole := h
  cases h with
  | list h => exact h
  | tuple h => exact h
  | _ => exact .cons whole .nil

/-- Alike values read the same. -/
theorem spell_eq {v w : Value} (h : Alike l v w) : ∀ sp, spell sp v = spell sp w := by
  have items : ∀ {vs ws : List Value}, List.Forall₂ (fun v w => ∃ _ : Alike l v w,
      ∀ sp, spell sp v = spell sp w) vs ws → ∀ sp, spellItems sp vs = spellItems sp ws := by
    intro vs ws h sp
    induction h with
    | nil => rfl
    | cons h _ ih => rw [spellItems, spellItems, h.2 sp, ih]
  induction h with
  | list _ ih => intro sp; rw [spell, spell, items ih sp]
  | tuple _ ih => intro sp; rw [spell, spell, items ih sp]
  | mapping _ ih =>
      intro sp
      have entries : ∀ {es fs : Entries Value}, Entries.Forall₂ (fun v w => ∃ _ : Alike l v w,
          ∀ sp, spell sp v = spell sp w) es fs → spellEntries sp es = spellEntries sp fs := by
        intro es fs h
        induction h with
        | nil => rfl
        | cons h _ ih => rw [spellEntries, spellEntries, h.2 sp, ih]
      rw [spell, spell, entries ih]
  | closure _ _ _ _ _ ih => intro sp; rw [spell, spell, ih .json]
  | tagged h ih =>
      intro sp
      cases h with
      | standard s => rfl
      | host h => rfl
      | _ => exact congrArg (fun shown => sp.foreign (taggedText _ shown)) (ih .display)
  | _ => intro sp; rfl

theorem display_eq {v w : Value} (h : Alike l v w) : v.display = w.display :=
  h.spell_eq .display

/-- Equality does not tell alike values apart: closures that correspond are equal to
corresponding closures. -/
theorem equal_eq {v v' w w' : Value} (h : Alike l v v') (k : Alike l w w') :
    v.equal w = v'.equal w' := by
  have items : ∀ {vs vs' : List Value}, List.Forall₂ (fun v v' => ∃ _ : Alike l v v',
      ∀ w w', Alike l w w' → v.equal w = v'.equal w') vs vs' → ∀ {ws ws' : List Value},
      List.Forall₂ (Alike l) ws ws' → equalItems vs ws = equalItems vs' ws' := by
    intro vs vs' h
    induction h with
    | nil => intro ws ws' k; cases k <;> rfl
    | cons h _ ih =>
        intro ws ws' k
        cases k with
        | nil => rfl
        | cons k ks => rw [equalItems, equalItems, h.2 _ _ k, ih ks]
  have entries : ∀ {es es' : Entries Value}, Entries.Forall₂ (fun v v' => ∃ _ : Alike l v v',
      ∀ w w', Alike l w w' → v.equal w = v'.equal w') es es' → ∀ {fs fs' : Entries Value},
      Entries.Forall₂ (Alike l) fs fs' → equalEntries es fs = equalEntries es' fs' := by
    intro es es' h fs fs' k
    induction h with
    | nil => rfl
    | @cons name v v' _ _ h _ ih =>
        rw [equalEntries, equalEntries, ih]
        have hr := k.get? name
        generalize Entries.get? name fs = a, Entries.get? name fs' = b at hr ⊢
        cases hr with
        | none => rfl
        | some hr => simp only [h.2 _ _ hr]
  induction h generalizing w w' with
  | list h ih =>
      cases k with
      | list k => exact items (ih.imp fun _ _ p => ⟨p.1, fun _ _ => p.2⟩) k
      | _ => rfl
  | tuple h ih =>
      cases k with
      | tuple k => exact items (ih.imp fun _ _ p => ⟨p.1, fun _ _ => p.2⟩) k
      | _ => rfl
  | mapping h ih =>
      cases k with
      | mapping k =>
          rw [equal, equal, h.length_eq, k.length_eq,
            entries (ih.imp fun _ _ p => ⟨p.1, fun _ _ => p.2⟩) k]
      | _ => rfl
  | closure hi _ _ _ _ _ =>
      cases k with
      | closure hj => simp [equal, l.closures_iff hi hj]
      | _ => rfl
  | tagged _ ih =>
      cases k with
      | tagged k => rw [equal, equal, ih k]
      | _ => rfl
  | _ => cases k <;> rfl

/-- Alike values are ordered the same.  Only numbers, texts and sequences are ordered at all, and
items decide in turn; so by induction on the items. -/
theorem compare?_eq (c : Comparison) {v v' w w' : Value} (h : Alike l v v') (k : Alike l w w') :
    compare? c v w = compare? c v' w' := by
  have items : ∀ {vs vs' : List Value}, List.Forall₂ (fun v v' => ∃ _ : Alike l v v',
      ∀ w w', Alike l w w' → compare? c v w = compare? c v' w') vs vs' → ∀ {ws ws' : List Value},
      List.Forall₂ (Alike l) ws ws' → compareItems? c vs ws = compareItems? c vs' ws' := by
    intro vs vs' h
    induction h with
    | nil => intro ws ws' k; cases k <;> rfl
    | cons h _ ih =>
        intro ws ws' k
        cases k with
        | nil => rfl
        | cons k ks => rw [compareItems?, compareItems?, h.1.equal_eq k, h.2 _ _ k, ih ks]
  induction h generalizing w w' with
  | list _ ih =>
      cases k with
      | list k => exact items (ih.imp fun _ _ p => ⟨p.1, fun _ _ => p.2⟩) k
      | _ => rfl
  | tuple _ ih =>
      cases k with
      | tuple k => exact items (ih.imp fun _ _ p => ⟨p.1, fun _ _ => p.2⟩) k
      | _ => rfl
  | _ => cases k <;> rfl

end Alike

end Value

end FormLang
