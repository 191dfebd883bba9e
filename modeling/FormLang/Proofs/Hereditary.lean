import FormLang.Standard.Apply

/-!
# Values — hereditary properties

A property of values is hereditary when plain data have it, and a list, a tuple or a mapping has it
just when all its parts do.  What it asks of closures and of tagged callables is left open.

**The standard bindings keep every hereditary property** (`Standard.apply_hereditary`): they call
nothing and tag nothing, so an answer is put together from plain data and from parts of the
arguments.
-/

namespace FormLang

/-- Plain data have the property, and what is put together from values has it just when they do. -/
structure Value.Hereditary (P : Value → Prop) : Prop where
  null : P .null
  bool (b : Bool) : P (.bool b)
  int (n : Int) : P (.int n)
  float (x : Float) : P (.float x)
  text (s : String) : P (.text s)
  undefined : P .undefined
  list {items : List Value} : P (.list items) ↔ ∀ v ∈ items, P v
  tuple {items : List Value} : P (.tuple items) ↔ ∀ v ∈ items, P v
  mapping {entries : Entries Value} : P (.mapping entries) ↔ ∀ e ∈ entries, P e.2

/-! ### Answers -/

/-- Where there is an answer, it has the property. -/
def AnswerHas {α : Type} (Q : α → Prop) (x : Except Fault α) : Prop :=
  ∀ a, x = .ok a → Q a

namespace AnswerHas

variable {α β : Type} {Q : α → Prop} {R : β → Prop}

theorem ok {a : α} (h : Q a) : AnswerHas Q (.ok a) := by
  rintro _ ⟨⟩
  exact h

theorem error (e : Fault) : AnswerHas Q (.error e) :=
  nofun

theorem bind {x : Except Fault α} {f : α → Except Fault β} (hx : AnswerHas Q x)
    (hf : ∀ a, Q a → AnswerHas R (f a)) : AnswerHas R (x >>= f) := by
  cases x with
  | ok a => exact hf a (hx a rfl)
  | error e => exact error e

/-- What follows may be any answer. -/
theorem bind_any (x : Except Fault α) {f : α → Except Fault β} (hf : ∀ a, AnswerHas R (f a)) :
    AnswerHas R (x >>= f) :=
  bind (Q := fun _ => True) (fun _ _ => trivial) fun a _ => hf a

/-- Along a list, with the property of what is carried. -/
theorem foldlM {is : List β} {f : α → β → Except Fault α}
    (hf : ∀ a, ∀ i ∈ is, Q a → AnswerHas Q (f a i)) {a : α} (h : Q a) :
    AnswerHas Q (is.foldlM f a) := by
  induction is generalizing a with
  | nil => exact ok h
  | cons i is ih =>
      exact bind (hf a i List.mem_cons_self h) fun _ =>
        ih fun a' i' hi' => hf a' i' (List.mem_cons_of_mem _ hi')

theorem mapM {as : List α} {f : α → Except Fault β} (hf : ∀ a ∈ as, AnswerHas R (f a)) :
    AnswerHas (fun bs => ∀ b ∈ bs, R b) (as.mapM f) := by
  induction as with
  | nil => exact ok (List.forall_mem_nil _)
  | cons a as ih =>
      rw [List.forall_mem_cons] at hf
      rw [List.mapM_cons]
      exact bind hf.1 fun b hb => bind (ih hf.2) fun bs hbs => ok (List.forall_mem_cons.2 ⟨hb, hbs⟩)

end AnswerHas

namespace Value.Hereditary

variable {P : Value → Prop} (hP : Hereditary P)
include hP

/-- What stands under a name, or the absent value. -/
theorem getD_get? {entries : Entries Value} (h : ∀ e ∈ entries, P e.2) (name : String) :
    P ((Entries.get? name entries).getD .undefined) := by
  cases hg : Entries.get? name entries with
  | none => exact hP.undefined
  | some v => exact h _ (Entries.mem_of_get? hg)

theorem operands {v : Value} (h : P v) : ∀ e ∈ v.operands, P e := by
  cases v with
  | list items => exact hP.list.1 h
  | tuple items => exact hP.tuple.1 h
  | _ => simpa [Value.operands] using h

/-! ### Arithmetic -/

theorem number (a : Number) : P a.toValue := by
  cases a with
  | int n => exact hP.int n
  | float x => exact hP.float x

/-- A text or a sequence repeated: its items are those that it had. -/
theorem repetition (count : Int) {v : Value} (h : P v) :
    AnswerHas P (Arithmetic.repetition count v) := by
  have copies : ∀ {items : List Value}, (∀ v ∈ items, P v) →
      ∀ v ∈ Arithmetic.repeatItems count.toNat items, P v := by
    intro items hi v hv
    unfold Arithmetic.repeatItems at hv
    split at hv
    · exact absurd hv List.not_mem_nil
    · obtain ⟨l, hl, hv⟩ := List.mem_flatten.1 hv
      exact hi v (List.eq_of_mem_replicate hl ▸ hv)
  unfold Arithmetic.repetition
  cases v with
  | text s =>
      simp only [Arithmetic.repeated?]
      split
      · exact .ok (hP.text _)
      · exact .error _
  | list items =>
      simp only [Arithmetic.repeated?]
      split
      · exact .ok (hP.list.2 (copies (hP.list.1 h)))
      · exact .error _
  | tuple items =>
      simp only [Arithmetic.repeated?]
      split
      · exact .ok (hP.tuple.2 (copies (hP.tuple.1 h)))
      · exact .error _
  | _ => exact .error _

/-- A product of numbers is a number; another product repeats one of the two values. -/
theorem times {v w : Value} (hv : P v) (hw : P w) : AnswerHas P (Arithmetic.times v w) := by
  unfold Arithmetic.times
  split
  · exact .bind_any _ fun a => .ok (hP.number a)
  · split
    · exact hP.repetition _ hv
    · exact hP.repetition _ hw
    · exact .error _

theorem minus (args : List Value) : AnswerHas P (Arithmetic.minus args) := by
  unfold Arithmetic.minus
  split
  · exact .bind_any _ fun a => .ok (hP.number _)
  · exact .bind_any _ fun a => .bind_any _ fun b => .bind_any _ fun c => .ok (hP.number c)
  · exact .error _

theorem mod (v w : Value) : AnswerHas P (Arithmetic.mod v w) := by
  unfold Arithmetic.mod
  split
  · split
    · exact .error _
    · exact .ok (hP.int _)
  · refine .bind_any _ fun a => .bind_any _ fun x => .bind_any _ fun b => .bind_any _ fun y => ?_
    split
    · exact .ok (hP.float _)
    · exact .error _

/-! ### Parts of mappings and lists -/

/-- A mapping of entries that the value had. -/
theorem pick (keys : Value) {v : Value} (h : P v) : AnswerHas P (Projection.pick keys v) := by
  cases v with
  | mapping entries =>
      rw [hP.mapping] at h
      refine .bind_any _ fun keys => .bind (.foldlM (Q := fun es => ∀ e ∈ es, P e.2) ?_ ?_)
        fun picked hp => .ok (hP.mapping.2 hp)
      · intro picked key _ hp
        unfold Projection.pickOne
        split
        · split
          · split
            · exact .ok (Entries.forall_mem_insert hp (h _ (Entries.mem_of_get? ‹_›)))
            · exact .ok hp
          · exact .ok hp
        · exact .error _
      · exact List.forall_mem_nil _
  | _ => exact .error _

/-- A mapping of some of the entries that the value had. -/
theorem without (keys : Value) {v : Value} (h : P v) :
    AnswerHas P (Projection.without keys v) := by
  cases v with
  | mapping entries =>
      rw [hP.mapping] at h
      simp only [Projection.without]
      split
      · exact .ok (hP.mapping.2 fun e he => h e ((List.mem_filter.1 he).1))
      · split
        · exact .ok (hP.mapping.2 (List.forall_mem_nil _))
        · exact .error _
  | _ => exact .error _

/-- The item at an index, or the absent value. -/
theorem item? {items : List Value} (h : ∀ v ∈ items, P v) (i : Int) :
    P ((Projection.item? items i).getD .undefined) := by
  have at? : ∀ n : Nat, P (items[n]?.getD .undefined) := by
    intro n
    cases hn : items[n]? with
    | none => exact hP.undefined
    | some v => exact h v (List.mem_of_getElem? hn)
  unfold Projection.item?
  split
  · exact at? _
  · split
    · exact at? _
    · exact hP.undefined

/-- One key followed into a value: a part of it, or the absent value. -/
theorem getOne {v : Value} (h : P v) (key : Value) : AnswerHas P (Projection.getOne v key) := by
  cases v with
  | mapping entries =>
      simp only [Projection.getOne]
      split
      · split
        · exact .ok (hP.getD_get? (hP.mapping.1 h) _)
        · exact .ok hP.undefined
      · exact .error _
  | list items =>
      simp only [Projection.getOne]
      split
      · exact .ok (hP.item? (hP.list.1 h) _)
      · exact .ok hP.undefined
  | _ => exact .ok hP.undefined

/-! ### Macros -/

theorem entry (name : String) {v : Value} (h : P v) : P (.mapping [(name, v)]) :=
  hP.mapping.2 (by simpa using h)

theorem entries (name name' : String) {v w : Value} (hv : P v) (hw : P w) :
    P (.mapping [(name, v), (name', w)]) :=
  hP.mapping.2 (by simpa using ⟨hv, hw⟩)

/-- The expansion of a dotted path is made of texts. -/
theorem getPath (path : Value) : AnswerHas P (Expansion.getPath path) := by
  cases path with
  | text s =>
      simp only [Expansion.getPath]
      split
      · refine .ok (hP.entry _ (hP.list.2 (List.forall_mem_cons.2 ⟨hP.text _, fun v hv => ?_⟩)))
        obtain ⟨key, -, rfl⟩ := List.mem_map.1 hv
        exact hP.entry _ (hP.text key)
      · exact .ok (hP.entry _ (hP.list.2 (List.forall_mem_nil _)))
  | _ => exact .error _

/-- The expansion of a conditional is made of parts of the form. -/
theorem ifElse {form condition : Value} (hf : P form) (hc : P condition) :
    AnswerHas P (Expansion.ifElse form condition) := by
  cases form with
  | mapping es =>
      have branch := hP.getD_get? (hP.mapping.1 hf)
      refine .ok (hP.entry _ (hP.list.2 ?_))
      refine List.forall_mem_cons.2 ⟨?_, List.forall_mem_singleton.2 ?_⟩
      · exact hP.entries _ _ hc (branch "then")
      · exact hP.entry _ (branch "else")
  | _ => exact .error _

theorem omitKeys {keys object : Value} (hk : P keys) (ho : P object) :
    P (Expansion.omitKeys keys object) := by
  refine hP.entries _ _ (hP.text _) (hP.list.2 (List.forall_mem_cons.2 ⟨?_, ?_⟩))
  · exact hP.entry _ hk
  · exact List.forall_mem_singleton.2 ho

/-- The expansion of a record is made of the expressions in its description. -/
theorem record {description : Value} (h : P description) :
    AnswerHas P (Expansion.record description) := by
  cases description with
  | mapping es =>
      rw [hP.mapping] at h
      refine .ok (hP.entry _ (hP.mapping.2 fun e he => ?_))
      obtain ⟨e', he', rfl⟩ := List.mem_map.1 he
      exact hP.entry _ (h e' he')
  | _ => exact .error _

end Value.Hereditary

/-! ### All of them -/

/-- **The standard bindings keep hereditary properties.** -/
theorem Standard.apply_hereditary {P : Value → Prop} (hP : Value.Hereditary P) (s : Standard)
    {args : List Value} (h : ∀ v ∈ args, P v) : AnswerHas P (s.apply args) := by
  have compared : ∀ name c v w, AnswerHas P (comparison name c v w) := by
    intro name c v w
    unfold comparison
    split
    · exact .ok (hP.bool _)
    · exact .error _
  fun_cases Standard.apply s args
  -- Numbers, comparisons and truth values.
  case case1 => exact .bind_any _ fun total => .ok (hP.number total)
  case case2 => exact .foldlM (fun v w hw hv => hP.times hv (h w hw)) (hP.int 1)
  case case3 => exact hP.minus _
  case case4 =>
      exact .bind_any _ fun a => .bind_any _ fun b => .bind_any _ fun x => .ok (hP.float x)
  case case5 => exact hP.mod _ _
  case case6 | case11 | case12 => exact .ok (hP.bool _)
  case case7 | case8 | case9 | case10 => exact compared _ _ _ _
  -- Parts of the arguments.
  case case13 => exact hP.pick _ (h _ (by simp))
  case case14 => exact hP.without _ (h _ (by simp))
  case case15 => exact .foldlM (fun v key _ hv => hP.getOne hv key) (h _ (by simp))
  -- Expansions.
  case case16 | case17 => exact hP.getPath _
  case case19 => exact hP.ifElse (h _ (by simp)) hP.undefined
  case case20 => exact hP.ifElse (h _ (by simp)) (h _ (by simp))
  case case22 => exact .ok (hP.omitKeys (h _ (by simp)) (h _ (by simp)))
  case case24 => exact hP.record hP.undefined
  case case25 => exact hP.record (h _ (by simp))
  all_goals exact .error _

end FormLang
