import FormLang.Value.Copy
import Mathlib.Logic.Relation
import Mathlib.Order.WellFounded

/-!
# Values — what stands inside a value

A value stands inside another when it is a part of it, or of a part of it, and so on
(`Value.Inside`).  What stands inside a value is smaller than it, and lies less deep
(`Value.height_lt_of_inside`); whatever property it has, the value holds something that has it
(`Value.holds_of_inside`).
-/

namespace FormLang.Value

/-- The items of a sequence, and what stands under the names of a mapping. -/
def parts : Value → List Value
  | .list items | .tuple items => items
  | .mapping entries => entries.map Prod.snd
  | _ => []

/-- `u` is a part of `v`, or of a part of it, and so on. -/
def Inside : Value → Value → Prop :=
  Relation.TransGen fun u v => u ∈ v.parts

/-- A part is smaller than what it is a part of, so recursion on parts ends. -/
theorem sizeOf_lt_of_mem_parts {u v : Value} (h : u ∈ v.parts) : sizeOf u < sizeOf v := by
  cases v with
  | list items =>
      have : u ∈ items := h
      simpa using Nat.lt_add_left 1 (List.sizeOf_lt_of_mem this)
  | tuple items =>
      have : u ∈ items := h
      simpa using Nat.lt_add_left 1 (List.sizeOf_lt_of_mem this)
  | mapping entries =>
      obtain ⟨e, he, rfl⟩ := List.mem_map.1 h
      have outer := List.sizeOf_lt_of_mem he
      obtain ⟨name, u⟩ := e
      simp only [Prod.mk.sizeOf_spec, mapping.sizeOf_spec] at outer ⊢
      omega
  | _ => cases h

/-- There is no infinite descent into a value. -/
theorem inside_wellFounded : WellFounded Inside :=
  (Subrelation.wf sizeOf_lt_of_mem_parts (measure sizeOf).wf).transGen

namespace Inside

variable {u v w : Value} {es : Entries Value}

theorem item (h : u ∈ v.parts) : Inside u v :=
  .single h

theorem trans (h : Inside u v) (h' : Inside v w) : Inside u w :=
  Relation.TransGen.trans h h'

/-- The value of an entry stands inside its mapping. -/
theorem entry {e : String × Value} (h : e ∈ es) : Inside e.2 (.mapping es) :=
  item (List.mem_map_of_mem h)

/-- What is found under a name stands inside the mapping. -/
theorem get? {name : String} (h : Entries.get? name es = some u) : Inside u (.mapping es) :=
  entry (Entries.mem_of_get? h)

/-- The operands that a value stands for, whether it is a sequence of them or the only one, stand
inside whatever the value does. -/
theorem operands (h : Inside u v) {e : Value} (he : e ∈ u.operands) : Inside e v := by
  cases u with
  | list items => exact trans (v := .list items) (item he) h
  | tuple items => exact trans (v := .tuple items) (item he) h
  | _ => exact List.mem_singleton.1 he ▸ h

end Inside

/-- The recursion over the items is a search. -/
theorem anyHolds_eq (p : Value → Bool) (items : List Value) :
    anyHolds p items = items.any (holds p) := by
  induction items with
  | nil => rfl
  | cons v rest ih => rw [anyHolds, ih, List.any_cons]

/-- The recursion over the entries is that over their values. -/
theorem anyEntryHolds_eq (p : Value → Bool) (es : Entries Value) :
    anyEntryHolds p es = anyHolds p (es.map Prod.snd) := by
  induction es with
  | nil => rfl
  | cons e rest ih => rw [anyEntryHolds, ih, List.map_cons, anyHolds]

theorem holds_self {p : Value → Bool} {v : Value} (h : p v = true) : v.holds p = true := by
  cases v <;> simp [holds, h]

/-- What a value inside holds, the whole holds.  By induction on how far inside it stands, one
container at a time. -/
theorem holds_of_inside {p : Value → Bool} {u v : Value} (h : Inside u v) (hu : u.holds p = true) :
    v.holds p = true := by
  have part : ∀ {u v : Value}, u ∈ v.parts → u.holds p = true → v.holds p = true := by
    intro u v h hu
    have any : anyHolds p v.parts = true := by
      rw [anyHolds_eq]
      exact List.any_eq_true.2 ⟨u, h, hu⟩
    cases v with
    | list items => exact Bool.or_eq_true_iff.2 (.inr any)
    | tuple items => exact Bool.or_eq_true_iff.2 (.inr any)
    | mapping es =>
        rw [holds, anyEntryHolds_eq, Bool.or_eq_true]
        exact .inr any
    | _ => cases h
  induction h with
  | single h => exact part h hu
  | tail _ h ih => exact part h ih

/-- What the whole does not hold, nothing inside it holds. -/
theorem not_holds_of_inside {p : Value → Bool} {u v : Value} (h : v.holds p = false)
    (hu : Inside u v) : u.holds p = false := by
  by_contra held
  have := holds_of_inside hu (Bool.eq_true_of_not_eq_false held)
  rw [h] at this
  cases this

/-! ### Height -/

mutual
/-- The level of the deepest nodes. -/
def height : Value → Nat
  | .list items | .tuple items => itemsHeight items
  | .mapping entries => entriesHeight entries
  | _ => 0
termination_by structural v => v

def itemsHeight : List Value → Nat
  | [] => 0
  | v :: rest => max (height v + 1) (itemsHeight rest)
termination_by structural vs => vs

def entriesHeight : List (String × Value) → Nat
  | [] => 0
  | (_, v) :: rest => max (height v + 1) (entriesHeight rest)
termination_by structural es => es
end

/-- The height of items is more than that of each. -/
theorem height_lt_itemsHeight {items : List Value} {v : Value} (h : v ∈ items) :
    v.height < itemsHeight items := by
  induction items with
  | nil => cases h
  | cons u rest ih =>
      rw [itemsHeight]
      rcases List.mem_cons.1 h with rfl | h
      · omega
      · have := ih h
        omega

/-- The height of entries is more than that of each. -/
theorem height_lt_entriesHeight {entries : Entries Value} {e : String × Value} (h : e ∈ entries) :
    e.2.height < entriesHeight entries := by
  induction entries with
  | nil => cases h
  | cons f rest ih =>
      rw [entriesHeight]
      rcases List.mem_cons.1 h with rfl | h
      · omega
      · have := ih h
        omega

/-- What stands inside a value is lower. -/
theorem height_lt_of_inside {u v : Value} (h : Inside u v) : u.height < v.height := by
  have part : ∀ {u v : Value}, u ∈ v.parts → u.height < v.height := by
    intro u v h
    cases v with
    | list items => exact height_lt_itemsHeight h
    | tuple items => exact height_lt_itemsHeight h
    | mapping entries =>
        obtain ⟨e, he, rfl⟩ := List.mem_map.1 h
        exact height_lt_entriesHeight he
    | _ => cases h
  induction h with
  | single h => exact part h
  | tail _ h ih => exact ih.trans (part h)

end FormLang.Value
