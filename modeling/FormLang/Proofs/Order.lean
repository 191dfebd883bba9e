import FormLang.Proofs.Equality
import FormLang.Standard.Apply

/-!
# Order — the four comparisons are one order

Doubles aside, any two values that can be compared stand in one of three orders (`Value.order?`),
and the four comparisons only ask which (`Value.compare?_eq_order?`).  Sequences are ordered by
their first unequal items, so the order has to be one with equality: it says that values are equal
exactly if they are (`Value.equal_eq_of_order?`), and equal values stand in the same order to any
other (`Value.order?_congr`, `Value.order?_congr_left`).  This is what makes it transitive where one
pair of sequences differs earlier than the other (`Value.order?_trans`).

So **`lt`, `eq` and `gt` are the three parts of one partial order**, in which `lte` and `gte` are
what they should be (`comparisons_are_one_order`).
-/

namespace FormLang

namespace Value

mutual
/-- The order of two values, if they can be compared and are no doubles. -/
def order? : Value → Value → Option Ordering
  | .text s, .text t => some (compare s t)
  | .list xs, .list ys | .tuple xs, .tuple ys => orderItems? xs ys
  | v, w =>
    match v.integer?, w.integer? with
    | some m, some n => some (compare m n)
    | _, _ => none
termination_by structural v => v

/-- The order of the first items that are not equal, else of the lengths. -/
def orderItems? : List Value → List Value → Option Ordering
  | [], [] => some .eq
  | [], _ :: _ => some .lt
  | _ :: _, [] => some .gt
  | x :: xs, y :: ys => if equal x y then orderItems? xs ys else order? x y
termination_by structural xs => xs
end

variable {u v w : Value} {o : Ordering}

/-! ### The comparisons -/

/-- Items are compared by the first two that are not equal, and then by length. -/
theorem compareItems?_eq_orderItems? (c : Comparison) {xs ys : List Value}
    (ih : ∀ x ∈ xs, ∀ y ∈ ys, compare? c x y = (order? x y).map c.holds) :
    compareItems? c xs ys = (orderItems? xs ys).map c.holds := by
  induction xs generalizing ys with
  | nil => cases ys <;> rfl
  | cons x xs rest =>
      cases ys with
      | nil => rfl
      | cons y ys =>
          rw [compareItems?, orderItems?]
          split
          · exact rest fun x hx y hy => ih x (.tail _ hx) y (.tail _ hy)
          · exact ih x (.head _) y (.head _)

/-- A comparison asks in which order the values are. -/
theorem compare?_eq_order? (c : Comparison) (hv : Exact v) (hw : Exact w) :
    compare? c v w = (order? v w).map c.holds := by
  induction hv generalizing w with
  | list _ ih =>
      cases hw with
      | list hw =>
          exact compareItems?_eq_orderItems? c fun x hx y hy => ih x hx (hw y hy)
      | _ => rfl
  | tuple _ ih =>
      cases hw with
      | tuple hw =>
          exact compareItems?_eq_orderItems? c fun x hx y hy => ih x hx (hw y hy)
      | _ => rfl
  | _ => cases hw <;> rfl

/-! ### The ways to be ordered -/

/-- The values are in this order: one way for each kind of values that can be compared. -/
inductive Ordered : Value → Value → Ordering → Prop where
  | text {s t : String} {o : Ordering} (h : compare s t = o) : Ordered (.text s) (.text t) o
  | list {xs ys : List Value} {o : Ordering} (h : orderItems? xs ys = some o) :
      Ordered (.list xs) (.list ys) o
  | tuple {xs ys : List Value} {o : Ordering} (h : orderItems? xs ys = some o) :
      Ordered (.tuple xs) (.tuple ys) o
  | number {v w : Value} {m n : Int} {o : Ordering} (hv : v.integer? = some m)
      (hw : w.integer? = some n) (h : compare m n = o) : Ordered v w o

theorem ordered_of_order? (h : order? v w = some o) : Ordered v w o := by
  unfold order? at h
  split at h
  · exact .text (Option.some.inj h)
  · exact .list h
  · exact .tuple h
  · split at h
    · exact .number ‹_› ‹_› (Option.some.inj h)
    · cases h

theorem Ordered.order? (h : Ordered v w o) : order? v w = some o := by
  cases h with
  | text h => exact congrArg some h
  | list h => exact h
  | tuple h => exact h
  | number hv hw h =>
      cases h
      cases v <;> cases hv <;> cases w <;> cases hw <;> rfl

/-! ### Order and equality -/

/-- Items that are ordered are equal exactly when neither comes first. -/
theorem equalItems_eq_of_orderItems? {xs ys : List Value}
    (ih : ∀ x ∈ xs, ∀ y o, order? x y = some o → x.equal y = (o == .eq))
    (h : orderItems? xs ys = some o) : equalItems xs ys = (o == .eq) := by
  induction xs generalizing ys with
  | nil => cases ys <;> cases h <;> rfl
  | cons x xs rest =>
      cases ys with
      | nil =>
          cases h
          rfl
      | cons y ys =>
          rw [List.forall_mem_cons] at ih
          rw [orderItems?] at h
          rw [equalItems]
          split at h
          · rename_i same
            rw [same, Bool.true_and]
            exact rest ih.2 h
          · rename_i differ
            rw [← ih.1 y o h, Bool.eq_false_iff.2 differ, Bool.false_and]

/-- The order says that values are equal exactly if they are. -/
theorem equal_eq_of_order? {v w : Value} {o : Ordering} (h : order? v w = some o) :
    v.equal w = (o == .eq) := by
  have ih : ∀ x, PartOf x v → ∀ y o, order? x y = some o → x.equal y = (o == .eq) :=
    fun x hx y o h => equal_eq_of_order? h
  cases ordered_of_order? h with
  | @text s t _ h =>
      subst h
      rw [Value.equal, Bool.eq_iff_iff, beq_iff_eq, beq_iff_eq, Std.LawfulEqOrd.compare_eq_iff_eq]
  | list h => exact equalItems_eq_of_orderItems? (fun x hx => ih x (.inl hx)) h
  | tuple h => exact equalItems_eq_of_orderItems? (fun x hx => ih x (.inl hx)) h
  | number hv hw h => rw [equal_of_integer? hv hw, h]
termination_by sizeOf v
decreasing_by exact hx.sizeOf_lt

/-! ### Turning around -/

/-- Items seen from the other side are in the opposite order. -/
theorem orderItems?_swap {xs ys : List Value} (hxs : ∀ x ∈ xs, Exact x)
    (hys : ∀ y ∈ ys, Exact y)
    (ih : ∀ x ∈ xs, ∀ y o, Exact y → order? x y = some o → order? y x = some o.swap)
    (h : orderItems? xs ys = some o) : orderItems? ys xs = some o.swap := by
  induction xs generalizing ys with
  | nil => cases ys <;> cases h <;> rfl
  | cons x xs rest =>
      cases ys with
      | nil =>
          cases h
          rfl
      | cons y ys =>
          rw [List.forall_mem_cons] at ih hxs hys
          rw [orderItems?] at h ⊢
          rw [equal_comm hys.1 hxs.1]
          split at h
          · rw [if_pos ‹_›]
            exact rest hxs.2 hys.2 ih.2 h
          · rw [if_neg ‹_›]
            exact ih.1 y o hys.1 h

/-- The order of the values seen from the other one. -/
theorem order?_swap {v w : Value} {o : Ordering} (hv : Exact v) (hw : Exact w)
    (h : order? v w = some o) : order? w v = some o.swap := by
  have ih : ∀ x, PartOf x v → ∀ y o, Exact y → order? x y = some o → order? y x = some o.swap :=
    fun x hx y o hy h => order?_swap (hx.exact hv) hy h
  refine Ordered.order? ?_
  cases ordered_of_order? h with
  | text h => exact .text (by rw [← h, ← Std.OrientedOrd.eq_swap])
  | list h =>
      exact .list (orderItems?_swap hv.parts hw.parts (fun x hx => ih x (.inl hx)) h)
  | tuple h =>
      exact .tuple (orderItems?_swap hv.parts hw.parts (fun x hx => ih x (.inl hx)) h)
  | number hm hn h => exact .number hn hm (by rw [← h, ← Std.OrientedOrd.eq_swap])
termination_by sizeOf v
decreasing_by exact hx.sizeOf_lt

/-! ### Equal values in one place -/

/-- Equal items may stand in for each other. -/
theorem orderItems?_congr {xs ys zs : List Value} (hxs : ∀ x ∈ xs, Exact x)
    (hys : ∀ y ∈ ys, Exact y) (hzs : ∀ z ∈ zs, Exact z)
    (ih : ∀ x ∈ xs, ∀ y z o, Exact y → Exact z → y.equal z = true → order? x y = some o →
      order? x z = some o)
    (same : List.Forall₂ (fun y z => y.equal z = true) ys zs) (h : orderItems? xs ys = some o) :
    orderItems? xs zs = some o := by
  induction same generalizing xs with
  | nil => exact h
  | cons same _ rest =>
      cases xs with
      | nil => exact h
      | cons x xs =>
          rw [List.forall_mem_cons] at ih hxs hys hzs
          rw [orderItems?] at h ⊢
          rw [← equal_congr hxs.1 hys.1 hzs.1 same]
          split at h
          · rw [if_pos ‹_›]
            exact rest hxs.2 hys.2 hzs.2 ih.2 h
          · rw [if_neg ‹_›]
            exact ih.1 _ _ o hys.1 hzs.1 same h

/-- Equal values stand in the same order to any other. -/
theorem order?_congr {u v w : Value} {o : Ordering} (hu : Exact u) (hv : Exact v) (hw : Exact w)
    (same : v.equal w = true) (h : order? u v = some o) : order? u w = some o := by
  have ih : ∀ x, PartOf x u → ∀ y z o, Exact y → Exact z → y.equal z = true →
      order? x y = some o → order? x z = some o :=
    fun x hx y z o hy hz same h => order?_congr (hx.exact hu) hy hz same h
  refine Ordered.order? ?_
  cases ordered_of_order? h with
  | text h =>
      cases matches_of_equal hv hw same with
      | text => exact .text h
      | number hv => cases hv
  | list h =>
      cases matches_of_equal hv hw same with
      | list items =>
          exact .list (orderItems?_congr hu.parts hv.parts hw.parts
            (fun x hx => ih x (.inl hx)) items h)
      | number hv => cases hv
  | tuple h =>
      cases matches_of_equal hv hw same with
      | tuple items =>
          exact .tuple (orderItems?_congr hu.parts hv.parts hw.parts
            (fun x hx => ih x (.inl hx)) items h)
      | number hv => cases hv
  | number hm hn h =>
      cases matches_of_equal hv hw same with
      | number hn' hw =>
          cases hn.symm.trans hn'
          exact .number hm hw h
      | _ => cases hn
termination_by sizeOf u
decreasing_by exact hx.sizeOf_lt

theorem order?_congr_left (hu : Exact u) (hv : Exact v) (hw : Exact w) (same : u.equal v = true)
    (h : order? v w = some o) : order? u w = some o := by
  have turned := order?_congr hw hv hu (equal_symm hu hv same) (order?_swap hv hw h)
  rw [order?_swap hw hu turned, Ordering.swap_swap]

/-! ### Transitivity -/

theorem orderItems?_of_lt {x y : Value} {xs ys : List Value} (h : order? x y = some .lt) :
    orderItems? (x :: xs) (y :: ys) = some .lt := by
  have differ : x.equal y = false := equal_eq_of_order? h
  rw [orderItems?, differ, if_neg Bool.false_ne_true, h]

/-- The order of items is transitive.  The first items decide unless they are equal on one side or
the other; then the congruence carries the order over, or the rests decide. -/
theorem orderItems?_trans {xs ys zs : List Value} (hxs : ∀ x ∈ xs, Exact x)
    (hys : ∀ y ∈ ys, Exact y) (hzs : ∀ z ∈ zs, Exact z)
    (ih : ∀ x ∈ xs, ∀ y z, Exact y → Exact z → order? x y = some .lt → order? y z = some .lt →
      order? x z = some .lt)
    (h : orderItems? xs ys = some .lt) (h' : orderItems? ys zs = some .lt) :
    orderItems? xs zs = some .lt := by
  induction xs generalizing ys zs with
  | nil =>
      cases zs with
      | nil => cases ys <;> cases h'
      | cons => rfl
  | cons x xs rest =>
      cases ys with
      | nil => cases h
      | cons y ys =>
          cases zs with
          | nil => cases h'
          | cons z zs =>
              rw [List.forall_mem_cons] at ih hxs hys hzs
              rw [orderItems?] at h h'
              split at h
              · split at h'
                · have same := equal_trans hxs.1 hys.1 hzs.1 ‹_› ‹_›
                  rw [orderItems?, if_pos same]
                  exact rest hxs.2 hys.2 hzs.2 ih.2 h h'
                · exact orderItems?_of_lt (order?_congr_left hxs.1 hys.1 hzs.1 ‹_› h')
              · split at h'
                · exact orderItems?_of_lt (order?_congr hxs.1 hys.1 hzs.1 ‹_› h)
                · exact orderItems?_of_lt (ih.1 y z hys.1 hzs.1 h h')

/-- What is below a value is below what is above it. -/
theorem order?_trans {u v w : Value} (hu : Exact u) (hv : Exact v) (hw : Exact w)
    (h : order? u v = some .lt) (h' : order? v w = some .lt) : order? u w = some .lt := by
  have ih : ∀ x, PartOf x u → ∀ y z, Exact y → Exact z → order? x y = some .lt →
      order? y z = some .lt → order? x z = some .lt :=
    fun x hx y z hy hz h h' => order?_trans (hx.exact hu) hy hz h h'
  refine Ordered.order? ?_
  cases ordered_of_order? h with
  | text h =>
      cases ordered_of_order? h' with
      | text h' => exact .text (Std.TransCmp.lt_trans h h')
      | number hv => cases hv
  | list h =>
      cases ordered_of_order? h' with
      | list h' =>
          exact .list (orderItems?_trans hu.parts hv.parts hw.parts
            (fun x hx => ih x (.inl hx)) h h')
      | number hv => cases hv
  | tuple h =>
      cases ordered_of_order? h' with
      | tuple h' =>
          exact .tuple (orderItems?_trans hu.parts hv.parts hw.parts
            (fun x hx => ih x (.inl hx)) h h')
      | number hv => cases hv
  | number hm hn h =>
      cases ordered_of_order? h' with
      | number hn' hw h' =>
          cases hn.symm.trans hn'
          exact .number hm hw (Std.TransCmp.lt_trans h h')
      | _ => cases hn
termination_by sizeOf u
decreasing_by exact hx.sizeOf_lt

end Value

/-! ### The functions -/

namespace Standard

variable {v w : Value} {o : Ordering}

theorem comparison_eq (name : String) (c : Comparison) (hv : v.Exact) (hw : w.Exact) :
    comparison name c v w = match v.order? w with
      | some o => .ok (.bool (c.holds o))
      | none => .error (.incomparable v.display w.display name) := by
  rw [comparison, Value.compare?_eq_order? c hv hw]
  cases v.order? w <;> rfl

theorem lt_apply_iff (hv : v.Exact) (hw : w.Exact) :
    Standard.lt.apply [v, w] = .ok (.bool true) ↔ v.order? w = some .lt := by
  rw [apply, comparison_eq "lt" .lt hv hw]
  rcases v.order? w with _ | _ | _ | _ <;> simp [Comparison.holds]

end Standard

/-- The four comparisons of two values all fail or all answer.  If they answer, exactly one of `lt`,
`eq` and `gt` is true, `lte` and `gte` join `eq` to the other two, and `gt` is `lt` turned around.
Whatever they do, `lt` is transitive. -/
theorem comparisons_are_one_order {a b c : Value} (ha : a.Exact) (hb : b.Exact) (hc : c.Exact) :
    ((∀ f ∈ [Standard.lt, .lte, .gt, .gte],
        f.apply [a, b] = .error (.incomparable a.display b.display f.symbol)) ∨
      ∃ less same more : Bool,
        Standard.lt.apply [a, b] = .ok (.bool less) ∧
        Standard.eq.apply [a, b] = .ok (.bool same) ∧
        Standard.gt.apply [a, b] = .ok (.bool more) ∧
        Standard.lte.apply [a, b] = .ok (.bool (less || same)) ∧
        Standard.gte.apply [a, b] = .ok (.bool (more || same)) ∧
        Standard.lt.apply [b, a] = .ok (.bool more) ∧
        [less, same, more].count true = 1) ∧
    (Standard.lt.apply [a, b] = .ok (.bool true) → Standard.lt.apply [b, c] = .ok (.bool true) →
      Standard.lt.apply [a, c] = .ok (.bool true)) := by
  constructor
  · have answer := fun name c => Standard.comparison_eq name c ha hb
    cases order : a.order? b with
    | none =>
        simp only [order] at answer
        refine .inl ?_
        simp [Standard.apply, Standard.symbol, answer]
    | some o =>
        have same := Value.equal_eq_of_order? order
        have turned := Standard.comparison_eq "lt" .lt hb ha
        simp only [order, Value.order?_swap ha hb order] at answer turned
        refine .inr ⟨o == .lt, o == .eq, o == .gt, ?_⟩
        simp only [Standard.apply, answer, same, turned]
        cases o <;> exact ⟨rfl, trivial, rfl, rfl, rfl, rfl, rfl⟩
  · rw [Standard.lt_apply_iff ha hb, Standard.lt_apply_iff hb hc, Standard.lt_apply_iff ha hc]
    exact Value.order?_trans ha hb hc

/-- A one and a mapping. -/
def shortRow : Value := .list [.int 1, .mapping [("x", .int 1), ("y", .bool false)]]

/-- What is equal to the items of the short row, and one item more. -/
def longRow : Value := .list [.bool true, .mapping [("y", .int 0), ("x", .bool true)], .null]

def highRow : Value := .list [.int 2]

theorem comparisons_are_one_order_rows :
    shortRow.Exact ∧ longRow.Exact ∧ highRow.Exact ∧
      Standard.lt.apply [shortRow, longRow] = .ok (.bool true) ∧
      Standard.lt.apply [longRow, highRow] = .ok (.bool true) ∧
      Standard.lt.apply [shortRow, highRow] = .ok (.bool true) := by
  have short : shortRow.Exact := by
    refine .list ?_
    simp [Value.Exact.int, Value.Exact.bool, Value.Exact.mapping, Entries.keys]
  have long : longRow.Exact := by
    refine .list ?_
    simp [Value.Exact.int, Value.Exact.bool, Value.Exact.null, Value.Exact.mapping, Entries.keys]
  have high : highRow.Exact := .list (by simp [Value.Exact.int])
  exact ⟨short, long, high, rfl, rfl, (comparisons_are_one_order short long high).2 rfl rfl⟩

end FormLang
