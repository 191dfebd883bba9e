import FormLang.Proofs.Inside
import Mathlib.Data.List.Forall2
import Mathlib.Data.List.Perm.Subperm

/-!
# Equality — values that are equal

Doubles aside, equality of values is a matter of structure: numbers are equal as integers, sequences
item by item, mappings name by name whatever the order, and callables by what they are.
`Value.Matches R` lists these ways, one for each kind of value, with `R` for the equality of the
parts (`Value.matches_of_equal`, `Value.Matches.equal`).  It can be turned around and composed
without a look at what `R` is, so equality is **reflexive, symmetric and transitive** because it is
so for smaller values (`Value.equal_refl`, `Value.equal_symm`, `Value.equal_trans`).

For mappings this takes that no name is repeated: then of two mappings of one size, of which the one
has all names of the other, neither has a name more (`Value.equalMappings_iff`).
-/

namespace FormLang.Value

/-- No double is in the value, and no mapping in it has two entries of one name. -/
inductive Exact : Value → Prop where
  | null : Exact .null
  | bool (b : Bool) : Exact (.bool b)
  | int (n : Int) : Exact (.int n)
  | text (s : String) : Exact (.text s)
  | list {items : List Value} (h : ∀ v ∈ items, Exact v) : Exact (.list items)
  | tuple {items : List Value} (h : ∀ v ∈ items, Exact v) : Exact (.tuple items)
  | mapping {entries : Entries Value} (keys : (Entries.keys entries).Nodup)
      (h : ∀ e ∈ entries, Exact e.2) : Exact (.mapping entries)
  | undefined : Exact .undefined
  | closure (id : Nat) (params : List String) (body : Value) (env : Chain) (options : Options) :
      Exact (.closure id params body env options)
  | standard (s : Standard) : Exact (.standard s)
  | host (name : String) : Exact (.host name)
  | tagged (tag : Tag) {fn : Value} (h : Exact fn) : Exact (.tagged tag fn)

variable {u v w : Value}

/-- Without doubles, a number is an integer. -/
theorem Exact.number?_eq (h : Exact v) : v.number? = v.integer?.map .int := by
  cases h <;> rfl

/-- The value is a part of the other, or what this one is a tag around. -/
def PartOf (x v : Value) : Prop :=
  x ∈ v.parts ∨ ∃ tag, v = .tagged tag x

namespace PartOf

variable {x : Value}

theorem sizeOf_lt (h : PartOf x v) : sizeOf x < sizeOf v := by
  rcases h with h | ⟨tag, rfl⟩
  · exact sizeOf_lt_of_mem_parts h
  · rw [tagged.sizeOf_spec]
    omega

theorem entry {name : String} {es : Entries Value} (h : Entries.get? name es = some x) :
    PartOf x (.mapping es) :=
  .inl (List.mem_map_of_mem (f := Prod.snd) (Entries.mem_of_get? h))

theorem exact (hv : Exact v) (h : PartOf x v) : Exact x := by
  rcases h with h | ⟨tag, rfl⟩
  · cases hv with
    | list hv => exact hv x h
    | tuple hv => exact hv x h
    | mapping _ hv =>
        obtain ⟨e, he, rfl⟩ := List.mem_map.1 h
        exact hv e he
    | _ => cases h
  · cases hv with
    | tagged _ hv => exact hv

end PartOf

theorem Exact.parts (hv : Exact v) : ∀ x ∈ v.parts, Exact x :=
  fun _ hx => PartOf.exact hv (.inl hx)

/-! ### The ways to be equal -/

/-- The values are of one kind and their parts are related by `R`: items one by one, entries name by
name.  Numbers are the same integer, and callables the same callable. -/
inductive Matches (R : Value → Value → Prop) : Value → Value → Prop where
  | null : Matches R .null .null
  | undefined : Matches R .undefined .undefined
  | text (s : String) : Matches R (.text s) (.text s)
  | list {xs ys : List Value} (h : List.Forall₂ R xs ys) : Matches R (.list xs) (.list ys)
  | tuple {xs ys : List Value} (h : List.Forall₂ R xs ys) : Matches R (.tuple xs) (.tuple ys)
  | mapping {es fs : Entries Value} (hes : (Entries.keys es).Nodup)
      (hfs : (Entries.keys fs).Nodup)
      (h : ∀ name, Option.Rel R (Entries.get? name es) (Entries.get? name fs)) :
      Matches R (.mapping es) (.mapping fs)
  | closure (id : Nat) (params params' : List String) (body body' : Value) (env env' : Chain)
      (options options' : Options) :
      Matches R (.closure id params body env options) (.closure id params' body' env' options')
  | standard (s : Standard) : Matches R (.standard s) (.standard s)
  | host (name : String) : Matches R (.host name) (.host name)
  | tagged (tag : Tag) {f g : Value} (h : R f g) : Matches R (.tagged tag f) (.tagged tag g)
  | number {v w : Value} {n : Int} (hv : v.integer? = some n) (hw : w.integer? = some n) :
      Matches R v w

namespace Matches

variable {R S : Value → Value → Prop}

/-- Matching is monotone in what relates the parts. -/
theorem imp (H : ∀ x y, R x y → S x y) (h : Matches R v w) : Matches S v w := by
  cases h with
  | list h => exact .list (h.imp H)
  | tuple h => exact .tuple (h.imp H)
  | @mapping es fs hes hfs h =>
      refine .mapping hes hfs fun name => ?_
      have hr := h name
      generalize Entries.get? name es = a, Entries.get? name fs = b at hr ⊢
      cases hr with
      | none => exact .none
      | some hr => exact .some (H _ _ hr)
  | tagged tag h => exact .tagged tag (H _ _ h)
  | number hv hw => exact .number hv hw
  | _ => constructor

/-- A value matches itself if its parts are related to themselves. -/
theorem same (hv : Exact v) (h : ∀ x, PartOf x v → R x x) : Matches R v v := by
  cases hv with
  | bool b => exact .number rfl rfl
  | int n => exact .number rfl rfl
  | list hv => exact .list (List.forall₂_same.2 fun x hx => h x (.inl hx))
  | tuple hv => exact .tuple (List.forall₂_same.2 fun x hx => h x (.inl hx))
  | @mapping es keys hv =>
      refine .mapping keys keys fun name => ?_
      cases hg : Entries.get? name es with
      | none => exact .none
      | some x => exact .some (h x (.entry hg))
  | tagged tag hv => exact .tagged tag (h _ (.inr ⟨tag, rfl⟩))
  | _ => constructor

/-- Matching can be read from either side. -/
theorem flip (h : Matches R v w) : Matches (fun x y => R y x) w v := by
  cases h with
  | list h => exact .list h.flip
  | tuple h => exact .tuple h.flip
  | @mapping es fs hes hfs h =>
      refine .mapping hfs hes fun name => ?_
      have hr := h name
      generalize Entries.get? name es = a, Entries.get? name fs = b at hr ⊢
      cases hr with
      | none => exact .none
      | some hr => exact .some hr
  | tagged tag h => exact .tagged tag h
  | number hv hw => exact .number hw hv
  | _ => constructor

/-- Items that are related through items in between. -/
theorem forall₂_comp {xs ys zs : List Value} (h : List.Forall₂ R xs ys)
    (h' : List.Forall₂ S ys zs) : List.Forall₂ (fun x z => ∃ y, R x y ∧ S y z) xs zs := by
  induction h generalizing zs with
  | nil =>
      cases h'
      exact .nil
  | cons h _ ih =>
      cases h' with
      | cons h' hs' => exact .cons ⟨_, h, h'⟩ (ih hs')

/-- Values found through values in between, or none on either side. -/
theorem rel_comp {a b c : Option Value} (h : Option.Rel R a b) (h' : Option.Rel S b c) :
    Option.Rel (fun x z => ∃ y, R x y ∧ S y z) a c := by
  cases h with
  | none =>
      cases h'
      exact .none
  | some h =>
      cases h' with
      | some h' => exact .some ⟨_, h, h'⟩

/-- Values that match a third match each other, with parts related through those of the third.  A
case for each way to match; that the third is a number on one side alone is excluded, because it is
of one kind. -/
theorem comp (h : Matches R u v) (h' : Matches S v w) :
    Matches (fun x z => ∃ y, R x y ∧ S y z) u w := by
  cases h with
  | list h =>
      cases h' with
      | list h' => exact .list (forall₂_comp h h')
      | number hv => cases hv
  | tuple h =>
      cases h' with
      | tuple h' => exact .tuple (forall₂_comp h h')
      | number hv => cases hv
  | mapping hes hfs h =>
      cases h' with
      | mapping _ hgs h' => exact .mapping hes hgs fun name => rel_comp (h name) (h' name)
      | number hv => cases hv
  | tagged tag h =>
      cases h' with
      | tagged _ h' => exact .tagged tag ⟨_, h, h'⟩
      | number hv => cases hv
  | number hu hv =>
      cases h' with
      | number hv' hw =>
          cases hv.symm.trans hv'
          exact .number hu hw
      | _ => cases hv
  | _ =>
      cases h' with
      | number hv => cases hv
      | _ => constructor

/-- What is related are parts of the values. -/
theorem parts (h : Matches R v w) :
    Matches (fun x y => (PartOf x v ∧ PartOf y w) ∧ R x y) v w := by
  have items : ∀ {xs ys : List Value}, List.Forall₂ R xs ys →
      List.Forall₂ (fun x y => (x ∈ xs ∧ y ∈ ys) ∧ R x y) xs ys := by
    intro xs ys h
    rw [List.forall₂_iff_zip] at h ⊢
    exact ⟨h.1, fun hm => ⟨List.of_mem_zip hm, h.2 hm⟩⟩
  cases h with
  | list h => exact .list ((items h).imp fun x y h => ⟨⟨.inl h.1.1, .inl h.1.2⟩, h.2⟩)
  | tuple h => exact .tuple ((items h).imp fun x y h => ⟨⟨.inl h.1.1, .inl h.1.2⟩, h.2⟩)
  | @mapping es fs hes hfs h =>
      refine .mapping hes hfs fun name => ?_
      have hr := h name
      generalize ha : Entries.get? name es = a, hb : Entries.get? name fs = b at hr ⊢
      cases hr with
      | none => exact .none
      | some hr => exact .some ⟨⟨.entry ha, .entry hb⟩, hr⟩
  | tagged tag h => exact .tagged tag ⟨⟨.inr ⟨tag, rfl⟩, .inr ⟨tag, rfl⟩⟩, h⟩
  | number hv hw => exact .number hv hw
  | _ => constructor

end Matches

/-! ### Equality as matching -/

/-- Items are equal one by one. -/
theorem equalItems_iff {xs ys : List Value} :
    equalItems xs ys = true ↔ List.Forall₂ (fun x y => x.equal y = true) xs ys := by
  induction xs generalizing ys with
  | nil => cases ys <;> simp [equalItems]
  | cons x xs ih =>
      cases ys with
      | nil => simp [equalItems]
      | cons y ys => simp [equalItems, ih]

/-- Every entry of the first mapping has an equal one under its name in the second. -/
theorem equalEntries_iff {es fs : Entries Value} : equalEntries es fs = true ↔
    ∀ e ∈ es, ∃ y, Entries.get? e.1 fs = some y ∧ e.2.equal y = true := by
  induction es with
  | nil => simp [equalEntries]
  | cons e es ih =>
      obtain ⟨name, x⟩ := e
      rw [equalEntries, Bool.and_eq_true, ih, List.forall_mem_cons]
      cases Entries.get? name fs <;> simp

/-- Where no name is repeated, mappings are equal if every name means the same in both: with as many
names, the one has no name that the other lacks. -/
theorem equalMappings_iff {es fs : Entries Value} (hes : (Entries.keys es).Nodup)
    (hfs : (Entries.keys fs).Nodup) : es.length = fs.length ∧ equalEntries es fs = true ↔
      ∀ name, Option.Rel (fun x y => x.equal y = true) (Entries.get? name es)
        (Entries.get? name fs) := by
  rw [equalEntries_iff]
  constructor
  · rintro ⟨length, h⟩ name
    have names : Entries.keys es ⊆ Entries.keys fs := by
      intro name hn
      obtain ⟨e, he, rfl⟩ := List.mem_map.1 hn
      obtain ⟨y, hy, -⟩ := h e he
      exact List.mem_map.2 ⟨_, Entries.mem_of_get? hy, rfl⟩
    have perm : (Entries.keys es).Perm (Entries.keys fs) :=
      (hes.subperm names).perm_of_length_le (by simp [Entries.keys, length])
    cases hg : Entries.get? name es with
    | some x =>
        obtain ⟨y, hy, equal⟩ := h _ (Entries.mem_of_get? hg)
        rw [hy]
        exact .some equal
    | none =>
        rw [Entries.get?_eq_none_iff, perm.mem_iff, ← Entries.get?_eq_none_iff] at hg
        rw [hg]
        exact .none
  · intro h
    have names : ∀ name, name ∈ Entries.keys es ↔ name ∈ Entries.keys fs := by
      intro name
      have hr := h name
      rw [← not_iff_not, ← Entries.get?_eq_none_iff, ← Entries.get?_eq_none_iff]
      generalize Entries.get? name es = a, Entries.get? name fs = b at hr ⊢
      cases hr <;> simp
    have perm := (List.perm_ext_iff_of_nodup hes hfs).2 names
    refine ⟨by simpa [Entries.keys] using perm.length_eq, fun e he => ?_⟩
    have hr := h e.1
    rw [Entries.get?_of_mem hes he] at hr
    generalize Entries.get? e.1 fs = b at hr
    cases hr with
    | some equal => exact ⟨_, rfl, equal⟩

/-- Integers and truth values are equal as integers. -/
theorem equal_of_integer? {m n : Int} (hv : v.integer? = some m) (hw : w.integer? = some n) :
    v.equal w = (compare m n == .eq) := by
  cases v <;> cases hv <;> cases w <;> cases hw <;> rfl

/-- Values whose parts are equal are equal. -/
theorem Matches.equal (h : Matches (fun x y => x.equal y = true) v w) : v.equal w = true := by
  cases h with
  | number hv hw => simp [equal_of_integer? hv hw]
  | list h => exact equalItems_iff.2 h
  | tuple h => exact equalItems_iff.2 h
  | mapping hes hfs h =>
      rw [Value.equal, Bool.and_eq_true, beq_iff_eq]
      exact (equalMappings_iff hes hfs).2 h
  | tagged tag h => simp [Value.equal, h]
  | _ => simp [Value.equal]

/-- **Values are equal only in the ways to match, with equal parts.**  The cases are those of the
comparison, in its order.  Mappings of distinct names with as many entries each have the same names;
and the numbers in exact values are integers. -/
theorem matches_of_equal (hv : Exact v) (hw : Exact w) (h : v.equal w = true) :
    Matches (fun x y => x.equal y = true) v w := by
  unfold Value.equal at h
  split at h
  · exact .null
  · exact .undefined
  · cases eq_of_beq h
    exact .text _
  · exact .list (equalItems_iff.1 h)
  · exact .tuple (equalItems_iff.1 h)
  · rw [Bool.and_eq_true, beq_iff_eq] at h
    cases hv with
    | mapping hes =>
        cases hw with
        | mapping hfs => exact .mapping hes hfs ((equalMappings_iff hes hfs).1 h)
  · cases eq_of_beq h
    exact .closure ..
  · cases eq_of_beq h
    exact .standard _
  · cases eq_of_beq h
    exact .host _
  · rw [Bool.and_eq_true] at h
    cases eq_of_beq h.1
    exact .tagged _ h.2
  · -- Only numbers are left.
    rw [hv.number?_eq, hw.number?_eq] at h
    cases hm : v.integer? with
    | none => simp [hm] at h
    | some m =>
        cases hn : w.integer? with
        | none => simp [hm, hn] at h
        | some n =>
            have same : m = n := by simpa [hm, hn, Number.compare?] using h
            exact .number hm (same ▸ hn)

/-! ### Reflexivity, symmetry and transitivity -/

theorem equal_refl {v : Value} (hv : Exact v) : v.equal v = true :=
  Matches.equal (.same hv fun _ hx => equal_refl (hx.exact hv))
termination_by sizeOf v
decreasing_by exact hx.sizeOf_lt

theorem equal_symm {v w : Value} (hv : Exact v) (hw : Exact w) (h : v.equal w = true) :
    w.equal v = true := by
  refine Matches.equal ((matches_of_equal hv hw h).parts.flip.imp fun y x => ?_)
  rintro ⟨⟨hx, hy⟩, h⟩
  exact equal_symm (hx.exact hv) (hy.exact hw) h
termination_by sizeOf v
decreasing_by exact hx.sizeOf_lt

theorem equal_trans {u v w : Value} (hu : Exact u) (hv : Exact v) (hw : Exact w)
    (h : u.equal v = true) (h' : v.equal w = true) : u.equal w = true := by
  have composed := (matches_of_equal hu hv h).parts.comp (matches_of_equal hv hw h').parts
  refine Matches.equal (composed.imp fun x z => ?_)
  rintro ⟨y, ⟨⟨hx, hy⟩, h⟩, ⟨-, hz⟩, h'⟩
  exact equal_trans (hx.exact hu) (hy.exact hv) (hz.exact hw) h h'
termination_by sizeOf u
decreasing_by exact hx.sizeOf_lt

theorem equal_comm (hv : Exact v) (hw : Exact w) : v.equal w = w.equal v :=
  Bool.eq_iff_iff.2 ⟨equal_symm hv hw, equal_symm hw hv⟩

/-- Equal values are equal to the same values. -/
theorem equal_congr (hu : Exact u) (hv : Exact v) (hw : Exact w) (h : v.equal w = true) :
    u.equal v = u.equal w :=
  Bool.eq_iff_iff.2 ⟨fun hv' => equal_trans hu hv hw hv' h,
    fun hw' => equal_trans hu hw hv hw' (equal_symm hv hw h)⟩

end FormLang.Value
