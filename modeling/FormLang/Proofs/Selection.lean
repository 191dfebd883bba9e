import FormLang.Standard.Apply
import Mathlib.Data.List.Induction
import Mathlib.Data.List.Nodup
import Mathlib.Data.List.Perm.Basic

/-!
# Selection — a mapping in two parts

`pick` goes through the names that it is given and takes up the entry under each; `omit` goes
through the entries and leaves out those that are named.  Names may come more than once, and there
may be nothing under them.  Still **the two part the mapping** (`pick_and_omit_split`): every entry
is in one of the results and not in the other (`Entries.Split`).

Both come down to which entries there are: those of the mapping with a name among the given ones
(`Entries.mem_selected`), and those without (`Entries.unnamed`).  So to pick twice is to pick what
both times is named, and to leave out twice is to leave out what is named at one time or the other.
-/

namespace FormLang

namespace Entries

variable {α : Type} {es : Entries α} {names : List String}

theorem mem_iff_get? (hes : (keys es).Nodup) {e : String × α} :
    e ∈ es ↔ get? e.1 es = some e.2 :=
  ⟨get?_of_mem hes, mem_of_get?⟩

/-- The entries under the names, taken up one name after the other. -/
def selected (es : Entries α) (names : List String) : Entries α :=
  names.foldl (fun picked name => (get? name es).elim picked (insert name · picked)) []

/-- The entries under other names. -/
def unnamed (es : Entries α) (names : List String) : Entries α :=
  es.filter fun e => e.1 ∉ names

theorem selected_append_singleton (name : String) : selected es (names ++ [name]) =
    (get? name es).elim (selected es names) (insert name · (selected es names)) := by
  simp [selected]

/-- The names that are selected are found as before, and no others. -/
theorem get?_selected (name : String) :
    get? name (selected es names) = if name ∈ names then get? name es else none := by
  induction names using List.reverseRecOn with
  | nil => rfl
  | append_singleton names n ih =>
      rw [selected_append_singleton]
      cases hn : get? n es with
      | none => by_cases same : name = n <;> simp_all
      | some v =>
          by_cases same : name = n
          · simp_all [get?_insert]
          · simp_all [get?_insert, Ne.symm same]

theorem mem_keys_selected {name : String} :
    name ∈ keys (selected es names) ↔ name ∈ names ∧ name ∈ keys es := by
  rw [← not_iff_not, ← get?_eq_none_iff, get?_selected]
  split <;> simp_all [get?_eq_none_iff]

/-- Names are listed in the order in which they are first given. -/
theorem keys_selected_pairwise :
    (keys (selected es names)).Pairwise fun m n => names.idxOf m < names.idxOf n := by
  induction names using List.reverseRecOn with
  | nil => exact .nil
  | append_singleton names name ih =>
      have earlier : (keys (selected es names)).Pairwise fun m n =>
          (names ++ [name]).idxOf m < (names ++ [name]).idxOf n := by
        refine ih.imp_of_mem fun hm hn lt => ?_
        rwa [List.idxOf_append_of_mem (mem_keys_selected.1 hm).1,
          List.idxOf_append_of_mem (mem_keys_selected.1 hn).1]
      rw [selected_append_singleton]
      cases hv : get? name es with
      | none => exact earlier
      | some v =>
          rw [Option.elim_some, keys_insert]
          split
          · exact earlier
          · rename_i new
            -- The name has not been given before, else its entry would have been taken up.
            have first : name ∉ names := fun hm => new <| mem_keys_selected.2
              ⟨hm, List.mem_map.2 ⟨_, mem_of_get? hv, rfl⟩⟩
            refine List.pairwise_append.2 ⟨earlier, List.pairwise_singleton _ _, ?_⟩
            intro m hm n hn
            cases List.mem_singleton.1 hn
            have given := (mem_keys_selected.1 hm).1
            rw [List.idxOf_append_of_mem given, List.idxOf_append_of_notMem first]
            exact Nat.lt_add_right _ (List.idxOf_lt_length_iff.2 given)

theorem nodup_keys_selected : (keys (selected es names)).Nodup := by
  refine keys_selected_pairwise.imp fun {m n} lt => ?_
  rintro rfl
  exact Nat.lt_irrefl _ lt

theorem mem_selected (hes : (keys es).Nodup) {e : String × α} :
    e ∈ selected es names ↔ e ∈ es ∧ e.1 ∈ names := by
  rw [mem_iff_get? nodup_keys_selected, get?_selected, mem_iff_get? hes]
  split <;> simp_all

theorem mem_unnamed {e : String × α} : e ∈ unnamed es names ↔ e ∈ es ∧ e.1 ∉ names := by
  simp [unnamed]

/-- Distinct names stand in distinct entries. -/
theorem nodup_of_nodup_keys (hes : (keys es).Nodup) : es.Nodup :=
  List.Nodup.of_map _ hes

theorem nodup_keys_unnamed (hes : (keys es).Nodup) : (keys (unnamed es names)).Nodup :=
  hes.sublist (List.filter_sublist.map _)

/-- The entries have been parted: those with one of the names, in the order in which these are first
given, and the others, in the order that they had. -/
structure Split (es : Entries α) (names : List String) (picked left : Entries α) : Prop where
  /-- Every entry is in one of the parts and not in the other. -/
  entries : (picked ++ left).Perm es
  named : ∀ e ∈ picked, e.1 ∈ names
  unnamed : ∀ e ∈ left, e.1 ∉ names
  given : (keys picked).Pairwise fun m n => names.idxOf m < names.idxOf n
  kept : left.Sublist es

/-- **The entries that are selected and those that are left are all entries, each once.** -/
theorem split_selected (hes : (keys es).Nodup) (names : List String) :
    es.Split names (selected es names) (unnamed es names) where
  entries := by
    have disjoint : (selected es names).Disjoint (es.unnamed names) :=
      fun _ hp hl => (mem_unnamed.1 hl).2 ((mem_selected hes).1 hp).2
    have distinct := List.nodup_append'.2 ⟨nodup_of_nodup_keys nodup_keys_selected,
      nodup_of_nodup_keys (nodup_keys_unnamed hes), disjoint⟩
    refine (List.perm_ext_iff_of_nodup distinct (nodup_of_nodup_keys hes)).2 fun e => ?_
    rw [List.mem_append, mem_selected hes, mem_unnamed, ← and_or_left]
    exact and_iff_left (Classical.em _)
  named _ he := ((mem_selected hes).1 he).2
  unnamed _ he := (mem_unnamed.1 he).2
  given := keys_selected_pairwise
  kept := List.filter_sublist

theorem selected_selected (hes : (keys es).Nodup) {others common : List String}
    (hc : ∀ name, name ∈ common ↔ name ∈ names ∧ name ∈ others) :
    (selected (selected es names) others).Perm (selected es common) := by
  refine (List.perm_ext_iff_of_nodup (nodup_of_nodup_keys nodup_keys_selected)
    (nodup_of_nodup_keys nodup_keys_selected)).2 fun e => ?_
  rw [mem_selected nodup_keys_selected, mem_selected hes, mem_selected hes, hc, and_assoc]

theorem unnamed_unnamed (others : List String) :
    unnamed (unnamed es names) others = unnamed es (names ++ others) := by
  simp [unnamed, List.filter_filter, Bool.and_comm]

end Entries

/-! ### The functions -/

/-- The value is a sequence of the names. -/
inductive Value.Lists (names : List String) : Value → Prop where
  | list : Lists names (.list (names.map .text))
  | tuple : Lists names (.tuple (names.map .text))

namespace Projection

variable {names : List String} {ks : Value} (hk : ks.Lists names) (es : Entries Value)
include hk

/-- `pick` selects the names that its keys are.  By induction on the keys, picked one after the
other. -/
theorem pick_eq_selected : pick ks (.mapping es) = .ok (.mapping (es.selected names)) := by
  have each : ∀ picked, (names.map Value.text).foldlM (pickOne es) picked = .ok (names.foldl
      (fun picked name => (Entries.get? name es).elim picked (Entries.insert name · picked))
      picked) := by
    clear hk
    induction names with
    | nil => exact fun _ => rfl
    | cons name names ih =>
        intro picked
        have one : pickOne es picked (.text name) = .ok ((Entries.get? name es).elim picked
            (Entries.insert name · picked)) := by
          cases hv : Entries.get? name es <;> simp [pickOne, isKey, hv]
        rw [List.map_cons, List.foldlM_cons, one]
        exact ih _
  have sequence : (Except.ok (names.map Value.text) >>= fun keys =>
      keys.foldlM (pickOne es) [] >>= fun picked => pure (Value.mapping picked) :
        Except Fault Value) = .ok (.mapping (es.selected names)) :=
    congrArg (· >>= fun picked => pure (Value.mapping picked)) (each [])
  cases hk <;> exact sequence

/-- `omit` leaves the entries that its keys do not name. -/
theorem without_eq_unnamed : without ks (.mapping es) = .ok (.mapping (es.unnamed names)) := by
  have named : ∀ name, ((names.map Value.text).any fun v => v.equal (.text name)) =
      decide (name ∈ names) := by
    intro name
    rw [Bool.eq_iff_iff]
    simp [Value.equal]
  cases hk <;> simp [without, names?, named, Entries.unnamed]

end Projection

/-- **`pick` and `omit` part a mapping.**  Given any sequence of names both return, and every entry
of the mapping is in exactly one of the results, as `Entries.Split` says.  To pick by further names
from what has been picked gives the entries that the common names pick; to leave out by further
names from what has been left gives what all the names leave, in the same order. -/
theorem pick_and_omit_split {es : Entries Value} (hes : (Entries.keys es).Nodup)
    {names : List String} {ks : Value} (hk : ks.Lists names) :
    ∃ picked left, Standard.pick.apply [ks, .mapping es] = .ok (.mapping picked) ∧
      Standard.omit.apply [ks, .mapping es] = .ok (.mapping left) ∧
      es.Split names picked left ∧
      ∀ {others : List String} {ls : Value}, ls.Lists others →
        (∀ {common : List String} {cs : Value}, cs.Lists common →
          (∀ name, name ∈ common ↔ name ∈ names ∧ name ∈ others) →
          ∃ twice once, Standard.pick.apply [ls, .mapping picked] = .ok (.mapping twice) ∧
            Standard.pick.apply [cs, .mapping es] = .ok (.mapping once) ∧ twice.Perm once) ∧
        ∀ {all : Value}, all.Lists (names ++ others) →
          ∃ rest, Standard.omit.apply [ls, .mapping left] = .ok (.mapping rest) ∧
            Standard.omit.apply [all, .mapping es] = .ok (.mapping rest) := by
  have picks := @Projection.pick_eq_selected
  have omits := @Projection.without_eq_unnamed
  refine ⟨_, _, picks hk es, omits hk es, Entries.split_selected hes names, ?_⟩
  intro others ls hl
  refine ⟨fun hc common => ?_, fun ha => ?_⟩
  · exact ⟨_, _, picks hl _, picks hc es, Entries.selected_selected hes common⟩
  · refine ⟨_, omits hl _, ?_⟩
    rw [Entries.unnamed_unnamed]
    exact omits ha es

/-- Four letters and their places. -/
def letters : Entries Value :=
  [("a", .int 1), ("b", .int 2), ("c", .int 3), ("d", .int 4)]

/-- A name that comes twice, and one with nothing under it.  Letters are picked in the order of the
names and left in their own. -/
theorem pick_and_omit_split_repeated :
    (Entries.keys letters).Nodup ∧
    Standard.pick.apply [.list [.text "c", .text "a", .text "?", .text "c"], .mapping letters] =
      .ok (.mapping [("c", .int 3), ("a", .int 1)]) ∧
    Standard.omit.apply [.list [.text "c", .text "a", .text "?", .text "c"], .mapping letters] =
      .ok (.mapping [("b", .int 2), ("d", .int 4)]) ∧
    letters.Split ["c", "a", "?", "c"] [("c", .int 3), ("a", .int 1)]
      [("b", .int 2), ("d", .int 4)] ∧
    ∃ rest, Standard.omit.apply [.tuple [.text "d", .text "a"],
        .mapping [("b", .int 2), ("d", .int 4)]] = .ok (.mapping rest) ∧
      Standard.omit.apply [.list [.text "c", .text "a", .text "?", .text "c", .text "d", .text "a"],
        .mapping letters] = .ok (.mapping rest) := by
  have distinct : (Entries.keys letters).Nodup := by decide
  obtain ⟨picked, left, hp, hl, split, further⟩ :=
    pick_and_omit_split distinct (@Value.Lists.list ["c", "a", "?", "c"])
  cases hp
  cases hl
  exact ⟨distinct, rfl, rfl, split, (further (@Value.Lists.tuple ["d", "a"])).2 .list⟩

end FormLang
