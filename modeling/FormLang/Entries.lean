/-!
# FormLang — named entries

Mappings and frames are lists of named entries in the order in which the names first came in.
Inserting under a name that is there replaces the value and keeps the place; any other name goes
to the end.  So `insert` never repeats a name (`nodup_keys_insert`), and reads see the last write
(`get?_insert`).
-/

namespace FormLang

/-- Named entries, oldest name first. -/
abbrev Entries (α : Type) := List (String × α)

namespace Entries

variable {α β : Type}

/-- The value of the first entry called `name`. -/
def get? (name : String) : Entries α → Option α
  | [] => none
  | (n, v) :: rest => if n = name then some v else get? name rest

/-- Some entry is called `name`. -/
def has (name : String) (es : Entries α) : Bool :=
  (get? name es).isSome

/-- Writes `v` under `name`: in the place of an entry of that name, else at the end. -/
def insert (name : String) (v : α) : Entries α → Entries α
  | [] => [(name, v)]
  | (n, w) :: rest => if n = name then (n, v) :: rest else (n, w) :: insert name v rest

/-- The names, in order. -/
def keys (es : Entries α) : List String :=
  es.map Prod.fst

/-- The same names with their values changed. -/
def mapValues (f : String → α → β) (es : Entries α) : Entries β :=
  es.map fun e => (e.1, f e.1 e.2)

@[simp] theorem get?_nil (name : String) : get? name ([] : Entries α) = none := rfl

theorem get?_cons (name n : String) (v : α) (es : Entries α) :
    get? name ((n, v) :: es) = if n = name then some v else get? name es := rfl

/-- Writing under a name is seen under that name alone. -/
theorem get?_insert (name other : String) (v : α) (es : Entries α) :
    get? other (insert name v es) = if name = other then some v else get? other es := by
  induction es with
  | nil => rfl
  | cons e rest ih =>
    obtain ⟨n, w⟩ := e
    by_cases hn : n = name
    · subst hn
      by_cases ho : n = other <;> simp [insert, get?, ho]
    · by_cases ho : n = other
      · subst ho
        simp [insert, get?, hn, Ne.symm hn]
      · simp [insert, get?, hn, ho, ih]

@[simp] theorem keys_nil : keys ([] : Entries α) = [] := rfl

@[simp] theorem keys_cons (n : String) (v : α) (es : Entries α) :
    keys ((n, v) :: es) = n :: keys es := rfl

@[simp] theorem keys_mapValues (f : String → α → β) (es : Entries α) :
    keys (mapValues f es) = keys es := by
  simp [keys, mapValues]

/-- What is done to all values is done to the one that is found. -/
theorem get?_mapValues (f : String → α → β) (name : String) (es : Entries α) :
    get? name (mapValues f es) = (get? name es).map (f name) := by
  induction es with
  | nil => rfl
  | cons e rest ih =>
    obtain ⟨n, v⟩ := e
    by_cases hn : n = name
    · subst hn
      simp [mapValues, get?]
    · simpa [mapValues, get?, hn] using ih

/-- What is found under a name is an entry. -/
theorem mem_of_get? {name : String} {v : α} {es : Entries α} (h : get? name es = some v) :
    (name, v) ∈ es := by
  induction es with
  | nil => cases h
  | cons e rest ih =>
    obtain ⟨n, w⟩ := e
    rw [get?_cons] at h
    split at h
    · cases h; subst n; exact .head _
    · exact .tail _ (ih h)

/-- Where no name is repeated, every entry is found. -/
theorem get?_of_mem {es : Entries α} (hn : (keys es).Nodup) {name : String} {v : α}
    (h : (name, v) ∈ es) : get? name es = some v := by
  induction es with
  | nil => cases h
  | cons e rest ih =>
    obtain ⟨n, w⟩ := e
    obtain ⟨fresh, hn⟩ := List.nodup_cons.mp hn
    rw [get?_cons]
    rcases List.mem_cons.mp h with h | h
    · cases h
      exact if_pos rfl
    · have other : n ≠ name := fun same => fresh (List.mem_map.mpr ⟨_, h, same.symm⟩)
      rw [if_neg other, ih hn h]

/-- Nothing is found exactly under the names that no entry has. -/
theorem get?_eq_none_iff {name : String} {es : Entries α} :
    get? name es = none ↔ name ∉ keys es := by
  induction es with
  | nil => simp
  | cons e rest ih =>
    obtain ⟨n, v⟩ := e
    by_cases hn : n = name
    · simp [get?, hn]
    · simp [get?, hn, ih, Ne.symm hn]

theorem has_iff_mem_keys {name : String} {es : Entries α} :
    has name es = true ↔ name ∈ keys es := by
  cases h : get? name es with
  | none => simp [has, h, get?_eq_none_iff.mp h]
  | some v =>
    have : ¬ name ∉ keys es := fun hn => by simp [get?_eq_none_iff.mpr hn] at h
    simp [has, h, Classical.not_not.mp this]

/-- A name that is there keeps its place; a new one goes to the end. -/
theorem keys_insert (name : String) (v : α) (es : Entries α) :
    keys (insert name v es) = if name ∈ keys es then keys es else keys es ++ [name] := by
  induction es with
  | nil => rfl
  | cons e rest ih =>
    obtain ⟨n, w⟩ := e
    by_cases hn : n = name
    · subst hn
      simp [insert]
    · by_cases hm : name ∈ keys rest <;> simp [insert, hn, ih, hm, Ne.symm hn]

/-- A new name goes to the end. -/
theorem insert_of_not_mem {name : String} {es : Entries α} (h : name ∉ keys es) (v : α) :
    insert name v es = es ++ [(name, v)] := by
  induction es with
  | nil => rfl
  | cons e rest ih =>
    obtain ⟨n, w⟩ := e
    rw [keys_cons, List.mem_cons, not_or] at h
    simp [insert, Ne.symm h.1, ih h.2]

/-- A property of all values is kept by writing one that has it. -/
theorem forall_mem_insert {P : α → Prop} {name : String} {v : α} {es : Entries α}
    (h : ∀ e ∈ es, P e.2) (hv : P v) : ∀ e ∈ insert name v es, P e.2 := by
  induction es with
  | nil => simpa [insert] using hv
  | cons e rest ih =>
    obtain ⟨n, w⟩ := e
    rw [List.forall_mem_cons] at h
    rw [insert]
    split
    · exact List.forall_mem_cons.mpr ⟨hv, h.2⟩
    · exact List.forall_mem_cons.mpr ⟨h.1, ih h.2⟩

/-- Distinct names stay distinct: a name that is there keeps its place, another comes last. -/
theorem nodup_keys_insert {es : Entries α} (name : String) (v : α) (h : (keys es).Nodup) :
    (keys (insert name v es)).Nodup := by
  rw [keys_insert]
  split
  · exact h
  · rename_i hn
    exact List.nodup_append.mpr ⟨h, by simp, fun a ha b hb => by
      rw [List.mem_singleton.mp hb]
      exact fun hab => hn (hab ▸ ha)⟩

end Entries

end FormLang
