import FormLang.Proofs.Datum
import FormLang.Proofs.Hereditary
import FormLang.State

/-!
# Tags — well-tagged values and the names they fit

A callable is called as a macro or as a function by the tag that it carries.  A value is well tagged
when no tag in it is around another tag and none marks a closure as a function
(`Value.WellTagged`).  It fits a macro name when it is a macro or no callable, and any other name
when it is no macro and a closure in it stands without a tag (`FitsName`).

`tag` makes every well-tagged value fit (`tag_boundWell`).  A state is well tagged when each of its
frames binds only well-tagged values that fit their names.
-/

namespace FormLang

/-! ### Well-tagged values -/

/-- The value is a callable of the standard bindings or of the host, without a tag. -/
def Value.isBare : Value → Bool
  | .standard _ | .host _ => true
  | _ => false

namespace Value

/-- The value is a closure with the tag of a function.  No name asks for it: a closure is a macro or
stands without a tag. -/
def isClosureFunction : Value → Bool
  | .tagged .function fn => fn.isClosure
  | _ => false

/-- Inside the value, bodies of closures included, every tag is around a bare callable, or is that
of a macro around a closure. -/
inductive WellTagged : Value → Prop where
  | null : WellTagged .null
  | bool (b : Bool) : WellTagged (.bool b)
  | int (n : Int) : WellTagged (.int n)
  | float (x : Float) : WellTagged (.float x)
  | text (s : String) : WellTagged (.text s)
  | list {items : List Value} (h : ∀ v ∈ items, WellTagged v) : WellTagged (.list items)
  | tuple {items : List Value} (h : ∀ v ∈ items, WellTagged v) : WellTagged (.tuple items)
  | mapping {entries : List (String × Value)} (h : ∀ e ∈ entries, WellTagged e.2) :
      WellTagged (.mapping entries)
  | undefined : WellTagged .undefined
  | closure {id : Nat} {params : List String} {body : Value} {env : Chain} {options : Options}
      (h : WellTagged body) : WellTagged (.closure id params body env options)
  | standard (s : Standard) : WellTagged (.standard s)
  | host (name : String) : WellTagged (.host name)
  | bare {t : Tag} {fn : Value} (hb : fn.isBare = true) : WellTagged (.tagged t fn)
  | closureMacro {fn : Value} (hc : fn.isClosure = true) (h : WellTagged fn) :
      WellTagged (.tagged .expander fn)

namespace WellTagged

theorem hereditary : Hereditary WellTagged where
  null := .null
  bool := .bool
  int := .int
  float := .float
  text := .text
  undefined := .undefined
  list := ⟨fun h => by cases h; assumption, .list⟩
  tuple := ⟨fun h => by cases h; assumption, .tuple⟩
  mapping := ⟨fun h => by cases h; assumption, .mapping⟩

theorem of_isBare {v : Value} (h : v.isBare = true) : WellTagged v := by
  cases v with
  | standard s => exact .standard s
  | host name => exact .host name
  | _ => cases h

theorem of_tagged {t : Tag} {fn : Value} (h : WellTagged (.tagged t fn)) : WellTagged fn := by
  cases h with
  | bare hb => exact of_isBare hb
  | closureMacro _ h => exact h

/-- Data have no tags. -/
theorem of_datum {v : Value} (h : Json.Datum v) : WellTagged v := by
  induction h with
  | null => exact .null
  | bool b => exact .bool b
  | int n => exact .int n
  | float x => exact .float x
  | text s => exact .text s
  | list _ ih => exact .list ih
  | mapping _ _ ih => exact .mapping ih

end WellTagged

end Value

/-- The value may stand under the name.  Under a macro name a callable is a macro.  Under any other
name nothing is a macro, and a callable is a closure without a tag or a function around something
that is no closure. -/
def FitsName (name : String) (v : Value) : Prop :=
  if isMacroName name then v.isCallable = true → v.isMacro = true
  else v.isMacro = false ∧ (v.isCallable = true →
    v.isClosure = true ∨ ∃ fn, v = .tagged .function fn ∧ fn.isClosure = false)

/-- The value is well tagged, and may stand under the name. -/
structure BoundWell (name : String) (v : Value) : Prop where
  value : v.WellTagged
  fits : FitsName name v

theorem BoundWell.undefined (name : String) : BoundWell name .undefined := by
  refine ⟨.undefined, ?_⟩
  unfold FitsName
  split
  · exact nofun
  · exact ⟨rfl, nofun⟩

/-- Under its tag, a well-tagged callable is a bare one or a closure. -/
theorem Value.WellTagged.untagged {v : Value} (h : v.WellTagged) (hc : v.isCallable = true) :
    v.untagged.isBare = true ∨ v.untagged.isClosure = true ∧ v.untagged.WellTagged := by
  cases h with
  | closure h => exact .inr ⟨rfl, .closure h⟩
  | standard s => exact .inl rfl
  | host name => exact .inl rfl
  | bare hb => exact .inl hb
  | closureMacro hcl h => exact .inr ⟨hcl, h⟩
  | _ => cases hc

theorem Value.isClosure_of_isBare {v : Value} (h : v.isBare = true) : v.isClosure = false := by
  cases v with
  | standard s => rfl
  | host name => rfl
  | _ => cases h

/-- A closure carries no function tag where all is well tagged. -/
theorem Value.WellTagged.isClosureFunction_eq {v : Value} (h : v.WellTagged) :
    v.isClosureFunction = false := by
  cases h with
  | @bare t fn hb =>
      cases t with
      | function => exact Value.isClosure_of_isBare hb
      | expander => rfl
  | _ => rfl

/-- The tag that a callable has had does not matter for the one it gets. -/
theorem tag_of_isCallable (name : String) {v : Value} (h : v.isClosureFunction = false)
    (hc : v.isCallable = true) :
    tag name v = if isMacroName name then .tagged .expander v.untagged
      else if v.untagged.isClosure then v.untagged else .tagged .function v.untagged := by
  simp only [tag, hc, Bool.not_true, Bool.false_eq_true, if_false]
  cases v with
  | tagged t fn =>
      cases t with
      | function =>
          have hn : fn.isClosure = false := h
          simp [Value.untagged, hn]
      | expander => rfl
  | closure _ _ _ _ _ | standard _ | host _ => rfl
  | _ => cases hc

theorem tag_of_not_isCallable (name : String) {v : Value} (hc : ¬ v.isCallable = true) :
    tag name v = v := by
  simp [tag, hc]

/-- `tag` makes a well-tagged value fit any name. -/
theorem tag_boundWell (name : String) {v : Value} (h : v.WellTagged) :
    BoundWell name (tag name v) := by
  by_cases hc : v.isCallable = true
  · rw [tag_of_isCallable name h.isClosureFunction_eq hc]
    rcases h.untagged hc with hb | ⟨hcl, hw⟩
    · have hncl := Value.isClosure_of_isBare hb
      by_cases hm : isMacroName name = true
      · rw [if_pos hm]
        refine ⟨.bare hb, ?_⟩
        rw [FitsName, if_pos hm]
        exact fun _ => rfl
      · rw [if_neg hm, hncl, if_neg Bool.false_ne_true]
        refine ⟨.bare hb, ?_⟩
        rw [FitsName, if_neg hm]
        exact ⟨rfl, fun _ => .inr ⟨_, rfl, hncl⟩⟩
    · by_cases hm : isMacroName name = true
      · rw [if_pos hm]
        refine ⟨.closureMacro hcl hw, ?_⟩
        rw [FitsName, if_pos hm]
        exact fun _ => rfl
      · rw [if_neg hm, if_pos hcl]
        refine ⟨hw, ?_⟩
        rw [FitsName, if_neg hm]
        refine ⟨?_, fun _ => .inl hcl⟩
        generalize v.untagged = fn at hcl
        cases fn with
        | closure => rfl
        | _ => cases hcl
  · rw [tag_of_not_isCallable name hc]
    refine ⟨h, ?_⟩
    unfold FitsName
    split
    · exact fun k => absurd k hc
    · refine ⟨?_, fun k => absurd k hc⟩
      cases v with
      | tagged => exact absurd rfl hc
      | _ => rfl

/-! ### Well-tagged frames and states -/

/-- Whatever the frame binds is well tagged, and fits its name. -/
def Frame.WellTagged (f : Frame) : Prop :=
  ∀ name v, Entries.get? name f = some v → BoundWell name v

namespace Frame.WellTagged

theorem nil : Frame.WellTagged [] :=
  nofun

/-- A binding that is well tagged for its name. -/
theorem insert {f : Frame} (h : f.WellTagged) {name : String} {v : Value} (hv : BoundWell name v) :
    Frame.WellTagged (Entries.insert name v f) := by
  intro other w hw
  rw [Entries.get?_insert] at hw
  split at hw
  · rename_i hn
    cases hw
    exact hn ▸ hv
  · exact h other w hw

theorem ofEntries {entries : Entries Value} (h : ∀ e ∈ entries, e.2.WellTagged) :
    (Frame.ofEntries entries).WellTagged := by
  intro name v hv
  rw [Frame.ofEntries, Entries.get?_mapValues] at hv
  obtain ⟨w, hw, rfl⟩ := Option.map_eq_some_iff.1 hv
  exact tag_boundWell name (h _ (Entries.mem_of_get? hw))

theorem standard : Frame.standard.WellTagged := by
  refine ofEntries fun e he => ?_
  obtain ⟨s, -, rfl⟩ := List.mem_map.1 he
  exact .standard s

/-- Arguments are tagged for the parameters that they are bound to. -/
theorem bindArguments (params : List String) {f : Frame} {args : List Value} (h : f.WellTagged)
    (ha : ∀ v ∈ args, v.WellTagged) : (Frame.bindArguments f params args).WellTagged := by
  induction params generalizing f args with
  | nil => exact h
  | cons p params ih =>
      cases args with
      | nil => exact ih (h.insert (.undefined p)) ha
      | cons v args =>
          rw [List.forall_mem_cons] at ha
          exact ih (h.insert (tag_boundWell p ha.1)) ha.2

end Frame.WellTagged

/-- Every frame in the store is well tagged. -/
def State.WellTagged (s : State) : Prop :=
  ∀ (i : Nat) (f : Frame), s.frames[i]? = some f → f.WellTagged

namespace State.WellTagged

variable {s : State}

/-- The standard frame is well tagged. -/
theorem initial : State.initial.WellTagged := by
  intro i f hf
  cases i with
  | zero =>
      cases hf
      exact .standard
  | succ i => cases hf

theorem push (h : s.WellTagged) {f : Frame} (hf : f.WellTagged) :
    State.WellTagged { s with frames := s.frames.push f } := by
  intro i g hg
  rw [Array.getElem?_push] at hg
  split at hg
  · cases hg
    exact hf
  · exact h i g hg

/-- A binding written into a frame, which may be any. -/
theorem modify (h : s.WellTagged) (i : Nat) {name : String} {v : Value} (hv : BoundWell name v) :
    State.WellTagged { s with frames := s.frames.modify i (Entries.insert name v) } := by
  intro j g hg
  rw [Array.getElem?_modify] at hg
  split at hg
  · obtain ⟨f, hf, rfl⟩ := Option.map_eq_some_iff.1 hg
    exact (h j f hf).insert hv
  · exact h j g hg

/-- What a name is bound to fits the name, in every environment. -/
theorem resolve (h : s.WellTagged) {env : Chain} {name : String} {v : Value}
    (hv : s.resolve env name = some v) : BoundWell name v := by
  obtain ⟨i, -, hi⟩ := List.exists_of_findSome?_eq_some hv
  obtain ⟨f, hf, hg⟩ := Option.bind_eq_some_iff.1 hi
  exact h i f hf name v hg

end State.WellTagged

end FormLang
