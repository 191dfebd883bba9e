import FormLang.Proofs.LetFrames
import FormLang.Proofs.Templates

/-!
# Definitions — the order of the functions in a `let`

A definition is a `lambda` with its body and its parameters, or a quotation.  Its evaluation looks
up no name and cannot fail; all that it does to the state is to give a function its number.  So the
frame of a `let` that binds definitions only can be written down at once: the functions are numbered
in the order in which they stand (`numbered`), and all of them capture the frame that they are bound
in.

In another order the functions have other numbers, and the frame has its entries in another order.
Neither matters: the renaming that pairs the functions of one name (`Renaming.reordered`) matches
the two states in which the body starts, and **the order of definitions does not matter**
(`definitions_in_any_order`).
-/

namespace FormLang

open Expansion (quotation)

/-- What a `let` can bind in any order. -/
inductive Definition where
  | function (params : List String) (body : Value)
  | datum (v : Value)

namespace Definition

/-- The definition that an expression is: a `lambda` with a body, whose parameters are texts, or a
quotation. -/
def of? : Value → Option Definition
  | .mapping es =>
    match SpecialForm.ofEntries? es with
    | some (.lambda params (some body)) =>
      (textsOf? params.operands).map fun names => .function names body
    | some (.quote v) => some (.datum v)
    | _ => none
  | _ => none

/-- What the definition binds, when it is given the number `i`. -/
def value (env : Chain) (options : Options) (i : Nat) : Definition → Value
  | .function params body => .closure i params body env options
  | .datum v => v

/-- How many closures the definition makes. -/
def closures : Definition → Nat
  | .function .. => 1
  | .datum _ => 0

end Definition

theorem eq_map_of_textsOf? {vs : List Value} {names : List String} (h : textsOf? vs = some names) :
    vs = names.map .text := by
  fun_induction textsOf? vs generalizing names with
  | case1 =>
      cases h
      rfl
  | case2 name rest ih =>
      obtain ⟨others, ho, rfl⟩ := Option.map_eq_some_iff.1 h
      rw [List.map_cons, ih ho]
  | case3 => cases h

/-- To evaluate a definition is to number it. -/
theorem run_definition {e : Value} {d : Definition} (h : Definition.of? e = some d) (host : Host)
    (env : Chain) (options : Options) (fuel : Nat) (s : State) :
    ∃ log, (run host (fuel + 1) (.eval e env options)).runFrom s =
      some (.ok (d.value env options s.closures),
        { s with closures := s.closures + d.closures, log := log }) := by
  unfold Definition.of? at h
  split at h
  · rename_i es
    have form : ∀ form, SpecialForm.ofEntries? es = some form →
        (run host (fuel + 1) (.eval (.mapping es) env options)).runFrom s =
          (Eval.special (run host fuel) env options form).runFrom
            { s with log := .specialForm form.kind :: s.log } := by
      intro form hf
      simp only [run, Eval.step, Eval.expression, hf]
      rfl
    split at h
    · rename_i params body hf
      obtain ⟨names, hn, rfl⟩ := Option.map_eq_some_iff.1 h
      refine ⟨.specialForm .lambda :: s.log, (form _ hf).trans ?_⟩
      rw [Eval.special, eq_map_of_textsOf? hn, mapM_parameter]
      rfl
    · rename_i v hf
      cases h
      exact ⟨_, form _ hf⟩
    · cases h
  · cases h

/-! ### Numbers -/

/-- The definitions, each with the number of closures that have been made when its turn comes. -/
def numbered : Entries Definition → Nat → Entries (Definition × Nat)
  | [], _ => []
  | (name, d) :: rest, c => (name, d, c) :: numbered rest (c + d.closures)

/-- How many closures the definitions make. -/
def closuresMade : Entries Definition → Nat
  | [] => 0
  | (_, d) :: rest => d.closures + closuresMade rest

/-- What the definitions bind, in the environment that they see. -/
def madeBy (env : Chain) (options : Options) (defs : Entries Definition) (c : Nat) :
    Entries Value :=
  Entries.mapValues (fun _ p => p.1.value env options p.2) (numbered defs c)

section Numbered

variable {defs : Entries Definition} {c i : Nat} {name name' : String} {d d' : Definition}

/-- Numbering the definitions changes none of them. -/
theorem get?_numbered (defs : Entries Definition) (c : Nat) (name : String) :
    (Entries.get? name (numbered defs c)).map Prod.fst = Entries.get? name defs := by
  induction defs generalizing c with
  | nil => rfl
  | cons e rest ih =>
      obtain ⟨n, d⟩ := e
      simp only [numbered, Entries.get?_cons]
      split
      · rfl
      · exact ih _

theorem keys_numbered (defs : Entries Definition) (c : Nat) :
    Entries.keys (numbered defs c) = Entries.keys defs := by
  induction defs generalizing c with
  | nil => rfl
  | cons e rest ih => exact congrArg (e.1 :: ·) (ih _)

/-- A definition gets its number among those that all of them take. -/
theorem numbered_le (h : Entries.get? name (numbered defs c) = some (d, i)) :
    c ≤ i ∧ i + d.closures ≤ c + closuresMade defs := by
  induction defs generalizing c with
  | nil => cases h
  | cons e rest ih =>
      simp only [numbered, Entries.get?_cons] at h
      rw [closuresMade]
      split at h
      · cases h
        omega
      · have := ih h
        omega

/-- No two functions have one number. -/
theorem numbered_injective (h : Entries.get? name (numbered defs c) = some (d, i))
    (h' : Entries.get? name' (numbered defs c) = some (d', i)) (hd : d.closures = 1)
    (hd' : d'.closures = 1) : name = name' := by
  induction defs generalizing c with
  | nil => cases h
  | cons e rest ih =>
      simp only [numbered, Entries.get?_cons] at h h'
      split at h <;> split at h'
      · rename_i hn hn'
        exact hn.symm.trans hn'
      · cases h
        have := (numbered_le h').1
        omega
      · cases h'
        have := (numbered_le h).1
        omega
      · exact ih h h'

end Numbered

/-! ### The frame of definitions -/

/-- The expressions are the definitions. -/
def DefinedBy (es : Entries Value) (defs : Entries Definition) : Prop :=
  Entries.Forall₂ (fun e d => Definition.of? e = some d) es defs

/-- The state in which the body of a `let` starts that binds the definitions. -/
def State.defining (s : State) (env : Chain) (options : Options) (defs : Entries Definition)
    (log : List Event) : State where
  frames := s.frames.push
    (Frame.bindAll [] (madeBy (s.frames.size :: env) options defs s.closures))
  closures := s.closures + closuresMade defs
  log := log

section Frame

variable {es : Entries Value} {defs : Entries Definition}

/-- Definitions add what they make to a frame, whatever it binds before. -/
theorem fills_definitions (h : DefinedBy es defs) (host : Host) (inner : Chain) (options : Options)
    (fuel : Nat) (frames : Array Frame) (f : Frame) (c : Nat) (log : List Event) :
    ∃ log', Fills (run host (fuel + 1)) frames.size inner options es ⟨frames.push f, c, log⟩
      (madeBy inner options defs c)
      ⟨frames.push (f.bindAll (madeBy inner options defs c)), c + closuresMade defs, log'⟩ := by
  induction h generalizing f c log with
  | nil => exact ⟨log, .nil _⟩
  | @cons name e d es defs hd _ ih =>
      obtain ⟨log₁, made⟩ := run_definition hd host inner options fuel ⟨frames.push f, c, log⟩
      obtain ⟨log', others⟩ := ih (Entries.insert name (tag name (d.value inner options c)) f)
        (c + d.closures) log₁
      rw [← modify_push_size frames f, Nat.add_assoc] at others
      exact ⟨log', .cons made others⟩

/-- Definitions are bound without looking anything up, so their frame can be given outright. -/
theorem bindFrame_definitions (h : DefinedBy es defs) (host : Host) (env : Chain)
    (options : Options) (fuel : Nat) (s : State) :
    ∃ log, (Eval.bindFrame (run host (fuel + 1)) (.mapping es) env options).runFrom s =
      some (.ok (s.frames.size :: env), s.defining env options defs log) := by
  obtain ⟨log, fills⟩ := fills_definitions h host (s.frames.size :: env) options fuel s.frames []
    s.closures s.log
  exact ⟨log, bindFrame_ok_iff.2 ⟨rfl, _, fills⟩⟩

/-- A `let` of definitions comes down to its body. -/
theorem run_let_definitions (h : DefinedBy es defs) {form : Entries Value} {body : Value}
    (hf : SpecialForm.ofEntries? form = some (.letIn (.mapping es) (some body))) (host : Host)
    (env : Chain) (options : Options) (fuel : Nat) (s : State) :
    ∃ log, (run host (fuel + 1) (.eval (.mapping form) env options)).runFrom s =
      (run host fuel (.eval body (s.frames.size :: env) options)).runFrom
        (s.defining env options defs log) := by
  have unfolded : (run host (fuel + 1) (.eval (.mapping form) env options)).runFrom s =
      (Eval.bindFrame (run host fuel) (.mapping es) env options >>= fun inner =>
        run host fuel (.eval body inner options)).runFrom s.inLet := step_let hf _ env options s
  cases fuel with
  | zero =>
      -- Without fuel for the body there is none for the first binding either.
      refine ⟨s.log, unfolded.trans ?_⟩
      cases es with
      | nil => rfl
      | cons e es => rfl
  | succ fuel =>
      obtain ⟨log, bound⟩ := bindFrame_definitions h host env options fuel s.inLet
      exact ⟨log, by rw [unfolded, EvalM.runFrom_bind, bound]; rfl⟩

end Frame

/-! ### Reordering -/

/-- The closures are old, and the same, or the functions that one definition has become. -/
def SameFunction (c : Nat) (defs defs' : Entries Definition) (i j : Nat) : Prop :=
  (i = j ∧ i < c) ∨ ∃ name d, d.closures = 1 ∧
    Entries.get? name (numbered defs c) = some (d, i) ∧
    Entries.get? name (numbered defs' c) = some (d, j)

/-- Closures correspond one to one: an old one only to itself, and a new one to that of its name,
since a number belongs to one name. -/
theorem SameFunction.one_to_one {c : Nat} {defs defs' : Entries Definition} {i j i' j' : Nat}
    (h : SameFunction c defs defs' i i') (h' : SameFunction c defs defs' j j') :
    i = j ↔ i' = j' := by
  obtain ⟨rfl, hi⟩ | ⟨name, d, hd, hi, hi'⟩ := h <;>
    obtain ⟨rfl, hj⟩ | ⟨other, e, he, hj, hj'⟩ := h'
  · rfl
  · have := numbered_le hj
    have := numbered_le hj'
    omega
  · have := numbered_le hi
    have := numbered_le hi'
    omega
  · -- Both are functions; a number belongs to one name on either side.
    constructor
    · rintro rfl
      obtain rfl := numbered_injective hi hj hd he
      rw [hi'] at hj'
      cases hj'
      rfl
    · rintro rfl
      obtain rfl := numbered_injective hi' hj' hd he
      rw [hi] at hj
      cases hj
      rfl

/-- The frames within the extent and one more correspond to themselves, the closures that are new if
they are one function. -/
def Renaming.reordered (x : Extent) (defs defs' : Entries Definition) : Renaming where
  frames i j := i = j ∧ i < x.frames + 1
  closures := SameFunction x.closures defs defs'
  frames_iff := (Renaming.same ⟨x.frames + 1, 0⟩).frames_iff
  closures_iff := SameFunction.one_to_one

theorem Renaming.same_le_reordered (x : Extent) (defs defs' : Entries Definition) :
    (Renaming.same x).Le (.reordered x defs defs') :=
  ⟨fun h => ⟨h.1, Nat.lt_succ_of_lt h.2⟩, .inl⟩

/-- What a definition holds of expressions or data. -/
def Definition.content : Definition → Value
  | .function _ body => body
  | .datum v => v

section Reordered

variable {held : String → Extent} {s : State} {env : Chain} {defs defs' : Entries Definition}

theorem chain_reordered (there : ∀ i ∈ env, i < s.frames.size) :
    List.Forall₂ (Renaming.reordered s.extent defs defs').frames (s.frames.size :: env)
      (s.frames.size :: env) :=
  .cons ⟨rfl, Nat.lt_succ_self _⟩
    (List.forall₂_same.2 fun i hi => ⟨rfl, Nat.lt_succ_of_lt (there i hi)⟩)

/-- The frames of the two orders bind the same names to the same data and the same functions. -/
theorem frames_reordered (perm : defs.Perm defs') (distinct : (Entries.keys defs).Nodup)
    (known : ∀ e ∈ defs, e.2.content.Known held s.extent) (there : ∀ i ∈ env, i < s.frames.size)
    (options : Options) :
    Frame.Alike ((Renaming.reordered s.extent defs defs').link held)
      (Frame.bindAll [] (madeBy (s.frames.size :: env) options defs s.closures))
      (Frame.bindAll [] (madeBy (s.frames.size :: env) options defs' s.closures)) := by
  have bound : ∀ {defs : Entries Definition}, (Entries.keys defs).Nodup → ∀ name,
      Entries.get? name
        (Frame.bindAll [] (madeBy (s.frames.size :: env) options defs s.closures)) =
      (Entries.get? name (numbered defs s.closures)).map fun p =>
        tag name (p.1.value (s.frames.size :: env) options p.2) := by
    intro defs hk name
    rw [Frame.get?_bindAll_nil (by rwa [madeBy, Entries.keys_mapValues, keys_numbered]),
      get?_ofEntries, madeBy, Entries.get?_mapValues, Option.map_map]
    rfl
  intro name
  rw [bound distinct, bound ((perm.map Prod.fst).nodup distinct)]
  have found := get?_numbered defs s.closures name
  have found' := get?_numbered defs' s.closures name
  rw [← Entries.get?_perm perm distinct] at found'
  cases hd : Entries.get? name defs with
  | none =>
      rw [hd] at found found'
      rw [Option.map_eq_none_iff.1 found, Option.map_eq_none_iff.1 found']
      exact .none
  | some d =>
      rw [hd] at found found'
      obtain ⟨⟨d₁, i⟩, hi, (rfl : d₁ = d)⟩ := Option.map_eq_some_iff.1 found
      obtain ⟨⟨d₂, j⟩, hj, (rfl : d₂ = d₁)⟩ := Option.map_eq_some_iff.1 found'
      rw [hi, hj]
      refine .some (tag_alike name ?_)
      have content := (known _ (Entries.mem_of_get? hd)).mono
        (Renaming.same_le_reordered s.extent defs defs').link
      cases d₂ with
      | function params body =>
          exact .closure (.inr ⟨name, _, rfl, hi, hj⟩) content (chain_reordered there) rfl trivial
      | datum v => exact content

/-- **The states after definitions in two orders are matched.**  Each name is bound on both sides,
to the same value or to functions that correspond; and these have captured environments that do. -/
theorem matched_reordered (closed : s.Closed held) (perm : defs.Perm defs')
    (distinct : (Entries.keys defs).Nodup) (known : ∀ e ∈ defs, e.2.content.Known held s.extent)
    (there : ∀ i ∈ env, i < s.frames.size) (options : Options) (log log' : List Event) :
    Matched held (.reordered s.extent defs defs') (s.defining env options defs log)
      (s.defining env options defs' log') := by
  constructor
  · rintro i j ⟨rfl, hi⟩
    rcases Nat.lt_succ_iff_lt_or_eq.1 hi with hi | rfl
    · obtain ⟨f, g, hf, hg, hfg⟩ := closed.frames ⟨rfl, hi⟩
      have kept : ∀ h : Frame, (s.frames.push h)[i]? = s.frames[i]? := fun h => by
        rw [Array.getElem?_push, if_neg (Nat.ne_of_lt hi : i ≠ s.frames.size)]
      exact ⟨f, g, (kept _).trans hf, (kept _).trans hg,
        hfg.mono (Renaming.same_le_reordered s.extent defs defs').link⟩
    · exact ⟨_, _, Array.getElem?_push_size, Array.getElem?_push_size,
        frames_reordered perm distinct known there options⟩
  · rintro i j (⟨rfl, hi⟩ | ⟨name, d, hd, hi, hj⟩)
    · exact ⟨Nat.lt_add_right _ hi, Nat.lt_add_right _ hi⟩
    · have := numbered_le hi
      have := numbered_le hj
      simp only [State.defining, State.extent] at *
      omega

end Reordered

/-! ### Any order -/

/-- The definitions that bindings are. -/
def definitionsOf (es : Entries Value) : Entries Definition :=
  es.filterMap fun e => (Definition.of? e.2).map (e.1, ·)

/-- Bindings that are all definitions are defined by those. -/
theorem definedBy_definitionsOf {es : Entries Value}
    (h : ∀ e ∈ es, (Definition.of? e.2).isSome) : DefinedBy es (definitionsOf es) := by
  induction es with
  | nil => exact .nil
  | cons e es ih =>
      rw [List.forall_mem_cons] at h
      obtain ⟨d, hd⟩ := Option.isSome_iff_exists.1 h.1
      have head : definitionsOf (e :: es) = (e.1, d) :: definitionsOf es := by
        simp [definitionsOf, hd]
      rw [head]
      exact .cons hd (ih h.2)

section Known

variable {held : String → Extent} {x : Extent} {es : Entries Value}

/-- What a known mapping is made of as a form is known. -/
theorem SpecialForm.known_of_ofEntries? (he : (Value.mapping es).Known held x) {form : SpecialForm}
    (hf : ofEntries? es = some form) : form.Alike ((Renaming.same x).link held) form := by
  cases he with
  | mapping he =>
      have alike := ofEntries?_rel he
      rw [hf] at alike
      cases alike with
      | some alike => exact alike

/-- What a definition holds stands in its expression, so it is known where that is. -/
theorem Definition.content_known {e : Value} (he : e.Known held x) {d : Definition}
    (h : Definition.of? e = some d) : d.content.Known held x := by
  unfold Definition.of? at h
  split at h
  · split at h
    · rename_i params body hf
      obtain ⟨names, -, rfl⟩ := Option.map_eq_some_iff.1 h
      cases SpecialForm.known_of_ofEntries? he hf with
      | lambda _ hb =>
          cases hb with
          | some hb => exact hb
    · rename_i v hf
      cases h
      cases SpecialForm.known_of_ofEntries? he hf with
      | quote hv => exact hv
    · cases h
  · cases h

/-- The same of all definitions of a `let`. -/
theorem DefinedBy.content_known {defs : Entries Definition} (h : DefinedBy es defs)
    (he : (Value.mapping es).Known held x) : ∀ e ∈ defs, e.2.content.Known held x := by
  cases he with
  | mapping he =>
      induction h with
      | nil =>
          intro e he
          cases he
      | cons hd _ ih =>
          cases he with
          | cons he hs => exact List.forall_mem_cons.2 ⟨Definition.content_known he hd, ih hs⟩

end Known

/-- **The order of definitions does not matter.**  Two `let`s with the same body, whose bindings are
definitions with distinct names and are the same but for their order, have the same outcome up to
the frames and closures that are new, in every environment and under any switches.  A definition is
a `lambda` with a body and with texts as parameters, or a quotation; the names may be those of
macros, and a function may call any other. -/
theorem definitions_in_any_order {host : Host} {held : String → Extent} (hu : host.Uniform held)
    {form form' es es' : Entries Value} {body : Option Value}
    (hf : SpecialForm.ofEntries? form = some (.letIn (.mapping es) body))
    (hf' : SpecialForm.ofEntries? form' = some (.letIn (.mapping es') body))
    (perm : es.Perm es') (distinct : (Entries.keys es).Nodup)
    (defined : ∀ e ∈ es, (Definition.of? e.2).isSome) {s : State} (closed : s.Closed held)
    (known : (Value.mapping form).Known held s.extent) {env : Chain}
    (there : ∀ i ∈ env, i < s.frames.size) (options : Options) (fuel : Nat) :
    Option.Rel (SameOutcome held (.same s.extent))
      ((run host fuel (.eval (.mapping form) env options)).runFrom s)
      ((run host fuel (.eval (.mapping form') env options)).runFrom s) := by
  have known : (SpecialForm.letIn (.mapping es) body).Alike ((Renaming.same s.extent).link held)
      (.letIn (.mapping es) body) := SpecialForm.known_of_ofEntries? known hf
  cases known with
  | letIn bindings rest =>
  cases fuel with
  | zero => exact .none
  | succ fuel =>
  cases rest with
  | none =>
      -- Neither has a body.
      have fails : ∀ {form : Entries Value} {v : Value},
          SpecialForm.ofEntries? form = some (.letIn v none) →
          (run host (fuel + 1) (.eval (.mapping form) env options)).runFrom s =
            some (.error .missingIn, { s with log := .specialForm .letIn :: s.log }) := by
        intro form v hf
        simp only [run, Eval.step, Eval.expression, hf]
        rfl
      rw [fails hf, fails hf']
      exact .some ⟨_, .refl _, closed.emit _ _, .error _⟩
  | @some body _ content =>
      have defs := definedBy_definitionsOf defined
      have defs' := definedBy_definitionsOf fun e he => defined e (perm.mem_iff.2 he)
      have moved : (definitionsOf es).Perm (definitionsOf es') := perm.filterMap _
      obtain ⟨log, runs⟩ := run_let_definitions defs hf host env options fuel s
      obtain ⟨log', runs'⟩ := run_let_definitions defs' hf' host env options fuel s
      rw [runs, runs']
      have le := Renaming.same_le_reordered s.extent (definitionsOf es) (definitionsOf es')
      have matched := matched_reordered closed moved (defs.keys_eq ▸ distinct)
        (defs.content_known bindings) there options log log'
      exact SameOutcome.weaken le
        (run_matched hu matched (.eval (content.mono le.link) (chain_reordered there) rfl) fuel)

/-- A function that uses a macro, which stands after it, and the number that the macro uses. -/
def siblings : Entries Value :=
  [("f", .mapping [("lambda", .text "x"), ("body", .mapping [("$pair", .list [.text "x"])])]),
    ("$pair", templateForm ["e"] (.list [.mapping [("$_", .text "e")], .text "k"])),
    ("k", quotation (.int 5))]

/-- The `let` that binds them, in whatever order, and calls the function. -/
def siblingsIn (bindings : Entries Value) : Entries Value :=
  [("let", .mapping bindings), ("in", .list [.text "f", .mapping [("f", .int 1)]])]

/-- What the `let` evaluates to, when the function has the number `i`. -/
def pairing (i : Nat) : Value :=
  .list [.closure i ["x"] (.mapping [("$pair", .list [.text "x"])]) [1, 0] .lenient,
    .list [.int 1, .int 5]]

/-- Turned around, the `let` binds the macro before the function that uses it, and so numbers the
function after it. -/
theorem definitions_in_any_order_reversed :
    ∃ s t,
      (run hostTools 9 (.eval (.mapping (siblingsIn siblings)) [0] .lenient)).runFrom .initial =
        some (.ok (pairing 0), s) ∧
      (run hostTools 9 (.eval (.mapping (siblingsIn siblings.reverse)) [0] .lenient)).runFrom
        .initial = some (.ok (pairing 1), t) ∧
      SameOutcome holdsNothing (.same State.initial.extent) (.ok (pairing 0), s)
        (.ok (pairing 1), t) := by
  have defined : ∀ e ∈ siblings, (Definition.of? e.2).isSome := by
    simp [siblings, templateForm, lambdaForm, quotation, Definition.of?, SpecialForm.ofEntries?,
      Entries.get?, Value.operands, textsOf?]
  have known : (Value.mapping (siblingsIn siblings)).Known holdsNothing State.initial.extent := by
    repeat' constructor
  have same := definitions_in_any_order (hostTools_uniform holdsNothing)
    (rfl : SpecialForm.ofEntries? (siblingsIn siblings) = _)
    (rfl : SpecialForm.ofEntries? (siblingsIn siblings.reverse) = _)
    (List.reverse_perm _).symm (by decide) defined (State.initial_closed _) known
    (by decide : ∀ i ∈ [0], i < State.initial.frames.size) .lenient 9
  cases same with
  | some same => exact ⟨_, _, rfl, rfl, same⟩

end FormLang
