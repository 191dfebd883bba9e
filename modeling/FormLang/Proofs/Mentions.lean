import FormLang.Proofs.Alike.Rebase
import FormLang.Proofs.Inside

/-!
# Mentions — a program reads only the names that it mentions

All code that is evaluated stems from the program: it stands inside it, or a standard macro has put
it together from parts of it.  The names that it looks up are among the texts of the program, taken
whole or up to their first dot, the names of its mappings, and the two functions that macros call
(`Value.Names`).  So **where a program binds no macro names, it reads the names that it mentions and
no others** (`Within.reads`), and what else a host has bound does not matter to it
(`unmentioned_does_not_matter`).
-/

namespace FormLang

open Value (Inside)

/-! ### Names that a program mentions -/

/-- The names that the form binds. -/
def SpecialForm.binders : SpecialForm → List String
  | .letIn (.mapping bindings) _ => Entries.keys bindings
  | .lambda params _ => params.operands.filterMap fun
      | .text name => some name
      | _ => none
  | _ => []

namespace Value

/-- The value is a text that names `name`, as a whole or up to its first dot, or a mapping that has
the name. -/
def mentions (name : String) : Value → Bool
  | .text s => s == name || (Text.split '.' s).head? == some name
  | .mapping es => Entries.has name es
  | _ => false

/-- The value is a form that binds the name of a macro. -/
def bindsMacro : Value → Bool
  | .mapping es => (SpecialForm.ofEntries? es).any fun form => form.binders.any isMacroName
  | _ => false

/-- The name is mentioned in the program, or is that of a function that a standard macro calls. -/
def Names (e : Value) (name : String) : Prop :=
  e.holds (mentions name) = true ∨ name = "get" ∨ name = "omit"

end Value

/-- All names that the code mentions are in `N`, and it binds no macros. -/
structure Within (N : String → Prop) (e : Value) : Prop where
  names : ∀ name, e.Names name → N name
  plain : e.holds Value.bindsMacro = false

/-- What stands inside code mentions and binds nothing that the code does not. -/
theorem Within.inside {N : String → Prop} {u v : Value} (h : Within N v) (hu : Inside u v) :
    Within N u where
  names name := by
    rintro (hn | hn)
    · exact h.names name (.inl (Value.holds_of_inside hu hn))
    · exact h.names name (.inr hn)
  plain := Value.not_holds_of_inside h.plain hu

/-! ### Escapes and expansions -/

theorem Eval.mem_itemEscapes {e : Value} {items : List Value} (h : e ∈ itemEscapes items) :
    ∃ v ∈ items, e ∈ escapes v := by
  induction items with
  | nil => cases h
  | cons v rest ih =>
      rw [itemEscapes, List.mem_append] at h
      rcases h with h | h
      · exact ⟨v, List.mem_cons_self, h⟩
      · obtain ⟨u, hu, he⟩ := ih h
        exact ⟨u, List.mem_cons_of_mem _ hu, he⟩

theorem Eval.entryEscapes_eq (es : Entries Value) :
    entryEscapes es = itemEscapes (es.map Prod.snd) := by
  induction es with
  | nil => rfl
  | cons e rest ih => rw [entryEscapes, ih, List.map_cons, itemEscapes]

/-- What is escaped in a template stands inside it. -/
theorem Eval.inside_of_mem_escapes {e t : Value} (h : e ∈ escapes t) : Inside e t := by
  induction t using Value.inside_wellFounded.induction with
  | _ t ih =>
      cases t with
      | list items =>
          obtain ⟨v, hv, he⟩ := mem_itemEscapes h
          exact (ih v (.item hv) he).trans (.item hv)
      | tuple items =>
          obtain ⟨v, hv, he⟩ := mem_itemEscapes h
          exact (ih v (.item hv) he).trans (.item hv)
      | mapping es =>
          rw [escapes] at h
          split at h
          · rename_i escaped hg
            exact List.mem_singleton.1 h ▸ .get? hg
          · rw [entryEscapes_eq] at h
            obtain ⟨v, hv, he⟩ := mem_itemEscapes h
            exact (ih v (.item hv) he).trans (.item hv)
      | _ => cases h

section Expansions

variable {N : String → Prop} {es : Entries Value}

theorem Reads.quotation (v : Value) : Reads N (Expansion.quotation v) :=
  .special rfl (.quote v)

/-- A call under a single name that is not a standard macro's. -/
theorem Reads.single {name : String} {under : Value}
    (hf : SpecialForm.ofEntries? [(name, under)] = none) (hn : N name)
    (plain : ∀ m : Standard, m.symbol = name → isMacroName m.symbol = false)
    (ho : ∀ e ∈ under.operands, Reads N e) : Reads N (.mapping [(name, under)]) := by
  refine .call hf ?_ ?_ ?_
  · rintro _ _ ⟨⟩
    exact hn
  · rintro _ _ ⟨⟩
    exact ho
  · rintro m _ h hm
    cases h
    rw [plain m rfl] at hm
    cases hm

/-- A dotted path expands to a call of `get` with its head, which the path mentions, and quoted
keys. -/
theorem reads_getPath (hw : Within N (.mapping es)) {path answer : Value}
    (hp : Inside path (.mapping es)) (h : Expansion.getPath path = .ok answer) :
    Reads N answer := by
  have get : ∀ items, (∀ e ∈ items, Reads N e) → Reads N (.mapping [("get", .list items)]) :=
    fun items hi => .single rfl (hw.names _ (.inr (.inl rfl))) (fun _ hm => hm ▸ rfl) hi
  cases path with
  | text s =>
      rw [Expansion.getPath] at h
      split at h
      · rename_i head keys hs
        cases h
        have hn : N head := (hw.inside hp).names head
          (.inl (Value.holds_self (by simp [Value.mentions, hs])))
        refine get _ (List.forall_mem_cons.2 ⟨.text hn, fun e he => ?_⟩)
        obtain ⟨key, -, rfl⟩ := List.mem_map.1 he
        exact .quotation _
      · cases h
        exact get _ (List.forall_mem_nil _)
  | _ => cases h

/-- A `$if` expands to a `cond` of parts of its form. -/
theorem reads_ifElse (ih : ∀ u, Inside u (.mapping es) → Reads N u) {condition answer : Value}
    (hc : Reads N condition) (h : Expansion.ifElse (.mapping es) condition = .ok answer) :
    Reads N answer := by
  have companion : ∀ name, Reads N ((Entries.get? name es).getD .undefined) := by
    intro name
    cases hg : Entries.get? name es with
    | none => exact .constant rfl
    | some v => exact ih v (.get? hg)
  cases h
  refine .special rfl (.cond fun clause hm => ?_)
  rcases List.mem_cons.1 hm with hm | hm
  · cases hm
    exact List.forall_mem_cons.2 ⟨hc, List.forall_mem_singleton.2 (companion "then")⟩
  · cases List.mem_singleton.1 hm
    exact List.forall_mem_singleton.2 (companion "else")

theorem reads_omitKeys (hw : Within N (.mapping es)) (keys : Value) {object : Value}
    (ho : Reads N object) : Reads N (Expansion.omitKeys keys object) := by
  refine .special rfl (.apply (.text (hw.names _ (.inr (.inr rfl)))) ?_)
  rintro _ ⟨⟩
  exact List.forall_mem_cons.2 ⟨.quotation keys, List.forall_mem_singleton.2 ho⟩

/-- A `$record` expands to a template whose escapes are the expressions of its description; a field
called `$_` makes all of it one escape. -/
theorem reads_record (hw : Within N (.mapping es)) (ih : ∀ u, Inside u (.mapping es) → Reads N u)
    {description answer : Value} (hd : Inside description (.mapping es))
    (h : Expansion.record description = .ok answer) : Reads N answer := by
  cases description with
  | mapping fields =>
      cases h
      refine .special rfl (.quasiquote fun e he => ?_)
      rw [Eval.escapes, Entries.get?_mapValues] at he
      cases hg : Entries.get? "$_" fields with
      | some v =>
          -- The template is then one escape, of a call by that name.
          rw [hg] at he
          cases List.mem_singleton.1 he
          have hn : N "$_" := (hw.inside hd).names _
            (.inl (Value.holds_self (by simp [Value.mentions, Entries.has, hg])))
          have hv : Inside v (.mapping es) := Value.Inside.trans (.get? hg) hd
          refine .single rfl hn (fun m hm => ?_) fun u hu => ih u (hv.operands hu)
          cases m <;> simp [Standard.symbol] at hm
      | none =>
          rw [hg, Option.map_none, Eval.entryEscapes_eq, Entries.mapValues, List.map_map] at he
          obtain ⟨_, hf, he⟩ := Eval.mem_itemEscapes he
          obtain ⟨⟨name, v⟩, hv, rfl⟩ := List.mem_map.1 hf
          cases List.mem_singleton.1 he
          exact ih v (Value.Inside.trans (.entry hv) hd)
  | _ => cases h

/-- What a standard macro answers with is code that reads names which the form mentions. -/
theorem reads_answer (hw : Within N (.mapping es)) (ih : ∀ u, Inside u (.mapping es) → Reads N u)
    {m : Standard} (hm : isMacroName m.symbol = true) {operands : List Value}
    (ho : ∀ e ∈ operands, Inside e (.mapping es)) {answer : Value}
    (h : m.apply (.mapping es :: operands) = .ok answer) : Reads N answer := by
  cases m with
  | getPath =>
      match operands, ho, h with
      | [], _, h => cases h
      | [path], ho, h => exact reads_getPath hw (ho path List.mem_cons_self) h
      | _ :: _ :: _, _, h => cases h
  | ifElse =>
      match operands, ho, h with
      | [], _, h => exact reads_ifElse ih (.constant rfl) h
      | [condition], ho, h => exact reads_ifElse ih (ih _ (ho condition List.mem_cons_self)) h
      | _ :: _ :: _, _, h => cases h
  | omitKeys =>
      match operands, ho, h with
      | [], _, h => cases h
      | [_], _, h => cases h
      | [keys, object], ho, h =>
        cases h
        exact reads_omitKeys hw keys (ih object (ho object (by simp)))
      | _ :: _ :: _ :: _, _, h => cases h
  | record =>
      match operands, ho, h with
      | [], _, h => cases h
      | [description], ho, h => exact reads_record hw ih (ho description List.mem_cons_self) h
      | _ :: _ :: _, _, h => cases h
  | _ => exact absurd hm (by decide)

end Expansions

/-! ### Code within names -/

/-- Where no macro names are bound, none of the forms binds one. -/
theorem SpecialForm.binders_plain {es : Entries Value} {form : SpecialForm}
    (h : (Value.mapping es).holds Value.bindsMacro = false)
    (hf : SpecialForm.ofEntries? es = some form) :
    ∀ name ∈ form.binders, isMacroName name = false := by
  intro name hn
  by_contra hm
  have binds : (Value.mapping es).bindsMacro = true := by
    simp only [Value.bindsMacro, hf, Option.any_some, List.any_eq_true]
    exact ⟨name, hn, by simpa using hm⟩
  exact absurd (Value.holds_self binds) (Bool.eq_false_iff.1 h)

/-- The parts that a special form evaluates read what the form mentions. -/
theorem Within.readsForm {N : String → Prop} {es : Entries Value} (hw : Within N (.mapping es))
    (ih : ∀ u, Inside u (.mapping es) → Reads N u) {form : SpecialForm}
    (hf : SpecialForm.ofEntries? es = some form) : FormReads N form := by
  have plain := SpecialForm.binders_plain hw.plain hf
  obtain ⟨v, hv, rfl⟩ | ⟨v, hv, rfl⟩ | ⟨v, hv, rfl⟩ | ⟨v, hv, rfl⟩ | ⟨v, hv, rfl⟩ | ⟨v, hv, rfl⟩ :=
    SpecialForm.ofEntries?_cases hf
  · exact .quote v
  · exact .quasiquote fun e he => ih e ((Eval.inside_of_mem_escapes he).trans (.get? hv))
  · refine .letIn ?_ ?_ fun e he => ih e (.get? he)
    · rintro bindings rfl e he
      exact plain e.1 (List.mem_map_of_mem he)
    · rintro bindings rfl e he
      exact ih e.2 (Value.Inside.trans (.entry he) (.get? hv))
  · refine .lambda (fun name hn => ?_) fun e he => ih e (.get? he)
    exact plain name (List.mem_filterMap.2 ⟨_, hn, rfl⟩)
  · refine .cond fun clause hc e he => ih e.2 ?_
    exact Value.Inside.trans (.entry he) (Value.Inside.operands (.get? hv) hc)
  · refine .apply (ih v (.get? hv)) fun args ha e he => ih e ?_
    exact Value.Inside.operands (.get? ha) he

/-- **A program that binds no macro names reads only names that it mentions.** -/
theorem Within.reads {N : String → Prop} {e : Value} (h : Within N e) : Reads N e := by
  induction e using Value.inside_wellFounded.induction with
  | _ e ih =>
      have inside : ∀ u, Inside u e → Reads N u := fun u hu => ih u hu (h.inside hu)
      cases e with
      | text s => exact .text (h.names s (.inl (Value.holds_self (by simp [Value.mentions]))))
      | list items => exact .list fun u hu => inside u (.item hu)
      | tuple items => exact .tuple fun u hu => inside u (.item hu)
      | mapping es =>
          cases hf : SpecialForm.ofEntries? es with
          | some form => exact .special hf (h.readsForm inside hf)
          | none =>
              refine .call hf (fun name under ho => ?_) (fun name under ho e he => ?_)
                fun m under ho hm answer ha => ?_
              · have key : (Value.mapping es).mentions name = true :=
                  Entries.has_iff_mem_keys.2 (List.mem_map_of_mem (operator_mem ho))
                exact h.names name (.inl (Value.holds_self key))
              · exact inside e (Value.Inside.operands (.entry (operator_mem ho)) he)
              · exact reads_answer h inside hm
                  (fun e he => Value.Inside.operands (.entry (operator_mem ho)) he) ha
      | _ => exact .constant rfl

/-! ### Evaluations -/

variable {held : String → Extent} {host : Host}

/-- The frames of a host that bind no macro names bind no macros. -/
theorem fits_hostFrames {frames : Value} {fs : List Frame} (hf : hostFrames frames = .ok fs)
    (plain : ∀ f ∈ fs, ∀ name ∈ Entries.keys f, isMacroName name = false) :
    ∀ f ∈ fs, Scope.narrow.Fits f := by
  rintro f hmem - name v hv
  have hn := plain f hmem name (List.mem_map_of_mem (Entries.mem_of_get? hv))
  obtain ⟨es, -, rfl⟩ := mem_hostFrames hf f hmem
  rw [Frame.ofEntries, Entries.get?_mapValues] at hv
  obtain ⟨u, -, rfl⟩ := Option.map_eq_some_iff.1 hv
  exact ⟨hn, Scope.Fits.isMacro_tag hn u⟩

/-- **What a program does not mention does not matter to it.**  If it binds no macro names, then
with frames that bind none either, and any others in which all names that it mentions mean the same,
an evaluation has the same outcome, up to the closures that are new, and the same log, or none with
either. -/
theorem unmentioned_does_not_matter (hp : host.Pure held) {s₀ : State} (hc : s₀.Closed held)
    (hs : s₀.frames[0]? = some Frame.standard) {expr : Value} (he : expr.Known held s₀.extent)
    (plain : expr.holds Value.bindsMacro = false) {frames frames' : Value}
    (hk : frames.Known held s₀.extent) {fs fs' : List Frame} (hf : hostFrames frames = .ok fs)
    (hf' : hostFrames frames' = .ok fs')
    (noMacros : ∀ f ∈ fs, ∀ name ∈ Entries.keys f, isMacroName name = false)
    (means : ∀ name, expr.Names name → meaning fs name = meaning fs' name) (options : Options)
    (fuel : Nat) :
    SameEvaluation held s₀ fs fs' ((evaluate host fuel expr frames options).runFrom s₀)
      ((evaluate host fuel expr frames' options).runFrom s₀) := by
  have within : Within expr.Names expr := ⟨fun _ => id, plain⟩
  exact evaluate_rebased (k := .narrow) hp hc hs he (fun _ => within.reads) hk hf hf'
    (fits_hostFrames hf noMacros) (fun name hn => means name (hn rfl)) options fuel

/-- A form that a standard macro expands, to a closure: a frame that binds a name which the form
does not mention does not matter, although the closure has captured it. -/
theorem unmentioned_does_not_matter_expanded :
    ∃ s t, (evaluate hostTools 4 (.mapping [("$if", .text "flag"),
          ("then", .mapping [("lambda", .text "n"), ("body", .text "x")])])
        (.mapping [("flag", .bool true)]) .lenient).runFrom .initial =
          some (.ok (.closure 0 ["n"] (.text "x") [1, 0] .lenient), s) ∧
      (evaluate hostTools 4 (.mapping [("$if", .text "flag"),
          ("then", .mapping [("lambda", .text "n"), ("body", .text "x")])])
        (.list [.mapping [("y", .int 1)], .mapping [("flag", .bool true)]])
        .lenient).runFrom .initial =
          some (.ok (.closure 0 ["n"] (.text "x") [2, 1, 0] .lenient), t) ∧
      SameOutcomeOn holdsNothing [1, 0] [2, 1, 0] State.initial.extent
        (.ok (.closure 0 ["n"] (.text "x") [1, 0] .lenient), s)
        (.ok (.closure 0 ["n"] (.text "x") [2, 1, 0] .lenient), t) := by
  have expr : (Value.mapping [("$if", .text "flag"),
      ("then", .mapping [("lambda", .text "n"), ("body", .text "x")])]).Known holdsNothing
        State.initial.extent :=
    .mapping (.cons (.text _) (.cons (.mapping (.cons (.text _) (.cons (.text _) .nil))) .nil))
  have frames : (Value.mapping [("flag", .bool true)]).Known holdsNothing State.initial.extent :=
    .mapping (.cons (.bool true) .nil)
  have both : hostFrames (.list [.mapping [("y", .int 1)], .mapping [("flag", .bool true)]]) =
      .ok [Frame.ofEntries [("y", .int 1)], Frame.ofEntries [("flag", .bool true)]] := rfl
  have means : ∀ name, (Value.mapping [("$if", .text "flag"),
        ("then", .mapping [("lambda", .text "n"), ("body", .text "x")])]).Names name →
      meaning [Frame.ofEntries [("flag", .bool true)]] name =
        meaning [Frame.ofEntries [("y", .int 1)], Frame.ofEntries [("flag", .bool true)]] name := by
    intro name hn
    have other : "y" ≠ name := by
      rintro rfl
      revert hn
      simp only [Value.Names]
      decide
    have unbound : Entries.get? name (Frame.ofEntries [("y", .int 1)]) = none := if_neg other
    rw [meaning_cons (Frame.ofEntries [("y", .int 1)]), unbound, Option.none_or]
  have same := unmentioned_does_not_matter (hostTools_pure holdsNothing) (State.initial_closed _)
    rfl expr (by decide) frames rfl both (by decide) means .lenient 4
  obtain ⟨h⟩ := same
  exact ⟨_, _, rfl, rfl, h⟩

end FormLang
