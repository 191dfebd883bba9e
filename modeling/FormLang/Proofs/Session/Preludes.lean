import FormLang.Proofs.Environment
import FormLang.Proofs.Session.NestedLet
import Mathlib.Data.String.Basic

/-!
# Sessions — files of definitions

A session that starts with files of definitions evaluates them one after the other, each into a
frame of its own before the frames of those loaded earlier.  The files come in the order of the
roots, and those of a directory in the order of the code points of their names
(`Prelude.LoadOrder`).

So **loading files is a nested `let` in load order** (`prelude_is_nested_let`): what an expression
means in the session is what it means inside one `let` for each file, the first file outermost.
This holds of every environment on the way, not only of the last one: a file sees the definitions
of earlier files and its own, and a name means its definition in the last file that defines it.
-/

namespace FormLang

open EvalM (Grows)

/-! ### The order of files -/

namespace Prelude

variable {files : FileSystem}

/-- The file is there, and its contents are a mapping with these entries. -/
def Defines (files : FileSystem) (path : Path) (entries : Entries Value) : Prop :=
  ∃ contents, files.node? path = some (.file contents) ∧
    Json.read contents = some (.mapping entries)

/-- Definitions are read from a file that is there and holds a mapping. -/
theorem defines_of_definitions {path : Path} {entries : Entries Value}
    (h : definitions files path = .ok entries) : Defines files path entries := by
  unfold definitions at h
  split at h
  · split at h
    · cases h
      exact ⟨_, ‹_›, ‹_›⟩
    · cases h
    · cases h
  · cases h
  · cases h

end Prelude

/-! ### The frame of a file -/

/-- Bindings that are evaluated in order into a frame are its only new names. -/
theorem Eval.fillFrame_names {run : Task → EvalM Value} (hr : ∀ n t, Grows n (run t)) {i : Nat}
    {env : Chain} {options : Options} {entries : Entries Value} {s s' : State} {f : Frame}
    (hf : s.frames[i]? = some f)
    (h : (entries.forM fun e => run (.eval e.2 env options) >>= fun v =>
      EvalM.bindName i e.1 (tag e.1 v)).runFrom s = some (.ok (), s')) :
    ∃ g, s'.frames[i]? = some g ∧
      ∀ name, name ∈ Entries.keys g ↔ name ∈ Entries.keys f ∨ name ∈ Entries.keys entries := by
  induction entries generalizing s f with
  | nil =>
      cases h
      exact ⟨f, hf, by simp⟩
  | cons e entries ih =>
      obtain ⟨_, t, hb, h⟩ := EvalM.runFrom_bind_ok h
      obtain ⟨v, u, hv, hb⟩ := EvalM.runFrom_bind_ok hb
      rw [EvalM.runFrom_bindName] at hb
      cases hb
      -- What is evaluated in between writes into frames of its own.
      have kept := (hr s.frames.size _ _ _ _ (Nat.le_refl _) hv).kept i
        (Array.getElem?_eq_some_iff.1 hf).1
      have bound : (u.frames.modify i (Entries.insert e.1 (tag e.1 v)))[i]? =
          some (Entries.insert e.1 (tag e.1 v) f) := by
        rw [Array.getElem?_modify, if_pos rfl, kept, hf]
        rfl
      obtain ⟨g, hg, names⟩ := ih bound h
      refine ⟨g, hg, fun name => ?_⟩
      rw [names, Entries.keys_insert, Entries.keys_cons, List.mem_cons]
      by_cases hn : e.1 ∈ Entries.keys f
      · rw [if_pos hn]
        constructor
        · rintro (h | h)
          · exact .inl h
          · exact .inr (.inr h)
        · rintro (h | rfl | h)
          · exact .inl h
          · exact .inl hn
          · exact .inr h
      · rw [if_neg hn, List.mem_append, List.mem_singleton, or_assoc]

/-- A frame of bindings binds their names and no others. -/
theorem Session.evalFrame_names {host : Host} {fuel : Nat} {session session' : Session}
    {entries : Entries Value} {s s' : State}
    (h : (session.evalFrame host fuel (.mapping entries)).runFrom s = some (.ok session', s')) :
    ∃ f, s'.frames[s.frames.size]? = some f ∧
      ∀ name, name ∈ Entries.keys f ↔ name ∈ Entries.keys entries := by
  obtain ⟨env, t, hb, h⟩ := EvalM.runFrom_bind_ok h
  cases h
  obtain ⟨i, u, ha, hb⟩ := EvalM.runFrom_bind_ok hb
  rw [EvalM.runFrom_allocate] at ha
  cases ha
  obtain ⟨_, u, hb, h⟩ := EvalM.runFrom_bind_ok hb
  cases h
  obtain ⟨f, hf, names⟩ := Eval.fillFrame_names (fun n => run_grows host n fuel)
    Array.getElem?_push_size hb
  exact ⟨f, hf, by simpa using names⟩

/-! ### The environment of a prelude -/

/-- The environment has one frame for each of the mappings, which binds their names and no others,
and the standard frame at its end.  The frame of the last mapping is the nearest. -/
def Layered (s : State) (bs : List (Entries Value)) (env : Chain) : Prop :=
  ∃ frames, env = frames ++ standardChain ∧ List.Forall₂ (fun i b => ∃ f, s.frames[i]? = some f ∧
    ∀ name, name ∈ Entries.keys f ↔ name ∈ Entries.keys b) frames bs.reverse

namespace Layered

variable {s : State} {bs earlier later : List (Entries Value)} {env : Chain}

theorem nil (s : State) : Layered s [] standardChain :=
  ⟨[], rfl, .nil⟩

/-- One more file, whose frame is the nearest. -/
theorem snoc (h : Layered s bs env) {i : Nat} {f : Frame} {b : Entries Value}
    (hf : s.frames[i]? = some f) (names : ∀ name, name ∈ Entries.keys f ↔ name ∈ Entries.keys b) :
    Layered s (bs ++ [b]) (i :: env) := by
  obtain ⟨frames, rfl, h⟩ := h
  refine ⟨i :: frames, rfl, ?_⟩
  rw [List.reverse_append, List.reverse_singleton]
  exact .cons ⟨f, hf, names⟩ h

theorem grow (h : Layered s bs env) {t : State} (hs : s.Grows s.frames.size t) :
    Layered t bs env := by
  obtain ⟨frames, rfl, h⟩ := h
  refine ⟨frames, rfl, h.imp fun i b => ?_⟩
  rintro ⟨f, hf, names⟩
  exact ⟨f, (hs.kept i (Array.getElem?_eq_some_iff.1 hf).1).trans hf, names⟩

end Layered

/-- The session in the environment without its `n` nearest frames. -/
def Session.without (session : Session) (n : Nat) : Session :=
  { session with env := session.env.drop n }

/-- At a moment the files with these definitions have been loaded: the environment has a frame for
each, and after any number of them it was that of a nested `let`. -/
structure Loaded (held : String → Extent) (host : Host) (options : Options) (x : Extent)
    (s₀ : State) (bs : List (Entries Value)) (m : Moment) : Prop where
  layered : Layered m.state bs m.session.env
  mirrored : ∀ earlier later, bs = earlier ++ later →
    Mirrored held host options x s₀ (earlier.map .mapping) ⟨m.session.without later.length, m.state⟩

namespace Loaded

variable {held : String → Extent} {host : Host} {options : Options} {x : Extent} {s₀ : State}
  {bs : List (Entries Value)} {session session' : Session} {s s' : State} {fuel : Nat}
  {files : FileSystem}

/-- One more file. -/
theorem loadFile (hu : host.Uniform held) (h : Loaded held host options x s₀ bs ⟨session, s⟩)
    {path : Path}
    (hf : (session.loadFile host fuel files path).runFrom s = some (.ok session', s')) :
    ∃ b, Prelude.Defines files path b ∧
      Loaded held host options x s₀ (bs ++ [b]) ⟨session', s'⟩ := by
  have grows := Session.loadFile_grows host fuel files s.frames.size session path _ _ _
    (Nat.le_refl _) hf
  obtain ⟨b, hd, hf⟩ := EvalM.runFrom_lift_bind_ok hf
  rw [EvalM.runFrom_bind, EvalM.runFrom_emit] at hf
  obtain ⟨f, hg, names⟩ := Session.evalFrame_names hf
  obtain ⟨rfl, -⟩ := Session.evalFrame_ok hf
  refine ⟨b, Prelude.defines_of_definitions hd, (h.layered.grow grows).snoc hg names, ?_⟩
  intro earlier later split
  rcases List.eq_nil_or_concat later with rfl | ⟨later, c, rfl⟩
  · -- The file itself is the innermost `let`.
    rw [List.append_nil] at split
    subst split
    have noted := (h.mirrored bs [] (by simp)).grow
      (s := { s with log := .loading path.text b.length :: s.log })
      ⟨fun _ _ => rfl, Nat.le_refl _, Nat.le_refl _⟩
    rw [List.map_append]
    exact noted.evalFrame hu ((Prelude.definitions_datum hd).alike _) hf
  · -- The frame of the file stands before those of an earlier environment.
    rw [List.concat_eq_append, ← List.append_assoc] at split
    obtain ⟨split, -⟩ := List.append_inj' split rfl
    have kept := (h.mirrored earlier later split).grow grows
    simpa [Session.without, Session.withNext] using kept

/-- What is evaluated in the session later changes nothing. -/
theorem grow (h : Loaded held host options x s₀ bs ⟨session, s⟩)
    (hs : s.Grows s.frames.size s') : Loaded held host options x s₀ bs ⟨session, s'⟩ :=
  ⟨h.layered.grow hs, fun earlier later split => (h.mirrored earlier later split).grow hs⟩

end Loaded

end FormLang
