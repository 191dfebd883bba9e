import FormLang.Proofs.Alike.Runs
import FormLang.Proofs.Datum
import FormLang.Session

/-!
# Alike — commands in two sessions

Sessions are alike when their environments and their switches correspond, and commands when the
values in them are alike.  **Alike commands in alike sessions go alike**
(`Correspondence.perform_sim`), as runs of alike tasks do, and lead to alike sessions.  Sessions
that start with the same files are alike from the start (`Correspondence.start_sim`): what is read
from a file is data.
-/

namespace FormLang

/-- The same command, with alike values. -/
inductive Command.Alike (l : Link) : Command → Command → Prop where
  | define (name : String) {v w : Value} (h : Value.Alike l v w) :
      Alike l (.define name v) (.define name w)
  | defineFrame {v w : Value} (h : Value.Alike l v w) : Alike l (.defineFrame v) (.defineFrame w)
  | evalFrame {v w : Value} (h : Value.Alike l v w) : Alike l (.evalFrame v) (.evalFrame w)
  | eval {v w : Value} (h : Value.Alike l v w) : Alike l (.eval v) (.eval w)
  | evalJson (text : String) : Alike l (.evalJson text) (.evalJson text)
  | lookup (name : String) : Alike l (.lookup name) (.lookup name)
  | call {fn fn' : Value} {args args' : List Value} (h : Value.Alike l fn fn')
      (ha : List.Forall₂ (Value.Alike l) args args') : Alike l (.call fn args) (.call fn' args')

/-- Alike mappings give alike frames. -/
theorem Frame.ofValue_alike {l : Link} {v w : Value} (h : Value.Alike l v w) :
    AnswersAlike (Frame.Alike l) (Frame.ofValue v) (Frame.ofValue w) := by
  cases h with
  | mapping h => exact .ok (.of_forall₂ (h.mapValues fun name _ _ => tag_alike name))
  | _ => exact .error _

theorem bindingCount_eq {l : Link} {v w : Value} (h : Value.Alike l v w) :
    Session.bindingCount v = Session.bindingCount w := by
  cases h with
  | mapping h => exact h.length_eq
  | _ => rfl

/-- The definitions in a file are data. -/
theorem Prelude.definitions_datum {files : FileSystem} {path : Path} {entries : Entries Value}
    (h : Prelude.definitions files path = .ok entries) : Json.Datum (.mapping entries) := by
  unfold Prelude.definitions at h
  split at h
  · split at h
    · rename_i hread
      cases h
      exact Json.read_datum hread
    · cases h
    · cases h
  · cases h
  · cases h

namespace Correspondence

variable {host : Host} {C : Correspondence host} {w : C.World} {a b : Session}

/-- The environments of the sessions correspond, for any code, and the switches do. -/
structure Sessions (C : Correspondence host) (w : C.World) (a b : Session) : Prop where
  env : C.chains w .free a.env b.env
  options : (C.link w).options a.options b.options

theorem Sessions.later (h : C.Sessions w a b) {w' : C.World} (hw : C.Le w w') :
    C.Sessions w' a b :=
  ⟨hw.chains h.env, hw.link.options h.options⟩

theorem Sim.session (h : C.Sessions w a b) : Sim C.Sessions w (Pure.pure a) (Pure.pure b) :=
  .pure fun _ hw => h.later hw

theorem extend_sim (h : C.Sessions w a b) {f g : Frame}
    (hf : Frame.Alike (C.link w) f g) : Sim C.Sessions w (a.extend f) (b.extend g) := by
  refine .bind (.allocate (k := .free) (fun _ hw => hf.mono hw.link) (.free f)) fun w₁ i j hw₁ hp =>
    .session ?_
  exact ⟨C.chains_cons hp (hw₁.chains h.env), hw₁.link.options h.options⟩

/-- Alike bindings are kept in frames that correspond. -/
theorem evalFrame_sim (fuel : Nat) (h : C.Sessions w a b) {v v' : Value}
    (hv : Value.Alike (C.link w) v v') :
    Sim C.Sessions w (a.evalFrame host fuel v) (b.evalFrame host fuel v') := by
  have fills := bindFrame_sim (k := .free) (C.run_follows fuel) hv
    (fun _ _ _ _ => ⟨.free _, .free _⟩) h.env h.options
  simp only [Session.evalFrame, Session.evalFrameBy, bindingCount_eq hv]
  refine .bind fills fun w₁ _ _ hw₁ hc => .bind (.emit fun _ _ => .bound _) fun w₂ _ _ hw₂ _ => ?_
  exact .session ⟨hw₂.chains hc, (hw₁.trans hw₂).link.options h.options⟩

/-- A value and a session, in a world. -/
def Results (C : Correspondence host) (w : C.World) (r q : Value × Session) : Prop :=
  C.Values w r.1 q.1 ∧ C.Sessions w r.2 q.2

/-- **Alike commands in alike sessions go alike.** -/
theorem perform_sim (fuel : Nat) (h : C.Sessions w a b) {c d : Command}
    (hc : Command.Alike (C.link w) c d) :
    Sim C.Results w (a.perform host fuel c) (b.perform host fuel d) := by
  have defined : ∀ {w'} {x y : EvalM Session}, Sim C.Sessions w' x y →
      Sim C.Results w' (x >>= fun s => Pure.pure (.null, s))
        (y >>= fun s => Pure.pure (.null, s)) :=
    fun hs => .bind hs fun _ _ _ _ hs => .pure fun _ hw => ⟨.null, hs.later hw⟩
  have answered : ∀ {x y : EvalM Value}, Sim C.Values w x y →
      Sim C.Results w (x >>= fun v => Pure.pure (v, a)) (y >>= fun v => Pure.pure (v, b)) :=
    fun hv => .bind hv fun _ _ _ hw₁ hv => .pure fun _ hw =>
      ⟨hv.mono hw.link, h.later (hw₁.trans hw)⟩
  cases hc with
  | define name hv => exact defined (extend_sim h (Frame.Alike.nil.insert name (tag_alike name hv)))
  | defineFrame hv =>
      refine .bind (.lift (Frame.ofValue_alike hv) fun _ _ _ hw hf => hf.mono hw.link)
        (R := fun w => Frame.Alike (C.link w)) fun w₁ f g hw₁ hf => ?_
      exact defined (extend_sim (h.later hw₁) hf)
  | evalFrame hv => exact defined (evalFrame_sim fuel h hv)
  | eval hv => exact answered ((C.run_follows fuel).eval h.env h.options (.free _) hv)
  | evalJson text =>
      simp only [Session.perform, Session.performBy]
      split
      · rename_i expr hread
        have he := (Json.read_datum hread).alike (C.link w)
        exact answered ((C.run_follows fuel).eval h.env h.options (.free _) he)
      · exact .throw _
  | lookup name => exact answered (.lookup h.env (.free name))
  | call hf ha => exact answered ((C.run_follows fuel).call hf ha)

/-! ### Sessions that start alike -/

theorem loadFile_sim (fuel : Nat) (files : FileSystem) (path : Path)
    (h : C.Sessions w a b) :
    Sim C.Sessions w (Session.loadFile host fuel files a path)
      (Session.loadFile host fuel files b path) := by
  refine .bind_lift _ fun entries hd => .bind (.emit fun _ _ => .loading _ _) fun w₁ _ _ hw₁ _ => ?_
  exact evalFrame_sim fuel (h.later hw₁) ((Prelude.definitions_datum hd).alike _)

/-- The same files are loaded alike, one after the other. -/
theorem loadFiles_sim (fuel : Nat) (files : FileSystem) (paths : List Path)
    (h : C.Sessions w a b) :
    Sim C.Sessions w (paths.foldlM (Session.loadFile host fuel files) a)
      (paths.foldlM (Session.loadFile host fuel files) b) := by
  induction paths generalizing w a b with
  | nil => exact .session h
  | cons path paths ih =>
      rw [List.foldlM_cons, List.foldlM_cons]
      exact .bind (loadFile_sim fuel files path h) fun _ _ _ _ h => ih h

theorem start_sim (fuel : Nat) (settings : Settings) (files : FileSystem) (prelude : Value)
    (strict : Option Bool)
    (h : C.Sessions w (.fresh (settings.options strict)) (.fresh (settings.options strict))) :
    Sim C.Sessions w (Session.start host fuel settings files prelude strict)
      (Session.start host fuel settings files prelude strict) := by
  exact .bind_lift _ fun asked _ => .bind_lift _ fun paths _ => loadFiles_sim fuel files paths h

end Correspondence

end FormLang
