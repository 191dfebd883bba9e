import FormLang.Proofs.Alike.Renaming
import FormLang.Proofs.Environment

/-!
# Alike — runs on two bases

Two runs whose environments end in different chains, their bases.  What is put before the bases
corresponds frame by frame, as under a renaming; the bases themselves need not have anything in
common but what the names mean in them that the code looks up (`Bases`).  A closure made on the way
has captured an environment of either kind: one that corresponds frame by frame all the way down,
where any code may run, or one on the bases, where its body has to be code of their scope.  Where
the first base is the wider one, it may bind names that the second does not; the second run stops
short when it looks one of them up.

Frames that stand before narrow bases bind no macros.  Frames that the two runs fill together may
also stand in other environments, so which do is part of what corresponds (`Rebasing.own`).

Runs from states that agree in this way go alike (`Correspondence.rebased`), so **an evaluation sees
of the frames of a host only what the names mean that it looks up** (`evaluate_rebased`), and goes
alike with fewer names bound until it fails for want of one (`evaluate_covers`).
-/

namespace FormLang

/-! ### Environments on two bases -/

namespace Renaming

/-- What corresponds under a renaming; and closures from the `n`-th on do also where what they have
captured corresponds as far as the two bases only. -/
def linkOn (held : String → Extent) (base base' : Chain) (n : Nat) (ρ : Renaming) : Link where
  closures := ρ.closures
  chains c d := List.Forall₂ ρ.frames c d ∨
    ∃ cs ds, c = cs ++ base ∧ d = ds ++ base' ∧ List.Forall₂ ρ.frames cs ds
  options := Eq
  hosts name := Le (same (held name)) ρ
  admits
    | .closure i _ _ c _, .closure _ _ _ d _ => List.Forall₂ ρ.frames c d ∨ n ≤ i
    | _, _ => True
  closures_iff := ρ.closures_iff

end Renaming

/-- The outcomes of two runs that began with `x` there are the same up to the frames and closures
that are new, and up to the bases on which these stand: the same fault, or values that are alike
under a renaming that leaves `x` as it is and matches the states after, with the same log. -/
def SameOutcomeOn (held : String → Extent) (base base' : Chain) (x : Extent)
    (r q : Except Fault Value × State) : Prop :=
  ∃ ρ, (Renaming.same x).Le ρ ∧ MatchedBy (ρ.linkOn held base base' x.closures) ρ r.2 q.2 ∧
    AnswersAlike (Value.Alike (ρ.linkOn held base base' x.closures)) r.1 q.1 ∧
    r.2.messages = q.2.messages

/-- Two evaluations from `s`, each with the frames of a host, have the same outcome or none. -/
def SameEvaluation (held : String → Extent) (s : State) (fs fs' : List Frame) :
    Option (Except Fault Value × State) → Option (Except Fault Value × State) → Prop :=
  Option.Rel (SameOutcomeOn held (s.chained standardChain fs) (s.chained standardChain fs')
    s.extent)

/-- Two environments, on which those of two runs stand, and the code that is run there. -/
structure Bases where
  left : Chain
  right : Chain
  /-- The frames of the bases are among the first so many. -/
  leftSize : Nat
  rightSize : Nat
  /-- The closures of the first run from this one on are new. -/
  made : Nat
  scope : Scope
  names : String → Prop
  /-- The left base may bind names that the right one does not. -/
  wider : Prop
  left_lt : ∀ i ∈ left, i < leftSize
  right_lt : ∀ i ∈ right, i < rightSize

/-- The faults with which a run on the right base may stop short. -/
def Bases.cuts (B : Bases) (e : Fault) : Prop :=
  B.wider ∧ e.isUnbound = true

/-- What corresponds in two runs on two bases. -/
structure Rebasing where
  ρ : Renaming
  /-- The frames of the first run that stand in narrow environments only. -/
  own : Nat → Prop

namespace Rebasing

variable {B : Bases} {w w' : Rebasing} {held : String → Extent} {c d : Chain}

/-- In the second world all corresponds that does in the first, and what corresponds there is used
as it was. -/
structure Le (w w' : Rebasing) : Prop where
  le : w.ρ.Le w'.ρ
  own : ∀ {i j}, w.ρ.frames i j → (w.own i ↔ w'.own i)

theorem Le.refl (w : Rebasing) : Le w w :=
  ⟨.refl _, fun _ => .rfl⟩

theorem Le.trans {w'' : Rebasing} (h : Le w w') (h' : Le w' w'') : Le w w'' :=
  ⟨h.le.trans h'.le, fun k => (h.own k).trans (h'.own (h.le.frames k))⟩

/-- Frames that correspond, and may stand before the bases. -/
def Before (B : Bases) (w : Rebasing) (i j : Nat) : Prop :=
  w.ρ.frames i j ∧ (B.scope = .narrow → w.own i)

theorem Le.before (h : Le w w') {i j : Nat} (hij : w.Before B i j) : w'.Before B i j :=
  ⟨h.le.frames hij.1, fun hk => (h.own hij.1).1 (hij.2 hk)⟩

/-- Environments that correspond as far as the bases. -/
def OnBases (B : Bases) (w : Rebasing) (c d : Chain) : Prop :=
  ∃ cs ds, c = cs ++ B.left ∧ d = ds ++ B.right ∧ List.Forall₂ (w.Before B) cs ds

theorem Le.onBases (h : Le w w') : w.OnBases B c d → w'.OnBases B c d := by
  rintro ⟨cs, ds, hc, hd, hcd⟩
  exact ⟨cs, ds, hc, hd, hcd.imp fun _ _ => h.before⟩

theorem OnBases.linked (held : String → Extent) (h : w.OnBases B c d) :
    (w.ρ.linkOn held B.left B.right B.made).chains c d := by
  obtain ⟨cs, ds, hc, hd, hcd⟩ := h
  exact .inr ⟨cs, ds, hc, hd, hcd.imp fun _ _ k => k.1⟩

/-- What corresponds, where closures on the bases have a body that may run there. -/
def link (held : String → Extent) (B : Bases) (w : Rebasing) : Link :=
  { w.ρ.linkOn held B.left B.right B.made with
    admits
      | .closure i params body c _, .closure _ _ _ d _ => List.Forall₂ w.ρ.frames c d ∨
          B.made ≤ i ∧ w.OnBases B c d ∧ B.scope.Runs B.names body ∧
            ∀ name ∈ params, B.scope.Binds name
      | _, _ => True }

/-- In a later world more corresponds, and nothing that did has changed sides: a frame put before
the bases stays one. -/
theorem Le.link (h : Le w w') : (w.link held B).Le (w'.link held B) where
  closures := h.le.closures
  chains := by
    have shared : ∀ {c d}, List.Forall₂ w.ρ.frames c d → List.Forall₂ w'.ρ.frames c d :=
      fun k => k.imp fun _ _ => h.le.frames
    rintro c d (k | ⟨cs, ds, hc, hd, k⟩)
    · exact .inl (shared k)
    · exact .inr ⟨cs, ds, hc, hd, shared k⟩
  options := id
  hosts k := k.trans h.le
  admits _ _ _ := by
    rintro (k | ⟨hi, k, hb⟩)
    · exact .inl (k.imp fun _ _ => h.le.frames)
    · exact .inr ⟨hi, h.onBases k, hb⟩

theorem renaming_link_le (w : Rebasing) : (w.ρ.link held).Le (w.link held B) :=
  ⟨id, .inl, id, id, fun _ he _ _ => .inl he⟩

theorem link_le_linkOn (w : Rebasing) :
    (w.link held B).Le (w.ρ.linkOn held B.left B.right B.made) :=
  ⟨id, id, id, id, fun _ _ _ => Or.imp id And.left⟩

end Rebasing

/-! ### States of two runs on two bases -/

/-- The states agree: what corresponds is matched, on the bases every name that code looks up there
means the same, or nothing on the right where the left is wider, and no macros but the standard ones
stand in narrow environments. -/
structure Rebased (held : String → Extent) (B : Bases) (w : Rebasing) (s t : State) : Prop where
  matched : MatchedBy (w.link held B) w.ρ s t
  left_le : B.leftSize ≤ s.frames.size
  right_le : B.rightSize ≤ t.frames.size
  made : B.made ≤ s.closures
  bases : ∀ name, B.scope.Sees B.names name →
    Finds (w.link held B) B.cuts (s.resolve B.left name) (t.resolve B.right name)
  macros : B.scope = .narrow → ∀ name v, s.resolve B.left name = some v → v.isMacro = true →
    IsStandardMacro name v
  own : ∀ i, w.own i → ∃ f, s.frames[i]? = some f ∧ Scope.narrow.Fits f
  log : s.messages = t.messages

namespace Rebased

variable {held : String → Extent} {B : Bases} {w : Rebasing} {s t : State}

/-- Environments that correspond, for the code of a scope. -/
def Chains (B : Bases) (w : Rebasing) (k : Scope) (c d : Chain) : Prop :=
  k = .free ∧ List.Forall₂ w.ρ.frames c d ∨ k = B.scope ∧ w.OnBases B c d

/-- Frames that the two runs fill together, none of the bases among them. -/
def Paired (B : Bases) (w : Rebasing) (k : Scope) (i j : Nat) : Prop :=
  w.ρ.frames i j ∧ B.leftSize ≤ i ∧ B.rightSize ≤ j ∧ (w.own i ↔ k = .narrow)

theorem chains_cons {k : Scope} {i j : Nat} {c d : Chain} (hp : Paired B w k i j) :
    Chains B w k c d → Chains B w k (i :: c) (j :: d) := by
  rintro (⟨hk, hc⟩ | ⟨hk, cs, ds, rfl, rfl, hc⟩)
  · exact .inl ⟨hk, .cons hp.1 hc⟩
  · exact .inr ⟨hk, i :: cs, j :: ds, rfl, rfl, .cons ⟨hp.1, fun h => hp.2.2.2.2 (hk.trans h)⟩ hc⟩

/-- A name that neither of the two parts before the bases binds means what it does on the bases. -/
theorem resolve (h : Rebased held B w s t) {k : Scope} {c d : Chain} (hc : Chains B w k c d)
    {name : String} (hn : k.Sees B.names name) :
    Finds (w.link held B) B.cuts (s.resolve c name) (t.resolve d name) := by
  obtain ⟨-, hc⟩ | ⟨rfl, cs, ds, rfl, rfl, hc⟩ := hc
  · exact .of_rel (h.matched.resolve hc name)
  · rw [State.resolve_append, State.resolve_append]
    exact .or (h.matched.resolve (hc.imp fun _ _ k => k.1) name) (h.bases name hn)

/-- The frames before narrow bases bind no macros. -/
theorem macro_standard (h : Rebased held B w s t) {c d : Chain} (hc : Chains B w .narrow c d)
    {name : String} {v : Value} (hv : s.resolve c name = some v) (hm : v.isMacro = true) :
    IsStandardMacro name v := by
  obtain ⟨hk, -⟩ | ⟨hk, cs, ds, rfl, rfl, hc⟩ := hc
  · cases hk
  · induction hc with
    | nil => exact h.macros hk.symm name v hv hm
    | @cons i j cs ds hij _ ih =>
        obtain ⟨f, hf, fits⟩ := h.own i (hij.2 hk.symm)
        rw [List.cons_append, State.resolve_cons, hf, Option.bind_some] at hv
        cases hg : Entries.get? name f with
        | none =>
            rw [hg] at hv
            exact ih hv
        | some u =>
            rw [hg] at hv
            cases hv
            rw [(fits rfl name v hg).2] at hm
            cases hm

theorem emit (h : Rebased held B w s t) {e f : Event} (he : Event.Alike (w.link held B) e f) :
    Rebased held B w { s with log := e :: s.log } { t with log := f :: t.log } :=
  ⟨h.matched.emit e f, h.left_le, h.right_le, h.made, h.bases, h.macros, h.own,
    he.messages_eq h.log⟩

/-- The bases are not written to, and a frame of narrow environments gets no macros. -/
theorem bindName (h : Rebased held B w s t) {k : Scope} {i j : Nat} (hp : Paired B w k i j)
    {name : String} (hn : k.Binds name) {v v' : Value} (hv : Value.Alike (w.link held B) v v') :
    Rebased held B w
      { s with frames := s.frames.modify i (Entries.insert name (tag name v)) }
      { t with frames := t.frames.modify j (Entries.insert name (tag name v')) } := by
  obtain ⟨hij, hi, hj, hk⟩ := hp
  have left : ∀ n ∈ B.left, n ≠ i := fun n hn =>
    Nat.ne_of_lt (Nat.lt_of_lt_of_le (B.left_lt n hn) hi)
  have right : ∀ n ∈ B.right, n ≠ j := fun n hn =>
    Nat.ne_of_lt (Nat.lt_of_lt_of_le (B.right_lt n hn) hj)
  refine ⟨h.matched.bindName hij name (tag_alike name hv), ?_, ?_, h.made, ?_, ?_, ?_, h.log⟩
  · simpa using h.left_le
  · simpa using h.right_le
  · intro name hn
    rw [State.resolve_modify left, State.resolve_modify right]
    exact h.bases name hn
  · intro hs name v
    rw [State.resolve_modify left]
    exact h.macros hs name v
  · intro n own
    obtain ⟨f, hf, fits⟩ := h.own n own
    simp only [Array.getElem?_modify, hf, Option.map_some]
    split
    · rename_i same
      subst same
      cases hk.1 own
      exact ⟨_, rfl, fits.insert hn fun plain => Scope.Fits.isMacro_tag plain v⟩
    · exact ⟨f, rfl, fits⟩

/-- A new pair of frames belongs to the scope in which it is made. -/
theorem allocate (h : Rebased held B w s t) {k : Scope} {f g : Frame}
    (hfg : Frame.Alike (w.link held B) f g) (hk : k.Fits f) :
    ∃ w', w.Le w' ∧ Paired B w' k s.frames.size t.frames.size ∧
      Rebased held B w' { s with frames := s.frames.push f }
        { t with frames := t.frames.push g } := by
  have own_lt : ∀ i, w.own i → i < s.frames.size := by
    intro i own
    obtain ⟨f, hf, -⟩ := h.own i own
    exact (Array.getElem?_eq_some_iff.1 hf).1
  have hl : w.Le ⟨w.ρ.withFrame s.frames.size t.frames.size h.matched.frames_lt,
      fun i => w.own i ∨ i = s.frames.size ∧ k = .narrow⟩ := by
    refine ⟨Renaming.le_withFrame h.matched.frames_lt, fun {i j} hij => ?_⟩
    have hi := (h.matched.frames_lt hij).1
    exact ⟨.inl, fun own => own.resolve_right fun new => absurd new.1 (Nat.ne_of_lt hi)⟩
  refine ⟨_, hl, ⟨.inr ⟨rfl, rfl⟩, h.left_le, h.right_le, ?_⟩, h.matched.allocate hl.link hfg,
    ?_, ?_, h.made, ?_, ?_, ?_, h.log⟩
  · exact ⟨fun own => (own.resolve_left fun old => Nat.lt_irrefl _ (own_lt _ old)).2,
      fun hk => .inr ⟨rfl, hk⟩⟩
  · simpa using Nat.le_succ_of_le h.left_le
  · simpa using Nat.le_succ_of_le h.right_le
  · intro name hn
    rw [State.resolve_push fun i hi => Nat.lt_of_lt_of_le (B.left_lt i hi) h.left_le,
      State.resolve_push fun i hi => Nat.lt_of_lt_of_le (B.right_lt i hi) h.right_le]
    exact (h.bases name hn).mono hl.link
  · intro hs name v
    rw [State.resolve_push fun i hi => Nat.lt_of_lt_of_le (B.left_lt i hi) h.left_le]
    exact h.macros hs name v
  · rintro i (own | ⟨rfl, rfl⟩)
    · obtain ⟨f', hf, fits⟩ := h.own i own
      refine ⟨f', ?_, fits⟩
      rw [Array.getElem?_push, if_neg (Nat.ne_of_lt (own_lt i own)), hf]
    · exact ⟨f, Array.getElem?_push_size, hk⟩

/-- A new closure admits its body where it has been made. -/
theorem nextClosure (h : Rebased held B w s t) : ∃ w', w.Le w' ∧
    (∀ {k : Scope} {params body body' c d o p}, Chains B w' k c d → k.Runs B.names body →
      (∀ name ∈ params, k.Binds name) → (w'.link held B).options o p →
      Value.Alike (w'.link held B) body body' → Value.Alike (w'.link held B)
        (.closure s.closures params body c o) (.closure t.closures params body' d p)) ∧
    Rebased held B w' { s with closures := s.closures + 1 }
      { t with closures := t.closures + 1 } := by
  have hl : w.Le ⟨w.ρ.withClosure s.closures t.closures h.matched.closures, w.own⟩ :=
    ⟨Renaming.le_withClosure h.matched.closures, fun _ => .rfl⟩
  refine ⟨_, hl, ?_, h.matched.nextClosure hl.link, h.left_le, h.right_le,
    Nat.le_succ_of_le h.made, ?_, h.macros, h.own, h.log⟩
  · rintro k params body body' c d o p (⟨-, hc⟩ | ⟨rfl, hc⟩) hb hp ho hv
    · exact .closure (.inr ⟨rfl, rfl⟩) hv (.inl hc) ho (.inl hc)
    · exact .closure (.inr ⟨rfl, rfl⟩) hv (hc.linked held) ho (.inr ⟨h.made, hc, hb, hp⟩)
  · exact fun name hn => (h.bases name hn).mono hl.link

end Rebased

/-- States of two runs that agree on two bases. -/
def Correspondence.rebased {host : Host} {held : String → Extent} (hp : host.Pure held)
    (B : Bases) (hh : ∀ e, B.cuts e → host.HandsOn e) : Correspondence host where
  World := Rebasing
  Le := Rebasing.Le
  link := Rebasing.link held B
  chains := Rebased.Chains B
  paired := Rebased.Paired B
  names := B.names
  cuts := B.cuts
  Agree := Rebased held B
  le_refl := .refl
  le_trans h h' := h.trans h'
  le_link h := h.link
  le_chains h := Or.imp (fun k => ⟨k.1, k.2.imp fun _ _ => h.le.frames⟩) fun k =>
    ⟨k.1, h.onBases k.2⟩
  le_paired h k := ⟨h.le.frames k.1, k.2.1, k.2.2.1, (h.own k.1).symm.trans k.2.2.2⟩
  chains_cons := Rebased.chains_cons
  options_cases h := .inl h
  respects w := hp _ fun _ hh => (Renaming.Le.link hh).trans w.renaming_link_le
  handsOn := hh
  captured := by
    rintro w i j params body body' c d o p - (hc | ⟨-, hc, hb, hp⟩)
    · exact ⟨.free, .inl ⟨rfl, hc⟩, .free _, fun _ _ => .free _⟩
    · exact ⟨B.scope, .inr ⟨rfl, hc⟩, hb, hp⟩
  emit h he := ⟨_, .refl _, h.emit he⟩
  bindName h hp hn hv := h.bindName hp hn hv
  allocate h hfg hk := h.allocate hfg hk
  nextClosure h := h.nextClosure
  resolve h hc hn := h.resolve hc hn
  macros h hc hv hm := h.macro_standard hc hv hm

/-! ### Evaluations -/

section Evaluations

variable {host : Host} {held : String → Extent} {s₀ : State} {k : Scope} {N : String → Prop}

/-- The frames of a host bind values that are known where those are that it hands in. -/
theorem meaning_alike {x : Extent} {frames : Value} (hk : frames.Known held x) {fs : List Frame}
    (hf : hostFrames frames = .ok fs) (name : String) :
    Option.Rel (Value.Alike ((Renaming.same x).link held)) (meaning fs name) (meaning fs name) := by
  have alike : ∀ f ∈ fs, Frame.Alike ((Renaming.same x).link held) f f := by
    intro f hmem
    obtain ⟨es, he, rfl⟩ := mem_hostFrames hf f hmem
    cases List.forall₂_same.1 hk.operands _ he with
    | mapping h => exact .of_forall₂ (h.mapValues fun name _ _ => tag_alike name)
  cases hn : meaning fs name with
  | none => exact .none
  | some v =>
      obtain ⟨f, hmem, hv⟩ | hv := mem_of_meaning hn
      · exact hv ▸ alike f hmem name
      · exact hv ▸ Frame.Alike.standard _ name

/-- The macros of the standard frame are standard ones, under their own names. -/
theorem isStandardMacro_of_standard {name : String} {v : Value}
    (h : Entries.get? name Frame.standard = some v) (hm : v.isMacro = true) :
    IsStandardMacro name v := by
  obtain ⟨m, rfl, rfl⟩ := Frame.eq_standard h
  have hs : isMacroName m.symbol = true := by
    by_contra plain
    rw [Scope.Fits.isMacro_tag (Bool.eq_false_iff.2 plain)] at hm
    cases hm
  exact ⟨m, by simp [tag, Value.isCallable, Value.untagged, hs], rfl, hs⟩

/-- Where no frame of the host binds a macro, only the standard ones are there. -/
theorem macro_of_meaning {fs : List Frame} (hf : ∀ f ∈ fs, Scope.narrow.Fits f) {name : String}
    {v : Value} (hn : meaning fs name = some v) (hm : v.isMacro = true) :
    IsStandardMacro name v := by
  obtain ⟨f, hmem, hv⟩ | hv := mem_of_meaning hn
  · rw [(hf f hmem rfl name v hv).2] at hm
    cases hm
  · exact isStandardMacro_of_standard hv hm

/-- The chains of frames of a host before the standard one. -/
def Bases.ofFrames (h : s₀.frames[0]? = some Frame.standard) (fs fs' : List Frame) (k : Scope)
    (N : String → Prop) (wider : Prop) : Bases where
  left := s₀.chained standardChain fs
  right := s₀.chained standardChain fs'
  leftSize := s₀.frames.size + fs.length
  rightSize := s₀.frames.size + fs'.length
  made := s₀.closures
  scope := k
  names := N
  wider := wider
  left_lt := State.mem_chained (State.mem_standardChain h) fs
  right_lt := State.mem_chained (State.mem_standardChain h) fs'

/-- Nothing has been put before the bases, and what was there before them is left as it is. -/
def Rebasing.start (x : Extent) : Rebasing :=
  ⟨.same x, fun _ => False⟩

variable {frames : Value} {fs fs' : List Frame} {wider : Prop}

/-- Two evaluations begin in states that agree on their bases, if the names that are looked up mean
the same there, or nothing in the second where it may have fewer. -/
theorem Rebased.start (hc : s₀.Closed held) (hs : s₀.frames[0]? = some Frame.standard)
    (hk : frames.Known held s₀.extent) (hf : hostFrames frames = .ok fs)
    (plain : ∀ f ∈ fs, k.Fits f)
    (means : ∀ name, k.Sees N name →
      meaning fs' name = meaning fs name ∨ wider ∧ meaning fs' name = none) :
    Rebased held (.ofFrames hs fs fs' k N wider) (.start s₀.extent) (s₀.withFrames fs)
      (s₀.withFrames fs') := by
  have matched := hc.grow (s₀.grows_withFrames fs) (s₀.grows_withFrames fs')
  refine ⟨matched.mono (Rebasing.start _).renaming_link_le, ?_, ?_, ?_, fun name hn => ?_,
    fun hk name v hv hm => ?_, fun _ own => own.elim, ?_⟩
  · simp [Bases.ofFrames]
  · simp [Bases.ofFrames]
  · simp [Bases.ofFrames]
  · have known : Option.Rel (Value.Alike ((Rebasing.start s₀.extent).link held
        (.ofFrames hs fs fs' k N wider))) (meaning fs name) (meaning fs name) :=
      Value.Alike.option_mono (Rebasing.start _).renaming_link_le (meaning_alike hk hf name)
    simp only [Bases.ofFrames, State.resolve_eq_meaning hs]
    obtain same | ⟨hw, unbound⟩ := means name hn
    · rw [same]
      exact .of_rel known
    · rw [unbound]
      generalize meaning fs name = a at known
      cases known with
      | none => exact .neither
      | some hv => exact .first hv fun e he => ⟨hw, he⟩
  · obtain rfl : k = .narrow := hk
    exact macro_of_meaning plain ((State.resolve_eq_meaning hs fs name).symm.trans hv) hm
  · simp [State.messages]

/-- The ends of two runs on two bases are the same outcome. -/
theorem Rebased.sameOutcome {hp : host.Pure held} {B : Bases}
    {hh : ∀ e, B.cuts e → host.HandsOn e} {x : Extent} (hx : B.made = x.closures)
    {r q : Option (Except Fault Value × State)}
    (h : Correspondence.Ends (C := .rebased hp B hh) (Correspondence.rebased hp B hh).Values
      (.start x) r q) : Option.Rel (SameOutcomeOn held B.left B.right x) r q := by
  cases h with
  | exhausted => exact .none
  | @error w _ _ hw hs e =>
      exact .some ⟨w.ρ, hw.le, hx ▸ hs.matched.mono w.link_le_linkOn, .error e, hs.log⟩
  | @ok w _ _ _ _ hw hs hv =>
      refine .some ⟨w.ρ, hw.le, hx ▸ hs.matched.mono w.link_le_linkOn, .ok ?_, hs.log⟩
      exact hx ▸ hv.mono w.link_le_linkOn

/-- With fewer names bound an evaluation goes alike, until it looks one of the others up, if no
function of the host catches the fault that this is. -/
theorem evaluate_covers (hp : host.Pure held)
    (hh : ∀ e : Fault, wider ∧ e.isUnbound = true → host.HandsOn e) (hc : s₀.Closed held)
    (hs : s₀.frames[0]? = some Frame.standard) {expr : Value} (he : expr.Known held s₀.extent)
    (hr : k.Runs N expr) (hk : frames.Known held s₀.extent) (hf : hostFrames frames = .ok fs)
    {frames' : Value} (hf' : hostFrames frames' = .ok fs') (plain : ∀ f ∈ fs, k.Fits f)
    (means : ∀ name, k.Sees N name →
      meaning fs' name = meaning fs name ∨ wider ∧ meaning fs' name = none)
    (options : Options) (fuel : Nat) :
    Correspondence.Covers (C := .rebased hp (.ofFrames hs fs fs' k N wider) hh)
      (Correspondence.rebased hp (.ofFrames hs fs fs' k N wider) hh).Values (.start s₀.extent)
      ((evaluate host fuel expr frames options).runFrom s₀)
      ((evaluate host fuel expr frames' options).runFrom s₀) := by
  let C := Correspondence.rebased hp (.ofFrames hs fs fs' k N wider) hh
  have env : C.chains (.start s₀.extent) k (s₀.chained standardChain fs)
      (s₀.chained standardChain fs') := .inr ⟨rfl, [], [], rfl, rfl, .nil⟩
  have switch : (C.link (.start s₀.extent)).options options options := rfl
  have sim := (C.run_follows fuel).eval env switch hr (he.mono (Rebasing.start _).renaming_link_le)
  rw [runFrom_evaluate, runFrom_evaluate, hf, hf']
  exact sim _ _ _ (.refl _ _) (Rebased.start hc hs hk hf plain means)

/-- **An evaluation sees of the frames of a host only what the names mean that it looks up.** -/
theorem evaluate_rebased (hp : host.Pure held) (hc : s₀.Closed held)
    (hs : s₀.frames[0]? = some Frame.standard) {expr : Value} (he : expr.Known held s₀.extent)
    (hr : k.Runs N expr) (hk : frames.Known held s₀.extent) (hf : hostFrames frames = .ok fs)
    {frames' : Value} (hf' : hostFrames frames' = .ok fs')
    (plain : ∀ f ∈ fs, k.Fits f)
    (same : ∀ name, k.Sees N name → meaning fs name = meaning fs' name)
    (options : Options) (fuel : Nat) :
    SameEvaluation held s₀ fs fs'
      ((evaluate host fuel expr frames options).runFrom s₀)
      ((evaluate host fuel expr frames' options).runFrom s₀) := by
  have means : ∀ name, k.Sees N name →
      meaning fs' name = meaning fs name ∨ False ∧ meaning fs' name = none :=
    fun name hn => .inl (same name hn).symm
  have covers := evaluate_covers hp (fun _ cut => cut.1.elim) hc hs he hr hk hf hf' plain means
    options fuel
  generalize (evaluate host fuel expr frames options).runFrom s₀ = r,
    (evaluate host fuel expr frames' options).runFrom s₀ = q at covers ⊢
  cases covers with
  | whole ends => exact Rebased.sameOutcome rfl ends
  | short _ _ cut _ => exact cut.1.elim

end Evaluations

end FormLang
