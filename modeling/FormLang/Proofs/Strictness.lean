import FormLang.Proofs.Alike.Renaming
import FormLang.Proofs.Environment

/-!
# Strictness — a strict `cond` only adds one fault

A program is evaluated leniently and strictly, from one state.  The two runs go alike until a `cond`
finds no clause: there the lenient one goes on with the absent value and the strict one ends.  The
switch is captured by every closure that is made, so the closures of the two runs differ in it; but
closures that were there before keep the switch that they have, and are as strict in the one run as
in the other (`flagged`).

So **the strict run ends as the lenient one does, or fails for want of a clause, with a log that the
lenient one goes on from** (`strict_adds_noClauseMatched`).  This is so for hosts that do not catch
this one fault: a function that calls a closure and makes a value of its failure would make one in
the strict run alone.
-/

namespace FormLang

theorem messages_prefix {s t : State} (h : s.log <:+ t.log) : s.messages <+: t.messages :=
  List.reverse_prefix.2 (h.map _)

/-- What corresponds in a lenient and a strict run: everything to itself, except that of closures
from the `n`-th on, the one may be lenient and the other strict. -/
def flagged (n : Nat) : Link where
  closures := Eq
  chains := Eq
  options o p := o = p ∨ o.strictCond = false ∧ p.strictCond = true
  hosts _ := True
  admits
    | .closure i _ _ _ o, .closure _ _ _ _ p => i < n → o = p
    | _, _ => True
  closures_iff := by rintro i j _ _ rfl rfl; rfl

variable {n : Nat}

theorem Value.alike_flagged (n : Nat) (v : Value) : v.Alike (flagged n) v := by
  refine .refl (fun _ => rfl) (fun _ => rfl) (fun _ => Or.inl rfl) (fun _ => trivial)
    (fun v => ?_) v
  cases v with
  | closure => exact fun _ => rfl
  | _ => trivial

/-- Whatever does not depend on how frames and closures are numbered respects the switch too. -/
theorem Renaming.same_link_le_flagged (held : String → Extent) (x : Extent) (n : Nat) :
    ((Renaming.same x).link held).Le (flagged n) where
  closures h := h.1
  chains h := by
    induction h with
    | nil => rfl
    | cons h _ ih => exact congrArg₂ List.cons h.1 ih
  options h := .inl h
  hosts _ := trivial
  admits _ _ ho _ := fun _ => ho

/-! ### States of the two runs -/

/-- The states are the same, except that closures from the `n`-th on may differ in their switch. -/
structure Flagged (n : Nat) (s t : State) : Prop where
  frames : ∀ i : Nat, Option.Rel (Frame.Alike (flagged n)) s.frames[i]? t.frames[i]?
  size : s.frames.size = t.frames.size
  closures : s.closures = t.closures
  made : n ≤ s.closures
  log : s.messages = t.messages

namespace Flagged

variable {s t : State}

theorem refl (s : State) (h : n ≤ s.closures) : Flagged n s s := by
  refine ⟨fun i => ?_, rfl, rfl, h, rfl⟩
  cases s.frames[i]? with
  | none => exact .none
  | some f => exact .some (.of_forall₂ (.same fun e _ => Value.alike_flagged n e.2))

/-- A name means the same in both states, up to switches. -/
theorem resolve (h : Flagged n s t) (env : Chain) (name : String) :
    Option.Rel (Value.Alike (flagged n)) (s.resolve env name) (t.resolve env name) := by
  induction env with
  | nil => exact .none
  | cons i env ih =>
      rw [State.resolve_cons, State.resolve_cons]
      have hf := h.frames i
      generalize s.frames[i]? = a, t.frames[i]? = b at hf ⊢
      cases hf with
      | none => exact ih
      | @some f g hf =>
          have hr := hf name
          simp only [Option.bind_some]
          generalize Entries.get? name f = a, Entries.get? name g = b at hr ⊢
          cases hr with
          | none => exact ih
          | some hv => exact .some hv

/-- New frames that are the same up to switches. -/
theorem push (h : Flagged n s t) {f g : Frame} (hf : Frame.Alike (flagged n) f g) :
    Flagged n { s with frames := s.frames.push f } { t with frames := t.frames.push g } := by
  refine ⟨fun i => ?_, by simp [h.size], h.closures, h.made, h.log⟩
  rw [Array.getElem?_push, Array.getElem?_push, h.size]
  split
  · exact .some hf
  · exact h.frames i

/-- Bindings that are the same up to switches, written into frames of one number. -/
theorem modify (h : Flagged n s t) (i : Nat) (name : String) {v w : Value}
    (hv : v.Alike (flagged n) w) :
    Flagged n { s with frames := s.frames.modify i (Entries.insert name v) }
      { t with frames := t.frames.modify i (Entries.insert name w) } := by
  refine ⟨fun j => ?_, by simp [h.size], h.closures, h.made, h.log⟩
  have hf := h.frames j
  simp only [Array.getElem?_modify]
  split
  · generalize s.frames[j]? = a, t.frames[j]? = b at hf ⊢
    cases hf with
    | none => exact .none
    | some hf => exact .some (hf.insert name hv)
  · exact hf

end Flagged

/-! ### The two runs -/

variable {held : String → Extent} {host : Host}

/-- A lenient run, and a strict one that may fail for want of a clause.  A world is the log of the
lenient run. -/
def Correspondence.strict (hp : host.Pure held) (hh : host.HandsOn .noClauseMatched) (n : Nat) :
    Correspondence host where
  World := List Event
  Le log log' := log <:+ log'
  link _ := flagged n
  chains _ := Scope.only Eq
  paired _ _ := Eq
  cuts e := e = .noClauseMatched
  Agree log s t := s.log = log ∧ Flagged n s t
  le_refl _ := List.suffix_rfl
  le_trans h h' := h.trans h'
  le_link _ := .refl _
  le_chains _ hc := hc
  le_paired _ hp := hp
  chains_cons hp hc := hc.imp fun h => by rw [hp, h]
  options_cases h := h.imp id fun h => ⟨rfl, h⟩
  respects _ := hp _ fun _ _ => Renaming.same_link_le_flagged held _ n
  handsOn := by rintro _ rfl; exact hh
  captured hc _ := ⟨.free, hc, .free _, fun _ _ => .free _⟩
  emit h he := ⟨_, List.suffix_cons _ _, by rw [h.1],
    ⟨h.2.frames, h.2.size, h.2.closures, h.2.made, he.messages_eq h.2.log⟩⟩
  bindName h hij _ hv := ⟨h.1, by cases hij; exact h.2.modify _ _ (tag_alike _ hv)⟩
  allocate h hf _ := ⟨_, List.suffix_rfl, h.2.size, h.1, h.2.push hf⟩
  nextClosure := by
    rintro log s t ⟨rfl, h⟩
    refine ⟨_, List.suffix_rfl, fun hc _ _ ho hb => ?_, rfl, ?_⟩
    · refine .closure h.closures hb hc.holds ho fun hi => ?_
      exact absurd hi (Nat.not_lt.2 h.made)
    · exact ⟨h.frames, h.size, congrArg (· + 1) h.closures, Nat.le_succ_of_le h.made, h.log⟩
  resolve h hc _ := by cases hc.holds; exact .of_rel (h.2.resolve _ _)
  macros _ hc := hc.elim

/-- **A strict `cond` only adds one fault.**  Let no function of the host catch that no clause
matched.  If the lenient evaluation ends, so does the strict one: with the same log and the same
outcome, a fault or a value up to the switch of the closures made on the way, in states that are the
same up to that too, so also in what a closure has captured; or for want of a clause, when its log
is where the lenient one's goes on. -/
theorem strict_adds_noClauseMatched (hp : host.Pure held) (hh : host.HandsOn .noClauseMatched)
    (fuel : Nat) (expr frames : Value) (s₀ : State) {r : Except Fault Value × State}
    (h : (evaluate host fuel expr frames ⟨false⟩).runFrom s₀ = some r) :
    ∃ q, (evaluate host fuel expr frames ⟨true⟩).runFrom s₀ = some q ∧
      (AnswersAlike (Value.Alike (flagged s₀.closures)) r.1 q.1 ∧
          Flagged s₀.closures r.2 q.2 ∧ r.2.messages = q.2.messages ∨
        q.1 = .error .noClauseMatched ∧ q.2.messages <+: r.2.messages) := by
  rw [runFrom_evaluate] at h ⊢
  cases hf : hostFrames frames with
  | error e =>
      rw [hf] at h
      cases h
      exact ⟨_, rfl, .inl ⟨.error e, .refl s₀ (Nat.le_refl _), rfl⟩⟩
  | ok fs =>
      rw [hf] at h
      dsimp only at h ⊢
      have env : (Correspondence.strict hp hh s₀.closures).chains (s₀.withFrames fs).log .free
          (s₀.chained standardChain fs) (s₀.chained standardChain fs) := rfl
      have sim := (Correspondence.run_follows _ fuel).eval env (.inr ⟨rfl, rfl⟩) (.free expr)
        (expr.alike_flagged s₀.closures)
      have covers := sim _ _ _ (.refl _ _) ⟨rfl, .refl (s₀.withFrames fs) (by simp)⟩
      rw [h] at covers
      generalize (run host fuel _).runFrom _ = q at covers ⊢
      cases covers with
      | whole ends =>
          cases ends with
          | error _ hs e => exact ⟨_, rfl, .inl ⟨.error e, hs.2, hs.2.log⟩⟩
          | ok _ hs hv => exact ⟨_, rfl, .inl ⟨.ok hv, hs.2, hs.2.log⟩⟩
      | short _ hs he ends =>
          -- The lenient run's log at this point is a world, and worlds only grow.
          refine ⟨_, rfl, .inr ⟨congrArg _ he, ?_⟩⟩
          rw [← hs.2.log]
          cases ends with
          | error hw hs' e => exact messages_prefix (by rw [hs.1, hs'.1]; exact hw)
          | ok hw hs' hv => exact messages_prefix (by rw [hs.1, hs'.1]; exact hw)

/-- A `cond` without clauses, before a sum: the lenient evaluation goes on to the sum, the strict
one fails before it, with the first entry of the same log. -/
theorem strict_adds_noClauseMatched_unmatched :
    ∃ s t, (evaluate hostTools 4 (.list [.mapping [("cond", .list [])],
        .mapping [("plus", .list [.int 1, .int 2])]]) .null ⟨false⟩).runFrom .initial =
          some (.ok (.list [.undefined, .int 3]), s) ∧
      (evaluate hostTools 4 (.list [.mapping [("cond", .list [])],
        .mapping [("plus", .list [.int 1, .int 2])]]) .null ⟨true⟩).runFrom .initial =
          some (.error .noClauseMatched, t) ∧
      t.messages <+: s.messages ∧ t.log.length = 1 ∧ s.log.length = 2 := by
  have runs : ∃ s t, (evaluate hostTools 4 (.list [.mapping [("cond", .list [])],
        .mapping [("plus", .list [.int 1, .int 2])]]) .null ⟨false⟩).runFrom .initial =
          some (.ok (.list [.undefined, .int 3]), s) ∧
      (evaluate hostTools 4 (.list [.mapping [("cond", .list [])],
        .mapping [("plus", .list [.int 1, .int 2])]]) .null ⟨true⟩).runFrom .initial =
          some (.error .noClauseMatched, t) ∧
      t.log.length = 1 ∧ s.log.length = 2 := by
    refine ⟨_, _, rfl, rfl, ?_, ?_⟩
    · rfl
    · rfl
  obtain ⟨s, t, lenient, strict, one, two⟩ := runs
  obtain ⟨q, hq, same | ⟨-, shorter⟩⟩ :=
    strict_adds_noClauseMatched (hostTools_pure holdsNothing) (hostTools_handsOn _) 4 _ _ _ lenient
  · rw [strict] at hq
    cases hq
    cases same.1
  · rw [strict] at hq
    cases hq
    exact ⟨s, t, lenient, strict, shorter, one, two⟩

/-- A host whose functions call a callable and make a text of its failure. -/
def catching : Host := fun _ args =>
  .call (args.head?.getD .undefined) [] fun
    | .ok v => .value v
    | .error _ => .value (.text "caught")

-- With this host the two evaluations end in different values.
example : ∃ s t,
    (evaluate catching 6 (.mapping [("attempt", .mapping [("lambda", .list []),
        ("body", .mapping [("cond", .list [])])])])
      (.mapping [("attempt", .host "attempt")]) ⟨false⟩).runFrom .initial =
        some (.ok .undefined, s) ∧
    (evaluate catching 6 (.mapping [("attempt", .mapping [("lambda", .list []),
        ("body", .mapping [("cond", .list [])])])])
      (.mapping [("attempt", .host "attempt")]) ⟨true⟩).runFrom .initial =
        some (.ok (.text "caught"), t) :=
  ⟨_, _, rfl, rfl⟩

end FormLang
