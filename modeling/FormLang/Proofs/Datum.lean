import FormLang.Json.Reader
import FormLang.Proofs.Alike.Values

/-!
# JSON — what a text can hold

A JSON text holds data: null, booleans, numbers and texts, lists of data, and mappings of distinct
names to data (`Json.read_datum`).  So an expression that is read from a text mentions no closure
and no function of the host, and is alike to itself under every link (`Json.Datum.alike`).

The reader is a machine that holds open containers.  Its invariant is that all it holds is data
(`Part.Sound`, `Want.Sound`); each token keeps it (`advance_sound`).
-/

namespace FormLang.Json

/-- The value is one that a text can hold. -/
inductive Datum : Value → Prop where
  | null : Datum .null
  | bool (b : Bool) : Datum (.bool b)
  | int (n : Int) : Datum (.int n)
  | float (x : Float) : Datum (.float x)
  | text (s : String) : Datum (.text s)
  | list {items : List Value} (h : ∀ v ∈ items, Datum v) : Datum (.list items)
  | mapping {entries : Entries Value} (hk : (Entries.keys entries).Nodup)
      (h : ∀ e ∈ entries, Datum e.2) : Datum (.mapping entries)

/-- Data are the same in any two runs. -/
theorem Datum.alike (l : Link) {v : Value} (h : Datum v) : v.Alike l v := by
  induction h with
  | null => exact .null
  | bool b => exact .bool b
  | int n => exact .int n
  | float x => exact .float x
  | text s => exact .text s
  | list _ ih => exact .list (List.forall₂_same.2 ih)
  | mapping _ _ ih => exact .mapping (.same ih)

/-! ### Tokens -/

/-- A number that is read is an integer or a float. -/
theorem number?_datum {text : List Char} {v : Value} (h : number? text = some v) : Datum v := by
  unfold number? at h
  extract_lets negative unsigned whole at h
  split at h
  · obtain ⟨⟨places, rest⟩, -, h⟩ := Option.bind_eq_some_iff.1 h
    obtain ⟨exponent, -, h⟩ := Option.bind_eq_some_iff.1 h
    dsimp only at h
    split at h
    · cases h; exact .int _
    · cases h; exact .float _
  · cases h

/-- A word that is read is null, a boolean, or one of the floats that have no digits. -/
theorem word?_datum {w : List Char} {v : Value} (h : word? w = some v) : Datum v := by
  unfold word? at h
  repeat' split at h
  · cases h; exact .null
  · cases h; exact .bool _
  · cases h; exact .bool _
  · cases h; exact .float _
  · cases h; exact .float _
  · cases h; exact .float _
  · cases h

/-- All atoms among the tokens are data. -/
def Plain (ts : List Token) : Prop :=
  ∀ v, .atom v ∈ ts → Datum v

theorem Plain.nil : Plain [] :=
  fun _ h => nomatch h

theorem Plain.atom {v : Value} {ts : List Token} (hv : Datum v) (hs : Plain ts) :
    Plain (.atom v :: ts) := by
  intro w h
  rcases List.mem_cons.1 h with h | h
  · cases h; exact hv
  · exact hs w h

theorem Plain.mark {t : Token} (h : ∀ v, .atom v ≠ t) : Plain [t] :=
  fun v hv => absurd (List.mem_singleton.1 hv) (h v)

theorem Plain.append {ts us : List Token} (ht : Plain ts) (hu : Plain us) : Plain (ts ++ us) := by
  intro v h
  rcases List.mem_append.1 h with h | h
  · exact ht v h
  · exact hu v h

/-- The tokens that a character completes, if it may stand there, are plain. -/
def Completes (o : Option (List Token × Scan)) : Prop :=
  ∀ r, o = some r → Plain r.1

namespace Completes

theorem none : Completes none :=
  fun _ h => nomatch h

theorem some {ts : List Token} {scan : Scan} (h : Plain ts) : Completes (some (ts, scan)) :=
  fun _ hr => Option.some.inj hr ▸ h

theorem ite {p : Prop} [Decidable p] {a b : Option (List Token × Scan)} (ha : Completes a)
    (hb : Completes b) : Completes (if p then a else b) := by
  split
  · exact ha
  · exact hb

theorem bind {α : Type} {x : Option α} {f : α → Option (List Token × Scan)}
    (h : ∀ a, x = .some a → Completes (f a)) : Completes (x >>= f) := by
  cases x with
  | none => exact none
  | some a => exact h a rfl

end Completes

theorem start_completes (c : Char) : Completes (start none c) := by
  refine .ite (.some .nil) (.ite (.some ?_) (.ite (.some ?_) (.ite (.some ?_) (.ite (.some ?_)
    (.ite (.some ?_) (.ite (.some ?_) (.ite (.some .nil) (.ite (.some .nil) (.ite (.some .nil)
      (.ite .none .none))))))))))
  all_goals exact .mark fun _ h => nomatch h

/-- A number or a word that ends, before the next token starts. -/
theorem ended_completes {read : Option Value} (h : ∀ v, read = some v → Datum v) (c : Char) :
    Completes (do
      let v ← read
      let (tokens, state) ← start none c
      return (.atom v :: tokens, state)) :=
  .bind fun v hv => .bind fun r hr => .some (.atom (h v hv) (start_completes c r hr))

theorem inString_completes (read : List Char) (c : Char) : Completes (inString read c) :=
  .ite (.some (.atom (.text _) .nil)) (.ite (.some .nil) (.ite .none (.some .nil)))

theorem inEscape_completes (read : List Char) (c : Char) : Completes (inEscape read c) := by
  refine .ite (.some .nil) ?_
  rw [Option.map_eq_bind]
  exact .bind fun _ _ => .some .nil

/-- A character completes plain tokens, whatever is being read. -/
theorem next_completes (scan : Scan) (c : Char) : Completes (scan.next none c) := by
  cases scan with
  | between => exact start_completes c
  | number read =>
      exact .ite (.some .nil) (.ite (.some .nil) (ended_completes (fun _ => number?_datum) c))
  | word read => exact .ite (.some .nil) (ended_completes (fun _ => word?_datum) c)
  | string read => exact inString_completes read c
  | escape read => exact inEscape_completes read c
  | unit read high count value => exact .bind fun _ _ => .some .nil
  | low read high => exact .ite (.some .nil) (inString_completes _ c)
  | lowEscape read high => exact .ite (.some .nil) (inEscape_completes _ c)

/-- The tokens that the end of the text completes are plain. -/
theorem finish_plain {scan : Scan} {ts : List Token} (h : scan.finish = some ts) : Plain ts := by
  cases scan with
  | between => cases h; exact .nil
  | number read =>
      obtain ⟨v, hv, rfl⟩ := Option.map_eq_some_iff.1 h
      exact .atom (number?_datum hv) .nil
  | word read =>
      obtain ⟨v, hv, rfl⟩ := Option.map_eq_some_iff.1 h
      exact .atom (word?_datum hv) .nil
  | _ => cases h

/-- All tokens of a text are plain, by induction on its characters. -/
theorem tokens_plain {scan : Scan} {cs : List Char} {ts : List Token}
    (h : tokens none scan cs = some ts) : Plain ts := by
  induction cs generalizing scan ts with
  | nil => exact finish_plain h
  | cons c cs ih =>
      obtain ⟨⟨found, scan'⟩, hn, h⟩ := Option.bind_eq_some_iff.1 h
      obtain ⟨rest, hr, h⟩ := Option.bind_eq_some_iff.1 h
      cases h
      exact (next_completes scan c _ hn).append (ih hr)

/-! ### Containers -/

/-- Named data under distinct names. -/
structure Members (entries : Entries Value) : Prop where
  keys : (Entries.keys entries).Nodup
  data : ∀ e ∈ entries, Datum e.2

theorem Members.nil : Members [] :=
  ⟨List.nodup_nil, List.forall_mem_nil _⟩

theorem Members.insert {entries : Entries Value} (h : Members entries) (name : String) {v : Value}
    (hv : Datum v) : Members (Entries.insert name v entries) :=
  ⟨Entries.nodup_keys_insert name v h.keys, Entries.forall_mem_insert h.data hv⟩

theorem Members.mapping {entries : Entries Value} (h : Members entries) :
    Datum (.mapping entries) :=
  .mapping h.keys h.data

/-- What an open container holds is data. -/
def Part.Sound : Part → Prop
  | .list items => ∀ v ∈ items, Datum v
  | .member entries _ => Members entries

/-- What has been read is data. -/
def Want.Sound : Want → Prop
  | .value | .valueOrEnd | .nameOrEnd => True
  | .name entries | .colon entries _ => Members entries
  | .after v => Datum v

/-- **A token keeps what is held data.**  The cases are those of the machine: what is wanted, and
the token that comes.  Only a value that is complete is put into the container around it, as an item
or as an entry. -/
theorem advance_sound {want want' : Want} {outer outer' : List Part} {t : Token}
    (hw : want.Sound) (ho : ∀ p ∈ outer, p.Sound) (ht : ∀ v, t = .atom v → Datum v)
    (h : advance want outer t = some (want', outer')) :
    want'.Sound ∧ ∀ p ∈ outer', p.Sound := by
  have closed : ∀ {items : List Value}, (∀ v ∈ items, Datum v) → Datum (.list items.reverse) :=
    fun hi => .list fun v hv => hi v (List.mem_reverse.1 hv)
  revert h
  fun_cases advance want outer t
  -- A value is wanted: an atom, the opening of a list or of a mapping, or the end of a list.
  case case1 | case2 => rintro ⟨⟩; exact ⟨ht _ rfl, ho⟩
  case case3 | case4 =>
      rintro ⟨⟩
      exact ⟨trivial, List.forall_mem_cons.2 ⟨List.forall_mem_nil _, ho⟩⟩
  case case5 | case6 => rintro ⟨⟩; exact ⟨trivial, ho⟩
  case case7 =>
      rintro ⟨⟩
      rw [List.forall_mem_cons] at ho
      exact ⟨closed ho.1, ho.2⟩
  -- A name, a colon or the end of a mapping is wanted.
  case case8 => rintro ⟨⟩; exact ⟨.nil, ho⟩
  case case9 => rintro ⟨⟩; exact ⟨Members.nil.mapping, ho⟩
  case case10 => rintro ⟨⟩; exact ⟨hw, ho⟩
  case case11 => rintro ⟨⟩; exact ⟨trivial, List.forall_mem_cons.2 ⟨hw, ho⟩⟩
  -- A value has been read, in a list and in a mapping; then a comma or the end.
  case case12 =>
      rintro ⟨⟩
      rw [List.forall_mem_cons] at ho
      exact ⟨trivial, List.forall_mem_cons.2 ⟨List.forall_mem_cons.2 ⟨hw, ho.1⟩, ho.2⟩⟩
  case case13 =>
      rintro ⟨⟩
      rw [List.forall_mem_cons] at ho
      exact ⟨closed (List.forall_mem_cons.2 ⟨hw, ho.1⟩), ho.2⟩
  case case14 =>
      rintro ⟨⟩
      rw [List.forall_mem_cons] at ho
      exact ⟨Members.insert ho.1 _ hw, ho.2⟩
  case case15 =>
      rintro ⟨⟩
      rw [List.forall_mem_cons] at ho
      exact ⟨(Members.insert ho.1 _ hw).mapping, ho.2⟩
  case case16 => exact nofun

/-- What the tokens are assembled to is data.  By induction on the tokens; the machine holds data
before each of them. -/
theorem assemble_datum {want : Want} {outer : List Part} {ts : List Token} {v : Value}
    (hw : want.Sound) (ho : ∀ p ∈ outer, p.Sound) (ht : Plain ts)
    (h : assemble want outer ts = some v) : Datum v := by
  induction ts generalizing want outer with
  | nil =>
      cases want with
      | after u =>
          cases outer with
          | nil => cases h; exact hw
          | cons _ _ => cases h
      | _ => cases h
  | cons t ts ih =>
      rw [assemble] at h
      split at h
      · rename_i want' outer' ha
        obtain ⟨hw', ho'⟩ := advance_sound hw ho (fun v hv => ht v (hv ▸ List.mem_cons_self)) ha
        exact ih hw' ho' (fun v hv => ht v (List.mem_cons_of_mem _ hv)) h
      · cases h

/-- **A text read as JSON is data.** -/
theorem read_datum {text : String} {v : Value} (h : read text = some v) : Datum v := by
  obtain ⟨ts, ht, h⟩ := Option.bind_eq_some_iff.1 h
  have nothing : Want.Sound .value := trivial
  exact assemble_datum nothing (List.forall_mem_nil _) (tokens_plain ht) h

end FormLang.Json
