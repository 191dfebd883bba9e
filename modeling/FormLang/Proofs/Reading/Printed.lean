import FormLang.Printer
import FormLang.Proofs.Alike.Values
import FormLang.Proofs.Inside
import FormLang.Proofs.Reading.Atoms

/-!
# Printing — printed expressions are read back

A printed expression is a JSON text, except that `…` stands for what lies too deep.  **Reading it
gives the expression back** (`printed_reads_back`), up to what JSON does not tell apart: tuples are
read as lists (`Value.listed`), and where `…` stands for a hole, all that lies at the last level is
the hole (`Value.abbreviated`).

How the parts of an expression are laid out does not matter.  A layout puts them between brackets,
with commas between them and blanks around them (`layout_spread`), and a reader skips blanks.  So a
sequence or a mapping is read back when its parts are (`ReadsTo.list`, `ReadsTo.mapping`), on one
line or on many, and the rest is induction.
-/

namespace FormLang

/-! ### What is read back -/

namespace Value

/-- Built from null, booleans, integers, texts, sequences, and mappings with distinct names. -/
inductive Writable : Value → Prop where
  | null : Writable .null
  | bool (b : Bool) : Writable (.bool b)
  | int (n : Int) : Writable (.int n)
  | text (s : String) : Writable (.text s)
  | list {items : List Value} (h : ∀ v ∈ items, Writable v) : Writable (.list items)
  | tuple {items : List Value} (h : ∀ v ∈ items, Writable v) : Writable (.tuple items)
  | mapping {entries : Entries Value} (hk : (Entries.keys entries).Nodup)
      (h : ∀ e ∈ entries, Writable e.2) : Writable (.mapping entries)

mutual
/-- The value with its tuples as lists. -/
def listed : Value → Value
  | .list items | .tuple items => .list (listedItems items)
  | .mapping entries => .mapping (listedEntries entries)
  | v => v
termination_by structural v => v

def listedItems : List Value → List Value
  | [] => []
  | v :: rest => listed v :: listedItems rest
termination_by structural vs => vs

def listedEntries : List (String × Value) → List (String × Value)
  | [] => []
  | (name, v) :: rest => (name, listed v) :: listedEntries rest
termination_by structural es => es
end

mutual
/-- The value with its tuples as lists, and with the hole in the place of every node that lies
`levels` deep.  The value itself lies at level 0. -/
def abbreviated (hole : Value) : (levels : Nat) → Value → Value
  | 0, _ => hole
  | n + 1, .list items | n + 1, .tuple items => .list (abbreviatedItems hole n items)
  | n + 1, .mapping entries => .mapping (abbreviatedEntries hole n entries)
  | _ + 1, v => v
termination_by structural _ v => v

def abbreviatedItems (hole : Value) (levels : Nat) : List Value → List Value
  | [] => []
  | v :: rest => abbreviated hole levels v :: abbreviatedItems hole levels rest
termination_by structural vs => vs

def abbreviatedEntries (hole : Value) (levels : Nat) :
    List (String × Value) → List (String × Value)
  | [] => []
  | (name, v) :: rest =>
    (name, abbreviated hole levels v) :: abbreviatedEntries hole levels rest
termination_by structural es => es
end

theorem abbreviatedItems_eq_map (hole : Value) (n : Nat) (items : List Value) :
    abbreviatedItems hole n items = items.map (abbreviated hole n) := by
  induction items with
  | nil => rfl
  | cons v rest ih => simp [abbreviatedItems, ih]

theorem abbreviatedEntries_eq_mapValues (hole : Value) (n : Nat) (entries : Entries Value) :
    abbreviatedEntries hole n entries =
      Entries.mapValues (fun _ => abbreviated hole n) entries := by
  induction entries with
  | nil => rfl
  | cons e rest ih => simpa [abbreviatedEntries, Entries.mapValues] using ih

mutual
/-- Where nothing lies so deep, nothing is abbreviated. -/
theorem abbreviated_of_height_lt (hole : Value) :
    (n : Nat) → (v : Value) → v.height < n → abbreviated hole n v = listed v
  | n + 1, .list items, h | n + 1, .tuple items, h => by
      rw [height] at h
      rw [abbreviated, listed, abbreviatedItems_of_height_le hole n items (by omega)]
  | n + 1, .mapping entries, h => by
      rw [height] at h
      rw [abbreviated, listed, abbreviatedEntries_of_height_le hole n entries (by omega)]
  | _ + 1, .null, _ | _ + 1, .bool _, _ | _ + 1, .int _, _ | _ + 1, .float _, _
  | _ + 1, .text _, _ | _ + 1, .undefined, _ | _ + 1, .closure .., _ | _ + 1, .standard _, _
  | _ + 1, .host _, _ | _ + 1, .tagged .., _ => rfl

theorem abbreviatedItems_of_height_le (hole : Value) (n : Nat) :
    (items : List Value) → itemsHeight items ≤ n → abbreviatedItems hole n items = listedItems items
  | [], _ => rfl
  | v :: rest, h => by
      rw [itemsHeight] at h
      rw [abbreviatedItems, listedItems, abbreviated_of_height_lt hole n v (by omega),
        abbreviatedItems_of_height_le hole n rest (by omega)]

theorem abbreviatedEntries_of_height_le (hole : Value) (n : Nat) :
    (entries : List (String × Value)) → entriesHeight entries ≤ n →
      abbreviatedEntries hole n entries = listedEntries entries
  | [], _ => rfl
  | (_, v) :: rest, h => by
      rw [entriesHeight] at h
      rw [abbreviatedEntries, listedEntries, abbreviated_of_height_lt hole n v (by omega),
        abbreviatedEntries_of_height_le hole n rest (by omega)]
end

end Value

namespace Json

variable {hole : Option Value}

/-! ### From tokens to values -/

/-- Where a value is wanted, the tokens complete `v`. -/
def Builds (ts : List Token) (v : Value) : Prop :=
  ∀ want outer rest, want = .value ∨ want = .valueOrEnd →
    assemble want outer (ts ++ rest) = assemble (.after v) outer rest

theorem Builds.atom (v : Value) : Builds [.atom v] v := by
  rintro want outer rest (rfl | rfl) <;> rfl

/-- Items separated by commas, up to the end of their list. -/
theorem assemble_items {tss : List (List Token)} {vs : List Value}
    (h : List.Forall₂ Builds tss vs) (hne : tss ≠ []) {want : Want}
    (hw : want = .value ∨ want = .valueOrEnd) (read : List Value) (outer : List Part)
    (rest : List Token) :
    assemble want (.list read :: outer) ([.comma].intercalate tss ++ .closeList :: rest) =
      assemble (.after (.list (read.reverse ++ vs))) outer rest := by
  induction h generalizing want read with
  | nil => exact absurd rfl hne
  | @cons ts v tss vs hb hs ih =>
      cases hs with
      | nil =>
          rw [List.intercalate_singleton, hb _ _ _ hw, assemble, advance]
          simp
      | @cons ts' _ tss' _ hb' hs' =>
          rw [List.intercalate_cons_cons, List.append_assoc, List.append_assoc, hb _ _ _ hw,
            List.singleton_append, assemble, advance]
          simpa using ih (by simp) (.inl rfl) (v :: read)

/-- The tokens of items between brackets build the list of them. -/
theorem Builds.list {tss : List (List Token)} {vs : List Value} (h : List.Forall₂ Builds tss vs) :
    Builds (.openList :: ([.comma].intercalate tss ++ [.closeList])) (.list vs) := by
  intro want outer rest hw
  have opened : ∀ ts, assemble want outer (.openList :: ts) =
      assemble .valueOrEnd (.list [] :: outer) ts := by
    intro ts
    rcases hw with rfl | rfl <;> rfl
  simp only [List.cons_append, List.append_assoc, List.nil_append]
  rw [opened]
  cases h with
  | nil => rfl
  | cons hb hs => exact assemble_items (.cons hb hs) (by simp) (.inr rfl) [] outer rest

/-- A name, a colon and the tokens of what stands under the name. -/
def memberTokens (m : String × List Token) : List Token :=
  .atom (.text m.1) :: .colon :: m.2

/-- Members separated by commas, up to the end of their mapping.  Under a new name each goes behind
those that have been read. -/
theorem assemble_members {ms : Entries (List Token)} {es : Entries Value}
    (h : Entries.Forall₂ Builds ms es) (hne : ms ≠ []) {want : Want} (read : Entries Value)
    (hw : want = .name read ∨ want = .nameOrEnd ∧ read = [])
    (hk : (Entries.keys read ++ Entries.keys es).Nodup) (outer : List Part) (rest : List Token) :
    assemble want outer ([.comma].intercalate (ms.map memberTokens) ++ .closeMapping :: rest) =
      assemble (.after (.mapping (read ++ es))) outer rest := by
  induction h generalizing want read with
  | nil => exact absurd rfl hne
  | @cons name ts v ms es hb hs ih =>
      rw [Entries.keys_cons] at hk
      have new : name ∉ Entries.keys read := by
        intro hm
        exact (List.nodup_append.1 hk).2.2 name hm name List.mem_cons_self rfl
      have named : ∀ us, assemble want outer (memberTokens (name, ts) ++ us) =
          assemble (.after v) (.member read name :: outer) us := by
        intro us
        rw [← hb .value _ us (.inl rfl)]
        rcases hw with rfl | ⟨rfl, rfl⟩ <;> rfl
      cases hs with
      | nil =>
          rw [List.map_cons, List.map_nil, List.intercalate_singleton, named, assemble, advance,
            Entries.insert_of_not_mem new]
      | @cons name' ts' _ ms' _ hb' hs' =>
          have keys : Entries.keys (read ++ [(name, v)]) = Entries.keys read ++ [name] := by
            simp [Entries.keys]
          have more := ih (by simp) (read ++ [(name, v)]) (.inl rfl)
            (by simpa [keys, List.append_assoc] using hk)
          rw [List.map_cons, List.map_cons, List.intercalate_cons_cons, List.append_assoc,
            List.append_assoc, named, List.singleton_append, assemble, advance,
            Entries.insert_of_not_mem new]
          simpa using more

/-- The tokens of members between braces build the mapping, because its names are distinct: a
repeated one would take the place of the earlier. -/
theorem Builds.mapping {ms : Entries (List Token)} {es : Entries Value}
    (h : Entries.Forall₂ Builds ms es) (hk : (Entries.keys es).Nodup) :
    Builds (.openMapping :: ([.comma].intercalate (ms.map memberTokens) ++ [.closeMapping]))
      (.mapping es) := by
  intro want outer rest hw
  have opened : assemble want outer
      (.openMapping :: ([.comma].intercalate (ms.map memberTokens) ++ .closeMapping :: rest)) =
        assemble .nameOrEnd outer
          ([.comma].intercalate (ms.map memberTokens) ++ .closeMapping :: rest) := by
    rcases hw with rfl | rfl <;> rfl
  simp only [List.cons_append, List.append_assoc, List.nil_append]
  rw [opened]
  cases h with
  | nil => rfl
  | cons hb hs => exact assemble_members (.cons hb hs) (by simp) [] (.inr ⟨rfl, rfl⟩) hk outer rest

/-! ### From texts to values -/

/-- The text is read as the value, wherever a value is wanted. -/
def ReadsTo (hole : Option Value) (cs : List Char) (v : Value) : Prop :=
  ∃ ts, ReadsAs hole cs ts ∧ Builds ts v

theorem ReadsTo.atom {cs : List Char} {v : Value} (h : ReadsAs hole cs [.atom v]) :
    ReadsTo hole cs v :=
  ⟨_, h, .atom v⟩

/-- A text that is read as a value on its own. -/
theorem ReadsTo.readWith {text : String} {v : Value} (h : ReadsTo hole text.toList v) :
    readWith hole text = some v := by
  obtain ⟨ts, hr, hb⟩ := h
  have read := hr [] .nil
  have built := hb .value [] [] (.inl rfl)
  rw [List.append_nil] at read built
  rw [Json.readWith, read]
  simpa [tokens, Scan.finish, assemble] using built

/-- The parts stand in the text in order, separated by commas, with blanks before, between and
after them. -/
def Spread (parts : List (List Char)) (cs : List Char) : Prop :=
  ∃ lead gap trail, (∀ c ∈ lead ++ gap ++ trail, isSpace c = true) ∧
    cs = lead ++ (',' :: gap).intercalate parts ++ trail

theorem Spread.nil : Spread [] [] :=
  ⟨[], [], [], by simp, rfl⟩

theorem ends_of_isSpace {c : Char} {cs : List Char} (h : isSpace c = true) : Ends (c :: cs) := by
  simp only [isSpace, Bool.or_eq_true, decide_eq_true_eq] at h
  rcases h with ((rfl | rfl) | rfl) | rfl <;> exact .cons rfl rfl

/-- Parts with a comma and blanks between them are read one after the other. -/
theorem readsAs_intercalate {gap : List Char} (hg : ∀ c ∈ gap, isSpace c = true)
    {parts : List (List Char)} {tss : List (List Token)}
    (h : List.Forall₂ (ReadsAs hole) parts tss) :
    ReadsAs hole ((',' :: gap).intercalate parts) ([.comma].intercalate tss) := by
  induction h with
  | nil =>
      intro rest _
      simp
  | @cons cs ts parts tss hr hs ih =>
      intro rest hrest
      cases hs with
      | nil => simpa using hr rest hrest
      | @cons cs' ts' _ _ _ _ =>
          have comma : Scan.between.next hole ',' = some ([.comma], .between) := rfl
          have more := ih rest hrest
          rw [List.intercalate_cons_cons, List.intercalate_cons_cons, List.append_assoc,
            List.append_assoc, List.cons_append, hr _ (.cons rfl rfl), tokens_mark comma,
            tokens_blanks hg, more]
          simp [Function.comp_def]

/-- What is spread between brackets is read as its parts between the marks. -/
theorem readsAs_spread {left right : Char} {t u : Token}
    (hl : Scan.between.next hole left = some ([t], .between))
    (hr : Scan.between.next hole right = some ([u], .between))
    (he : ∀ cs, Ends (right :: cs)) {parts : List (List Char)} {cs : List Char}
    (hp : Spread parts cs) {tss : List (List Token)}
    (h : List.Forall₂ (ReadsAs hole) parts tss) :
    ReadsAs hole (left :: (cs ++ [right])) (t :: ([.comma].intercalate tss ++ [u])) := by
  obtain ⟨lead, gap, trail, hb, rfl⟩ := hp
  simp only [List.mem_append, or_imp, forall_and] at hb
  obtain ⟨⟨hlead, hgap⟩, htrail⟩ := hb
  intro rest _
  have ends : Ends (trail ++ right :: rest) := by
    cases trail with
    | nil => exact he rest
    | cons c trail => exact ends_of_isSpace (htrail c List.mem_cons_self)
  simp only [List.cons_append, List.append_assoc, List.nil_append]
  rw [tokens_mark hl, tokens_blanks hlead, readsAs_intercalate hgap h _ ends, tokens_blanks htrail,
    tokens_mark hr]
  simp [Function.comp_def]

/-- Items between brackets, spread in any of the layouts, are read to the list of them. -/
theorem ReadsTo.list {parts : List (List Char)} {vs : List Value}
    (h : List.Forall₂ (ReadsTo hole) parts vs) {cs : List Char} (hp : Spread parts cs) :
    ReadsTo hole ('[' :: (cs ++ [']'])) (.list vs) := by
  obtain ⟨tss, hr, hb⟩ : ∃ tss, List.Forall₂ (ReadsAs hole) parts tss ∧
      List.Forall₂ Builds tss vs := by
    clear hp
    induction h with
    | nil => exact ⟨[], .nil, .nil⟩
    | cons h _ ih =>
        obtain ⟨ts, hr, hb⟩ := h
        obtain ⟨tss, hrs, hbs⟩ := ih
        exact ⟨ts :: tss, .cons hr hrs, .cons hb hbs⟩
  exact ⟨_, readsAs_spread rfl rfl (fun _ => .cons rfl rfl) hp hr, .list hb⟩

/-- A name, a colon and a text. -/
def memberText (m : String × List Char) : List Char :=
  (quote m.1).toList ++ ':' :: ' ' :: m.2

/-- A name, a colon and a value. -/
theorem readsAs_memberText {m : String × List Char} {ts : List Token} (h : ReadsAs hole m.2 ts) :
    ReadsAs hole (memberText m) (memberTokens (m.1, ts)) := by
  intro rest hrest
  have colon : Scan.between.next hole ':' = some ([.colon], .between) := rfl
  have blank : Scan.between.next hole ' ' = some ([], .between) := rfl
  rw [memberText, List.append_assoc, tokens_quote, List.cons_append, tokens_mark colon,
    List.cons_append, tokens_cons_of_next _ blank, h rest hrest]
  simp [memberTokens, Function.comp_def]

/-- Members between braces, spread in any of the layouts, are read to the mapping of them. -/
theorem ReadsTo.mapping {ms : Entries (List Char)} {es : Entries Value}
    (h : Entries.Forall₂ (ReadsTo hole) ms es) (hk : (Entries.keys es).Nodup) {cs : List Char}
    (hp : Spread (ms.map memberText) cs) :
    ReadsTo hole ('\x7b' :: (cs ++ ['\x7d'])) (.mapping es) := by
  obtain ⟨tss, hr, hb⟩ : ∃ tss : Entries (List Token),
      List.Forall₂ (ReadsAs hole) (ms.map memberText) (tss.map memberTokens) ∧
      Entries.Forall₂ Builds tss es := by
    clear hp hk
    induction h with
    | nil => exact ⟨[], .nil, .nil⟩
    | @cons name _ _ _ _ h _ ih =>
        obtain ⟨ts, hr, hb⟩ := h
        obtain ⟨tss, hrs, hbs⟩ := ih
        exact ⟨(name, ts) :: tss, .cons (readsAs_memberText hr) hrs, .cons hb hbs⟩
  exact ⟨_, readsAs_spread rfl rfl (fun _ => .cons rfl rfl) hp hr, .mapping hb hk⟩

end Json

/-! ### Printed expressions -/

namespace Printer

open Json (ReadsTo Spread isSpace memberText)

theorem isSpace_of_mem_pad {indent : Int} {c : Char} (h : c ∈ (pad indent).toList) :
    isSpace c = true := by
  rw [pad, String.toList_ofList] at h
  obtain rfl := List.eq_of_mem_replicate h
  rfl

/-- A lead before each part is one before the first, and part of each gap. -/
theorem intercalate_map_append (gap lead : List Char) {parts : List (List Char)}
    (h : parts ≠ []) : gap.intercalate (parts.map (lead ++ ·)) =
      lead ++ (gap ++ lead).intercalate parts := by
  induction parts with
  | nil => exact absurd rfl h
  | cons cs parts ih =>
      cases parts with
      | nil => simp
      | cons cs' parts =>
          have more := ih (by simp)
          simp only [List.map_cons, List.intercalate_cons_cons] at more ⊢
          rw [more]
          simp

/-- On one line or on many, the parts are spread between the brackets. -/
theorem layout_spread (style : Style) (indent : Int) (left right : String) {parts : List String}
    (h : parts ≠ []) : ∃ cs, Spread (parts.map String.toList) cs ∧
      (layout style indent left right parts).toList = left.toList ++ cs ++ right.toList := by
  unfold layout
  extract_lets line
  split
  · refine ⟨_, ⟨[], [' '], [], by simp [isSpace], rfl⟩, ?_⟩
    simp [line, String.toList_intercalate]
  · refine ⟨_, ⟨'\n' :: (pad (indent + 1)).toList, '\n' :: (pad (indent + 1)).toList,
      '\n' :: (pad indent).toList, ?_, rfl⟩, ?_⟩
    · intro c hc
      simp only [List.mem_append, List.mem_cons] at hc
      rcases hc with ((rfl | hc) | (rfl | hc)) | (rfl | hc)
      · rfl
      · exact isSpace_of_mem_pad hc
      · rfl
      · exact isSpace_of_mem_pad hc
      · rfl
      · exact isSpace_of_mem_pad hc
    · have padded : (parts.map fun part => pad (indent + 1) ++ part).map String.toList =
          (parts.map String.toList).map ((pad (indent + 1)).toList ++ ·) := by
        simp [Function.comp_def]
      have nonempty : parts.map String.toList ≠ [] := by simpa using h
      have joined := intercalate_map_append ",\n".toList (pad (indent + 1)).toList nonempty
      simp only [String.toList_append, String.toList_intercalate, padded, joined]
      simp

theorem formatItems_eq_map (style : Style) (indent depth : Int) (mode : Mode)
    (items : List Value) :
    formatItems style indent depth mode items = items.map (format style indent depth mode) := by
  induction items with
  | nil => rfl
  | cons v rest ih => simp [formatItems, ih]

theorem formatEntries_eq_map (style : Style) (indent depth : Int) (mode : Mode)
    (entries : Entries Value) :
    formatEntries style indent depth mode entries = entries.map fun e =>
      key style mode e.1 ++ ": " ++ format style indent depth (mode.below e.1) e.2 := by
  induction entries with
  | nil => rfl
  | cons e rest ih => simp [formatEntries, ih]

variable {style : Style} {hole : Option Value}

/-- What lies at the last level is printed as the hole. -/
theorem format_of_maxDepth_le {depth : Int} (h : style.maxDepth ≤ depth) (indent : Int)
    (mode : Mode) (e : Value) : format style indent depth mode e = "…" := by
  cases e <;> simp [format, h]

/-- A sequence is read back when its items are. -/
theorem items_readsTo {indent depth : Int} {mode : Mode} {items : List Value} {v : Value} {n : Nat}
    (h : ∀ u ∈ items, ReadsTo hole (format style (indent + 1) depth mode u).toList
      (Value.abbreviated v n u)) :
    ReadsTo hole (if items.isEmpty then "[]" else layout style indent "[" "]"
      (formatItems style (indent + 1) depth mode items)).toList
        (.list (Value.abbreviatedItems v n items)) := by
  rw [Value.abbreviatedItems_eq_map, formatItems_eq_map]
  cases items with
  | nil =>
      have empty : ReadsTo hole ('[' :: ([] ++ [']'])) (.list []) := .list .nil .nil
      simpa using empty
  | cons u items =>
      have nonempty : (u :: items).map (format style (indent + 1) depth mode) ≠ [] := by simp
      obtain ⟨cs, hp, ht⟩ := layout_spread style indent "[" "]" nonempty
      rw [List.isEmpty_cons, if_neg Bool.false_ne_true, ht]
      refine ReadsTo.list ?_ hp
      rw [List.forall₂_map_left_iff, List.forall₂_map_left_iff, List.forall₂_map_right_iff]
      exact List.forall₂_same.2 h

section Plain

variable (hc : ∀ ink, style.colours ink = false)
include hc

theorem paint_of_plain (ink : Ink) (text : String) : style.paint ink text = text := by
  simp [Style.paint, hc]

theorem key_of_plain (mode : Mode) (k : String) : key style mode k = Json.quote k := by
  simp [key, paint_of_plain hc]

theorem atom_text_of_plain (mode : Mode) (s : String) :
    atom style mode (.text s) = Json.quote s := by
  simp [atom, paint_of_plain hc]

/-- A mapping is read back when what stands under its names is. -/
theorem entries_readsTo {indent depth : Int} {mode : Mode} {entries : Entries Value} {v : Value}
    {n : Nat} (hk : (Entries.keys entries).Nodup)
    (h : ∀ e ∈ entries, ReadsTo hole
      (format style (indent + 1) depth (mode.below e.1) e.2).toList (Value.abbreviated v n e.2)) :
    ReadsTo hole (if entries.isEmpty then "\x7b\x7d" else layout style indent "\x7b" "\x7d"
      (formatEntries style (indent + 1) depth mode entries)).toList
        (.mapping (Value.abbreviatedEntries v n entries)) := by
  rw [Value.abbreviatedEntries_eq_mapValues, formatEntries_eq_map]
  cases entries with
  | nil =>
      have empty : ReadsTo hole ('\x7b' :: ([] ++ ['\x7d'])) (.mapping []) :=
        .mapping .nil .nil .nil
      simpa [Entries.mapValues] using empty
  | cons e entries =>
      -- The parts are the members, each with its name as a string.
      have members : (((e :: entries).map fun e => key style mode e.1 ++ ": " ++
          format style (indent + 1) depth (mode.below e.1) e.2).map String.toList) =
          (Entries.mapValues (fun k u =>
            (format style (indent + 1) depth (mode.below k) u).toList) (e :: entries)).map
              memberText := by
        simp [Entries.mapValues, memberText, key_of_plain hc, Function.comp_def]
      have nonempty : ((e :: entries).map fun e => key style mode e.1 ++ ": " ++
          format style (indent + 1) depth (mode.below e.1) e.2) ≠ [] := by simp
      obtain ⟨cs, hp, ht⟩ := layout_spread style indent "\x7b" "\x7d" nonempty
      rw [members] at hp
      rw [List.isEmpty_cons, if_neg Bool.false_ne_true, ht]
      exact ReadsTo.mapping (.mapValues_same h) (by simpa using hk) hp

/-- **A printed expression is read as the expression**, from any level down, if holes can be read or
nothing lies so deep. -/
theorem format_readsTo {e v : Value} (he : e.Writable) {levels : Nat}
    (hh : hole = some v ∨ e.height < levels) (indent depth : Int) (mode : Mode)
    (hd : style.maxDepth = depth + levels) :
    ReadsTo hole (format style indent depth mode e).toList (Value.abbreviated v levels e) := by
  -- At the last level there is the hole, and an atom is read as itself above it.
  have cut : ∀ {e : Value} {indent depth : Int} {mode : Mode}, hole = some v ∨ e.height < 0 →
      style.maxDepth = depth + (0 : Nat) →
      ReadsTo hole (format style indent depth mode e).toList v := by
    intro e indent depth mode hh hd
    obtain rfl := hh.resolve_right (Nat.not_lt_zero _)
    rw [format_of_maxDepth_le (by omega)]
    exact .atom (Json.readsAs_hole v)
  have shown : ∀ {n : Nat} {depth : Int}, style.maxDepth = depth + (n + 1 : Nat) →
      ¬ style.maxDepth ≤ depth := by
    intro n depth hd
    omega
  induction he generalizing levels indent depth mode with
  | null =>
      cases levels with
      | zero => exact cut hh hd
      | succ n => simpa [format, shown hd] using .atom Json.readsAs_null
  | bool b =>
      cases levels with
      | zero => exact cut hh hd
      | succ n => simpa [format, shown hd] using .atom (Json.readsAs_bool b)
  | int n =>
      cases levels with
      | zero => exact cut hh hd
      | succ n => simpa [format, shown hd] using .atom (Json.readsAs_int _)
  | text s =>
      cases levels with
      | zero => exact cut hh hd
      | succ n =>
          simpa [format, shown hd, atom_text_of_plain hc] using .atom (Json.readsAs_quote s)
  | @list items _ ih | @tuple items _ ih =>
      cases levels with
      | zero => exact cut hh hd
      | succ n =>
          simp only [format, shown hd, if_false]
          refine items_readsTo fun u hu => ih u hu ?_ _ _ _ (by omega)
          refine hh.imp_right fun hlt => ?_
          have := Value.height_lt_itemsHeight hu
          rw [Value.height] at hlt
          omega
  | @mapping entries hk _ ih =>
      cases levels with
      | zero => exact cut hh hd
      | succ n =>
          simp only [format, shown hd, if_false]
          refine entries_readsTo hc hk fun e he => ih e he ?_ _ _ _ (by omega)
          refine hh.imp_right fun hlt => ?_
          have := Value.height_lt_entriesHeight he
          rw [Value.height] at hlt
          omega

end Plain

end Printer

/-- **A printed expression can be read back.**  With a value for the hole, the text of an expression
is read as the expression, its tuples as lists, and all that lies at level 8 as the hole.  If
nothing lies so deep the text is plain JSON.  Names keep their order.  Texts are sequences of
Unicode scalar values, so no surrogate is written but as half of a pair. -/
theorem printed_reads_back {e : Value} (h : e.Writable) :
    (∀ hole, Json.readWith (some hole) (Printer.format .plain 0 0 .code e) =
      some (Value.abbreviated hole 8 e)) ∧
    (e.height < 8 → Json.read (Printer.format .plain 0 0 .code e) = some e.listed) := by
  have depth : Style.plain.maxDepth = 0 + (8 : Nat) := rfl
  refine ⟨fun hole => ?_, fun flat => ?_⟩
  · exact (Printer.format_readsTo (fun _ => rfl) h (.inl rfl) 0 0 .code depth).readWith
  · rw [← Value.abbreviated_of_height_lt .undefined 8 e flat]
    exact (Printer.format_readsTo (fun _ => rfl) h (.inr flat) 0 0 .code depth).readWith

/-- A quoted call that is too long for a line, with a tuple, a name that has to be escaped, and a
list that goes down to level 8. -/
def sprawling : Value :=
  .mapping [("$", .mapping [("plus", .tuple [.int 1, .int (-20), .text "first and second summand"]),
    ("\n\"😀", .list [.list [.list [.list [.list [.list [.list [.bool true]]]]]]]),
    ("note", .text "what stands here is data and not code")])]

/-- The text takes more than one line.  What lies at level 8 is read as the hole, and all else as it
was printed, the tuple as a list. -/
theorem printed_reads_back_sprawling :
    '\n' ∈ (Printer.format .plain 0 0 .code sprawling).toList ∧
    Json.readWith (some .undefined) (Printer.format .plain 0 0 .code sprawling) =
      some (.mapping [("$", .mapping
        [("plus", .list [.int 1, .int (-20), .text "first and second summand"]),
        ("\n\"😀", .list [.list [.list [.list [.list [.list [.undefined]]]]]]),
        ("note", .text "what stands here is data and not code")])]) := by
  have summands : ∀ v ∈ [Value.int 1, .int (-20), .text "first and second summand"],
      v.Writable := by
    simp [Value.Writable.int, Value.Writable.text]
  have one : ∀ {v : Value}, v.Writable → (Value.list [v]).Writable :=
    fun h => .list (List.forall_mem_singleton.2 h)
  have deep := one (one (one (one (one (one (one (.bool true)))))))
  have data : ∀ e ∈ [("plus", Value.tuple [.int 1, .int (-20), .text "first and second summand"]),
      ("\n\"😀", .list [.list [.list [.list [.list [.list [.list [.bool true]]]]]]]),
      ("note", .text "what stands here is data and not code")], e.2.Writable := by
    simp [deep, Value.Writable.text, Value.Writable.tuple summands]
  have written : sprawling.Writable :=
    .mapping (by decide) (List.forall_mem_singleton.2 (.mapping (by decide) data))
  exact ⟨by decide +kernel, (printed_reads_back written).1 .undefined⟩

end FormLang
