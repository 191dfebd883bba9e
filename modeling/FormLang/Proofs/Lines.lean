import FormLang.Proofs.Reading.Printed

/-!
# Lines — how long the lines of a printed expression are

A printed expression is a text of several lines (`Printer.lines`, `Printer.lines_makeUp`).  A line
is indented; it may start with a name and end with a comma; between them stands a bracket, or an
expression on one line.

Whether a list or a mapping is put on one line is decided before its line is written, from its own
text and the indentation.  **Without the name before it and the comma after it, it fits**
(`filled_lines_fit`).  The name and the comma are not counted, so with them the line may be too long
(`filled_line_too_long`): it keeps within its length exactly where they fit into what is left.
-/

namespace FormLang

namespace Printer

/-! ### The lines -/

/-- A line of a printed expression. -/
structure Line where
  indent : Int
  /-- The name before the body, with its colon. -/
  lead : String
  /-- A bracket, or an expression on one line. -/
  body : String
  /-- The comma after the body. -/
  trail : String
  /-- The body is a list or a mapping that is not empty, from its bracket to its bracket. -/
  filled : Bool
  deriving DecidableEq

def Line.text (l : Line) : String :=
  pad l.indent ++ l.lead ++ l.body ++ l.trail

/-- The lines of what stands between brackets and is printed as `text`: if this is broken, a line
for each bracket and the inner lines between them. -/
def framed (indent : Int) (lead trail left right text : String) (filled : Bool)
    (inner : List Line) : List Line :=
  if '\n' ∈ text.toList then
    ⟨indent, lead, left, "", false⟩ :: (inner ++ [⟨indent, "", right, trail, false⟩])
  else [⟨indent, lead, text, trail, filled⟩]

mutual
/-- The lines of a printed expression that has `lead` before it and `trail` after it. -/
def lines (style : Style) (indent depth : Int) (mode : Mode) (lead trail : String) :
    Value → List Line
  | .list items | .tuple items =>
    framed indent lead trail "[" "]" (format style indent depth mode (.list items))
      (depth < style.maxDepth && !items.isEmpty)
      (itemLines style (indent + 1) (depth + 1) mode items)
  | .mapping entries =>
    framed indent lead trail "\x7b" "\x7d" (format style indent depth mode (.mapping entries))
      (depth < style.maxDepth && !entries.isEmpty)
      (entryLines style (indent + 1) (depth + 1) mode entries)
  | v => [⟨indent, lead, format style indent depth mode v, trail, false⟩]
termination_by structural v => v

/-- The lines of all items, each with a comma but the last. -/
def itemLines (style : Style) (indent depth : Int) (mode : Mode) : List Value → List Line
  | [] => []
  | v :: rest =>
    lines style indent depth mode "" (if rest.isEmpty then "" else ",") v ++
      itemLines style indent depth mode rest
termination_by structural vs => vs

def entryLines (style : Style) (indent depth : Int) (mode : Mode) :
    List (String × Value) → List Line
  | [] => []
  | (k, v) :: rest =>
    lines style indent depth (mode.below k) (key style mode k ++ ": ")
        (if rest.isEmpty then "" else ",") v ++
      entryLines style indent depth mode rest
termination_by structural es => es
end

/-! ### Parts between brackets -/

/-- The lines of parts, each with a comma but the last. -/
def spaced : List (String → List Line) → List Line
  | [] => []
  | part :: rest => part (if rest.isEmpty then "" else ",") ++ spaced rest

theorem itemLines_eq_spaced (style : Style) (indent depth : Int) (mode : Mode)
    (items : List Value) : itemLines style indent depth mode items =
      spaced (items.map fun v trail => lines style indent depth mode "" trail v) := by
  induction items with
  | nil => rfl
  | cons v rest ih => simp [itemLines, spaced, ih]

/-- The lines of the entries, each with its name before it. -/
theorem entryLines_eq_spaced (style : Style) (indent depth : Int) (mode : Mode)
    (entries : Entries Value) : entryLines style indent depth mode entries =
      spaced (entries.map fun e trail =>
        lines style indent depth (mode.below e.1) (key style mode e.1 ++ ": ") trail e.2) := by
  induction entries with
  | nil => rfl
  | cons e rest ih => simp [entryLines, spaced, ih]

/-- The text of a list or a mapping with the given parts. -/
def bracketed (style : Style) (indent depth : Int) (left right : String) (parts : List String) :
    String :=
  if style.maxDepth ≤ depth then "…"
  else if parts.isEmpty then left ++ right
  else layout style indent left right parts

theorem format_list (style : Style) (indent depth : Int) (mode : Mode) (items : List Value) :
    format style indent depth mode (.list items) = bracketed style indent depth "[" "]"
      (items.map (format style (indent + 1) (depth + 1) mode)) := by
  rw [format, formatItems_eq_map, bracketed, List.isEmpty_map]
  rfl

theorem format_mapping (style : Style) (indent depth : Int) (mode : Mode)
    (entries : Entries Value) :
    format style indent depth mode (.mapping entries) = bracketed style indent depth "\x7b" "\x7d"
      (entries.map fun e => key style mode e.1 ++ ": " ++
        format style (indent + 1) (depth + 1) (mode.below e.1) e.2) := by
  rw [format, formatEntries_eq_map, bracketed, List.isEmpty_map]
  rfl

section Bracketed

variable {style : Style} {indent depth : Int} {left right : String} {parts : List String}

/-- Only a layout can be broken into lines, and only a layout is filled. -/
theorem bracketed_cases (hl : '\n' ∉ left.toList) (hr : '\n' ∉ right.toList) :
    (parts ≠ [] ∧ bracketed style indent depth left right parts =
      layout style indent left right parts) ∨
    ('\n' ∉ (bracketed style indent depth left right parts).toList ∧
      (depth < style.maxDepth && !parts.isEmpty) = false) := by
  rw [bracketed]
  split
  · rename_i deep
    exact .inr ⟨by simp, by simp [deep]⟩
  · split
    · rename_i empty
      exact .inr ⟨by simp [hl, hr], by simp [empty]⟩
    · rename_i nonempty
      exact .inl ⟨by simpa using nonempty, rfl⟩

/-- A layout over several lines has its parts on lines of their own. -/
theorem layout_of_mem_newline (h : '\n' ∈ (layout style indent left right parts).toList) :
    layout style indent left right parts = left ++ "\n" ++
      ",\n".intercalate (parts.map fun part => pad (indent + 1) ++ part) ++ "\n" ++ pad indent ++
        right := by
  dsimp only [layout] at h ⊢
  split at h
  · rename_i fits
    exact absurd h fits.2
  · rename_i broken
    rw [if_neg broken]

/-- A layout on one line was chosen because it fits. -/
theorem layout_fits (h : '\n' ∉ (layout style indent left right parts).toList) :
    ((layout style indent left right parts).length : Int) + indent * 2 ≤ style.maxLineLength := by
  dsimp only [layout] at h ⊢
  split at h
  · rename_i fits
    rw [if_pos fits]
    exact fits.1
  · simp at h

end Bracketed

/-! ### The lines make up the text -/

/-- The text is that of the lines. -/
def MakeUp (ls : List Line) (text : List Char) : Prop :=
  ls ≠ [] ∧ ['\n'].intercalate (ls.map fun l => l.text.toList) = text

theorem MakeUp.single (l : Line) : MakeUp [l] l.text.toList :=
  ⟨by simp, by simp⟩

/-- Lines after lines make up the text of both, with a line end between. -/
theorem MakeUp.append {ls ms : List Line} {cs ds : List Char} (h : MakeUp ls cs)
    (h' : MakeUp ms ds) : MakeUp (ls ++ ms) (cs ++ '\n' :: ds) := by
  obtain ⟨hl, rfl⟩ := h
  obtain ⟨hm, rfl⟩ := h'
  refine ⟨by simp [hl], ?_⟩
  induction ls with
  | nil => exact absurd rfl hl
  | cons l ls ih =>
      cases ls with
      | nil => simp [List.intercalate_cons_of_ne_nil, hm]
      | cons l' ls =>
          have more := ih (by simp)
          simp only [List.cons_append, List.map_cons, List.intercalate_cons_cons] at more ⊢
          rw [more]
          simp

/-- Parts that are given by their lines stand one below the other, with commas between them. -/
theorem makeUp_spaced {indent : Int} {gs : List (String → List Line)} {parts : List String}
    (h : List.Forall₂ (fun g part => ∀ trail, MakeUp (g trail) (pad indent ++ part ++ trail).toList)
      gs parts) (hne : parts ≠ []) :
    MakeUp (spaced gs) (",\n".intercalate (parts.map fun part => pad indent ++ part)).toList := by
  induction h with
  | nil => exact absurd rfl hne
  | @cons g part gs parts hg hs ih =>
      cases hs with
      | nil => simpa [spaced] using hg ""
      | cons _ _ =>
          have more := (hg ",").append (ih (by simp))
          simpa [spaced, String.toList_intercalate, List.intercalate_cons_cons] using more

/-- What stands between brackets makes up its text: on one line as it is, or with the brackets on
lines of their own around the lines of the parts. -/
theorem makeUp_framed {style : Style} {indent depth : Int} {left right : String}
    (hl : '\n' ∉ left.toList) (hr : '\n' ∉ right.toList) {gs : List (String → List Line)}
    {parts : List String} (h : List.Forall₂ (fun g part => ∀ trail, MakeUp (g trail)
      (pad (indent + 1) ++ part ++ trail).toList) gs parts) (lead trail : String) (filled : Bool) :
    MakeUp (framed indent lead trail left right (bracketed style indent depth left right parts)
      filled (spaced gs))
      (pad indent ++ lead ++ bracketed style indent depth left right parts ++ trail).toList := by
  rw [framed]
  split
  · rename_i broken
    obtain ⟨hne, layout⟩ := (bracketed_cases hl hr).resolve_right fun plain => plain.1 broken
    rw [layout] at broken ⊢
    have all := (MakeUp.single ⟨indent, lead, left, "", false⟩).append
      ((makeUp_spaced h hne).append (.single ⟨indent, "", right, trail, false⟩))
    rw [layout_of_mem_newline broken]
    simpa [Line.text] using all
  · exact .single ⟨indent, lead, _, trail, filled⟩

/-- **The lines of an expression make up its text.** -/
theorem lines_makeUp (style : Style) {e : Value} (he : e.Writable) (indent depth : Int)
    (mode : Mode) (lead trail : String) :
    MakeUp (lines style indent depth mode lead trail e)
      (pad indent ++ lead ++ format style indent depth mode e ++ trail).toList := by
  induction he generalizing indent depth mode lead trail with
  | null | bool | int | text => exact .single _
  | @list items _ ih | @tuple items _ ih =>
      have listed : MakeUp (lines style indent depth mode lead trail (.list items))
          (pad indent ++ lead ++ format style indent depth mode (.list items) ++ trail).toList := by
        rw [lines, itemLines_eq_spaced, format_list]
        refine makeUp_framed (by simp) (by simp) ?_ lead trail _
        rw [List.forall₂_map_left_iff, List.forall₂_map_right_iff, List.forall₂_same]
        intro v hv trail
        simpa using ih v hv (indent + 1) (depth + 1) mode "" trail
      exact listed
  | @mapping entries _ _ ih =>
      rw [lines, entryLines_eq_spaced, format_mapping]
      refine makeUp_framed (by simp) (by simp) ?_ lead trail _
      rw [List.forall₂_map_left_iff, List.forall₂_map_right_iff, List.forall₂_same]
      intro e he trail
      simpa using ih e he (indent + 1) (depth + 1) (mode.below e.1) (key style mode e.1 ++ ": ")
        trail

/-! ### What stands on one line -/

theorem newline_notMem_hex (width n : Nat) : '\n' ∉ Text.hex width n := by
  have digits : ∀ d : Fin 16, '\n' ≠ Nat.digitChar d := by decide
  induction width generalizing n with
  | zero => exact List.not_mem_nil
  | succ width ih =>
      rw [Text.hex, List.mem_append, List.mem_singleton, not_or]
      exact ⟨ih _, digits ⟨n % 16, Nat.mod_lt _ (by decide)⟩⟩

/-- No character is written as a line end; a line end itself is escaped. -/
theorem newline_notMem_escape (c : Char) : '\n' ∉ Json.escape c := by
  have unit : ∀ n, '\n' ∉ Json.unicodeEscape n := by
    intro n
    simp [Json.unicodeEscape, newline_notMem_hex]
  unfold Json.escape
  split
  · decide
  split
  · decide
  split
  · decide
  split
  · decide
  split
  · decide
  split
  · decide
  split
  · decide
  rename_i _ _ newline _ _ _ _
  split
  · exact fun h => newline (List.mem_singleton.1 h).symm
  split
  · exact unit _
  · exact List.mem_append.not.2 (not_or.2 ⟨unit _, unit _⟩)

theorem newline_notMem_quote (s : String) : '\n' ∉ (Json.quote s).toList := by
  simp [Json.quote, newline_notMem_escape]

/-- Integers are written with digits and a sign. -/
theorem newline_notMem_int (n : Int) : '\n' ∉ (toString n).toList := by
  have digits : ∀ m, '\n' ∉ Nat.toDigits 10 m := by
    intro m h
    cases Json.isDigit_of_mem_toDigits h
  cases n with
  | ofNat m =>
      rw [Json.toList_ofNat]
      exact digits m
  | negSucc m =>
      rw [Json.toList_negSucc]
      simp [digits]

/-- Nothing, or a name with its colon. -/
def IsLead (lead : String) : Prop :=
  lead = "" ∨ ∃ name, lead = Json.quote name ++ ": "

/-- Nothing, or a comma. -/
def IsTrail (trail : String) : Prop :=
  trail = "" ∨ trail = ","

/-- The line is one line, with a name before and a comma after its body at most, and a list or
mapping in it fits without these. -/
structure Line.Sound (style : Style) (l : Line) : Prop where
  lead : IsLead l.lead
  body : '\n' ∉ l.body.toList
  trail : IsTrail l.trail
  fits : l.filled = true → ((pad l.indent ++ l.body).length : Int) ≤ style.maxLineLength

theorem length_pad {indent : Int} (h : 0 ≤ indent) : ((pad indent).length : Int) = indent * 2 := by
  simp [pad]
  omega

theorem newline_notMem_pad (indent : Int) : '\n' ∉ (pad indent).toList := by
  simp [pad]

theorem Line.Sound.newline_notMem_text {style : Style} {l : Line} (h : l.Sound style) :
    '\n' ∉ l.text.toList := by
  have lead : '\n' ∉ l.lead.toList := by
    rcases h.lead with hl | ⟨name, hl⟩ <;> simp [hl, newline_notMem_quote]
  have trail : '\n' ∉ l.trail.toList := by
    rcases h.trail with ht | ht <;> simp [ht]
  simp [Line.text, newline_notMem_pad, lead, h.body, trail]

/-- The lines of parts are sound, with a comma after each part but the last. -/
theorem sound_spaced {style : Style} {gs : List (String → List Line)}
    (h : ∀ g ∈ gs, ∀ trail, IsTrail trail → ∀ l ∈ g trail, l.Sound style) :
    ∀ l ∈ spaced gs, l.Sound style := by
  induction gs with
  | nil => exact List.forall_mem_nil _
  | cons g gs ih =>
      rw [List.forall_mem_cons] at h
      rw [spaced, List.forall_mem_append]
      refine ⟨h.1 _ ?_, ih h.2⟩
      split
      · exact .inl rfl
      · exact .inr rfl

/-- The lines of what stands between brackets are sound: one line that fits or is not filled, or
those of the brackets and of the parts. -/
theorem sound_framed {style : Style} {indent depth : Int} (hi : 0 ≤ indent) {left right : String}
    (hl : '\n' ∉ left.toList) (hr : '\n' ∉ right.toList) {lead trail : String} (hlead : IsLead lead)
    (htrail : IsTrail trail) {parts : List String} {inner : List Line}
    (h : ∀ l ∈ inner, l.Sound style) :
    ∀ l ∈ framed indent lead trail left right (bracketed style indent depth left right parts)
      (depth < style.maxDepth && !parts.isEmpty) inner, l.Sound style := by
  rw [framed]
  split
  · refine List.forall_mem_cons.2 ⟨⟨hlead, hl, .inl rfl, fun h => by cases h⟩, ?_⟩
    refine List.forall_mem_append.2 ⟨h, List.forall_mem_singleton.2 ?_⟩
    exact ⟨.inl rfl, hr, htrail, fun h => by cases h⟩
  · rename_i unbroken
    refine List.forall_mem_singleton.2 ⟨hlead, unbroken, htrail, fun filled => ?_⟩
    rcases bracketed_cases hl hr with ⟨-, layout⟩ | ⟨-, empty⟩
    · rw [layout] at unbroken
      have fits := layout_fits unbroken
      have padding := length_pad hi
      simp only [layout, String.length_append]
      push_cast
      omega
    · cases empty.symm.trans filled

/-- **On every line, what is on one line fits but for the name and the comma.** -/
theorem lines_sound {style : Style} (hc : ∀ ink, style.colours ink = false) {e : Value}
    (he : e.Writable) {indent : Int} (hi : 0 ≤ indent) (depth : Int) (mode : Mode)
    {lead trail : String} (hlead : IsLead lead) (htrail : IsTrail trail) :
    ∀ l ∈ lines style indent depth mode lead trail e, l.Sound style := by
  -- An atom is on one line, and so is the hole in its place.
  have single : ∀ {indent depth : Int} {lead trail text : String}, IsLead lead → IsTrail trail →
      '\n' ∉ text.toList → ∀ l ∈ [Line.mk indent lead
        (if style.maxDepth ≤ depth then "…" else text) trail false], l.Sound style := by
    intro indent depth lead trail text hlead htrail ht
    refine List.forall_mem_singleton.2 ⟨hlead, ?_, htrail, fun h => by cases h⟩
    dsimp only
    split
    · simp
    · exact ht
  induction he generalizing indent depth mode lead trail with
  | null => exact single hlead htrail (by simp [atom, Value.spell, Spelling.null])
  | bool b =>
      refine single hlead htrail ?_
      cases b <;> simp [atom, Value.spell, Spelling.bool]
  | int n => exact single hlead htrail (newline_notMem_int n)
  | text s =>
      refine single hlead htrail ?_
      rw [atom_text_of_plain hc]
      exact newline_notMem_quote s
  | @list items _ ih | @tuple items _ ih =>
      have listed : ∀ l ∈ lines style indent depth mode lead trail (.list items),
          l.Sound style := by
        rw [lines, itemLines_eq_spaced, format_list, ← List.isEmpty_map]
        refine sound_framed hi (by simp) (by simp) hlead htrail (sound_spaced ?_)
        intro g hg trail ht
        obtain ⟨v, hv, rfl⟩ := List.mem_map.1 hg
        exact ih v hv (by omega) _ mode (.inl rfl) ht
      exact listed
  | @mapping entries _ _ ih =>
      rw [lines, entryLines_eq_spaced, format_mapping, ← List.isEmpty_map]
      refine sound_framed hi (by simp) (by simp) hlead htrail (sound_spaced ?_)
      intro g hg trail ht
      obtain ⟨e, he, rfl⟩ := List.mem_map.1 hg
      exact ih e he (by omega) _ _ (.inr ⟨e.1, by rw [key_of_plain hc]⟩) ht

end Printer

open Printer (Line lines pad)

/-- The lines are those of the text. -/
theorem splitOn_format {e : Value} (he : e.Writable) :
    (Printer.format .plain 0 0 .code e).toList.splitOn '\n' =
      (lines .plain 0 0 .code "" "" e).map fun l => l.text.toList := by
  obtain ⟨hne, text⟩ := Printer.lines_makeUp .plain he 0 0 .code "" ""
  have unbroken : ∀ cs ∈ (lines .plain 0 0 .code "" "" e).map (fun l => l.text.toList),
      '\n' ∉ cs := by
    intro cs hcs
    obtain ⟨l, hl, rfl⟩ := List.mem_map.1 hcs
    exact (Printer.lines_sound (fun _ => rfl) he (Int.le_refl 0) 0 .code (.inl rfl) (.inl rfl) l
      hl).newline_notMem_text
  have split := List.splitOn_intercalate '\n' unbroken (by simpa using hne)
  rw [text] at split
  simpa [pad] using split

/-- **A list or mapping on one line fits, but for its name and its comma.**  Take the lines of a
printed expression, and of them one that has a list or a mapping on it which is not empty.  With its
indentation this is at most 80 characters long.  A name before it and a comma after it are not
counted, so the line is no longer than 80 exactly if they fit into what is left. -/
theorem filled_lines_fit {e : Value} (he : e.Writable) :
    (Printer.format .plain 0 0 .code e).toList.splitOn '\n' =
      (lines .plain 0 0 .code "" "" e).map (fun l => l.text.toList) ∧
    ∀ l ∈ lines .plain 0 0 .code "" "" e, l.filled = true →
      (l.lead = "" ∨ ∃ name, l.lead = Json.quote name ++ ": ") ∧
      (l.trail = "" ∨ l.trail = ",") ∧
      (pad l.indent ++ l.body).length ≤ 80 ∧
      (l.text.length ≤ 80 ↔
        l.lead.length + l.trail.length ≤ 80 - (pad l.indent ++ l.body).length) := by
  refine ⟨splitOn_format he, fun l hl filled => ?_⟩
  have plain : ∀ ink, Style.plain.colours ink = false := fun _ => rfl
  have sound := Printer.lines_sound plain he (Int.le_refl 0) 0 .code (.inl rfl) (.inl rfl) l hl
  have fits : ((pad l.indent ++ l.body).length : Int) ≤ 80 := sound.fits filled
  refine ⟨sound.lead, sound.trail, by omega, ?_⟩
  simp only [Line.text, String.length_append] at fits ⊢
  omega

/-- A mapping with a list that fits into a line as long as neither its name nor its comma counts. -/
def cramped : Value :=
  .mapping
    [("note", .list
      [.text "a line of eighty has room for this list, but not for its name before it"]),
    ("seen", .bool true)]

theorem cramped_writable : cramped.Writable := by
  refine .mapping (by decide) ?_
  simp [Value.Writable.bool, Value.Writable.text, Value.Writable.list]

/-- The line of the list. -/
def crampedLine : Line :=
  ⟨1, "\"note\": ",
    "[\"a line of eighty has room for this list, but not for its name before it\"]", ",", true⟩

theorem lines_cramped : lines .plain 0 0 .code "" "" cramped =
    [⟨0, "", "\x7b", "", false⟩, crampedLine, ⟨1, "\"seen\": ", "true", "", false⟩,
      ⟨0, "", "\x7d", "", false⟩] := by
  decide +kernel

theorem crampedLine_mem : crampedLine ∈ lines .plain 0 0 .code "" "" cramped := by
  rw [lines_cramped]
  exact .tail _ (.head _)

/-- With its indentation, the list has 77 characters. -/
theorem filled_lines_fit_cramped :
    cramped.Writable ∧ crampedLine ∈ lines .plain 0 0 .code "" "" cramped ∧
      (pad crampedLine.indent ++ crampedLine.body).length = 77 ∧
      (crampedLine.text.length ≤ 80 ↔
        crampedLine.lead.length + crampedLine.trail.length ≤ 80 - 77) := by
  have width : (pad crampedLine.indent ++ crampedLine.body).length = 77 := by decide +kernel
  obtain ⟨-, -, -, fits⟩ := (filled_lines_fit cramped_writable).2 _ crampedLine_mem rfl
  rw [width] at fits
  exact ⟨cramped_writable, crampedLine_mem, width, fits⟩

/-- The text has a line with a list on it that is longer than 80: with the name and the comma, it
has 86 characters. -/
theorem filled_line_too_long :
    cramped.Writable ∧ ∃ l ∈ lines .plain 0 0 .code "" "" cramped, l.filled = true ∧
      l.text.toList ∈ (Printer.format .plain 0 0 .code cramped).toList.splitOn '\n' ∧
      l.text.length = 86 := by
  refine ⟨cramped_writable, crampedLine, crampedLine_mem, rfl, ?_, by decide +kernel⟩
  rw [splitOn_format cramped_writable]
  exact List.mem_map.2 ⟨_, crampedLine_mem, rfl⟩

end FormLang
