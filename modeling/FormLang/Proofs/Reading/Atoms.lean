import FormLang.Json.Reader
import FormLang.Value.Display
import Mathlib.Data.List.TakeWhile

/-!
# JSON — written atoms are read back

Characters are read by a machine that sees one at a time, so what a text means is said of the text
with whatever follows it.  `ReadsAs hole cs ts` says that `cs` is read as the tokens `ts`, followed
by the tokens of the rest; only a rest that would prolong a number or a word is excluded (`Ends`).

**Strings, integers and words are read as the atoms that they were written for**
(`readsAs_quote`, `readsAs_int`, `readsAs_word`).  For strings this takes a step for each way in
which a character is escaped (`tokens_escape`), pairs of surrogates among them.
-/

namespace FormLang.Json

variable {hole : Option Value} {rest : List Char}

/-! ### Texts and their tokens -/

/-- The text is empty, or starts with a character that stands neither in a number nor in a word. -/
def Ends (rest : List Char) : Prop :=
  ∀ c cs, rest = c :: cs → isNumberChar c = false ∧ c.isAlpha = false

theorem Ends.nil : Ends [] := by
  intro c cs h
  cases h

theorem Ends.cons {c : Char} {cs : List Char} (hn : isNumberChar c = false)
    (ha : c.isAlpha = false) : Ends (c :: cs) := by
  intro d ds h
  cases h
  exact ⟨hn, ha⟩

/-- The text is read as the tokens, followed by those of the rest, if the rest does not prolong
it. -/
def ReadsAs (hole : Option Value) (cs : List Char) (ts : List Token) : Prop :=
  ∀ rest, Ends rest → tokens hole .between (cs ++ rest) =
    (tokens hole .between rest).map (ts ++ ·)

/-- A character that completes no token leads to the next state. -/
theorem tokens_cons_of_next {state : Scan} {c : Char} (state' : Scan)
    (h : state.next hole c = some ([], state')) :
    tokens hole state (c :: rest) = tokens hole state' rest := by
  simp [tokens, h]

/-- A character that completes tokens and leads between two of them. -/
theorem tokens_cons_of_completes {state : Scan} {c : Char} {ts : List Token}
    (h : state.next hole c = some (ts, .between)) :
    tokens hole state (c :: rest) = (tokens hole .between rest).map (ts ++ ·) := by
  cases hr : tokens hole .between rest <;> simp [tokens, h, hr]

/-- A mark is read as itself, whatever follows. -/
theorem tokens_mark {c : Char} {t : Token} (h : Scan.between.next hole c = some ([t], .between)) :
    tokens hole .between (c :: rest) = (tokens hole .between rest).map (t :: ·) :=
  tokens_cons_of_completes h

/-- Blanks are skipped. -/
theorem tokens_blanks {gap : List Char} (h : ∀ c ∈ gap, isSpace c = true) :
    tokens hole .between (gap ++ rest) = tokens hole .between rest := by
  induction gap with
  | nil => rfl
  | cons c gap ih =>
      rw [List.forall_mem_cons] at h
      have next : Scan.between.next hole c = some ([], .between) := by
        simp [Scan.next, start, h.1]
      rw [List.cons_append, tokens_cons_of_next _ next, ih h.2]

/-! ### Strings -/

/-- The digits of a sixteen-bit unit are read as the unit. -/
theorem tokens_hex (read : List Char) (high : Option Nat) {unit : Nat} (h : unit < 0x10000) :
    tokens hole (.unit read high 0 0) (Text.hex 4 unit ++ rest) =
      tokens hole (afterUnit read high unit) rest := by
  have digit : ∀ n : Nat, Text.hexValue? (Nat.digitChar (n % 16)) = some (n % 16) :=
    fun n => Text.hexValue?_digitChar (Nat.mod_lt n (by decide))
  have value : 16 * (16 * (16 * (unit / 16 / 16 / 16 % 16) + unit / 16 / 16 % 16) +
      unit / 16 % 16) + unit % 16 = unit := by omega
  simp only [Text.hex, List.nil_append, List.cons_append]
  rw [tokens_cons_of_next (.unit read high 1 (unit / 16 / 16 / 16 % 16))]
  · rw [tokens_cons_of_next (.unit read high 2
      (16 * (unit / 16 / 16 / 16 % 16) + unit / 16 / 16 % 16))]
    · rw [tokens_cons_of_next (.unit read high 3
        (16 * (16 * (unit / 16 / 16 / 16 % 16) + unit / 16 / 16 % 16) + unit / 16 % 16))]
      · rw [tokens_cons_of_next (afterUnit read high unit)]
        simp [Scan.next, digit, value]
      · simp [Scan.next, digit]
    · simp [Scan.next, digit]
  · simp [Scan.next, digit]

/-- A character outside the surrogates, written as one unit. -/
theorem tokens_unicodeEscape (read : List Char) {c : Char} (h : c.toNat < 0x10000) :
    tokens hole (.string read) (unicodeEscape c.toNat ++ rest) =
      tokens hole (.string (c :: read)) rest := by
  have valid : c.toNat < 0xd800 ∨ 0xdfff < c.toNat ∧ c.toNat < 0x110000 := c.valid
  have after : afterUnit read none c.toNat = .string (c :: read) := by
    have high : isHighSurrogate c.toNat = false := by simp [isHighSurrogate]; omega
    have low : isLowSurrogate c.toNat = false := by simp [isLowSurrogate]; omega
    simp [afterUnit, afterSingle, high, low]
  simp only [unicodeEscape, List.cons_append]
  rw [tokens_cons_of_next (.escape read) rfl,
    tokens_cons_of_next (.unit read none 0 0) rfl, tokens_hex read none h, after]

/-- A character beyond sixteen bits, written as two units. -/
theorem tokens_surrogates (read : List Char) {c : Char} (h : 0x10000 ≤ c.toNat) :
    tokens hole (.string read) (unicodeEscape (0xd800 + (c.toNat - 0x10000) / 0x400) ++
      unicodeEscape (0xdc00 + (c.toNat - 0x10000) % 0x400) ++ rest) =
        tokens hole (.string (c :: read)) rest := by
  have valid : c.toNat < 0xd800 ∨ 0xdfff < c.toNat ∧ c.toNat < 0x110000 := c.valid
  obtain ⟨high, hhigh⟩ : ∃ n, n = 0xd800 + (c.toNat - 0x10000) / 0x400 := ⟨_, rfl⟩
  obtain ⟨low, hlow⟩ : ∃ n, n = 0xdc00 + (c.toNat - 0x10000) % 0x400 := ⟨_, rfl⟩
  rw [← hhigh, ← hlow]
  have afterHigh : afterUnit read none high = .low read high := by
    have : isHighSurrogate high = true := by simp [isHighSurrogate]; omega
    simp [afterUnit, afterSingle, this]
  have afterLow : afterUnit read (some high) low = .string (c :: read) := by
    have surrogate : isLowSurrogate low = true := by simp [isLowSurrogate]; omega
    have joined : 0x10000 + (high - 0xd800) * 0x400 + (low - 0xdc00) = c.toNat := by omega
    simp [afterUnit, surrogate, joined]
  simp only [unicodeEscape, List.cons_append, List.append_assoc]
  rw [tokens_cons_of_next (.escape read) rfl,
    tokens_cons_of_next (.unit read none 0 0) rfl, tokens_hex read none (by omega),
    afterHigh, tokens_cons_of_next (.lowEscape read high) rfl,
    tokens_cons_of_next (.unit read (some high) 0 0) rfl,
    tokens_hex read (some high) (by omega), afterLow]

/-- **A character of a written string is read as itself**, whichever way it is escaped. -/
theorem tokens_escape (read : List Char) (c : Char) :
    tokens hole (.string read) (escape c ++ rest) = tokens hole (.string (c :: read)) rest := by
  -- A backslash, and the letter that stands for the character.
  have letter : ∀ {d : Char}, unescape? d = some c → d ≠ 'u' →
      tokens hole (.string read) ('\\' :: d :: rest) = tokens hole (.string (c :: read)) rest := by
    intro d hd hu
    rw [tokens_cons_of_next (.escape read) rfl,
      tokens_cons_of_next (.string (c :: read)) (by simp [Scan.next, inEscape, hu, hd])]
  unfold escape
  split
  · subst c; exact letter rfl (by decide)
  split
  · subst c; exact letter rfl (by decide)
  split
  · subst c; exact letter rfl (by decide)
  split
  · subst c; exact letter rfl (by decide)
  split
  · subst c; exact letter rfl (by decide)
  split
  · subst c; exact letter rfl (by decide)
  split
  · subst c; exact letter rfl (by decide)
  rename_i quote backslash _ _ _ _ _
  split
  · rename_i printable
    refine tokens_cons_of_next _ ?_
    simp [Scan.next, inString, quote, backslash, Nat.not_lt.2 printable.1]
  split
  · exact tokens_unicodeEscape read ‹_›
  · exact tokens_surrogates read (by omega)

/-- The characters of a written string are read one by one, up to the closing quote. -/
theorem tokens_string (read cs : List Char) :
    tokens hole (.string read) (cs.flatMap escape ++ '\x22' :: rest) =
      (tokens hole .between rest).map
        (.atom (.text (String.ofList (read.reverse ++ cs))) :: ·) := by
  induction cs generalizing read with
  | nil =>
      have closed : (Scan.string read).next hole '\x22' =
          some ([.atom (.text (String.ofList read.reverse))], .between) := rfl
      simpa using tokens_cons_of_completes closed
  | cons c cs ih =>
      rw [List.flatMap_cons, List.append_assoc, tokens_escape, ih]
      simp

/-- A string is read as the text that was written, whatever follows. -/
theorem tokens_quote (s : String) :
    tokens hole .between ((quote s).toList ++ rest) =
      (tokens hole .between rest).map (.atom (.text s) :: ·) := by
  have opened : tokens hole .between ('\x22' :: (s.toList.flatMap escape ++ '\x22' :: rest)) =
      tokens hole (.string []) (s.toList.flatMap escape ++ '\x22' :: rest) :=
    tokens_cons_of_next _ rfl
  simpa [quote] using opened.trans (tokens_string [] s.toList)

theorem readsAs_quote (s : String) : ReadsAs hole (quote s).toList [.atom (.text s)] :=
  fun _ _ => tokens_quote s

/-! ### Integers -/

theorem digitsValue_toDigits (n : Nat) : digitsValue (Nat.toDigits 10 n) = n :=
  Nat.ofDigitChars_toDigits (by decide) (by decide)

theorem isDigit_of_mem_toDigits {n : Nat} {c : Char} (h : c ∈ Nat.toDigits 10 n) :
    c.isDigit = true :=
  Nat.isDigit_of_mem_toDigits (by decide) (by decide) h

/-- No digit `0` stands before others. -/
theorem isInteger_toDigits (n : Nat) : isInteger (Nat.toDigits 10 n) = true := by
  have positive : ∀ n, 0 < n → ∃ c cs, Nat.toDigits 10 n = c :: cs ∧ c ≠ '0' := by
    intro n
    induction n using Nat.strongRecOn with
    | _ n ih =>
        intro hn
        rw [Nat.toDigits_eq_if (by decide)]
        split
        · exact ⟨_, _, rfl, by simpa using Nat.pos_iff_ne_zero.1 hn⟩
        · obtain ⟨c, cs, hc, h0⟩ := ih (n / 10) (by omega) (by omega)
          exact ⟨c, cs ++ [Nat.digitChar (n % 10)], by rw [hc, List.cons_append], h0⟩
  rcases Nat.eq_zero_or_pos n with rfl | hn
  · simp [isInteger]
  · obtain ⟨c, cs, hc, h0⟩ := positive n hn
    rw [hc, isInteger]
    · simpa using h0

/-- Digits alone are an integer. -/
theorem number?_of_digits {ds : List Char} (h : ∀ c ∈ ds, c.isDigit = true)
    (hi : isInteger ds = true) : number? ds = some (.int (digitsValue ds)) := by
  have sign : ds.head? ≠ some '-' := by
    intro hs
    have := h _ (List.mem_of_head? hs)
    revert this
    decide
  have whole : ds.takeWhile Char.isDigit = ds := List.takeWhile_eq_self_iff.2 h
  have after : ds.dropWhile Char.isDigit = [] := List.dropWhile_eq_nil_iff.2 h
  simp [number?, sign, whole, after, hi, fraction?, exponent?]

theorem number?_of_negative {ds : List Char} (h : ∀ c ∈ ds, c.isDigit = true)
    (hi : isInteger ds = true) : number? ('-' :: ds) = some (.int (-digitsValue ds)) := by
  have whole : ds.takeWhile Char.isDigit = ds := List.takeWhile_eq_self_iff.2 h
  have after : ds.dropWhile Char.isDigit = [] := List.dropWhile_eq_nil_iff.2 h
  simp [number?, whole, after, hi, fraction?, exponent?]

/-- Digits prolong a number. -/
theorem tokens_digits (read : List Char) {ds : List Char} (h : ∀ c ∈ ds, c.isDigit = true) :
    tokens hole (.number read) (ds ++ rest) = tokens hole (.number (ds.reverse ++ read)) rest := by
  induction ds generalizing read with
  | nil => rfl
  | cons c ds ih =>
      rw [List.forall_mem_cons] at h
      have next : (Scan.number read).next hole c = some ([], .number (c :: read)) := by
        simp [Scan.next, isNumberChar, h.1]
      rw [List.cons_append, tokens_cons_of_next _ next, ih _ h.2]
      simp

/-- A number ends where the rest does not prolong it. -/
theorem tokens_number_ends {read : List Char} {v : Value} (hv : number? read.reverse = some v)
    (hr : Ends rest) : tokens hole (.number read) rest =
      (tokens hole .between rest).map (.atom v :: ·) := by
  cases rest with
  | nil => simp [tokens, Scan.finish, hv]
  | cons c cs =>
      obtain ⟨hn, ha⟩ := hr c cs rfl
      cases hs : start hole c with
      | none => simp [tokens, Scan.next, hn, ha, hv, hs]
      | some found =>
          cases ht : tokens hole found.2 cs <;> simp [tokens, Scan.next, hn, ha, hv, hs, ht]

/-- A first character that is a digit or a minus sign begins a number. -/
theorem start_number {c : Char} (h : c.isDigit = true ∨ c = '-') :
    Scan.between.next hole c = some ([], .number [c]) := by
  rcases h with h | rfl
  · have other : ∀ d : Char, d.isDigit = false → c ≠ d := by
      rintro d hd rfl
      rw [hd] at h
      cases h
    simp [Scan.next, start, isSpace, other, h]
  · rfl

/-- Digits, or a sign and digits, are read as one number. -/
theorem tokens_number {c : Char} {ds : List Char} {v : Value} (hc : c.isDigit = true ∨ c = '-')
    (h : ∀ d ∈ ds, d.isDigit = true) (hv : number? (c :: ds) = some v) :
    ReadsAs hole (c :: ds) [.atom v] := by
  intro rest hr
  rw [List.cons_append, tokens_cons_of_next (.number [c]) (start_number hc),
    tokens_digits _ h]
  exact tokens_number_ends (by simpa using hv) hr

theorem toList_ofNat (m : Nat) : (toString (Int.ofNat m)).toList = Nat.toDigits 10 m :=
  Nat.toList_repr

theorem toList_negSucc (m : Nat) :
    (toString (Int.negSucc m)).toList = '-' :: Nat.toDigits 10 (m + 1) := by
  simp [Int.repr]

/-- An integer is read as itself. -/
theorem readsAs_int (n : Int) : ReadsAs hole (toString n).toList [.atom (.int n)] := by
  have digits : ∀ m : Nat, ∀ c ∈ Nat.toDigits 10 m, c.isDigit = true :=
    fun m c => isDigit_of_mem_toDigits
  cases n with
  | ofNat m =>
      have hv := number?_of_digits (digits m) (isInteger_toDigits m)
      rw [digitsValue_toDigits] at hv
      rw [toList_ofNat]
      have hd := digits m
      cases hm : Nat.toDigits 10 m with
      | nil => exact absurd hm Nat.toDigits_ne_nil
      | cons c ds =>
          rw [hm] at hv hd
          rw [List.forall_mem_cons] at hd
          exact tokens_number (.inl hd.1) hd.2 hv
  | negSucc m =>
      have hv := number?_of_negative (digits (m + 1)) (isInteger_toDigits (m + 1))
      rw [digitsValue_toDigits] at hv
      rw [toList_negSucc]
      exact tokens_number (.inr rfl) (digits _) hv

/-! ### Words and the hole -/

/-- A word ends where the rest does not prolong it. -/
theorem tokens_word_ends {read : List Char} {v : Value} (hv : word? read.reverse = some v)
    (hr : Ends rest) : tokens hole (.word read) rest =
      (tokens hole .between rest).map (.atom v :: ·) := by
  cases rest with
  | nil => simp [tokens, Scan.finish, hv]
  | cons c cs =>
      obtain ⟨-, ha⟩ := hr c cs rfl
      cases hs : start hole c with
      | none => simp [tokens, Scan.next, ha, hv, hs]
      | some found =>
          cases ht : tokens hole found.2 cs <;> simp [tokens, Scan.next, ha, hv, hs, ht]

/-- Letters prolong a word. -/
theorem tokens_letters (read : List Char) {cs : List Char} (h : ∀ c ∈ cs, c.isAlpha = true) :
    tokens hole (.word read) (cs ++ rest) = tokens hole (.word (cs.reverse ++ read)) rest := by
  induction cs generalizing read with
  | nil => rfl
  | cons c cs ih =>
      rw [List.forall_mem_cons] at h
      have next : (Scan.word read).next hole c = some ([], .word (c :: read)) := by
        simp [Scan.next, h.1]
      rw [List.cons_append, tokens_cons_of_next _ next, ih _ h.2]
      simp

/-- A word is read as the value that it names. -/
theorem readsAs_word {c : Char} {cs : List Char} {v : Value}
    (hc : Scan.between.next hole c = some ([], .word [c])) (h : ∀ d ∈ cs, d.isAlpha = true)
    (hv : word? (c :: cs) = some v) : ReadsAs hole (c :: cs) [.atom v] := by
  intro rest hr
  rw [List.cons_append, tokens_cons_of_next _ hc, tokens_letters _ h]
  exact tokens_word_ends (by simpa using hv) hr

theorem readsAs_null : ReadsAs hole "null".toList [.atom .null] := by
  have letters : "null".toList = ['n', 'u', 'l', 'l'] := rfl
  rw [letters]
  exact readsAs_word rfl (by simp) rfl

theorem readsAs_bool (b : Bool) : ReadsAs hole (Spelling.json.bool b).toList [.atom (.bool b)] := by
  cases b with
  | false =>
      have letters : (Spelling.json.bool false).toList = ['f', 'a', 'l', 's', 'e'] := rfl
      rw [letters]
      exact readsAs_word rfl (by simp) rfl
  | true =>
      have letters : (Spelling.json.bool true).toList = ['t', 'r', 'u', 'e'] := rfl
      rw [letters]
      exact readsAs_word rfl (by simp) rfl

/-- A bare `…` is read as the value that it stands for. -/
theorem readsAs_hole (v : Value) : ReadsAs (some v) "…".toList [.atom v] :=
  fun _ _ => tokens_mark rfl

end FormLang.Json
