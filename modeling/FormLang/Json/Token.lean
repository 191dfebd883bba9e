import FormLang.Json.Number
import FormLang.Text.Hex

/-!
# FormLang — JSON tokens

Characters are read one at a time by a machine whose state says what is being read (`Scan`).  Runs
of number characters and of letters are taken whole and judged at their end, so no character is
read twice.

Texts are sequences of characters, that is of Unicode scalar values.  Two escaped surrogates that
follow each other are one character; of a surrogate without its other half, which is none, the
replacement character is read.

A reader of abbreviated texts can be given the value that a bare `…` stands for.
-/

namespace FormLang.Json

/-- The marks and atoms of a JSON text. -/
inductive Token where
  | openList
  | closeList
  | openMapping
  | closeMapping
  | comma
  | colon
  | atom (v : Value)

/-- What is being read; what has been read of it stands newest first. -/
inductive Scan where
  /-- Nothing: the place between two tokens. -/
  | between
  | number (read : List Char)
  | word (read : List Char)
  | string (read : List Char)
  /-- A string, after a backslash. -/
  | escape (read : List Char)
  /-- A string, inside `\u`: the digits so far, their number, and a high surrogate before them. -/
  | unit (read : List Char) (high : Option Nat) (count value : Nat)
  /-- A string, after a high surrogate. -/
  | low (read : List Char) (high : Nat)
  /-- A string, after a high surrogate and a backslash. -/
  | lowEscape (read : List Char) (high : Nat)

def isSpace (c : Char) : Bool :=
  c = ' ' || c = '\t' || c = '\n' || c = '\r'

def isNumberChar (c : Char) : Bool :=
  c.isDigit || c = '-' || c = '+' || c = '.' || c = 'e' || c = 'E'

/-- The value of a word. -/
def word? (w : List Char) : Option Value :=
  if w = "null".toList then some .null
  else if w = "true".toList then some (.bool true)
  else if w = "false".toList then some (.bool false)
  else if w = "NaN".toList then some (.float Binary64.nan)
  else if w = "Infinity".toList then some (.float (Binary64.infinity false))
  else if w = "-Infinity".toList then some (.float (Binary64.infinity true))
  else none

/-- The character that stands for a single escaped letter. -/
def unescape? (c : Char) : Option Char :=
  if c = '\x22' ∨ c = '\\' ∨ c = '/' then some c
  else if c = 'b' then some '\x08'
  else if c = 'f' then some '\x0c'
  else if c = 'n' then some '\n'
  else if c = 'r' then some '\r'
  else if c = 't' then some '\t'
  else none

def isHighSurrogate (unit : Nat) : Bool :=
  0xd800 ≤ unit && unit < 0xdc00

def isLowSurrogate (unit : Nat) : Bool :=
  0xdc00 ≤ unit && unit < 0xe000

/-- The character that is read for a surrogate without its other half. -/
def replacement : Char := '\ufffd'

/-- The state after a whole `\u` escape that completes no pair of surrogates. -/
def afterSingle (read : List Char) (unit : Nat) : Scan :=
  if isHighSurrogate unit then .low read unit
  else if isLowSurrogate unit then .string (replacement :: read)
  else .string (Char.ofNat unit :: read)

/-- The state after a whole `\u` escape. -/
def afterUnit (read : List Char) : (high : Option Nat) → (unit : Nat) → Scan
  | none, unit => afterSingle read unit
  | some high, unit =>
    if isLowSurrogate unit then
      .string (Char.ofNat (0x10000 + (high - 0xd800) * 0x400 + (unit - 0xdc00)) :: read)
    else afterSingle (replacement :: read) unit

/-- The first character of a token. -/
def start (hole : Option Value) (c : Char) : Option (List Token × Scan) :=
  if isSpace c then some ([], .between)
  else if c = '[' then some ([.openList], .between)
  else if c = ']' then some ([.closeList], .between)
  else if c = '\x7b' then some ([.openMapping], .between)
  else if c = '\x7d' then some ([.closeMapping], .between)
  else if c = ',' then some ([.comma], .between)
  else if c = ':' then some ([.colon], .between)
  else if c = '\x22' then some ([], .string [])
  else if c.isDigit ∨ c = '-' then some ([], .number [c])
  else if c.isAlpha then some ([], .word [c])
  else if c = '…' then hole.map fun v => ([.atom v], .between)
  else none

/-- A character of a string. -/
def inString (read : List Char) (c : Char) : Option (List Token × Scan) :=
  if c = '\x22' then some ([.atom (.text (String.ofList read.reverse))], .between)
  else if c = '\\' then some ([], .escape read)
  else if c.toNat < 0x20 then none
  else some ([], .string (c :: read))

/-- A character of a string, after a backslash. -/
def inEscape (read : List Char) (c : Char) : Option (List Token × Scan) :=
  if c = 'u' then some ([], .unit read none 0 0)
  else (unescape? c).map fun d => ([], .string (d :: read))

namespace Scan

/-- The tokens that `c` completes, and the state after it. -/
def next (hole : Option Value) : Scan → Char → Option (List Token × Scan)
  | .between, c => start hole c
  | .number read, c =>
    if isNumberChar c then some ([], .number (c :: read))
    else if read = ['-'] ∧ c.isAlpha then some ([], .word (c :: read))
    else do
      let v ← number? read.reverse
      let (tokens, state) ← start hole c
      return (.atom v :: tokens, state)
  | .word read, c =>
    if c.isAlpha then some ([], .word (c :: read))
    else do
      let v ← word? read.reverse
      let (tokens, state) ← start hole c
      return (.atom v :: tokens, state)
  | .string read, c => inString read c
  | .escape read, c => inEscape read c
  | .unit read high count value, c => do
    let digit ← Text.hexValue? c
    let value := 16 * value + digit
    return ([], if count = 3 then afterUnit read high value else .unit read high (count + 1) value)
  | .low read high, c =>
    if c = '\\' then some ([], .lowEscape read high) else inString (replacement :: read) c
  | .lowEscape read high, c =>
    if c = 'u' then some ([], .unit read (some high) 0 0) else inEscape (replacement :: read) c

/-- The tokens that the end of the text completes. -/
def finish : Scan → Option (List Token)
  | .between => some []
  | .number read => (number? read.reverse).map fun v => [.atom v]
  | .word read => (word? read.reverse).map fun v => [.atom v]
  | _ => none

end Scan

/-- The tokens of a text, read on from a state. -/
def tokens (hole : Option Value) : Scan → List Char → Option (List Token)
  | state, [] => state.finish
  | state, c :: cs => do
    let (found, state) ← state.next hole c
    let rest ← tokens hole state cs
    return found ++ rest

end FormLang.Json
