import FormLang.Form
import FormLang.Value.Display

/-!
# FormLang — printing expressions

An expression is printed as indented JSON.  A list or mapping stands on one line when it fits
(`layout`); what lies too deep is abbreviated by `…`.

Keys and texts are coloured by what they are in a program.  Text in the place of code is a symbol;
below a quote, and in a template outside its escapes, everything is literal (`Mode.below`).
-/

namespace FormLang

/-- What a colour marks. -/
inductive Ink where
  | symbol | closure | callable | quasiquote | unquote | specialForm | macroName
  deriving DecidableEq

/-- The terminal code of a colour. -/
def Ink.code : Ink → String
  | .symbol => "\x1b[94m"
  | .closure => "\x1b[92m"
  | .callable => "\x1b[95m"
  | .quasiquote => "\x1b[96m"
  | .unquote => "\x1b[91m"
  | .specialForm => "\x1b[90m"
  | .macroName => "\x1b[93m"

/-- The limits and colours of a printed expression. -/
structure Style where
  maxLineLength : Int
  maxDepth : Int
  colours : Ink → Bool

namespace Style

/-- Lines of 80, eight levels, and no colour. -/
def plain : Style := ⟨80, 8, fun _ => false⟩

/-- Lines of 80, eight levels, and all colours. -/
def coloured : Style := ⟨80, 8, fun _ => true⟩

/-- The text in a colour, if the style has it. -/
def paint (style : Style) (ink : Ink) (text : String) : String :=
  if style.colours ink then ink.code ++ text ++ "\x1b[0m" else text

end Style

/-- Where in a program an expression stands. -/
structure Mode where
  /-- It is data and not code. -/
  literal : Bool
  /-- An escape may turn it back into code. -/
  template : Bool
  deriving DecidableEq

namespace Mode

/-- Code. -/
def code : Mode := ⟨false, false⟩

/-- The key is an escape here. -/
def escapes (mode : Mode) (key : String) : Bool :=
  mode.literal && mode.template && key == "$_"

/-- The mode of what stands under a key. -/
def below (mode : Mode) (key : String) : Mode :=
  if !mode.literal && key == "$" then { mode with literal := true }
  else if !mode.literal && key == "_$" then ⟨true, true⟩
  else if mode.escapes key then code
  else mode

end Mode

namespace Printer

/-- The keys of special forms and their companions. -/
def formKeys : List String :=
  ["$", "_$", "let", "lambda", "cond", "apply", "in", "body", "args", "if", "then", "else"]

/-- The colour of a key that is code. -/
def keyInk (key : String) : Ink :=
  if key == "$_" then .unquote
  else if key == "_$" then .quasiquote
  else if formKeys.contains key then .specialForm
  else if isMacroName key then .macroName
  else .symbol

def key (style : Style) (mode : Mode) (k : String) : String :=
  if mode.literal && !mode.escapes k then Json.quote k
  else style.paint (keyInk k) (Json.quote k)

/-- A value that is neither a sequence nor a mapping. -/
def atom (style : Style) (mode : Mode) : Value → String
  | .closure _ params _ _ _ =>
    style.paint .closure ("<closure " ++ (Value.list (params.map .text)).display ++ ">")
  | .tagged .expander fn => style.paint .macroName (Value.tagged .expander fn).display
  | .tagged .function fn => style.paint .callable ("<callable " ++ fn.callableName ++ ">")
  | .standard s => style.paint .callable ("<callable " ++ s.title ++ ">")
  | .host name => style.paint .callable ("<callable " ++ name ++ ">")
  | .undefined => "undefined"
  | .text s =>
    if !mode.literal then style.paint .symbol (Json.quote s)
    else if mode.template then style.paint .quasiquote (Json.quote s)
    else Json.quote s
  | v => v.spell .json

/-- The blanks before a line, two for each level and none for a negative one. -/
def pad (indent : Int) : String :=
  String.ofList (List.replicate (2 * indent.toNat) ' ')

/-- Parts between brackets: on one line when they fit behind the indentation and none of them is
broken, else one part a line. -/
def layout (style : Style) (indent : Int) (left right : String) (parts : List String) : String :=
  let line := left ++ ", ".intercalate parts ++ right
  if (line.length : Int) + indent * 2 ≤ style.maxLineLength ∧ '\n' ∉ line.toList then line
  else
    left ++ "\n" ++ ",\n".intercalate (parts.map fun part => pad (indent + 1) ++ part) ++ "\n" ++
      pad indent ++ right

mutual
/-- An expression as text. -/
def format (style : Style) (indent depth : Int) (mode : Mode) : Value → String
  | .list items | .tuple items =>
    if style.maxDepth ≤ depth then "…"
    else if items.isEmpty then "[]"
    else layout style indent "[" "]" (formatItems style (indent + 1) (depth + 1) mode items)
  | .mapping entries =>
    if style.maxDepth ≤ depth then "…"
    else if entries.isEmpty then "\x7b\x7d"
    else
      layout style indent "\x7b" "\x7d" (formatEntries style (indent + 1) (depth + 1) mode entries)
  | v => if style.maxDepth ≤ depth then "…" else atom style mode v
termination_by structural v => v

def formatItems (style : Style) (indent depth : Int) (mode : Mode) : List Value → List String
  | [] => []
  | v :: rest => format style indent depth mode v :: formatItems style indent depth mode rest
termination_by structural vs => vs

def formatEntries (style : Style) (indent depth : Int) (mode : Mode) :
    List (String × Value) → List String
  | [] => []
  | (k, v) :: rest =>
    (key style mode k ++ ": " ++ format style indent depth (mode.below k) v) ::
      formatEntries style indent depth mode rest
termination_by structural es => es
end

/-- An expression as it is printed, on lines of its own. -/
def print (style : Style) (mode : Mode) (expr : Value) : String :=
  format style 0 0 mode expr ++ "\n"

end Printer

end FormLang
