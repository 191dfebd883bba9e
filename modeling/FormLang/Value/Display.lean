import FormLang.Decimal.Notation
import FormLang.Json.Text
import FormLang.Text.Quoted
import FormLang.Value.Basic

/-!
# FormLang — values as text

A value is spelled in one of two ways.  Messages and the log show it in the first; the body of a
closure is always written in the second, JSON, where a value that JSON cannot hold becomes the
string of its first spelling.
-/

namespace FormLang

/-- The two spellings of values. -/
inductive Spelling where
  | display
  | json

namespace Spelling

def null : Spelling → String
  | .display => "None"
  | .json => "null"

def bool : Spelling → Bool → String
  | .display, true => "True"
  | .display, false => "False"
  | .json, true => "true"
  | .json, false => "false"

def float : Spelling → Float → String
  | .display => Decimal.ofFloat ⟨"nan", "inf", "-inf"⟩
  | .json => Decimal.ofFloat ⟨"NaN", "Infinity", "-Infinity"⟩

def text : Spelling → String → String
  | .display => Text.quoted
  | .json => Json.quote

def list (items : List String) : String :=
  "[" ++ ", ".intercalate items ++ "]"

/-- Apart from lists only when displayed: `(1, 2)`, `(1,)`, `()`. -/
def tuple : Spelling → List String → String
  | .display, [item] => "(" ++ item ++ ",)"
  | .display, items => "(" ++ ", ".intercalate items ++ ")"
  | .json, items => list items

def mapping (entries : List String) : String :=
  "\x7b" ++ ", ".intercalate entries ++ "\x7d"

/-- A value outside JSON, given as it is displayed. -/
def foreign : Spelling → String → String
  | .display, shown => shown
  | .json, shown => Json.quote shown

end Spelling

/-- A closure as text, given its body as text. -/
def closureText (params : List String) (body : String) : String :=
  "(λ (" ++ " ".intercalate params ++ ") " ++ body ++ ")"

/-- A tagged callable as text, given the name of what it wraps. -/
def taggedText : Tag → String → String
  | .function, name => "<function " ++ name ++ ">"
  | .expander, name => "<macro " ++ name ++ ">"

namespace Value

mutual
/-- A value as text. -/
def spell (sp : Spelling) : Value → String
  | .null => sp.null
  | .bool b => sp.bool b
  | .int n => toString n
  | .float x => sp.float x
  | .text s => sp.text s
  | .list items => Spelling.list (spellItems sp items)
  | .tuple items => sp.tuple (spellItems sp items)
  | .mapping entries => Spelling.mapping (spellEntries sp entries)
  | .undefined => sp.foreign "undefined"
  | .closure _ params body _ _ => sp.foreign (closureText params (spell .json body))
  | .standard s => sp.foreign ("<function " ++ s.title ++ ">")
  | .host name => sp.foreign ("<host " ++ name ++ ">")
  | .tagged tag (.standard s) => sp.foreign (taggedText tag s.title)
  | .tagged tag (.host name) => sp.foreign (taggedText tag name)
  | .tagged tag fn => sp.foreign (taggedText tag (spell .display fn))
termination_by structural v => v

def spellItems (sp : Spelling) : List Value → List String
  | [] => []
  | v :: rest => spell sp v :: spellItems sp rest
termination_by structural vs => vs

def spellEntries (sp : Spelling) : List (String × Value) → List String
  | [] => []
  | (name, v) :: rest => (sp.text name ++ ": " ++ spell sp v) :: spellEntries sp rest
termination_by structural es => es
end

/-- The value as messages and the log show it. -/
def display (v : Value) : String :=
  v.spell .display

/-- The name that a callable goes by: its own, else its text. -/
def callableName : Value → String
  | .standard s => s.title
  | .host name => name
  | v => v.display

end Value

end FormLang
