import FormLang.Entries
import FormLang.Standard.Name

/-!
# FormLang — values

Programs are values and their results are values.  Beside plain data there are the absent value,
closures, the standard functions, functions of the host program, and callables that carry a tag.

A closure captures a chain of frames: the numbers of the frames in the store, nearest first.  Its
own number tells it from every other closure.
-/

namespace FormLang

/-- The switches of an evaluation. -/
structure Options where
  /-- A `cond` without a matching clause is an error. -/
  strictCond : Bool
  deriving DecidableEq

namespace Options

/-- The switches of an evaluation that is asked for nothing else. -/
def lenient : Options := ⟨false⟩

end Options

/-- Numbers of frames in the store, nearest first. -/
abbrev Chain := List Nat

/-- How a tagged callable is called. -/
inductive Tag where
  /-- With evaluated arguments. -/
  | function
  /-- With the form and its operands; the answer is evaluated in its place. -/
  | expander
  deriving DecidableEq

/-- Programs and what they evaluate to. -/
inductive Value where
  | null
  | bool (b : Bool)
  | int (n : Int)
  | float (x : Float)
  | text (s : String)
  | list (items : List Value)
  | tuple (items : List Value)
  | mapping (entries : List (String × Value))
  /-- The absent value. -/
  | undefined
  | closure (id : Nat) (params : List String) (body : Value) (env : Chain) (options : Options)
  | standard (s : Standard)
  /-- A function of the host program, known by its name. -/
  | host (name : String)
  | tagged (tag : Tag) (fn : Value)
  deriving Inhabited

namespace Value

/-- The value can be called. -/
def isCallable : Value → Bool
  | .closure .. | .standard _ | .host _ | .tagged .. => true
  | _ => false

def isClosure : Value → Bool
  | .closure .. => true
  | _ => false

/-- The value is a callable with the tag of a macro. -/
def isMacro : Value → Bool
  | .tagged .expander _ => true
  | _ => false

/-- Operands as a list: those of a sequence, else the one that stands there. -/
def operands : Value → List Value
  | .list items | .tuple items => items
  | v => [v]

/-- The word for the kind of a value in the log. -/
def kindName : Value → String
  | .null => "NoneType"
  | .bool _ => "bool"
  | .int _ => "int"
  | .float _ => "float"
  | .text _ => "str"
  | .list _ => "list"
  | .tuple _ => "tuple"
  | .mapping _ => "dict"
  | .undefined => "UndefinedType"
  | .closure .. => "Closure"
  | .standard _ => "function"
  | .host _ => "HostFn"
  | .tagged .function _ => "function"
  | .tagged .expander _ => "macro"

/-- Null, `false`, zero, the absent value and all that is empty count as false. -/
def truthy : Value → Bool
  | .null | .undefined => false
  | .bool b => b
  | .int n => n != 0
  | .float x => !(x == 0)
  | .text s => s != ""
  | .list items | .tuple items => !items.isEmpty
  | .mapping entries => !entries.isEmpty
  | .closure .. | .standard _ | .host _ | .tagged .. => true

end Value

end FormLang
