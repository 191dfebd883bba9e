import FormLang.Entries

/-!
# FormLang — the standard bindings by name

Fifteen functions and four macros are bound in every environment.  `symbol` is the name that
programs use and `title` the name that messages show; `all` lists them in the order of their
frame.
-/

namespace FormLang

/-- The standard functions and macros. -/
inductive Standard where
  | plus | mult | minus | div | mod
  | eq | gt | gte | lt | lte
  | conj | disj
  | pick | omit | get
  | getPath | ifElse | omitKeys | record
  deriving DecidableEq

namespace Standard

/-- The name that programs use. -/
def symbol : Standard → String
  | .plus => "plus"
  | .mult => "mult"
  | .minus => "minus"
  | .div => "div"
  | .mod => "mod"
  | .eq => "eq"
  | .gt => "gt"
  | .gte => "gte"
  | .lt => "lt"
  | .lte => "lte"
  | .conj => "and"
  | .disj => "or"
  | .pick => "pick"
  | .omit => "omit"
  | .get => "get"
  | .getPath => "$get"
  | .ifElse => "$if"
  | .omitKeys => "$omit"
  | .record => "$record"

/-- The name that messages show. -/
def title : Standard → String
  | .conj => "logical_and"
  | .disj => "logical_or"
  | .getPath => "get_macro"
  | .ifElse => "if_macro"
  | .omitKeys => "omit_macro"
  | .record => "record_macro"
  | s => s.symbol

/-- All of them, in the order of the standard frame. -/
def all : List Standard :=
  [.plus, .mult, .minus, .div, .mod, .eq, .gt, .gte, .lt, .lte, .conj, .disj, .pick, .omit, .get,
    .getPath, .ifElse, .omitKeys, .record]

/-- The standard binding that programs call `name`. -/
def ofSymbol? (name : String) : Option Standard :=
  all.find? fun s => s.symbol = name

end Standard

end FormLang
