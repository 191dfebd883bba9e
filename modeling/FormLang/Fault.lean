/-!
# FormLang — what can go wrong

A fault names its cause.  Values that a message shows are carried as they are displayed, so faults
can be compared.  `message?` is the wording; the faults without one are those of the arguments'
shape and size and of the surroundings, which have no fixed wording.
-/

namespace FormLang

/-- The ways in which an evaluation or a session step ends without a value. -/
inductive Fault where
  /-- No frame binds the name of a symbol. -/
  | undefinedSymbol (shown : String)
  | undefinedFunction (name : String)
  | undefinedMacro (name : String)
  /-- What is called is no function. -/
  | notFunction (label : String)
  /-- A macro is applied to evaluated arguments. -/
  | macroApplied (label : String)
  | missingIn
  | missingBody
  | missingArgs
  | parameterNotText (shown : String)
  | bindingsNotMapping (shown : String)
  | clausesNotList (shown : String)
  | clauseNotMapping (shown : String)
  | clauseWithoutTest (shownKeys : String)
  | noClauseMatched
  | preludeNotMapping (path : String)
  /-- No key of the form is its operator. -/
  | ambiguousForm (keys : List String)
  | minusArity (count : Nat)
  | getPathArity
  | ifElseArity
  | omitKeysArity
  /-- An argument of an arithmetic function is no number. -/
  | notNumbers (function : String)
  | incomparable (left right function : String)
  | notMapping (function shown : String)
  | pathNotText (shown : String)
  | recordNotMapping (shown : String)
  | divisionByZero
  | moduloByZero
  /-- A function of the host program failed. -/
  | hostFailure (message : String)
  /-- The evaluation is stopped from outside. -/
  | interrupted
  | preludeNotFound (path : String)
  | badPrelude (shown : String)
  /-- A function of fixed arity got another number of arguments. -/
  | argumentCount
  | unusableKey
  | notIterable
  | calledNonCallable
  /-- A closure shares its frames and cannot be copied apart from them. -/
  | notCopyable
  /-- A number is too large for a double, or a count for a repetition. -/
  | overflow
  | frameNotMapping
  | formNotMapping
  | invalidJson
  | isDirectory
  deriving DecidableEq

namespace Fault

/-- The wording of a fault. -/
def message? : Fault → Option String
  | undefinedSymbol shown => some ("Undefined symbol " ++ shown)
  | undefinedFunction name => some ("Undefined function " ++ name)
  | undefinedMacro name => some ("Undefined macro " ++ name)
  | notFunction label => some ("Symbol " ++ label ++ " is not a function")
  | macroApplied label => some ("Macro " ++ label ++ " cannot be applied to evaluated arguments")
  | missingIn => some "Missing \"in\" property in a \"let\" form"
  | missingBody => some "Missing \"body\" property in a \"lambda\" form"
  | missingArgs => some "Missing \"args\" property in an \"apply\" form"
  | parameterNotText shown => some ("Lambda parameter names must be strings, got " ++ shown)
  | bindingsNotMapping shown => some ("Bindings must be a mapping, got " ++ shown)
  | clausesNotList shown => some ("\"cond\" expects a list of clauses, got " ++ shown)
  | clauseNotMapping shown => some ("cond clause must be a mapping, got " ++ shown)
  | clauseWithoutTest shownKeys =>
    some ("cond clause needs an \"if\" or \"else\" key, got " ++ shownKeys)
  | noClauseMatched => some "No \"cond\" clause matched and there is no \"else\" clause"
  | preludeNotMapping path =>
    some ("Prelude file " ++ path ++ " must hold a mapping of definitions")
  | ambiguousForm keys =>
    some ("Cannot identify the symbol in form \x7b" ++ ", ".intercalate keys ++ "\x7d")
  | minusArity count => some ("minus takes 1 or 2 arguments, got " ++ toString count)
  | getPathArity => some "$get takes a single dotted path"
  | ifElseArity => some "$if takes a single condition"
  | omitKeysArity => some "$omit takes a key list and an object"
  | notNumbers function => some ("All arguments to " ++ function ++ " must be numbers")
  | incomparable left right function =>
    some ("Cannot compare " ++ left ++ " and " ++ right ++ " with " ++ function)
  | notMapping function shown => some (function ++ " expects a mapping, got " ++ shown)
  | pathNotText shown => some ("$get expects a dotted path string, got " ++ shown)
  | recordNotMapping shown =>
    some ("$record expects a single mapping of expressions, got " ++ shown)
  | divisionByZero => some "Division by zero"
  | moduloByZero => some "Modulo by zero"
  | hostFailure message => some message
  | preludeNotFound path => some ("Cannot find prelude '" ++ path ++ "'")
  | badPrelude shown =>
    some ("prelude must be 'auto', a bool, None or a path, got " ++ shown)
  | interrupted | argumentCount | unusableKey | notIterable | calledNonCallable | notCopyable
  | overflow | frameNotMapping | formNotMapping | invalidJson | isDirectory => none

end Fault

end FormLang
