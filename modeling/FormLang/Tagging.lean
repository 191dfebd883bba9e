import FormLang.Fault
import FormLang.Value.Basic

/-!
# FormLang — tags and frames

A callable bound under a name that starts with `$` is a macro, under any other name a function.
Binding it under a name of the other kind tags it anew.  A closure under a plain name carries no
tag.
-/

namespace FormLang

/-- The name is that of a macro. -/
def isMacroName (name : String) : Bool :=
  name.toList.head? == some '$'

/-- The callable under its tag. -/
def Value.untagged : Value → Value
  | .tagged _ fn => fn
  | v => v

/-- The value as it is bound under `name`. -/
def tag (name : String) (v : Value) : Value :=
  if !v.isCallable then v
  else if isMacroName name then
    match v with
    | .tagged .expander _ => v
    | _ => .tagged .expander v.untagged
  else
    match v with
    | .tagged .function _ => v
    | _ => if v.untagged.isClosure then v.untagged else .tagged .function v.untagged

/-- The bindings of one scope. -/
abbrev Frame := Entries Value

namespace Frame

/-- The entries of a mapping, bound under their names. -/
def ofEntries (entries : Entries Value) : Frame :=
  Entries.mapValues tag entries

/-- A frame from a value that has to be a mapping. -/
def ofValue : Value → Except Fault Frame
  | .mapping entries => .ok (ofEntries entries)
  | _ => .error .frameNotMapping

/-- The frame of the standard bindings. -/
def standard : Frame :=
  ofEntries (Standard.all.map fun s => (s.symbol, .standard s))

/-- Parameters bound to the arguments at their positions, absent where there is none. -/
def bindArguments (frame : Frame) : List String → List Value → Frame
  | [], _ => frame
  | p :: ps, [] => bindArguments (Entries.insert p .undefined frame) ps []
  | p :: ps, v :: vs => bindArguments (Entries.insert p (tag p v) frame) ps vs

end Frame

end FormLang
