import FormLang.Fault
import FormLang.Text.Split
import FormLang.Value.Display

/-!
# FormLang — the standard macros

A macro gets the form that it stands in, followed by the operands as they are written, and answers
with the form to be evaluated in its place.
-/

namespace FormLang.Expansion

/-- A form that evaluates to `v` itself. -/
def quotation (v : Value) : Value :=
  .mapping [("$", v)]

/-- `a.b.c` is the item `c` of the item `b` of what `a` evaluates to. -/
def getPath (path : Value) : Except Fault Value :=
  match path with
  | .text s =>
    match Text.split '.' s with
    | head :: keys =>
      .ok (.mapping [("get", .list (.text head :: keys.map fun key => quotation (.text key)))])
    | [] => .ok (.mapping [("get", .list [])])
  | v => .error (.pathNotText v.display)

/-- A `cond` with two clauses, from the companions of the condition in its form. -/
def ifElse (form condition : Value) : Except Fault Value :=
  match form with
  | .mapping entries =>
    .ok (.mapping [("cond", .list [
      .mapping [("if", condition), ("then", (Entries.get? "then" entries).getD .undefined)],
      .mapping [("else", (Entries.get? "else" entries).getD .undefined)]])])
  | _ => .error .formNotMapping

/-- `omit` with the keys taken as they are written. -/
def omitKeys (keys object : Value) : Value :=
  .mapping [("apply", .text "omit"), ("args", .list [quotation keys, object])]

/-- A template with an escape for every entry. -/
def record (description : Value) : Except Fault Value :=
  match description with
  | .mapping entries =>
    .ok (.mapping [("_$", .mapping (Entries.mapValues (fun _ e => .mapping [("$_", e)]) entries))])
  | v => .error (.recordNotMapping v.display)

end FormLang.Expansion
