import FormLang.State

/-!
# FormLang — templates

A template is rebuilt as data: sequences become lists, mappings keep their names and order, and a
mapping with the key `$_` is an escape, which gives way to the value of what stands under it.
Nothing inside that value is looked at again.
-/

namespace FormLang.Eval

mutual
/-- The data that a template describes, its escapes evaluated by `eval`. -/
def fill (eval : Value → EvalM Value) : Value → EvalM Value
  | .list items | .tuple items => do return .list (← fillItems eval items)
  | .mapping entries =>
    match Entries.get? "$_" entries with
    | some escaped => eval escaped
    | none => do return .mapping (← fillEntries eval entries)
  | v => pure v
termination_by structural v => v

def fillItems (eval : Value → EvalM Value) : List Value → EvalM (List Value)
  | [] => pure []
  | v :: rest => do
    let w ← fill eval v
    let ws ← fillItems eval rest
    return w :: ws
termination_by structural vs => vs

def fillEntries (eval : Value → EvalM Value) :
    List (String × Value) → EvalM (List (String × Value))
  | [] => pure []
  | (name, v) :: rest => do
    let w ← fill eval v
    let ws ← fillEntries eval rest
    return (name, w) :: ws
termination_by structural es => es
end

end FormLang.Eval
