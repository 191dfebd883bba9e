import FormLang.Fault
import FormLang.Text.Split
import FormLang.Value.Display
import FormLang.Value.Equality

/-!
# FormLang — parts of mappings and lists

`pick` keeps the named entries in the order in which they are named, `omit` the others in the
order of the mapping, and `get` follows keys and indices one at a time.
-/

namespace FormLang.Projection

mutual
/-- The value can be looked for among the names of a mapping: it holds no list and no mapping. -/
def isKey : Value → Bool
  | .list _ | .mapping _ => false
  | .tuple items => areKeys items
  | .tagged _ fn => isKey fn
  | _ => true
termination_by structural v => v

def areKeys : List Value → Bool
  | [] => true
  | v :: rest => isKey v && areKeys rest
termination_by structural vs => vs
end

/-- The values that a value runs through: its items, names or characters. -/
def elements : Value → Except Fault (List Value)
  | .text s => .ok (s.toList.map fun c => .text (String.singleton c))
  | .list items | .tuple items => .ok items
  | .mapping entries => .ok (entries.map fun e => .text e.1)
  | _ => .error .notIterable

/-- `picked` with the entry that `key` names, if it names one. -/
def pickOne (entries picked : Entries Value) (key : Value) : Except Fault (Entries Value) :=
  if isKey key then
    match key with
    | .text name =>
      match Entries.get? name entries with
      | some v => .ok (Entries.insert name v picked)
      | none => .ok picked
    | _ => .ok picked
  else .error .unusableKey

/-- The entries that `keys` name, in that order. -/
def pick (keys : Value) : Value → Except Fault Value
  | .mapping entries => do
    let keys ← elements keys
    return .mapping (← keys.foldlM (pickOne entries) [])
  | v => .error (.notMapping "pick" v.display)

/-- The names that `keys` holds: those that stand in a text, are items of a sequence or are names
of a mapping. -/
def names? : Value → Option (String → Bool)
  | .text s => some fun name => Text.occursIn name.toList s.toList
  | .list items | .tuple items => some fun name => items.any fun v => v.equal (.text name)
  | .mapping entries => some fun name => Entries.has name entries
  | _ => none

/-- The entries that `keys` does not name. -/
def without (keys : Value) : Value → Except Fault Value
  | .mapping entries =>
    match names? keys with
    | some named => .ok (.mapping (entries.filter fun e => !named e.1))
    | none => if entries.isEmpty then .ok (.mapping []) else .error .notIterable
  | v => .error (.notMapping "omit" v.display)

/-- The item at an index, counted from the end when it is negative. -/
def item? (items : List Value) (i : Int) : Option Value :=
  if 0 ≤ i then items[i.toNat]?
  else if -(items.length : Int) ≤ i then items[(items.length + i).toNat]?
  else none

/-- One step into a value; absent where there is nothing. -/
def getOne (v key : Value) : Except Fault Value :=
  match v with
  | .mapping entries =>
    if isKey key then
      match key with
      | .text name => .ok ((Entries.get? name entries).getD .undefined)
      | _ => .ok .undefined
    else .error .unusableKey
  | .list items =>
    match key with
    | .int i => .ok ((item? items i).getD .undefined)
    | _ => .ok .undefined
  | _ => .ok .undefined

/-- The value at the end of a path of keys. -/
def get (v : Value) (keys : List Value) : Except Fault Value :=
  keys.foldlM getOne v

end FormLang.Projection
