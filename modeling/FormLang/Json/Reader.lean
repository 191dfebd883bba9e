import FormLang.Json.Token

/-!
# FormLang — reading JSON

Tokens are read by a machine that holds the containers still open, innermost first (`Part`), and
what it waits for (`Want`).  The members of an object keep their order; a repeated name keeps its
first place and takes its last value.
-/

namespace FormLang.Json

/-- A container that is still open. -/
inductive Part where
  /-- A list, with its items so far, newest first. -/
  | list (items : List Value)
  /-- An object, with the members before the one whose value is being read. -/
  | member (entries : Entries Value) (name : String)

/-- What may come next. -/
inductive Want where
  | value
  /-- After `[`: a value or the end of the list. -/
  | valueOrEnd
  /-- After `,` in an object with these members: a name. -/
  | name (entries : Entries Value)
  /-- After the opening of an object: a name or the end. -/
  | nameOrEnd
  | colon (entries : Entries Value) (name : String)
  /-- After a value: a comma, the end of a container or the end of the text. -/
  | after (v : Value)

/-- What is wanted and which containers are open, after one more token. -/
def advance : Want → List Part → Token → Option (Want × List Part)
  | .value, outer, .atom v | .valueOrEnd, outer, .atom v => some (.after v, outer)
  | .value, outer, .openList | .valueOrEnd, outer, .openList =>
    some (.valueOrEnd, .list [] :: outer)
  | .value, outer, .openMapping | .valueOrEnd, outer, .openMapping => some (.nameOrEnd, outer)
  | .valueOrEnd, .list items :: outer, .closeList => some (.after (.list items.reverse), outer)
  | .nameOrEnd, outer, .atom (.text name) => some (.colon [] name, outer)
  | .nameOrEnd, outer, .closeMapping => some (.after (.mapping []), outer)
  | .name entries, outer, .atom (.text name) => some (.colon entries name, outer)
  | .colon entries name, outer, .colon => some (.value, .member entries name :: outer)
  | .after v, .list items :: outer, .comma => some (.value, .list (v :: items) :: outer)
  | .after v, .list items :: outer, .closeList => some (.after (.list (v :: items).reverse), outer)
  | .after v, .member entries name :: outer, .comma =>
    some (.name (Entries.insert name v entries), outer)
  | .after v, .member entries name :: outer, .closeMapping =>
    some (.after (.mapping (Entries.insert name v entries)), outer)
  | _, _, _ => none

/-- The value whose reading the tokens complete. -/
def assemble : Want → List Part → List Token → Option Value
  | .after v, [], [] => some v
  | _, _, [] => none
  | want, outer, t :: ts =>
    match advance want outer t with
    | some (want, outer) => assemble want outer ts
    | none => none

/-- The value of a JSON text in which a bare `…`, if it stands for anything, stands for `hole`. -/
def readWith (hole : Option Value) (text : String) : Option Value :=
  (tokens hole .between text.toList).bind (assemble .value [])

/-- The value of a JSON text. -/
def read (text : String) : Option Value :=
  readWith none text

end FormLang.Json
