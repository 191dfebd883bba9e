import FormLang.Value.Number

/-!
# FormLang — equality of values

Numbers are equal by value, whatever their kind.  Sequences are equal item by item, a list never
to a tuple; mappings by name, whatever the order.  A closure equals only itself, a function of the
host only one of its name, and a tagged callable only one with its tag around an equal one.
-/

namespace FormLang.Value

mutual
/-- The values are equal. -/
def equal : Value → Value → Bool
  | .null, .null | .undefined, .undefined => true
  | .text s, .text t => s == t
  | .list xs, .list ys | .tuple xs, .tuple ys => equalItems xs ys
  | .mapping es, .mapping fs => es.length == fs.length && equalEntries es fs
  | .closure i .., .closure j .. => i == j
  | .standard s, .standard t => s == t
  | .host a, .host b => a == b
  | .tagged t f, .tagged u g => t == u && equal f g
  | v, w =>
    match v.number?, w.number? with
    | some a, some b => a.compare? b == some .eq
    | _, _ => false
termination_by structural v => v

def equalItems : List Value → List Value → Bool
  | [], [] => true
  | x :: xs, y :: ys => equal x y && equalItems xs ys
  | _, _ => false
termination_by structural xs => xs

/-- Every entry has an equal one of its name among the others. -/
def equalEntries : List (String × Value) → List (String × Value) → Bool
  | [], _ => true
  | (name, x) :: es, fs =>
    (match Entries.get? name fs with
      | some y => equal x y
      | none => false) && equalEntries es fs
termination_by structural es => es
end

end FormLang.Value
