import FormLang.Value.Equality

/-!
# FormLang — the order of values

Numbers are ordered by value, texts by code point, lists among lists and tuples among tuples by
their first unequal items, else by length.  No other two values are ordered.
-/

namespace FormLang

/-- The four comparisons. -/
inductive Comparison where
  | gt | gte | lt | lte
  deriving DecidableEq

/-- The comparison holds of things in this order. -/
def Comparison.holds : Comparison → Ordering → Bool
  | .gt, o => o == .gt
  | .gte, o => o != .lt
  | .lt, o => o == .lt
  | .lte, o => o != .gt

namespace Value

mutual
/-- The comparison of two values; `none` when they are not ordered. -/
def compare? (c : Comparison) : Value → Value → Option Bool
  | .text s, .text t => some (c.holds (compare s t))
  | .list xs, .list ys | .tuple xs, .tuple ys => compareItems? c xs ys
  | v, w =>
    match v.number?, w.number? with
    | some a, some b => some ((a.compare? b).any c.holds)
    | _, _ => none
termination_by structural v => v

def compareItems? (c : Comparison) : List Value → List Value → Option Bool
  | [], [] => some (c.holds .eq)
  | [], _ :: _ => some (c.holds .lt)
  | _ :: _, [] => some (c.holds .gt)
  | x :: xs, y :: ys => if equal x y then compareItems? c xs ys else compare? c x y
termination_by structural xs => xs
end

end Value

end FormLang
