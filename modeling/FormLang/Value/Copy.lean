import FormLang.Fault
import FormLang.Value.Equality

/-!
# FormLang — copies of values

Values do not change, so the copy of a value reads like the value itself.  Only callables that are
equal to nothing but themselves tell the two apart: a copied function of the host is a new one, and
a closure cannot be copied, since its frames are shared with others.
-/

namespace FormLang.Value

mutual
/-- The value, or one that it holds, has the property. -/
def holds (p : Value → Bool) : Value → Bool
  | .list items => p (.list items) || anyHolds p items
  | .tuple items => p (.tuple items) || anyHolds p items
  | .mapping entries => p (.mapping entries) || anyEntryHolds p entries
  | .tagged tag fn => p (.tagged tag fn) || holds p fn
  | v => p v
termination_by structural v => v

def anyHolds (p : Value → Bool) : List Value → Bool
  | [] => false
  | v :: rest => holds p v || anyHolds p rest
termination_by structural vs => vs

def anyEntryHolds (p : Value → Bool) : List (String × Value) → Bool
  | [] => false
  | (_, v) :: rest => holds p v || anyEntryHolds p rest
termination_by structural es => es
end

def isHost : Value → Bool
  | .host _ => true
  | _ => false

/-- A copy of the value and of all that it holds. -/
def deepCopy (v : Value) : Except Fault Value :=
  if v.holds isClosure then .error .notCopyable else .ok v

/-- The value is equal to a copy of it and of all that it holds. -/
def equalsDeepCopy (v : Value) : Bool :=
  v.equal v && !v.holds isHost

end FormLang.Value
