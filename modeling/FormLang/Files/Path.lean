import FormLang.Text.Split

/-!
# FormLang — paths

A path is written with single slashes and without the parts `.`; `..` stays.  Two slashes at the
beginning are kept, more than two count as one, and the path without parts is `.`.  The paths of the
program's own files start at the directory where it is installed, which is shown by a name.
-/

namespace FormLang

/-- Where a path starts. -/
inductive Start where
  /-- At the working directory. -/
  | working
  /-- At the root of all files, written with this number of slashes. -/
  | root (slashes : Nat)
  /-- At the directory of the installed program, shown by this name. -/
  | home (shown : String)
  deriving DecidableEq

/-- A path: where it starts, and its parts from there. -/
structure Path where
  start : Start
  parts : List String
  deriving DecidableEq

namespace Path

/-- The path that a text describes. -/
def ofString (s : String) : Path :=
  { start :=
      match (s.toList.takeWhile (· = '/')).length with
      | 0 => .working
      | 2 => .root 2
      | _ => .root 1
    parts := (Text.split '/' s).filter fun part => part ≠ "" ∧ part ≠ "." }

/-- The path as text. -/
def text (p : Path) : String :=
  match p.start with
  | .working => if p.parts = [] then "." else "/".intercalate p.parts
  | .root slashes => String.ofList (List.replicate slashes '/') ++ "/".intercalate p.parts
  | .home shown => "/".intercalate (shown :: p.parts)

/-- The entry `name` of a directory. -/
def child (p : Path) (name : String) : Path :=
  { p with parts := p.parts ++ [name] }

end Path

end FormLang
