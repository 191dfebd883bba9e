import FormLang.Fault
import FormLang.Files.Tree
import FormLang.Json.Reader
import FormLang.Settings
import FormLang.Value.Display

/-!
# FormLang — files of definitions

A session can start with definitions from files.  A root that is a file gives that file; one that
is a directory gives its entries with the ending `.json`, in the order of the code points of their
names.  A root that is missing is skipped, unless it was asked for.
-/

namespace FormLang

/-- Which definitions a session starts with. -/
inductive Prelude where
  | empty
  /-- Those of the roots that are set. -/
  | configured
  | rooted (root : Path)
  deriving DecidableEq

/-- Where to look for files of definitions. -/
structure Roots where
  paths : List Path
  /-- Every one of them has to be there. -/
  required : Bool

namespace Prelude

/-- The prelude that a value asks for. -/
def ofValue : Value → Except Fault Prelude
  | .null | .bool false => .ok .empty
  | .bool true | .text "auto" => .ok .configured
  | .text s => .ok (.rooted (Path.ofString s))
  | v => .error (.badPrelude v.display)

/-- The roots of a prelude. -/
def roots (settings : Settings) : Prelude → Roots
  | .empty => ⟨[], false⟩
  | .configured => ⟨settings.roots, false⟩
  | .rooted root => ⟨[root], true⟩

def isDefinitionName (name : String) : Bool :=
  ".json".toList.isSuffixOf name.toList

/-- The files that one root gives; `none` when it is not there. -/
def filesAt? (files : FileSystem) (root : Path) : Option (List Path) :=
  (files.node? root).map fun
    | .file _ => [root]
    | .directory names =>
      ((names.filter isDefinitionName).mergeSort fun a b => decide (a ≤ b)).map root.child

/-- The files that the roots give, in order. -/
def paths (files : FileSystem) (roots : Roots) : Except Fault (List Path) := do
  let found ← roots.paths.mapM fun root =>
    match filesAt? files root with
    | some paths => .ok paths
    | none => if roots.required then .error (.preludeNotFound root.text) else .ok []
  return found.flatten

/-- The definitions in a file. -/
def definitions (files : FileSystem) (path : Path) : Except Fault (Entries Value) :=
  match files.node? path with
  | some (.file contents) =>
    match Json.read contents with
    | some (.mapping entries) => .ok entries
    | some _ => .error (.preludeNotMapping path.text)
    | none => .error .invalidJson
  | some (.directory _) => .error .isDirectory
  | none => .error (.preludeNotFound path.text)

/-- The definitions that come with the program. -/
def shipped : String :=
  "\x7b\n  \"identity\": \x7b\"lambda\": \"x\", \"body\": \"x\"\x7d,\n" ++
  "  \"inc\": \x7b\"lambda\": \"x\", \"body\": \x7b\"plus\": [\"x\", 1]\x7d\x7d,\n" ++
  "  \"dec\": \x7b\"lambda\": \"x\", \"body\": \x7b\"minus\": [\"x\", 1]\x7d\x7d,\n" ++
  "  \"square\": \x7b\"lambda\": \"x\", \"body\": \x7b\"mult\": [\"x\", \"x\"]\x7d\x7d\n\x7d\n"

/-- The files of the installed program. -/
def installed : FileTree :=
  ⟨[(["prelude", "core.json"], shipped)], []⟩

/-- The files of a system where the program is installed. -/
def fileSystem (tree : FileTree) (working home : List String) : FileSystem :=
  ⟨tree.join (installed.below home), working, home⟩

end Prelude

end FormLang
