import FormLang.Files.Path

/-!
# FormLang — files and directories

All files and directories stand in one tree below the root.  The parents of whatever is there are
directories too.  A program has a place in the tree where it works and one where it is installed:
paths start there or at the root, and `..` leads from every directory to the one that it is in.
-/

namespace FormLang

/-- Files with their contents and directories, by their parts from the top of the tree. -/
structure FileTree where
  files : List (List String × String)
  directories : List (List String)

/-- What stands at a place. -/
inductive Node where
  | file (contents : String)
  /-- A directory, with the names in it. -/
  | directory (names : List String)
  deriving DecidableEq

namespace FileTree

/-- The parts of everything that is there. -/
def paths (t : FileTree) : List (List String) :=
  t.files.map Prod.fst ++ t.directories

/-- The contents of the file at these parts. -/
def file? (t : FileTree) (parts : List String) : Option String :=
  (t.files.find? fun f => f.1 = parts).map Prod.snd

/-- The name that follows `parts` in `path`, if it goes on below them. -/
def nameBelow? : (parts path : List String) → Option String
  | [], name :: _ => some name
  | p :: ps, q :: qs => if p = q then nameBelow? ps qs else none
  | _, [] => none

/-- The names in a directory, each once, in no particular order. -/
def namesIn (t : FileTree) (parts : List String) : List String :=
  (t.paths.filterMap (nameBelow? parts)).eraseDups

def isDirectory (t : FileTree) (parts : List String) : Bool :=
  parts.isEmpty || t.directories.contains parts || !(t.namesIn parts).isEmpty

/-- What stands at these parts. -/
def node? (t : FileTree) (parts : List String) : Option Node :=
  match t.file? parts with
  | some contents => some (.file contents)
  | none => if t.isDirectory parts then some (.directory (t.namesIn parts)) else none

/-- One step along a path, from a directory.  The root is in itself. -/
def walk (t : FileTree) (parts : List String) (name : String) : Option (List String) :=
  match t.node? parts with
  | some (.directory _) => some (if name = ".." then parts.dropLast else parts ++ [name])
  | _ => none

/-- The tree with its top at a place below the root. -/
def below (top : List String) (t : FileTree) : FileTree where
  files := t.files.map fun f => (top ++ f.1, f.2)
  directories := top :: t.directories.map (top ++ ·)

/-- The files and directories of both trees. -/
def join (t u : FileTree) : FileTree where
  files := t.files ++ u.files
  directories := t.directories ++ u.directories

end FileTree

/-- The files that a program can see. -/
structure FileSystem where
  /-- Everything that is there, from the root. -/
  tree : FileTree
  /-- Where the program works. -/
  working : List String
  /-- Where the program is installed. -/
  home : List String

namespace FileSystem

/-- The place where a path starts. -/
def origin (files : FileSystem) : Start → List String
  | .working => files.working
  | .root _ => []
  | .home _ => files.home

/-- What a path leads to, step by step from its start. -/
def node? (files : FileSystem) (p : Path) : Option Node := do
  let place ← p.parts.foldlM files.tree.walk (files.origin p.start)
  files.tree.node? place

end FileSystem

end FormLang
