/-!
# Files

Paths, and the files that a run reads and writes. `FileAccess` is what a run
needs of a file system; `FileTree` is a file system as data, on which a run can
be carried out without any other one.
-/

namespace FormattedText

namespace Conformance

/-- What a run needs of a file system. -/
structure FileAccess (m : Type → Type) where
  /-- The names of the entries of a directory, if it can be listed. -/
  list : String → m (Option (List String))
  /-- The text of a file, if it can be read. -/
  read : String → m (Option String)
  /-- Writes the text of a file, and tells whether that was possible. -/
  write : String → String → m Bool

namespace Path

/-- The parts of a path between its slashes. -/
def parts (path : String) : List String := path.splitOn "/"

/-- Does the part stay in the directory it is read in? -/
def staysHere (part : String) : Bool := part.isEmpty || part == "."

/-- The path of an entry of a directory. -/
def join (directory name : String) : String :=
  if directory.endsWith "/" then directory ++ name else directory ++ "/" ++ name

/-- The extension of a file name: what follows its last point, unless nothing stands
before that point. -/
def extension? (name : String) : Option String :=
  match name.toList.reverse.span (· ≠ '.') with
  | (extension, _ :: _ :: _) => some (String.ofList extension.reverse)
  | _ => none

/-- The file name at the end of a path. -/
def fileName? (path : String) : Option String :=
  match ((parts path).filter fun part => !staysHere part).getLast? with
  | some ".." | none => none
  | some name => some name

/-- Does the path lead to a file with this extension? -/
def hasExtension (extension path : String) : Bool :=
  (fileName? path).bind extension? == some extension

end Path

/-- A tree of text files. -/
inductive FileTree where
  | file (text : String)
  | directory (entries : List (String × FileTree))
  deriving Repr, Inhabited

namespace FileTree

/-- An entry of a directory. -/
def entry? (tree : FileTree) (name : String) : Option FileTree :=
  match tree with
  | file _ => none
  | directory entries => entries.lookup name

/-- What stands at the end of names of entries. -/
def at? (tree : FileTree) (names : List String) : Option FileTree := names.foldlM entry? tree

/-- Follows one part of a path from a directory; two points lead out of it. -/
def follow? (tree : FileTree) (here : List String) (part : String) : Option (List String) :=
  match tree.at? here with
  | some (directory _) =>
      if Path.staysHere part then some here
      else if part = ".." then (if here.isEmpty then none else some here.dropLast)
      else some (here ++ [part])
  | _ => none

/-- The names of entries that a path means, seen from the root of the tree. -/
def resolve? (tree : FileTree) (path : String) : Option (List String) :=
  if path.isEmpty || path.startsWith "/" then none
  else (Path.parts path).foldlM tree.follow? []

/-- The names in a directory. -/
def list? (tree : FileTree) (path : String) : Option (List String) :=
  match (tree.resolve? path).bind tree.at? with
  | some (directory entries) => some (entries.map (·.1))
  | _ => none

/-- The text of a file. -/
def read? (tree : FileTree) (path : String) : Option String :=
  match (tree.resolve? path).bind tree.at? with
  | some (file text) => some text
  | _ => none

/-- The tree with a file put at the end of names. -/
def put (text : String) : List String → FileTree → FileTree
  | [], _ => file text
  | name :: rest, directory entries =>
      let below := put text rest ((entries.lookup name).getD (directory []))
      directory ((name, below) :: entries.filter (·.1 ≠ name))
  | _ :: _, file other => file other

/-- The tree with the text of a file written, which must not be a directory and must
lie in one. -/
def write? (tree : FileTree) (path text : String) : Option FileTree :=
  if (Path.parts path).getLast?.all Path.staysHere then none
  else
    (tree.resolve? path).bind fun names =>
      match tree.at? names with
      | some (directory _) => none
      | _ => some (tree.put text names)

/-- A tree as a file system. -/
def access : FileAccess (StateM FileTree) where
  list path := do return (← get).list? path
  read path := do return (← get).read? path
  write path text := do
    match (← get).write? path text with
    | some tree =>
        set tree
        return true
    | none => return false

end FileTree

end Conformance

end FormattedText
