import LayoutCompiler.SortedMap
import LayoutCompiler.Storage.Basic
import LayoutCompiler.Storage.Path
/-!
# Trees of files

Storage in memory. Paths are followed name by name from the root; a path that leads out of the tree
leads nowhere.
-/

namespace LayoutCompiler

/-- A file with its text, or a folder with its entries in order of their names. -/
inductive FileTree where
  | file (contents : String)
  | folder (entries : List (String × FileTree))
deriving Inhabited

namespace FileTree

/-- The folder without entries. -/
def empty : FileTree := folder []

/-- The entries of a folder; a file has none. -/
def entries : FileTree → List (String × FileTree)
  | file _ => []
  | folder entries => entries

/-- Whether a tree is a folder. -/
def isFolder : FileTree → Bool
  | file _ => false
  | folder _ => true

/-- What is at the end of a row of names. -/
def get? (t : FileTree) (names : List String) : Option FileTree :=
  match names with
  | [] => some t
  | name :: rest => (SortedMap.find? name t.entries).bind fun inner => get? inner rest

/-- The tree with something put at the end of a row of names. Folders are made on the way where
there are none. -/
def put (t : FileTree) (names : List String) (new : FileTree) : FileTree :=
  match names with
  | [] => new
  | name :: rest =>
    let inner := (SortedMap.find? name t.entries).getD empty
    folder (SortedMap.insertEntry name (put inner rest new) t.entries)

mutual

/-- The paths of the files of a tree, when the tree itself is at a path. -/
def files (path : String) : FileTree → List String
  | file _ => [path]
  | folder entries => filesOf path entries

/-- The paths of the files of the entries of a folder. -/
def filesOf (path : String) : List (String × FileTree) → List String
  | [] => []
  | (name, t) :: rest => files (Path.join path name) t ++ filesOf path rest

end

/-! ## Following paths -/

/-- The steps of a path. An empty name stays where it is, as a point does. -/
def steps (path : String) : List String :=
  (Text.split '/' path).map fun name => if name = "" then "." else name

/-- Whether a path is one that can lead somewhere: not empty, and not from outside. -/
def isInside (path : String) : Bool := !path.isEmpty && !Text.leads "/" path

/-- Follows steps from a folder, given by the names that lead to it. There need not be anything at
the end, but every step has to start from a folder. -/
def follow (t : FileTree) : List String → List String → Except StorageFault (List String)
  | here, [] => .ok here
  | here, step :: rest =>
    match t.get? here with
    | none => .error .missing
    | some (file _) => .error .notFolder
    | some (folder _) =>
      if step = "." then follow t here rest
      else if step = ".." then
        if here.isEmpty then .error .missing else follow t here.dropLast rest
      else follow t (here ++ [step]) rest

/-- The names that a path comes down to. -/
def locate (t : FileTree) (path : String) : Except StorageFault (List String) :=
  if isInside path then t.follow [] (steps path) else .error .missing

/-- What is at a path. -/
def find (t : FileTree) (path : String) : Except StorageFault FileTree := do
  match t.get? (← t.locate path) with
  | some found => pure found
  | none => throw .missing

/-! ## Reading and writing -/

/-- The text of the file at a path. -/
def read (t : FileTree) (path : String) : Except StorageFault String := do
  match ← t.find path with
  | file contents => pure contents
  | folder _ => throw .isFolder

/-- The names in the folder at a path, each with whether it is that of a folder. -/
def list (t : FileTree) (path : String) : Except StorageFault (List (String × Bool)) := do
  match ← t.find path with
  | file _ => throw .notFolder
  | folder entries => pure (entries.map fun (name, entry) => (name, entry.isFolder))

/-- The tree with the text of a file written. -/
def write (t : FileTree) (path contents : String) : Except StorageFault FileTree := do
  let names ← t.locate path
  match t.get? names with
  | some (folder _) => throw .isFolder
  | _ => pure (t.put names (file contents))

/-- The tree with all folders on a path, from a folder on. -/
def grow (t : FileTree) : List String → List String → Except StorageFault FileTree
  | here, rest =>
    match t.get? here with
    | some (file _) => .error (if rest.isEmpty then .taken else .notFolder)
    | found =>
      let t := if found.isSome then t else t.put here empty
      match rest with
      | [] => .ok t
      | step :: rest =>
        if step = "." then grow t here rest
        else if step = ".." then
          if here.isEmpty then .error .missing else grow t here.dropLast rest
        else grow t (here ++ [step]) rest

/-- The tree with a folder at a path. The empty path needs none. -/
def makeFolder (t : FileTree) (path : String) : Except StorageFault FileTree :=
  if path.isEmpty then .ok t
  else if isInside path then t.grow [] (steps path)
  else .error .missing

/-- Replaces the tree by the result of a change, unless that is a fault. -/
def update (change : FileTree → Except StorageFault FileTree) :
    StateM FileTree (Except StorageFault Unit) := fun t =>
  match change t with
  | .ok t' => (.ok (), t')
  | .error fault => (.error fault, t)

instance : Storage (StateM FileTree) where
  isFolder path := do return ((← get).find path).toOption.any FileTree.isFolder
  entries path := do return (← get).list path
  filesBelow path := do return ((← get).find path).map (files path)
  read path := do return (← get).read path
  write path contents := update fun t => t.write path contents
  makeFolder path := update fun t => t.makeFolder path

/-- In memory no time passes. -/
instance : Clock (StateM FileTree) where
  now := pure 0

end FileTree

end LayoutCompiler
