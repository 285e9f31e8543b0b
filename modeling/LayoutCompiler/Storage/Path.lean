import LayoutCompiler.Text.Split
/-!
# Paths

Texts that name files and folders: names with slashes between them.
-/

namespace LayoutCompiler.Path

/-- The path of what has a name in a folder. -/
def join (folder name : String) : String :=
  if folder.isEmpty || Text.ends "/" folder then folder ++ name else folder ++ "/" ++ name

/-- The names on a path, without those that stand for the folder itself. -/
def names (path : String) : List String :=
  (Text.split '/' path).filter fun name => name ≠ "" ∧ name ≠ "."

/-- The last name on a path, unless it leads upwards. -/
def lastName? (path : String) : Option String := (names path).getLast?.filter (· ≠ "..")

/-- What stands behind the last point of a name. A point at the very front does not count. -/
def extensionOfName? (name : String) : Option String :=
  (Text.splitLast '.' name).bind fun (before, after) => if before.isEmpty then none else some after

/-- The extension of the last name on a path. -/
def extension? (path : String) : Option String := (lastName? path).bind extensionOfName?

/-- What stands before the first point of a name. -/
def stem (name : String) : String := String.ofList (name.toList.takeWhile (· != '.'))

end LayoutCompiler.Path
