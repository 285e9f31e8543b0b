import LayoutCompiler.Failure
/-!
# Storage

The files and folders that a program reads and writes, as operations that a program can be written
against: a tree in memory offers them, and so does a disk.
-/

namespace LayoutCompiler

/-- Why a file or folder cannot be used. -/
inductive StorageFault where
  /-- There is nothing at the path. -/
  | missing
  /-- Something on the path is no folder. -/
  | notFolder
  /-- A folder is where a file is wanted. -/
  | isFolder
  /-- A file is where a folder is wanted. -/
  | taken
  | other (detail : String)
deriving Repr, DecidableEq

/-- The wording of a storage fault. -/
def StorageFault.message : StorageFault → String
  | missing => "No such file or directory (os error 2)"
  | notFolder => "Not a directory (os error 20)"
  | isFolder => "Is a directory (os error 21)"
  | taken => "File exists (os error 17)"
  | other detail => detail

/-- Where files and folders are kept. -/
class Storage (m : Type → Type) where
  /-- Whether there is a folder at a path. -/
  isFolder (path : String) : m Bool
  /-- The names in a folder, increasing, each with whether it is that of a folder. -/
  entries (path : String) : m (Except StorageFault (List (String × Bool)))
  /-- The paths of all files below a folder, in order of the names on them. -/
  filesBelow (path : String) : m (Except StorageFault (List String))
  /-- The text of a file. -/
  read (path : String) : m (Except StorageFault String)
  /-- Writes the text of a file, which need not exist. -/
  write (path contents : String) : m (Except StorageFault Unit)
  /-- Makes sure that there is a folder at a path. -/
  makeFolder (path : String) : m (Except StorageFault Unit)

/-- What tells the time. -/
class Clock (m : Type → Type) where
  /-- Milliseconds since some moment that stays the same. -/
  now : m Nat

/-- A program that uses storage and can fail. -/
abbrev Session (m : Type → Type) (β : Type) := ExceptT Failure m β

namespace Session

variable {m : Type → Type} [Monad m] {β : Type}

/-- An operation whose faults are failures of the program. -/
def attempt (operation : m (Except StorageFault β)) : Session m β := do
  match ← ExceptT.lift operation with
  | .ok v => pure v
  | .error fault => throw (.io fault.message)

/-- An operation that cannot fail. -/
def perform (operation : m β) : Session m β := ExceptT.lift operation

/-- A result that may be a failure. -/
def ofOutcome (result : Outcome β) : Session m β := ExceptT.mk (pure result)

end Session

end LayoutCompiler
