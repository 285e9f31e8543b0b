import LayoutCompiler.Command.Report
/-!
# The program

Storage on disk, and the program that reads its arguments, does what they ask for and prints the
report.
-/

namespace LayoutCompiler.Disk

/-- The fault that an error stands for. -/
def fault : IO.Error → StorageFault
  | .noFileOrDirectory .. => .missing
  | .inappropriateType .. => .notFolder
  | .alreadyExists .. => .taken
  | e => .other (toString e)

/-- An action whose errors are faults. -/
def guarded {β : Type} (action : IO β) : BaseIO (Except StorageFault β) := do
  match ← action.toBaseIO with
  | .ok v => pure (.ok v)
  | .error e => pure (.error (fault e))

/-- The names in a folder, increasing, each with whether it is that of a folder. -/
def entries (path : String) : IO (List (String × Bool)) := do
  let found ← ((← IO.currentDir) / path).readDir
  let named ← found.toList.mapM fun entry => do
    pure (entry.fileName, ← entry.path.isDir)
  pure (named.mergeSort fun a b => a.1 ≤ b.1)

/-- The paths of all files below a folder. -/
partial def filesBelow (path : String) : IO (List String) := do
  let below ← (← entries path).mapM fun (name, isFolder) => do
    let inner := Path.join path name
    if isFolder then filesBelow inner else pure [inner]
  pure below.flatten

instance : Storage BaseIO where
  isFolder path := do
    match ← (do ((← IO.currentDir) / path).isDir : IO Bool).toBaseIO with
    | .ok isDir => pure (!path.isEmpty && isDir)
    | .error _ => pure false
  entries path := guarded (entries path)
  filesBelow path := guarded (filesBelow path)
  read path := guarded (IO.FS.readFile path)
  write path contents := guarded (IO.FS.writeFile path contents)
  makeFolder path := guarded (if path.isEmpty then pure () else IO.FS.createDirAll path)

instance : Clock BaseIO where
  now := IO.monoMsNow

end LayoutCompiler.Disk

namespace LayoutCompiler.Command

/-- Prints a report, and hands back the exit code. -/
def printReport (r : Report) : IO UInt32 := do
  for line in r.lines do IO.println line
  match r.failure with
  | none => pure 0
  | some e =>
    IO.eprintln ("❌ " ++ e.message)
    pure 1

/-- Does what the arguments ask for, and hands back the exit code. -/
def execute (arguments : List String) : IO UInt32 := do
  match Invocation.read arguments with
  | .ok invocation => printReport (← (run Float invocation : BaseIO Report))
  | .error (.query q) => printReport (.ofQuery q)
  | .error .invalid =>
    IO.eprintln Report.usage
    pure 2

end LayoutCompiler.Command

/-- Does what the arguments ask for. -/
def main (arguments : List String) : IO UInt32 := LayoutCompiler.Command.execute arguments
