import LayoutCompiler.Data.Json
import LayoutCompiler.Output.Bundle
import LayoutCompiler.Output.Css
import LayoutCompiler.Project.Rules
import LayoutCompiler.Project.Statistics
import LayoutCompiler.Resource.Folder
import LayoutCompiler.Resource.Resolve
import LayoutCompiler.Compilation.Elements
/-!
# Projects

Compiling all layouts of a resource folder. The variants of a layout are merged before its files
are written. A layout file that fails by itself is reported and left out, unless the first failure
is to end the project.
-/

namespace LayoutCompiler

/-- The resources that are chosen: a theme among the options wins over that of the resources. -/
def RawResources.resolveWith {α : Type} [Scalar α] (raw : RawResources α) (options : Options) :
    Outcome (ResourceTable α) :=
  ({ raw with theme := options.theme.or raw.theme }).resolve

namespace Project

/-- The file with the style sheet of a project. -/
def styleSheetFile : String := "styles.css"

/-- The file with the names of the resources in use. -/
def usedFile : String := "used-resources.json"

/-- How a layout file is named in reports: by its folder and its own name. -/
def label (path : String) : String :=
  match (Path.names path).reverse with
  | file :: folder :: _ => folder ++ "/" ++ file
  | names => Text.join "/" names

/-- How far a project has come. -/
structure Progress where
  statistics : Statistics := {}
  /-- The resources in use. -/
  used : TextSet := SortedMap.empty

/-- Whether a failure is reported and passed over. -/
def isTolerated (options : Options) (e : Failure) : Bool := e.isFileLocal && !options.failFast

section

variable {m : Type → Type} [Monad m] [Storage m] {α : Type} [Scalar α]

/-- Writes files into a folder, if there is one to write to, and hands back how many were
written. -/
def writeFiles (output : Option String) (files : List OutputFile) : Session m Nat := do
  match output with
  | none => pure 0
  | some folder =>
    for file in files do
      Session.attempt (Storage.write (Path.join folder file.path) file.contents)
    pure files.length

/-- Compiles the layout file at a path. -/
def compileFile (setting : Setting α) (path : String) : Session m (Compilation α) := do
  let text ← Session.attempt (Storage.read path)
  Session.ofOutcome (Compilation.ofText setting (label path) text)

/-- Compiles a variant of a layout, behind those compiled before it. -/
def compileVariant (setting : Setting α) (state : Statistics × List (Compilation α))
    (path : String) : Session m (Statistics × List (Compilation α)) := do
  let (statistics, done) := state
  match ← ExceptT.lift (compileFile setting path).run with
  | .ok t => pure (statistics.addVariant t, done ++ [t])
  | .error e =>
    if isTolerated setting.options e then
      let report := label path ++ ": " ++ e.message
      pure ({ statistics with failures := statistics.failures ++ [report] }, done)
    else throw e

/-- Compiles a layout with its variants, and writes its files. -/
def compileLayout (setting : Setting α) (output : Option String) (progress : Progress)
    (paths : List String) : Session m Progress := do
  let (statistics, variants) ←
    paths.foldlM (compileVariant setting) (progress.statistics, [])
  match variants with
  | [] => pure { progress with statistics }
  | primary :: others =>
    let merged := primary.merge others
    let files ← Session.ofOutcome (merged.files setting.options.target setting.resources)
    let written ← writeFiles output files
    let counted := statistics.addLayout merged
    pure
      { statistics := { counted with files := counted.files + written }
        used := progress.used.union merged.used }

/-- The names of the resources in use as a file. -/
def usedOutput (used : TextSet) : OutputFile :=
  { path := usedFile, contents := Json.write (.list (used.toList.map .string)) }

/-- The files that a project has besides those of its layouts. -/
def sharedFiles (setting : Setting α) (used : TextSet) : List OutputFile :=
  let sheet : OutputFile :=
    { path := styleSheetFile
      contents := Css.write setting.book setting.resources setting.options.overrides }
  match setting.options.target with
  | .ios => [usedOutput used]
  | .web => [sheet, usedOutput used]

variable [Clock m]

/-- Compiles the layouts of a resource folder, and writes the output to a folder if there is one
to write to. -/
def compile (α : Type) [Scalar α] (root : String) (output : Option String) (options : Options) :
    Session m Statistics := do
  let begun ← Session.perform Clock.now
  let book ← RuleBook.ofOptions options
  let folder : ResourceFolder α ← ResourceFolder.read root
  let resources ← Session.ofOutcome (folder.raw.resolveWith options)
  match output with
  | some path => Session.attempt (Storage.makeFolder path)
  | none => pure ()
  let setting : Setting α := { book, resources, options }
  -- Files of earlier layouts stay written when a later layout ends the project.
  let progress ← folder.layouts.values.foldlM (compileLayout setting output) {}
  let written ← writeFiles output (sharedFiles setting progress.used)
  let ended ← Session.perform Clock.now
  pure
    { progress.statistics with
      files := progress.statistics.files + written
      resources := progress.used.size
      milliseconds := ended - begun }

end

end Project

end LayoutCompiler
