import LayoutCompiler.Options
import LayoutCompiler.Rule.Builtin
import LayoutCompiler.Storage.Basic
import LayoutCompiler.Storage.Path
/-!
# The rules of a project

The built-in rules of a platform, and after them those of the documents that a project names.
-/

namespace LayoutCompiler

/-- The format of the document at a path, by the extension. -/
def DataFormat.ofPath? (path : String) : Option DataFormat :=
  match Path.extension? path with
  | some "toml" => some .toml
  | some "json" => some .json
  | _ => none

namespace RuleBook

variable {m : Type → Type} [Monad m] [Storage m]

/-- The book with the rules of the document at a path. -/
def loadFile (book : RuleBook) (path : String) : Session m RuleBook := do
  match DataFormat.ofPath? path with
  | none => throw (.format (.ruleDocument path))
  | some format =>
    let text ← Session.attempt (Storage.read path)
    Session.ofOutcome ((book.load format path text).map Prod.snd)

/-- The book with the rules of all documents below a folder. -/
def loadFolder (book : RuleBook) (path : String) : Session m RuleBook := do
  let files ← Session.attempt (Storage.filesBelow path)
  (files.filter fun file => (DataFormat.ofPath? file).isSome).foldlM loadFile book

/-- The book with the rules at a path, which may be that of a document or of a folder. -/
def loadPath (book : RuleBook) (path : String) : Session m RuleBook := do
  if ← Session.perform (Storage.isFolder path) then book.loadFolder path else book.loadFile path

/-- The rules that are chosen. -/
def ofOptions (options : Options) : Session m RuleBook :=
  options.rulePaths.foldlM loadPath (RuleBook.builtin options.target)

end RuleBook

end LayoutCompiler
