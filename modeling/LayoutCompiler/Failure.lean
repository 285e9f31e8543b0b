import LayoutCompiler.Resource.Key
import LayoutCompiler.Text.Split
/-!
# Failures

Everything that can go wrong, as causes. The wording is in one place: `Failure.message`.

A failure inside a layout is reported at the innermost element that was being compiled:
`Failure.within` adds a place only where there is none yet (`within_within`).
-/

namespace LayoutCompiler

/-- Why a reference stands for nothing. -/
inductive ReferenceFault where
  /-- There is no resource of this kind with the name. -/
  | missing (kind : ResourceKind)
  /-- The keys under resolution, the one that was met again at the end. -/
  | circular (path : List String)
  | colorLiteral
  | systemColor
  | notColor
  | notDimension
  /-- A selector without items. -/
  | emptySelector
  /-- A font family with another family as a member. -/
  | nestedFamily
  | themeUndefined (theme : String)
  | themeUnset (theme key : String)
  /-- More theme attributes in a row than are followed. -/
  | themeLoop
deriving Repr, DecidableEq

/-- The wording of a reference fault. -/
def ReferenceFault.message : ReferenceFault → String
  | missing kind => s!"no such {kind.word}"
  | circular path => "circular reference: " ++ Text.join " -> " (path.map ("@" ++ ·))
  | colorLiteral => "invalid color literal"
  | systemColor => "unknown system color"
  | notColor => "not a color"
  | notDimension => "not a dimension"
  | emptySelector => "selector has no items"
  | nestedFamily => "font families cannot nest"
  | themeUndefined theme => s!"theme '{theme}' is not defined"
  | themeUnset theme key => s!"theme '{theme}' does not set '{key}'"
  | themeLoop => "theme attributes refer to each other in a loop"

/-- Why a document is no element tree. -/
inductive MarkupFault where
  /-- The text is not well formed. -/
  | illFormed (detail : String)
  | unclosed
  | noRoot
deriving Repr, DecidableEq

/-- The wording of a markup fault. -/
def MarkupFault.message : MarkupFault → String
  | .illFormed detail => detail
  | .unclosed => "unexpected end of document"
  | .noRoot => "document has no root element"

/-- Why rules cannot be used. -/
inductive RuleFault where
  /-- The document does not have the form of a rule document. -/
  | document (detail : String)
  | elementWithoutId
  | templateWithoutName (id : String)
  | attributeIncomplete
  | malformedPath (path : String)
  /-- The path of an emission of the attribute rule is malformed. -/
  | attributePath (id path : String)
  | noTemplate (id : String)
deriving Repr, DecidableEq

/-- What reports a malformed path, whichever rule it comes from. -/
def RuleFault.pathOrigin : String := "emission path"

/-- The wording of a rule fault. -/
def RuleFault.message : RuleFault → String
  | document detail => detail
  | elementWithoutId => "element rule without an id"
  | templateWithoutName id => s!"element rule '{id}' has a template without a name"
  | attributeIncomplete => "attribute rule needs both an id and an element"
  | malformedPath path => s!"malformed path '{path}'"
  | attributePath id path =>
    s!"attribute rule '{id}': Rule error in {pathOrigin}: malformed path '{path}'"
  | noTemplate id => s!"element rule '{id}' has no template"

/-- Why an input is refused before it is read. -/
inductive FormatFault where
  | ruleDocument (path : String)
  | jsonSettings (detail : String)
  | tomlSettings (detail : String)
  | settingsExtension
  /-- A fixed value that is not written as a key, an equals sign and a value. -/
  | definition (text : String)
  /-- Some of the layout files that were checked cannot be compiled. -/
  | failedFiles (failed total : Nat)
deriving Repr, DecidableEq

/-- The wording of a format fault. -/
def FormatFault.message : FormatFault → String
  | ruleDocument path => s!"{path} is neither a .toml nor a .json rule document"
  | jsonSettings detail => s!"Invalid JSON config: {detail}"
  | tomlSettings detail => s!"Invalid TOML config: {detail}"
  | settingsExtension => "Config file must be .json or .toml format"
  | definition text => s!"Invalid definition: {text}. Use KEY=VALUE format."
  | failedFiles failed total => s!"{failed} of {total} layout files failed"

/-- What can go wrong. -/
inductive Failure where
  /-- Reading or writing failed. -/
  | io (detail : String)
  | markup (file : String) (fault : MarkupFault)
  | reference (text : String) (fault : ReferenceFault)
  /-- The styles on the path, and the one already on it that comes next. -/
  | styleCycle (path : List String) (back : String)
  | noElementRule (file tag : String)
  | rule (origin : String) (fault : RuleFault)
  /-- A constraint between nodes that no tree joins. -/
  | disjoint (file constraint : String)
  /-- A failure at an element, and perhaps one of its attributes. -/
  | context (file tag : String) (subject : Option String) (source : Failure)
  | generation (detail : String)
  | notFound (path : String)
  | format (fault : FormatFault)
deriving Repr, DecidableEq

namespace Failure

/-- The wording of a failure. -/
def message : Failure → String
  | io detail => s!"IO error: {detail}"
  | markup file fault => s!"Parse error in {file}: {fault.message}"
  | reference text fault => s!"Unresolved reference '{text}': {fault.message}"
  | styleCycle path back =>
    "Style error: Circular style inheritance: " ++ Text.join " -> " path ++ " -> " ++ back
  | noElementRule file tag => s!"No element rule matches <{tag}> in {file}"
  | rule origin fault => s!"Rule error in {origin}: {fault.message}"
  | disjoint file constraint =>
    s!"Layout error in {file}: constraint {constraint} joins nodes of different trees"
  | context file tag subject source =>
    let place := match subject with
      | some name => " " ++ name
      | none => ""
    s!"{file}: <{tag}>{place}: {source.message}"
  | generation detail => s!"Code generation error: {detail}"
  | notFound path => s!"File not found: {path}"
  | format fault => s!"Invalid format: {fault.message}"

/-- The failure placed at an element, unless it has a place already. -/
def within (file tag : String) (subject : Option String) : Failure → Failure
  | context f t a s => context f t a s
  | noElementRule f t => noElementRule f t
  | failure => context file tag subject failure

/-- Whether the failure spoils one layout file and leaves the others as they are. -/
def isFileLocal : Failure → Bool
  | rule .. => false
  | io .. => false
  | _ => true

/-- The innermost place is kept. -/
theorem within_within (file tag file' tag' : String) (subject subject' : Option String)
    (e : Failure) :
    (e.within file tag subject).within file' tag' subject' = e.within file tag subject := by
  cases e <;> rfl

end Failure

/-- The result of something that can fail. -/
abbrev Outcome (β : Type) := Except Failure β

end LayoutCompiler
