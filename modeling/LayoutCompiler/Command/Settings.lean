import LayoutCompiler.Command.Invocation
import LayoutCompiler.Data.Json
import LayoutCompiler.Data.Record
import LayoutCompiler.Data.Toml
import LayoutCompiler.Options
import LayoutCompiler.Storage.Basic
/-!
# Settings

Choices that are kept in a file. What arguments choose wins over settings, and settings win over
what is chosen when nobody says.
-/

namespace LayoutCompiler.Command

/-- What a file chooses. -/
structure Settings where
  target : Option Target := none
  baseKind : Option String := none
  overrides : Option (SortedMap String) := none
  theme : Option String := none
  rulePaths : Option (List String) := none
  failFast : Option Bool := none
  output : Option String := none

namespace Settings

/-! ## Reading -/

/-- The names of the fields, in order. -/
def names : List String :=
  ["target", "base-kind", "overrides", "theme", "rule-paths", "fail-fast", "output-directory"]

/-- Settings as data. A list has to state all fields. -/
def ofDatum (format : DataFormat) (d : Datum) : Decoding Settings := do
  -- Fields without defaults can be left out of a table, but not of a list.
  match d with
  | .list items => if items.length < names.length then throw "a field is missing"
  | _ => pure ()
  let fs ← d.asFields format false names
  pure
    { target := ← fs.optional "target" (Datum.asChoice format Target.names)
      baseKind := ← fs.optional "base-kind" Datum.asText
      overrides := ← fs.optional "overrides" (Datum.asMap Datum.asText)
      theme := ← fs.optional "theme" Datum.asText
      rulePaths := ← fs.optional "rule-paths" (Datum.asList Datum.asText)
      failFast := ← fs.optional "fail-fast" Datum.asBool
      output := ← fs.optional "output-directory" Datum.asText }

/-- The settings that a text in a format states. Values of fields that settings do not have may be
any. -/
def parse (format : DataFormat) (text : String) : Decoding Settings :=
  let data := match format with
    | .toml => Toml.read? text
    | .json => Json.readOnly? names text
  match data with
  | none => .error s!"the text is not well-formed {format.name}"
  | some d => ofDatum format d

/-- The format of settings in a file, by the end of its name. -/
def formatOf? (path : String) : Option DataFormat :=
  if Text.ends ".json" path then some .json
  else if Text.ends ".toml" path then some .toml
  else none

/-- What settings that cannot be read are refused with. -/
def refusal (format : DataFormat) (detail : String) : Failure :=
  match format with
  | .json => .format (.jsonSettings detail)
  | .toml => .format (.tomlSettings detail)

/-- The settings of a file with a text. -/
def ofText (path text : String) : Outcome Settings :=
  match formatOf? path with
  | none => .error (.format .settingsExtension)
  | some format => (parse format text).mapError (refusal format)

/-- The settings in the file at a path. -/
def load {m : Type → Type} [Monad m] [Storage m] (path : String) : Session m Settings := do
  match ← Session.perform (Storage.read path) with
  | .ok text => Session.ofOutcome (ofText path text)
  | .error fault => throw (.notFound s!"Config file {path}: {fault.message}")

/-! ## Choosing -/

/-- The key and the text of a definition. -/
def definition (text : String) : Outcome (String × String) :=
  match Text.splitOnce '=' text with
  | some (key, value) => if key.isEmpty then .error refused else .ok (key, value)
  | none => .error refused
where
  /-- What a text is refused with that is no definition. -/
  refused : Failure := .format (.definition text)

/-- The options that arguments and settings choose. -/
def options (s : Settings) (c : Choices) : Outcome Options := do
  let definitions ← c.definitions.mapM definition
  pure
    { target := (c.target.or s.target).getD .ios
      baseKind := s.baseKind.getD Options.defaultBaseKind
      overrides := (SortedMap.ofList definitions).layered (s.overrides.getD SortedMap.empty)
      theme := c.theme.or s.theme
      rulePaths := s.rulePaths.getD [] ++ c.rulePaths
      failFast := c.failFast || s.failFast.getD false }

end Settings

end LayoutCompiler.Command
