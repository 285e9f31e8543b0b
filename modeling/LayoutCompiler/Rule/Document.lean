import LayoutCompiler.Data.Json
import LayoutCompiler.Data.Record
import LayoutCompiler.Data.Toml
import LayoutCompiler.Rule.Basic
import LayoutCompiler.Tree.Path
/-!
# Rule documents

Rules as data: reading them from documents, writing them as data again, and the checks that a
document has to pass before its rules are used.
-/

namespace LayoutCompiler

namespace Datum

mutual

/-- How deeply data is nested. -/
def height : Datum → Nat
  | list items => 1 + heightOfItems items
  | table entries => 1 + heightOfEntries entries
  | _ => 1

/-- The greatest height of the items. -/
def heightOfItems : List Datum → Nat
  | [] => 0
  | d :: ds => Nat.max d.height (heightOfItems ds)

/-- The greatest height of the values of entries. -/
def heightOfEntries : List (String × Datum) → Nat
  | [] => 0
  | (_, d) :: es => Nat.max d.height (heightOfEntries es)

end

/-- A template. -/
def asTemplate (d : Datum) : Decoding Template := d.asText.map Template.parse

/-- A template as data. -/
def ofTemplate (t : Template) : Datum := string t.display

end Datum

/-! ## Blueprints -/

namespace Blueprint

/-- A blueprint that is nested at most so deeply. -/
def decode (format : DataFormat) : Nat → Datum → Decoding Blueprint
  | 0, _ => .error "a template is nested too deeply"
  | levels + 1, d => do
    let fs ← d.asFields format true ["name", "attributes", "style", "text", "children", "holder"]
    pure
      { name := ← fs.required "name" Datum.asText
        attributes := ← fs.withDefault "attributes" SortedMap.empty (Datum.asMap Datum.asTemplate)
        style := ← fs.withDefault "style" SortedMap.empty (Datum.asMap Datum.asTemplate)
        text := ← fs.optional "text" Datum.asTemplate
        children := ← fs.withDefault "children" [] (Datum.asList (decode format levels))
        holder := ← fs.optional "holder" Datum.asText }

/-- A blueprint. -/
def ofDatum (format : DataFormat) (d : Datum) : Decoding Blueprint := decode format d.height d

/-- Templates by name as data. -/
def templates (m : SortedMap Template) : Datum := .table (m.mapValues Datum.ofTemplate).entries

mutual

/-- A blueprint as data. -/
def toDatum : Blueprint → Datum
  | ⟨name, attributes, style, text, children, holder⟩ =>
    .record
      [("name", .string name), ("attributes", templates attributes), ("style", templates style),
       ("text", .optional (text.map Template.display)), ("children", .list (toData children)),
       ("holder", .optional holder)]

/-- Blueprints as data. -/
def toData : List Blueprint → List Datum
  | [] => []
  | b :: bs => b.toDatum :: toData bs

end

end Blueprint

/-! ## Rules -/

namespace ElementRule

/-- An element rule, from nowhere. -/
def ofDatum (format : DataFormat) (d : Datum) : Decoding ElementRule := do
  let fs ← d.asFields format true
    ["id", "attributes", "parent", "template", "container", "auto-wrap-for", "outlet-type"]
  pure
    { id := ← fs.required "id" Datum.asText
      attributes := ← fs.withDefault "attributes" SortedMap.empty (Datum.asMap Datum.asText)
      parent := ← fs.optional "parent" Datum.asText
      template := ← fs.optional "template" (Blueprint.ofDatum format)
      container := ← fs.optional "container" (Datum.asChoice format Container.names)
      autoWrapFor := ← fs.withDefault "auto-wrap-for" [] (Datum.asList Datum.asText)
      outletType := ← fs.optional "outlet-type" Datum.asText }

/-- An element rule as data, without where it comes from. -/
def toDatum (r : ElementRule) : Datum :=
  .record
    [("id", .string r.id), ("attributes", .table (r.attributes.mapValues .string).entries),
     ("parent", .optional r.parent),
     ("template", (r.template.map Blueprint.toDatum).getD .null),
     ("container", .optional (r.container.map Container.name)),
     ("auto-wrap-for", .list (r.autoWrapFor.map .string)),
     ("outlet-type", .optional r.outletType)]

end ElementRule

namespace Emission

/-- An emission. -/
def ofDatum (format : DataFormat) (d : Datum) : Decoding Emission := do
  let fs ← d.asFields format true ["path", "kind", "template", "runtime-type"]
  pure
    { path := ← fs.withDefault "path" ⟨[]⟩ Datum.asTemplate
      kind := ← fs.withDefault "kind" .attribute (Datum.asChoice format EmissionKind.names)
      template := ← fs.required "template" Datum.asTemplate
      runtimeType := ← fs.optional "runtime-type" Datum.asText }

/-- An emission as data. -/
def toDatum (e : Emission) : Datum :=
  .record
    [("path", .ofTemplate e.path), ("kind", .string e.kind.name),
     ("template", .ofTemplate e.template), ("runtime-type", .optional e.runtimeType)]

end Emission

namespace AttributeRule

/-- An attribute rule, from nowhere. -/
def ofDatum (format : DataFormat) (d : Datum) : Decoding AttributeRule := do
  let fs ← d.asFields format true ["id", "element", "type", "equals", "emit"]
  pure
    { id := ← fs.required "id" Datum.asText
      element := ← fs.required "element" Datum.asText
      kind := ← fs.withDefault "type" .value
        (Datum.asChoice format (ValueKind.all.map fun k => (k.name, k)))
      equals := ← fs.optional "equals" Datum.asText
      emit := ← fs.withDefault "emit" [] (Datum.asList (Emission.ofDatum format)) }

/-- An attribute rule as data, without where it comes from. -/
def toDatum (r : AttributeRule) : Datum :=
  .record
    [("id", .string r.id), ("element", .string r.element), ("type", .string r.kind.name),
     ("equals", .optional r.equals), ("emit", .list (r.emit.map Emission.toDatum))]

end AttributeRule

/-! ## Documents -/

namespace RuleDocument

/-- A document. -/
def ofDatum (format : DataFormat) (d : Datum) : Decoding RuleDocument := do
  let fs ← d.asFields format true ["element", "attribute"]
  pure
    { elements := ← fs.withDefault "element" [] (Datum.asList (ElementRule.ofDatum format))
      attributes := ← fs.withDefault "attribute" [] (Datum.asList (AttributeRule.ofDatum format)) }

/-- The data of a text. -/
def parse (format : DataFormat) (text : String) : Option Datum :=
  match format with
  | .toml => Toml.read? text
  | .json => Json.read? text

/-- The document that a text stands for. -/
def decode (format : DataFormat) (origin text : String) : Outcome RuleDocument :=
  match parse format text with
  | none => .error (.rule origin (.document s!"the text is not well-formed {format.name}"))
  | some d =>
    match ofDatum format d with
    | .error detail => .error (.rule origin (.document detail))
    | .ok document => .ok document

/-! ## Checks -/

/-- What an element rule is refused for. -/
def elementFault? (r : ElementRule) : Option RuleFault :=
  if r.id.isEmpty then some .elementWithoutId
  else match r.template with
    | some b => if b.isNameless then some (.templateWithoutName r.id) else none
    | none => none

/-- Whether the steps of an emission's path can be read. A path with holes is not known yet. -/
def pathIsReadable (e : Emission) : Bool :=
  !e.path.isLiteral ||
    let path := e.path.write fun _ => none
    match e.kind with
    | .text => (AttributePath.readNode path).isOk
    | _ => (AttributePath.read path).isOk

/-- What an attribute rule is refused for. -/
def attributeFault? (r : AttributeRule) : Option RuleFault :=
  if r.id.isEmpty || r.element.isEmpty then some .attributeIncomplete
  else match r.emit.find? fun e => !pathIsReadable e with
    | some e => some (.attributePath r.id (e.path.write fun _ => none))
    | none => none

/-- What a document is refused for: element rules are looked at first. -/
def fault? (document : RuleDocument) : Option RuleFault :=
  (document.elements.findSome? elementFault?).or (document.attributes.findSome? attributeFault?)

/-- The document that a text stands for, when it passes the checks. -/
def read (format : DataFormat) (origin text : String) : Outcome RuleDocument := do
  let document ← decode format origin text
  match document.fault? with
  | some fault => throw (.rule origin fault)
  | none => pure document

/-- The document with all rules coming from an origin. -/
def withOrigin (document : RuleDocument) (origin : String) : RuleDocument :=
  { elements := document.elements.map fun r => { r with origin }
    attributes := document.attributes.map fun r => { r with origin } }

/-- How many rules a document has. -/
def size (document : RuleDocument) : Nat := document.elements.length + document.attributes.length

end RuleDocument

end LayoutCompiler
