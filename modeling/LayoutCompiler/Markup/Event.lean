import LayoutCompiler.Attributes
import LayoutCompiler.Failure
import LayoutCompiler.Markup.Entity
import LayoutCompiler.Text.Blank
/-!
# Events

A document as a row of events: tags and character data in the order in which they stand. Comments,
processing instructions, declarations and the document type leave no event. Blanks at the ends of
a stretch of text are dropped before its references are decoded.

The reading is lenient: names are not checked, and an end tag or an instruction that is cut off by
the end of the document counts as complete.
-/

namespace LayoutCompiler.Markup

/-- What stands in a document. -/
inductive Event where
  | start (tag : String) (attributes : Attributes)
  | void (tag : String) (attributes : Attributes)
  | finish (tag : String)
  /-- Text with references that are not decoded yet. -/
  | text (raw : String)
  /-- Text that is taken as it stands. -/
  | verbatim (text : String)
deriving Repr, DecidableEq

/-- The reason why a document is not well formed. -/
abbrev Reading (β : Type) := Except String β

/-! ## Attributes -/

/-- An attribute as written, and what follows it. -/
structure WrittenAttribute where
  name : String
  value : List Char
  rest : List Char

/-- The first attribute in the rest of a tag; nothing when only blanks are left. -/
def nextAttribute (cs : List Char) : Reading (Option WrittenAttribute) :=
  match cs.dropWhile Text.isMarkupBlank with
  | [] => .ok none
  | c :: cs =>
    let ends (d : Char) : Bool := d == '=' || Text.isMarkupBlank d
    let name := c :: cs.takeWhile fun d => !ends d
    match (cs.dropWhile fun d => !ends d).dropWhile Text.isMarkupBlank with
    | '=' :: value =>
      match value.dropWhile Text.isMarkupBlank with
      | [] => .error "an attribute has no value"
      | quote :: value =>
        if quote = '"' ∨ quote = '\'' then
          match value.dropWhile (· != quote) with
          | [] => .error "the value of an attribute is not closed"
          | _ :: rest =>
            .ok (some ⟨String.ofList name, value.takeWhile (· != quote), rest⟩)
        else .error "the value of an attribute is not quoted"
    | _ => .error "an attribute has no equals sign"

/-- Whether an attribute declares a namespace. -/
def declaresNamespace (name : String) : Bool := name = "xmlns" || Text.leads "xmlns:" name

/-- The attributes in the rest of a tag, over those read before. `seen` are all names so far; there
are at most as many attributes as characters. -/
def readAttributes : Nat → List String → Attributes → List Char → Reading Attributes
  | 0, _, read, _ => .ok read
  | steps + 1, seen, read, cs =>
    match nextAttribute cs with
    | .error e => .error e
    | .ok none => .ok read
    | .ok (some a) =>
      if seen.contains a.name then .error "an attribute is repeated"
      -- Declarations of namespaces are dropped with their values undecoded.
      else if declaresNamespace a.name then readAttributes steps (a.name :: seen) read a.rest
      else match decode a.value with
        | none => .error "a reference in an attribute is malformed"
        | some value =>
          readAttributes steps (a.name :: seen) (read.insert a.name (String.ofList value)) a.rest

/-! ## Tags -/

/-- The content of a tag up to the `>` that closes it, and what follows. A `>` between quotes does
not close the tag. -/
def tagContent : Option Char → List Char → List Char → Reading (List Char × List Char)
  | _, _, [] => .error "a tag is not closed"
  | none, begun, c :: cs =>
    if c = '>' then .ok (begun.reverse, cs)
    else if c = '"' ∨ c = '\'' then tagContent (some c) (c :: begun) cs
    else tagContent none (c :: begun) cs
  | some quote, begun, c :: cs =>
    tagContent (if c = quote then none else some quote) (c :: begun) cs

/-- The event of a start tag with this content; one that ends in `/` has no content. -/
def tagEvent (content : List Char) : Reading Event :=
  -- A slash at the very end belongs to the tag, not to its last attribute.
  let isVoid := content.getLast? == some '/'
  let inner := if isVoid then content.dropLast else content
  let tag := String.ofList (inner.takeWhile fun c => !Text.isMarkupBlank c)
  (readAttributes (inner.length + 1) [] SortedMap.empty
      (inner.dropWhile fun c => !Text.isMarkupBlank c)).map fun attributes =>
    if isVoid then .void tag attributes else .start tag attributes

/-- What stands before the first `>` and what stands after it; everything stands before it when
there is none. -/
def beforeClose (cs : List Char) : List Char × List Char :=
  (cs.takeWhile (· != '>'), (cs.dropWhile (· != '>')).drop 1)

/-- The name in an end tag, without blanks behind it. -/
def endName (cs : List Char) : String :=
  let name := (cs.reverse.dropWhile Text.isMarkupBlank).reverse
  String.ofList (if name.isEmpty then cs else name)

/-- What stands before the first `>` that closes a section, and what stands after it. Whether it
closes the section is asked of what stands before it, read backwards. -/
def sectionContent (closes : List Char → Bool) :
    List Char → List Char → Reading (List Char × List Char)
  | _, [] => .error "a section is not closed"
  | begun, c :: cs =>
    if c = '>' ∧ closes begun then .ok (begun.reverse, cs)
    else sectionContent closes (c :: begun) cs

/-- Whether a text begins with a lead in any case of its letters. -/
def leadsAnyCase (lead : String) (cs : List Char) : Bool :=
  lead.toList.map Char.toLower == (cs.take lead.length).map Char.toLower

/-- What follows `<!`: its event, if it leaves one, and what comes after it. -/
def bang (cs : List Char) : Reading (Option Event × List Char) :=
  match cs with
  | '-' :: _ => do
    let (content, rest) ← sectionContent
      (fun begun => 4 ≤ begun.length && begun.take 2 == ['-', '-']) [] cs
    if content.take 2 == ['-', '-'] then pure (none, rest) else throw "a comment is malformed"
  | '[' :: _ => do
    let (content, rest) ← sectionContent (fun begun => begun.take 2 == [']', ']']) [] cs
    if leadsAnyCase "[CDATA[" content then
      pure (some (.verbatim (String.ofList ((content.drop 7).dropLast.dropLast))), rest)
    else throw "a character data section is malformed"
  | c :: _ =>
    if c = 'D' ∨ c = 'd' then do
      let (content, rest) ← sectionContent
        (fun begun => begun.count '<' == begun.count '>') [] cs
      if leadsAnyCase "DOCTYPE" content && !(content.drop 7).all Text.isMarkupBlank then
        pure (none, rest)
      else throw "a document type is malformed"
    else throw "a declaration is unknown"
  | [] => throw "a declaration is cut off"

/-- What follows `<`: its event, if it leaves one, and what comes after it. -/
def markup : List Char → Reading (Option Event × List Char)
  | [] => .ok (none, [])
  | '!' :: cs => bang cs
  | '/' :: cs =>
    let (name, rest) := beforeClose cs
    .ok (some (.finish (endName name)), rest)
  | '?' :: cs =>
    let (content, rest) := beforeClose cs
    if content.length ≥ 2 && content.getLast? == some '?' then .ok (none, rest)
    else .error "an instruction is not closed"
  | cs => do
    let (content, rest) ← tagContent none [] cs
    pure (some (← tagEvent content), rest)

/-! ## Documents -/

/-- The events of a text. Each step takes at least one character. -/
def eventsFrom : Nat → List Char → Reading (List Event)
  | 0, _ => .ok []
  | steps + 1, cs =>
    match cs.dropWhile Text.isMarkupBlank with
    | [] => .ok []
    | '<' :: cs => do
      let (event, rest) ← markup cs
      let events ← eventsFrom steps rest
      pure (event.toList ++ events)
    | cs => do
      let events ← eventsFrom steps (cs.dropWhile (· != '<'))
      pure (.text (String.ofList (Text.trimBy Text.isMarkupBlank (cs.takeWhile (· != '<')))) ::
        events)

/-- The events of a document; a byte order mark in front of it does not count. -/
def events (document : String) : Reading (List Event) :=
  let cs := document.toList
  let cs := if cs.head? == some '\uFEFF' then cs.drop 1 else cs
  eventsFrom (cs.length + 1) cs

end LayoutCompiler.Markup
