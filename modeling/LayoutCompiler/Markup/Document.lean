import LayoutCompiler.Markup.Event
import LayoutCompiler.Source.Element
/-!
# Documents

From events to an element tree. Of several elements at the top the last one is the root; character
data at the top is ignored.
-/

namespace LayoutCompiler.Markup

/-- The elements that are open, innermost first, and the root, once it is complete. -/
structure Nesting where
  pending : List Element := []
  root : Option Element := none

namespace Nesting

/-- Puts a complete element into the innermost open one, or makes it the root. -/
def attach (n : Nesting) (e : Element) : Nesting :=
  match n.pending with
  | [] => { n with root := some e }
  | outer :: rest => { n with pending := { outer with children := outer.children ++ [e] } :: rest }

/-- Adds character data to the innermost open element. -/
def addText (n : Nesting) (text : String) : Nesting :=
  match n.pending with
  | [] => n
  | outer :: rest => { n with pending := { outer with text := outer.text ++ text } :: rest }

/-- One event. -/
def step (n : Nesting) : Event → Reading Nesting
  | .start tag attributes => .ok { n with pending := { tag, attributes } :: n.pending }
  | .void tag attributes => .ok (n.attach { tag, attributes })
  | .finish tag =>
    match n.pending with
    | [] => .error "an end tag has no start tag"
    | e :: rest =>
      if e.tag = tag then .ok ({ n with pending := rest }.attach e)
      else .error "an end tag does not match its start tag"
  | .text raw =>
    if n.pending.isEmpty then .ok n
    else match decode raw.toList with
      | some cs => .ok (n.addText (String.ofList cs))
      | none => .error "a reference in text is malformed"
  | .verbatim text => .ok (n.addText text)

end Nesting

/-- The tree of a row of events. -/
def ofEvents (events : List Event) : Except MarkupFault Element :=
  match events.foldlM Nesting.step {} with
  | .error detail => .error (.illFormed detail)
  | .ok n =>
    if n.pending.isEmpty then
      match n.root with
      | some root => .ok root
      | none => .error .noRoot
    else .error .unclosed

/-- The tree of a document. -/
def parse (document file : String) : Outcome Element :=
  match events document with
  | .error detail => .error (.markup file (.illFormed detail))
  | .ok events => (ofEvents events).mapError (Failure.markup file)

end LayoutCompiler.Markup
