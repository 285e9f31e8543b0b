import LayoutCompiler.Resource.Table
import LayoutCompiler.Source.Element
import LayoutCompiler.Template
/-!
# Rendering

What the holes of templates stand for. A path is walked segment by segment through values,
elements and texts; overrides for whole paths win over any walk.
-/

namespace LayoutCompiler

/-- Where the walk of a path can be. -/
inductive Stop (α : Type) where
  | value (v : Value α)
  | element (s : Scope)
  | text (s : String)

/-- Where the walk of a path begins. -/
inductive Origin (α : Type) where
  /-- At an element: the first segment is a question about it. -/
  | element (s : Scope)
  /-- At the value of an attribute of an element, with some more texts by name. -/
  | value (v : Value α) (s : Scope) (extras : SortedMap String)

/-- What the holes of a template are filled from. -/
structure Rendering (α : Type) where
  resources : ResourceTable α
  overrides : SortedMap String
  origin : Origin α

variable {α : Type} [Scalar α]

/-- The length that an attribute of an element states, if it states one. -/
def explicitSize? (resources : ResourceTable α) (f : Frame) (name : String) : Option α :=
  match (f.attributes.get? name).map resources.dimension? with
  | some (.ok (some d)) => some d.magnitude
  | _ => none

/-- The smaller of the lengths that an element states for its width and its height. -/
def smallerSize? (resources : ResourceTable α) (f : Frame) : Option α :=
  match explicitSize? resources f "android:layout_width",
      explicitSize? resources f "android:layout_height" with
  | some w, some h => some (Scalar.min w h)
  | some w, none => some w
  | none, h => h

/-- Half of the smaller length of the nearest element around that states one. -/
def halfSize? (resources : ResourceTable α) (s : Scope) : Option α :=
  (s.frames.findSome? (smallerSize? resources)).map Scalar.half

/-- The text of the end of a walk. -/
def Stop.display : Stop α → String
  | .value v => v.display
  | .text s => s
  | .element s => s.here.element.id?.getD ""

namespace Rendering

/-- The stop of an answer. -/
def ofField : Field α → Stop α
  | .value v => .value v
  | .text s => .text s

/-- An attribute of an element by name, or else the platform's attribute of that name. -/
def namedAttribute? (s : Scope) (name : String) : Option String :=
  (s.here.attributes.get? name).or (s.here.attributes.get? (Attributes.platform name))

/-- One step of a walk. -/
def step? (r : Rendering α) : Stop α → String → Option (Stop α)
  | .value v, segment => (v.get? segment).map ofField
  | .text _, _ => none
  | .element s, segment =>
    match segment with
    | "parent" => s.parent?.map .element
    | "halfSize" => (halfSize? r.resources s).map fun x => .value (.number x)
    | "id" => s.here.element.id?.map .text
    | "tag" => some (.text s.here.element.tag)
    | name =>
      (namedAttribute? s name).bind fun raw =>
        match r.resources.read raw with
        | .ok v => some (.value v)
        | .error _ => none

/-- The first step of a walk. -/
def enter? (r : Rendering α) (segment : String) : Option (Stop α) :=
  match r.origin with
  | .element s => r.step? (.element s) segment
  | .value v s extras =>
    match segment with
    -- These names win over what the value itself would answer.
    | "element" => some (.element s)
    | "parent" => s.parent?.map .element
    | "self" => some (.value v)
    | _ =>
      match extras.get? segment with
      | some text => some (.text text)
      | none => (v.get? segment).map ofField

/-- Where the segments of a path lead. -/
def walk? (r : Rendering α) : List String → Option (Stop α)
  | [] => none
  | first :: rest => rest.foldlM r.step? =<< r.enter? first

/-- The text that a path leads to. -/
def resolve? (r : Rendering α) (path : String) : Option String :=
  (r.overrides.get? path).or ((r.walk? (Template.segments path)).map Stop.display)

/-- The text of a template. -/
def render (r : Rendering α) (t : Template) : String := t.write r.resolve?

end Rendering

end LayoutCompiler
