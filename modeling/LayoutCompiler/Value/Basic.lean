import LayoutCompiler.Attributes
import LayoutCompiler.Resource.Key
import LayoutCompiler.Text.Case
import LayoutCompiler.Value.Kind
import LayoutCompiler.Value.Color
import LayoutCompiler.Value.Dimension
import LayoutCompiler.Value.Selector
/-!
# Values

What an attribute can stand for once every reference is followed. Colors and pictures are
drawables; a drawable can have other drawables as its components.

A value answers questions by name (`Value.get?`): the segments of template paths are such
questions.
-/

namespace LayoutCompiler

/-- A font face: one file, or a member of a family. -/
structure Font where
  name : String
  file : Option String
  weight : Nat
  italic : Bool
deriving Repr, DecidableEq

/-- A font: one face, or the faces of a family. -/
inductive FontResource where
  | face (f : Font)
  | family (name : String) (members : List Font)
deriving Repr, DecidableEq

/-- The outlines of shape drawables. -/
inductive Outline where
  | rectangle
  | oval
  | line
  | ring
deriving Repr, DecidableEq

namespace Outline

/-- The outline with a name; a rectangle when there is none. -/
def ofName : String → Outline
  | "oval" => oval
  | "line" => line
  | "ring" => ring
  | _ => rectangle

/-- The name of an outline. -/
def name : Outline → String
  | rectangle => "rectangle"
  | oval => "oval"
  | line => "line"
  | ring => "ring"

end Outline

/-- A gradient from one paint to another, with the angle of its direction. -/
structure Gradient (α δ : Type) where
  start : δ
  finish : δ
  angle : α
deriving Repr

/-- A shape: an outline, what fills it and what its line looks like. -/
structure Shape (α δ : Type) where
  outline : Outline
  solid : Option δ
  strokeWidth : Option α
  strokeColor : Option δ
  cornerRadius : Option α
  gradient : Option (Gradient α δ)
deriving Repr

/-- What can be painted: a color or a picture. -/
inductive Drawable (α : Type) where
  | color (c : Color)
  | namedColor (name : String) (c : Color)
  | stateColor (name : String) (states : Selector Color)
  | bitmap (name file : String)
  | vector (name file : String)
  | shape (name : String) (form : Shape α (Drawable α))
  | layers (name : String) (layers : List (Drawable α))
  | states (name : String) (states : Selector (Drawable α))
  | link (name : String) (target : Drawable α)

/-- A resolved value. -/
inductive Value (α : Type) where
  | drawable (d : Drawable α)
  | dimension (d : Dimension α)
  | namedDimension (name : String) (d : Dimension α)
  | number (x : α)
  | text (s : String)
  | namedText (name s : String)
  | font (f : FontResource)
  /-- A style with the entries of its whole chain. -/
  | style (name : String) (attributes : Attributes)
  | layout (name : String)

/-- The answer to one question about a value. -/
inductive Field (α : Type) where
  | value (v : Value α)
  | text (s : String)

variable {α : Type}

/-! ## Fonts -/

namespace Font

/-- The facts about a font that templates may ask for. -/
def fact? (f : Font) : String → Option String
  | "name" => some f.name
  | "family" => some f.name
  | "file" => some (f.file.getD "")
  | "weight" => some (toString f.weight)
  | "italic" => some (toString f.italic)
  | _ => none

/-- How far a weight is from that of regular text. -/
def distance (f : Font) : Nat := if f.weight ≤ 400 then 400 - f.weight else f.weight - 400

/-- The first of the fonts whose weight is nearest to regular text. -/
def nearest? : List Font → Option Font
  | [] => none
  | f :: fs =>
    match nearest? fs with
    | none => some f
    | some g => if g.distance < f.distance then some g else some f

/-- The face of a family that stands for all: an upright one if there is any. -/
def regular? (members : List Font) : Option Font :=
  (nearest? (members.filter fun f => !f.italic)).or members.head?

end Font

namespace FontResource

/-- The name of a font. -/
def name : FontResource → String
  | face f => f.name
  | family name _ => name

end FontResource

/-! ## Drawables -/

namespace Drawable

/-- The name of a drawable; a plain color goes by its digits. -/
def name : Drawable α → String
  | color c => c.hex
  | namedColor name _ | stateColor name _ | bitmap name _ | vector name _ | shape name _
  | layers name _ | states name _ | link name _ => name

/-- The kind of a drawable. -/
def kind : Drawable α → ValueKind
  | color _ => .colorLiteral
  | namedColor .. => .colorResource
  | stateColor .. => .colorStateResource
  | bitmap .. => .bitmapDrawable
  | vector .. => .vectorDrawable
  | shape .. => .shapeDrawable
  | layers .. => .layerListDrawable
  | states .. => .stateListDrawable
  | link .. => .drawableReference

/-- The color of a drawable that is one, in the normal state. -/
def color? : Drawable α → Option Color
  | color c | namedColor _ c => some c
  | stateColor _ s => some s.normal
  | _ => none

/-- The key under which a named drawable is reported. -/
def resourceKey? : Drawable α → Option String
  | color _ => none
  | namedColor name _ | stateColor name _ => some (ResourceKind.color.key name)
  | bitmap name _ | vector name _ | shape name _ | layers name _ | states name _ | link name _ =>
    some (ResourceKind.drawable.key name)

/-- The drawables that a drawable is made of, in order. -/
def components : Drawable α → List (Drawable α)
  | layers _ ds => ds
  | states _ s => s.declared.map Prod.snd
  | link _ target => [target]
  | shape _ form =>
    form.solid.toList ++ form.strokeColor.toList ++
      (match form.gradient with
        | some g => [g.start, g.finish]
        | none => [])
  | _ => []

/-- A component is smaller than what it is a part of. -/
theorem sizeOf_lt_of_mem_components {d c : Drawable α} (h : c ∈ d.components) :
    sizeOf c < sizeOf d := by
  cases d with
  | layers n ds =>
    have := List.sizeOf_lt_of_mem (show c ∈ ds from h)
    simp only [layers.sizeOf_spec]
    omega
  | states n s =>
    obtain ⟨x, hx, rfl⟩ := List.mem_map.1 (show c ∈ s.declared.map Prod.snd from h)
    have := Selector.sizeOf_lt_of_own? (Selector.own?_of_mem_declared hx)
    simp only [states.sizeOf_spec]
    omega
  | link n target =>
    obtain rfl := List.mem_singleton.1 (show c ∈ [target] from h)
    simp only [link.sizeOf_spec]
    omega
  | shape n form =>
    obtain ⟨outline, solid, width, stroke, radius, gradient⟩ := form
    simp only [components, List.mem_append, Option.mem_toList] at h
    simp only [shape.sizeOf_spec, Shape.mk.sizeOf_spec]
    rcases h with (h | h) | h
    · subst h
      simp only [Option.some.sizeOf_spec]
      omega
    · subst h
      simp only [Option.some.sizeOf_spec]
      omega
    · cases gradient with
      | none => simp at h
      | some g =>
        obtain ⟨start, finish, angle⟩ := g
        simp only [List.mem_cons, List.not_mem_nil, or_false] at h
        simp only [Option.some.sizeOf_spec, Gradient.mk.sizeOf_spec]
        rcases h with rfl | rfl <;> omega
  | _ => simp [components] at h

/-- The keys of a drawable and of everything it is made of. -/
def keys (d : Drawable α) : List String :=
  d.resourceKey?.toList ++ d.components.attach.flatMap fun ⟨c, _⟩ => c.keys
termination_by sizeOf d
decreasing_by exact sizeOf_lt_of_mem_components ‹_›

/-- What is declared for each state: of a drawable that does not depend on the state, itself for
the normal one. -/
def stateValues : Drawable α → List (Interaction × Drawable α)
  | stateColor _ s => s.declared.map fun (state, c) => (state, color c)
  | states _ s => s.declared
  | d => [(.normal, d)]

end Drawable

/-! ## Facts by name -/

/-- What an outlet class is called that binds the views of a layout. -/
def bindingName (layout : String) : String := Text.pascalCase layout ++ "Binding"

section Facts

variable [Scalar α]

/-- The answer of a drawable to a question. -/
def Drawable.get? : Drawable α → String → Option (Field α)
  | color c, key =>
    if key = "value" then some (.value (.drawable (color c))) else (c.fact? key).map .text
  | namedColor name c, key =>
    if key = "name" then some (.text name)
    else if key = "value" then some (.value (.drawable (color c)))
    else (c.fact? key).map .text
  | stateColor name s, key =>
    if key = "name" then some (.text name)
    else if key = "value" then some (.value (.drawable (color s.normal)))
    else match Interaction.ofName? key with
      | some state => some (.value (.drawable (color (s.get state))))
      | none => (s.normal.fact? key).map .text
  | bitmap name file, key | vector name file, key =>
    if key = "name" then some (.text name)
    else if key = "file" then some (.text file)
    else none
  | shape name form, key =>
    match key with
    | "name" => some (.text name)
    | "kind" => some (.text form.outline.name)
    | "solid" => form.solid.map fun d => .value (.drawable d)
    | "strokeColor" => form.strokeColor.map fun d => .value (.drawable d)
    | "strokeWidth" => form.strokeWidth.map fun w => .text (Scalar.text w)
    | "cornerRadius" => form.cornerRadius.map fun r => .text (Scalar.text r)
    | "gradientStart" => form.gradient.map fun g => .value (.drawable g.start)
    | "gradientEnd" => form.gradient.map fun g => .value (.drawable g.finish)
    | "gradientAngle" => form.gradient.map fun g => .text (Scalar.text g.angle)
    | _ => none
  | layers name ds, key =>
    match key with
    | "name" => some (.text name)
    | "count" => some (.text (toString ds.length))
    | "first" => ds.head?.map fun d => .value (.drawable d)
    | "last" => ds.getLast?.map fun d => .value (.drawable d)
    | _ => none
  | states name s, key =>
    if key = "name" then some (.text name)
    else (Interaction.ofName? key).map fun state => .value (.drawable (s.get state))
  | link name target, key =>
    if key = "name" then some (.text name)
    else if key = "value" ∨ key = "target" then some (.value (.drawable target))
    else target.get? key

namespace Value

/-- The kind of a value. -/
def kind : Value α → ValueKind
  | drawable d => d.kind
  | dimension _ => .dimensionLiteral
  | namedDimension .. => .dimensionResource
  | number _ => .number
  | text _ => .stringLiteral
  | namedText .. => .stringResource
  | font (.face _) => .fontLiteral
  | font (.family ..) => .fontSet
  | style .. => .style
  | layout _ => .layout

/-- The text of a value: what a template shows for it. -/
def display : Value α → String
  | drawable d => d.name
  | dimension d | namedDimension _ d => Scalar.text d.magnitude
  | number x => Scalar.text x
  | text s | namedText _ s => s
  | font f => f.name
  | style name _ | layout name => name

/-- The magnitude of a number or a dimension. -/
def number? : Value α → Option α
  | number x => some x
  | dimension d | namedDimension _ d => some d.magnitude
  | _ => none

/-- The color of a value that is one, in the normal state. -/
def color? : Value α → Option Color
  | drawable d => d.color?
  | _ => none

/-- The key under which a value is reported as used. -/
def resourceKey? : Value α → Option String
  | drawable d => d.resourceKey?
  | font f => some (ResourceKind.font.key f.name)
  | _ => none

/-- The values that a value is made of. -/
def components : Value α → List (Value α)
  | drawable d => d.components.map drawable
  | _ => []

/-- The keys of a value and of everything it is made of. -/
def keys : Value α → List String
  | drawable d => d.keys
  | v => v.resourceKey?.toList

/-- What is declared for each state: of a value that does not depend on the state, itself for the
normal one. -/
def stateValues : Value α → List (Interaction × Value α)
  | drawable d => d.stateValues.map fun (state, d) => (state, drawable d)
  | v => [(.normal, v)]

/-- The answer of a value to a question. -/
def get? : Value α → String → Option (Field α)
  | drawable d, key => d.get? key
  | dimension d, key => (d.fact? key).map .text
  | namedDimension name d, key =>
    if key = "name" then some (.text name) else (d.fact? key).map .text
  | number x, key =>
    if key = "number" ∨ key = "value" then some (.text (Scalar.text x)) else none
  | text s, key => if key = "value" then some (.text s) else none
  | namedText name s, key =>
    if key = "name" then some (.text name)
    else if key = "value" then some (.text s)
    else none
  | font (.face f), key => (f.fact? key).map .text
  | font (.family name members), key =>
    match key with
    | "name" => some (.text name)
    | "count" => some (.text (toString members.length))
    | "normal" => (Font.regular? members).map fun f => .value (font (.face f))
    | _ => (Font.regular? members).bind fun f => (f.fact? key).map .text
  | style name attributes, key =>
    if key = "name" then some (.text name) else (attributes.get? key).map .text
  | layout name, key =>
    match key with
    | "name" => some (.text name)
    | "className" => some (.text (bindingName name))
    | _ => none

end Value

/-- The text of an answer. -/
def Field.display : Field α → String
  | value v => v.display
  | text s => s

end Facts

end LayoutCompiler
