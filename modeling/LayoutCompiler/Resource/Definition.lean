import LayoutCompiler.Resource.Raw
import LayoutCompiler.Source.Element
import LayoutCompiler.Storage.Path
import LayoutCompiler.Text.Blank
/-!
# Definitions in documents

What the documents of a resource folder define: values by name, selectors, shapes and the other
drawables, and font families.
-/

namespace LayoutCompiler

namespace Element

/-- The children with a tag. -/
def childrenNamed (e : Element) (tag : String) : List Element :=
  e.children.filter fun child => child.tag == tag

/-- The value of an attribute. -/
def attribute? (e : Element) (name : String) : Option String := e.attributes.get? name

/-- The character data of a tree without blanks at its ends. -/
def trimmedContent (e : Element) : String := Text.trim e.textContent

end Element

namespace Style

/-- The parent of a style: the one that it names, where an empty name stands for none, or else the
style whose name is its own up to the last point. -/
def parentOf? (name : String) (declared : Option String) : Option String :=
  match declared with
  | some parent => if parent.isEmpty then none else some parent
  | none => (Text.splitLast '.' name).map Prod.fst

/-- The style with a name that an element defines. -/
def ofElement (name : String) (e : Element) : Style :=
  { parent := parentOf? name (e.attribute? "parent")
    items := .ofList <| (e.childrenNamed "item").filterMap fun item =>
      (item.attribute? "name").map fun key => (key, item.trimmedContent) }

end Style

namespace RawSelector

/-- The state that an item is for: the first that it asks for, in this order. -/
def stateOf (item : Element) : Interaction :=
  let asks (name : String) : Bool := item.attribute? ("android:state_" ++ name) == some "true"
  let denies (name : String) : Bool :=
    (item.attribute? ("android:state_" ++ name)).any (· != "true")
  if asks "pressed" then .highlighted
  else if denies "enabled" then .disabled
  else if asks "selected" || asks "checked" || asks "activated" then .selected
  else if asks "focused" then .focused
  else .normal

/-- The items of a selector whose texts are in an attribute, or else in that for colors. -/
def ofElement (name : String) (e : Element) : RawSelector :=
  (e.childrenNamed "item").filterMap fun item =>
    ((item.attribute? name).or (item.attribute? "android:color")).map fun text =>
      (stateOf item, text)

end RawSelector

namespace RawShape

variable {α : Type} [Scalar α]

/-- The gradient that an element defines, if it names both of its ends. -/
def gradientOf? (e : Element) : Option (Gradient α String) := do
  let start ← e.attribute? "android:startColor"
  let finish ← e.attribute? "android:endColor"
  pure { start, finish, angle := ((e.attribute? "android:angle").bind Scalar.read?).getD 0 }

/-- The shape with one more of its parts. -/
def add (shape : RawShape α) (part : Element) : RawShape α :=
  match part.tag with
  | "solid" => { shape with solid := part.attribute? "android:color" }
  | "stroke" =>
    { shape with
      strokeWidth := part.attribute? "android:width"
      strokeColor := part.attribute? "android:color" }
  | "corners" => { shape with cornerRadius := part.attribute? "android:radius" }
  | "gradient" => { shape with gradient := (gradientOf? part).or shape.gradient }
  | _ => shape

/-- The shape that an element defines. -/
def ofElement (e : Element) : RawShape α :=
  e.children.foldl add { outline := Outline.ofName ((e.attribute? "android:shape").getD "") }

end RawShape

namespace RawDrawable

variable {α : Type} [Scalar α]

/-- The drawable that the root of a document defines, when the document has a file name. -/
def ofElement? (file : String) (e : Element) : Option (RawDrawable α) :=
  match e.tag with
  | "selector" => some (.selector (RawSelector.ofElement "android:drawable" e))
  | "shape" => some (.shape (RawShape.ofElement e))
  | "layer-list" =>
    some (.layers ((e.childrenNamed "item").filterMap (·.attribute? "android:drawable")))
  | "vector" => some (.vector file)
  | "bitmap" | "nine-patch" => (e.attribute? "android:src").map .link
  | _ => none

end RawDrawable

namespace RawFont

/-- The weight of a member that does not state one. -/
def regularWeight : Nat := 400

/-- The greatest weight that can be stated. -/
def maxWeight : Nat := 65535

/-- The weight that a text states: digits, perhaps behind a plus sign. -/
def weight? (text : String) : Option Nat :=
  let digits := (Text.stripLead? "+" text).getD text
  if !digits.isEmpty && digits.toList.all Char.isDigit then
    let weight := Numeral.ofDigits digits.toList
    if weight ≤ maxWeight then some weight else none
  else none

/-- An attribute of a member, in either of two namespaces. -/
def fact? (member : Element) (name : String) : Option String :=
  (member.attribute? ("android:" ++ name)).or (member.attribute? ("app:" ++ name))

/-- The member that an element defines. -/
def memberOf? (e : Element) : Option RawMember :=
  (fact? e "font").map fun font =>
    { font
      weight := ((fact? e "fontWeight").bind weight?).getD regularWeight
      italic := fact? e "fontStyle" == some "italic" }

/-- The font that the root of a document defines. -/
def ofElement? (e : Element) : Option RawFont :=
  if e.tag = "font-family" then some (.family ((e.childrenNamed "font").filterMap memberOf?))
  else none

end RawFont

namespace RawResources

variable {α : Type} [Scalar α]

/-- The kind of resource that an element defines. -/
def kindOf (e : Element) : String :=
  if e.tag = "item" then (e.attribute? "type").getD "" else e.tag

/-- The resources with the one that an element defines under a name. -/
def define (raw : RawResources α) (name : String) (e : Element) : RawResources α :=
  match kindOf e with
  | "color" => { raw with colors := raw.colors.insert name e.trimmedContent }
  | "dimen" => { raw with dimens := raw.dimens.insert name e.trimmedContent }
  | "string" => { raw with strings := raw.strings.insert name e.textContent }
  | "drawable" => { raw with drawables := raw.drawables.insert name (.link e.trimmedContent) }
  | "style" => { raw with styles := raw.styles.insert name (Style.ofElement name e) }
  | _ => raw

/-- The resources with those that a document of values defines. -/
def addValues (raw : RawResources α) (document : Element) : RawResources α :=
  document.children.foldl (fun raw e =>
    match e.attribute? "name" with
    | some name => raw.define name e
    | none => raw) raw

/-- The resources with the selector of colors that a document defines under a name. -/
def addColors (raw : RawResources α) (name : String) (document : Element) : RawResources α :=
  if document.tag = "selector" then
    { raw with
      colorStates := raw.colorStates.insert name
        (RawSelector.ofElement "android:color" document) }
  else raw

/-- The resources with a drawable under a name, if there is one. -/
def addDrawable (raw : RawResources α) (name : String) (d : Option (RawDrawable α)) :
    RawResources α :=
  match d with
  | some d => { raw with drawables := raw.drawables.insert name d }
  | none => raw

/-- The resources with a font under a name, if there is one. -/
def addFont (raw : RawResources α) (name : String) (f : Option RawFont) : RawResources α :=
  match f with
  | some f => { raw with fonts := raw.fonts.insert name f }
  | none => raw

end RawResources

end LayoutCompiler
