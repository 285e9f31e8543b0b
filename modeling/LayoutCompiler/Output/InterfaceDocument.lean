import LayoutCompiler.Markup.Writer
import LayoutCompiler.Output.Basic
import LayoutCompiler.Resource.Table
/-!
# Interface documents

The tree of a compilation as a document for Interface Builder. Constraints stand in the element of
the node that they belong to, behind its children. The owner of the document is connected to the
nodes with outlets, and the named resources in use are listed at the end.
-/

namespace LayoutCompiler.InterfaceDocument

open Markup (Fragment Piece)

/-- How many blanks a level of the document takes. -/
def width : Nat := 4

/-! ## Constraints -/

/-- The word for a relation; equality is understood. -/
def relationName? : Relation → Option String
  | .equal => none
  | .atLeast => some "greaterThanOrEqual"
  | .atMost => some "lessThanOrEqual"

section

variable {α : Type}

/-- The identifier under which the document refers to a node. -/
def identOf (tree : Tree α) (id : Nat) : String := (tree.node id).ident.getD ""

variable [Scalar α]

/-- The attributes of a constraint in the element of a node. What is understood is left out: the
node itself as the first item, equality, a factor of one, a constant of zero, and that the
constraint must hold. -/
def constraintAttributes (tree : Tree α) (host : Nat) (c : Constraint α) :
    List (String × String) :=
  (if c.first.node = host then [] else [("firstItem", identOf tree c.first.node)]) ++
    [("firstAttribute", c.first.facet.name)] ++
    ((relationName? c.relation).map fun name => ("relation", name)).toList ++
    (match c.second with
      | none => []
      | some second =>
        [("secondItem", identOf tree second.node), ("secondAttribute", second.facet.name)]) ++
    (if c.multiplier == 1 then [] else [("multiplier", Scalar.text c.multiplier)]) ++
    (if c.constant == 0 then [] else [("constant", Scalar.text c.constant)]) ++
    (if c.priority = Priority.required then [] else [("priority", toString c.priority)]) ++
    [("id", c.ident)]

/-- The constraints of a node, if it has any. -/
def constraintsOf (tree : Tree α) (hosted : List (Nat × Constraint α)) (id : Nat) :
    List Fragment :=
  match hosted.filter fun entry => entry.1 == id with
  | [] => []
  | own =>
    [.element "constraints" [] <|
      own.map fun (_, c) => .void "constraint" (constraintAttributes tree id c)]

/-! ## Nodes -/

/-- The attributes of a node, its identifier first. -/
def attributes (n : Node) : List (String × String) :=
  (n.ident.map fun ident => ("id", ident)).toList ++ n.attributes

/-- An element, or an element without content when there is none. -/
def compact (name : String) (attributes : List (String × String)) (content : List Fragment) :
    Fragment :=
  if content.isEmpty then .void name attributes else .element name attributes content

/-- The markup of a node and what is below it, to a depth. -/
def fragments (tree : Tree α) (hosted : List (Nat × Constraint α)) : Nat → Nat → List Fragment
  | 0, _ => []
  | levels + 1, id =>
    let n := tree.node id
    [compact n.name (attributes n)
      ((n.text.map Fragment.text).toList ++ n.children.flatMap (fragments tree hosted levels) ++
        constraintsOf tree hosted id)]

/-- The markup of the whole tree. -/
def treeFragments (tree : Tree α) (hosted : List (Nat × Constraint α)) : List Fragment :=
  match tree.root with
  | none => []
  | some root => fragments tree hosted tree.size root

end

/-! ## The owner -/

section

variable {α : Type}

/-- The outlets of a compilation whose nodes have identifiers, with these. -/
def connections (t : Compilation α) : List (String × String) :=
  t.outlets.filterMap fun o =>
    (o.node.bind fun id => (t.tree.node id).ident).map fun ident => (o.name, ident)

/-- The connections of the owner of a layout, numbered from zero. -/
def connectionFragments (layout : String) (connections : List (String × String)) :
    List Fragment :=
  connections.zipIdx.map fun ((name, ident), index) =>
    .void "outlet"
      [("property", name), ("destination", ident),
       ("id", layout ++ "-outlet-" ++ toString index)]

/-- The owner of the document, an instance of the binding class. -/
def owner (t : Compilation α) : Fragment :=
  let attributes :=
    [("placeholderIdentifier", "IBFilesOwner"), ("id", "-1"), ("userLabel", "File's Owner"),
     ("customClass", bindingName t.name)]
  match connections t with
  | [] => .void "placeholder" attributes
  | cs =>
    .element "placeholder" attributes [.element "connections" [] (connectionFragments t.name cs)]

/-- The first responder, which every document has. -/
def firstResponder : Fragment :=
  .void "placeholder"
    [("placeholderIdentifier", "IBFirstResponder"), ("id", "-2"), ("customClass", "UIResponder")]

/-! ## Resources -/

/-- The width and the height that images are declared with. -/
def imageSize : String := "16"

/-- The name of a color in use, with the color in the normal state. -/
def usedColor? (resources : ResourceTable α) (key : String) : Option (String × Color) :=
  match Text.splitOnce '/' key with
  | some ("color", name) =>
    ((resources.colors.get? name).or ((resources.colorStates.get? name).map (·.normal))).map
      fun c => (name, c)
  | _ => none

/-- The name of a picture in use that is an image file. -/
def usedImage? (resources : ResourceTable α) (key : String) : Option String :=
  match Text.splitOnce '/' key with
  | some ("drawable", name) =>
    match resources.drawables.get? name with
    | some (.bitmap ..) | some (.vector ..) => some name
    | _ => none
  | _ => none

/-- The declaration of an image. -/
def imageFragment (name : String) : Fragment :=
  .void "image" [("name", name), ("width", imageSize), ("height", imageSize)]

/-- The declaration of a named color. -/
def colorFragment (name : String) (c : Color) : Fragment :=
  .element "namedColor" [("name", name)]
    [.void "color"
      [("red", Color.share c.red), ("green", Color.share c.green), ("blue", Color.share c.blue),
       ("alpha", Color.share c.alpha), ("colorSpace", "custom"), ("customColorSpace", "sRGB")]]

/-- The declarations of the images and colors in use, if there are any. -/
def resourceFragments (resources : ResourceTable α) (used : TextSet) : List Fragment :=
  let images := used.toList.filterMap (usedImage? resources)
  let colors := used.toList.filterMap (usedColor? resources)
  match images.map imageFragment ++ colors.map fun (name, c) => colorFragment name c with
  | [] => []
  | declarations => [.element "resources" [] declarations]

end

/-! ## Documents -/

/-- What the document says about itself. -/
def documentAttributes : List (String × String) :=
  [("type", "com.apple.InterfaceBuilder3.CocoaTouch.XIB"), ("version", "3.0"),
   ("toolsVersion", "21701"), ("targetRuntime", "iOS.CocoaTouch"),
   ("propertyAccessControl", "none"), ("useAutolayout", "YES"), ("useTraitCollections", "YES"),
   ("colorMatched", "YES")]

/-- What the document needs to be read. -/
def dependencies : Fragment :=
  .element "dependencies" []
    [.void "plugIn"
      [("identifier", "com.apple.InterfaceBuilder.IBCocoaTouchPlugin"), ("version", "21679")]]

variable {α : Type} [Scalar α]

/-- The markup of a compilation whose constraints have their places. -/
def document (t : Compilation α) (resources : ResourceTable α)
    (hosted : List (Nat × Constraint α)) : Fragment :=
  .element "document" documentAttributes <|
    [dependencies,
     .element "objects" [] (owner t :: firstResponder :: treeFragments t.tree hosted)] ++
      resourceFragments resources t.used

/-- The text of a compilation. -/
def write (t : Compilation α) (resources : ResourceTable α) : Outcome String :=
  t.tree.hosted.map fun hosted =>
    Markup.write width (.declaration :: (document t resources hosted).pieces) ++ "\n"

end LayoutCompiler.InterfaceDocument
