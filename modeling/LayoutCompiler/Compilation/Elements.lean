import LayoutCompiler.Markup.Document
import LayoutCompiler.Compilation.Emission
/-!
# Compiling layouts

From the elements of a layout to a tree. Each element is matched against the element rules and
makes the node of its rule's blueprint; attributes that the node cannot have itself go to a node
put around it. Children are compiled into the node and then laid out by it.
-/

namespace LayoutCompiler

/-- How many elements around wrap their content, on each axis. -/
structure WrapDepth where
  horizontal : Nat := 0
  vertical : Nat := 0
deriving Repr, DecidableEq

namespace WrapDepth

/-- The depth on an axis. -/
def on (d : WrapDepth) : Axis → Nat
  | .horizontal => d.horizontal
  | .vertical => d.vertical

/-- The depth inside an element. -/
def inside {α : Type} (d : WrapDepth) (params : Params α) : WrapDepth :=
  let more (axis : Axis) : Nat := if (params.size axis).isWrapContent then 1 else 0
  ⟨d.horizontal + more .horizontal, d.vertical + more .vertical⟩

end WrapDepth

/-- What is known about an element before anything is made of it. -/
structure Prepared (α : Type) where
  scope : Scope
  chain : List ElementRule
  blueprint : Blueprint
  /-- The attributes that need a node of their own. -/
  forcing : Attributes
  /-- The other attributes. -/
  rest : Attributes
  params : Params α

/-- The nodes of an element: the one that its container places, and the one that its children go
to. They differ when a node was put around the element. -/
structure Placed where
  outer : Nat
  inner : Nat
deriving Repr, DecidableEq

namespace Compile

variable {α : Type}

/-- The blueprint of the first rule of a chain that has one. -/
def blueprintOf? (chain : List ElementRule) : Option Blueprint := chain.findSome? (·.template)

/-- The rules and the blueprint for a tag with some attributes. -/
def rulesFor (setting : Setting α) (file tag : String) (attributes : Attributes) :
    Outcome (List ElementRule × Blueprint) :=
  match setting.book.matchElement? tag attributes with
  | none => .error (.noElementRule file tag)
  | some rule =>
    let chain := setting.book.chain rule attributes
    match blueprintOf? chain with
    | none => .error (.rule rule.origin (.noTemplate rule.id))
    | some blueprint => .ok (chain, blueprint)

/-- The blueprint of wrappers and spacers. -/
def base? (setting : Setting α) : Option Blueprint :=
  (setting.book.matchElement? setting.options.baseKind SortedMap.empty).bind fun rule =>
    blueprintOf? (setting.book.chain rule SortedMap.empty)

/-- The blueprint of wrappers and spacers, or the failure that there is none. -/
def base (setting : Setting α) : Outcome Blueprint :=
  match base? setting with
  | some blueprint => .ok blueprint
  | none => .error (.noElementRule "rules" setting.options.baseKind)

/-- The kind of container that a chain of rules makes. -/
def containerOf (chain : List ElementRule) : Container :=
  (chain.findSome? (·.container)).getD .none

variable [Scalar α]

/-- What is known about an element inside a scope. -/
def prepare (setting : Setting α) (file : String) (e : Element) (around : Option Scope) :
    Outcome (Prepared α) := do
  -- The order of these steps decides which of several faults is reported.
  let merged ← (setting.resources.styles.merge e.attributes).mapError
    (Failure.within file e.tag (some Attributes.styleName))
  let (chain, blueprint) ← rulesFor setting file e.tag merged
  let params ← (Params.read setting.resources merged).mapError (Failure.within file e.tag none)
  let forces (name : String) : Bool := chain.any fun r => r.autoWrapFor.contains name
  pure
    { scope := Scope.enter around { element := e, attributes := merged }
      chain, blueprint, params
      forcing := merged.filter fun name _ => forces name
      rest := merged.filter fun name _ => !forces name }

/-- The text of a template for an element. -/
def elementRender (setting : Setting α) (scope : Scope) (t : Template) : String :=
  ({ resources := setting.resources, overrides := setting.options.overrides
     origin := .element scope } : Rendering α).render t

/-- Makes the nodes of an element without attributes that need a node of their own. -/
def makeOne (setting : Setting α) (file : String) (p : Prepared α) (parent : Option Nat) :
    Compile α Placed := do
  let render := elementRender setting p.scope
  let node ← edit (Tree.instantiate p.blueprint parent render)
  applyAttributes setting file p.chain node p.scope p.scope.here.attributes
  pure ⟨node, node⟩

/-- Makes the nodes of an element with a node around it, pinned together at the padding that
belongs to the outer one. -/
def makeTwo (setting : Setting α) (file : String) (p : Prepared α) (parent : Option Nat) :
    Compile α Placed := do
  let render := elementRender setting p.scope
  let (outerChain, outerBlueprint) ← rulesFor setting file setting.options.baseKind p.forcing
  let outer ← edit (Tree.instantiate outerBlueprint parent render)
  let inner ← edit (Tree.instantiate p.blueprint (some outer) render)
  modify fun s => { s with wrappers := s.wrappers + 1 }
  applyAttributes setting file outerChain outer p.scope p.forcing
  applyAttributes setting file p.chain inner p.scope p.rest
  if setting.options.target.usesConstraints then
    let params ← atElement file p.scope.here.element.tag none
      (Params.read setting.resources p.forcing)
    for axis in Axis.both do
      edit (Layout.pinEdges inner outer axis (params.padding.start axis)
        (params.padding.finish axis))
  pure ⟨outer, inner⟩

/-- Makes the nodes of an element. -/
def make (setting : Setting α) (file : String) (p : Prepared α) (parent : Option Nat) :
    Compile α Placed :=
  if p.forcing.isEmpty then makeOne setting file p parent else makeTwo setting file p parent

/-- Declares the outlet of an element with an id. -/
def declareOutlet (p : Prepared α) (placed : Placed) : Compile α Unit :=
  match p.scope.here.element.id? with
  | none => pure ()
  | some id =>
    let outlet : Outlet :=
      { name := Text.camelCase id
        typeName := (p.chain.findSome? (·.outletType)).getD p.blueprint.name
        node := some placed.inner }
    modify fun s => { s with outlets := s.outlets ++ [outlet] }

/-- Makes the nodes of an element hold on to their content where it wraps it. -/
def holdContent (setting : Setting α) (p : Prepared α) (placed : Placed) (depth : WrapDepth) :
    Compile α Unit := do
  if setting.options.target.usesConstraints then
    for axis in Axis.both do
      if (p.params.size axis).isWrapContent then
        change fun t => Layout.applyWrapPower t placed.outer axis (depth.on axis)
        if placed.inner ≠ placed.outer then
          change fun t => Layout.applyWrapPower t placed.inner axis (depth.on axis)

/-- Makes the nodes of an element inside a scope, under a node, before its children are compiled. -/
def opening (setting : Setting α) (file : String) (e : Element) (around : Option Scope)
    (parent : Option Nat) (depth : WrapDepth) : Compile α (Prepared α × Placed) := do
  modify fun s => { s with elements := s.elements + 1 }
  let p ← prepare setting file e around
  let placed ← make setting file p parent
  declareOutlet p placed
  holdContent setting p placed depth
  pure (p, placed)

/-- Lays out the children of an element, if it is a container and has any. -/
def arrangeChildren (setting : Setting α) (p : Prepared α) (placed : Placed)
    (children : List (Child α)) : Compile α Unit := do
  let kind := containerOf p.chain
  if setting.options.target.usesConstraints ∧ !children.isEmpty ∧ kind ≠ .none then
    let blueprint ← base setting
    let added ← edit (Layout.arrange kind blueprint placed.inner p.params children)
    modify fun s => { s with synthetic := s.synthetic + added }

mutual

/-- Compiles an element inside a scope, under a node. -/
def element (setting : Setting α) (file : String) :
    Element → Option Scope → Option Nat → WrapDepth → Compile α (Child α)
  | ⟨tag, attributes, children, text⟩, around, parent, depth => do
    let (p, placed) ← opening setting file ⟨tag, attributes, children, text⟩ around parent depth
    -- Children go into the inner node; the container around places the outer one.
    let inside ← elements setting file children p.scope placed.inner (depth.inside p.params)
    arrangeChildren setting p placed inside
    pure { node := placed.outer, params := p.params }

/-- Compiles the elements of a list inside a scope, under a node. -/
def elements (setting : Setting α) (file : String) :
    List Element → Scope → Nat → WrapDepth → Compile α (List (Child α))
  | [], _, _, _ => pure []
  | e :: es, around, parent, depth => do
    let child ← element setting file e (some around) (some parent) depth
    let rest ← elements setting file es around parent depth
    pure (child :: rest)

end

end Compile

namespace Compilation

variable {α : Type} [Scalar α]

/-- The compilation of a layout. Its file seeds the identifiers. -/
def ofElement (setting : Setting α) (file : String) (root : Element) :
    Outcome (Compilation α) := do
  let start : Pass α := { tree := Tree.empty file }
  let (_, s) ← (Compile.element setting file root none none {}).run start
  if setting.options.target.usesConstraints then
    discard s.tree.hosted
  pure
    { name := nameOf file, file, tree := s.tree, outlets := s.outlets, used := s.used
      elementCount := s.elements, wrapperCount := s.wrappers, syntheticCount := s.synthetic }

/-- The compilation of the text of a layout. -/
def ofText (setting : Setting α) (file text : String) : Outcome (Compilation α) := do
  ofElement setting file (← Markup.parse text file)

end Compilation

end LayoutCompiler
