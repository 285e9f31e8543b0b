import LayoutCompiler.Failure
import LayoutCompiler.Tree.Blueprint
import LayoutCompiler.Tree.Constraint
import LayoutCompiler.Tree.Identifier
import LayoutCompiler.Tree.Path
/-!
# The interface tree

The tree under construction: an arena of nodes that are addressed by their number, and the
constraints recorded so far. Links go both ways, from a node to its children and to its parent;
nodes are never removed from the arena.

A node may name another one as its content: what is added to the node goes there.
-/

namespace LayoutCompiler

/-- A node: what it is called, what it carries, and its links. -/
structure Node where
  name : String := ""
  /-- The identifier under which documents refer to the node. -/
  ident : Option String := none
  attributes : List (String × String) := []
  style : List (String × String) := []
  text : Option String := none
  children : List Nat := []
  parent : Option Nat := none
  /-- Where children of the node go; to itself when there is none. -/
  content : Option Nat := none
  /-- Whether the node only holds the children of its parent. -/
  holder : Bool := false
deriving Repr, DecidableEq, Inhabited

/-- A list of entries with one of them written: in place, or at the end when it is new. -/
def setEntry (key value : String) : List (String × String) → List (String × String)
  | [] => [(key, value)]
  | (k, v) :: rest => if k = key then (k, value) :: rest else (k, v) :: setEntry key value rest

/-- The tree of one layout. -/
structure Tree (α : Type) where
  nodes : Array Node := #[]
  root : Option Nat := none
  constraints : List (Constraint α) := []
  ids : IdSource
deriving Repr, DecidableEq

/-- A step of construction that hands something back. -/
abbrev Edit (α β : Type) := StateM (Tree α) β

namespace Tree

variable {α : Type}

/-- The tree without nodes. -/
def empty (seed : String) : Tree α := { ids := { seed } }

/-- How many nodes the arena has. -/
def size (t : Tree α) : Nat := t.nodes.size

/-- The node with a number. -/
def node (t : Tree α) (id : Nat) : Node := t.nodes[id]?.getD {}

/-- The tree with one node changed. -/
def modifyNode (t : Tree α) (id : Nat) (f : Node → Node) : Tree α :=
  { t with nodes := t.nodes.modify id f }

/-- Where the children of a node go. -/
def contentOf (t : Tree α) (id : Nat) : Nat := (t.node id).content.getD id

/-- The tree with an attribute of a node written. -/
def setAttribute (t : Tree α) (id : Nat) (key value : String) : Tree α :=
  t.modifyNode id fun n => { n with attributes := setEntry key value n.attributes }

/-- The tree with a style declaration of a node written. -/
def setStyle (t : Tree α) (id : Nat) (key value : String) : Tree α :=
  t.modifyNode id fun n => { n with style := setEntry key value n.style }

/-- The tree with the text of a node written. -/
def setText (t : Tree α) (id : Nat) (text : String) : Tree α :=
  t.modifyNode id fun n => { n with text := some text }

/-- The tree with one identifier less to draw, and that identifier. -/
def drawIdent : Edit α String := fun t =>
  let (ident, ids) := t.ids.draw
  (ident, { t with ids })

/-! ## Growing -/

/-- A new node as the last child of another one, which need not be where its children go. -/
def addChild (name : String) (parent : Nat) : Edit α Nat := fun t =>
  let id := t.size
  let grown := { t with nodes := t.nodes.push { name, parent := some parent } }
  (id, grown.modifyNode parent fun n => { n with children := n.children ++ [id] })

/-- A new node without a parent: the root, when there is none yet. -/
def addRoot (name : String) : Edit α Nat := fun t =>
  let id := t.size
  (id, { t with nodes := t.nodes.push { name }, root := t.root.or (some id) })

/-- A new node where the children of another one go, or without a parent. -/
def addNode (name : String) (parent : Option Nat) : Edit α Nat := do
  match parent with
  | some p => addChild name ((← get).contentOf p)
  | none => addRoot name

/-- Whether a node is what a step of a path leads to. -/
def fits (n : Node) (step : PathStep) : Bool :=
  n.name = step.name &&
    match step.key with
    | none => true
    | some (key, value) => n.attributes.lookup key = some value

/-- The first child that a step leads to; a new one at the end when there is none. -/
def findOrCreate (parent : Nat) (step : PathStep) : Edit α Nat := do
  let t ← get
  match (t.node parent).children.find? fun child => fits (t.node child) step with
  | some child => pure child
  | none =>
    let id ← addChild step.name parent
    match step.key with
    | some (key, value) => modify (·.setAttribute id key value)
    | none => pure ()
    pure id

/-- Where the steps of a path lead, created on the way where there is nothing. -/
def walkPath : Nat → List PathStep → Edit α Nat
  | start, [] => pure start
  | start, step :: steps => do walkPath (← findOrCreate start step) steps

mutual

/-- Gives a node what its blueprint says. -/
def fill (render : Template → String) (id : Nat) : Blueprint → Edit α Unit
  | ⟨_, attributes, style, text, children, holder⟩ => do
    for (key, template) in attributes.entries do
      modify (·.setAttribute id key (render template))
    for (key, template) in style.entries do
      modify (·.setStyle id key (render template))
    match text with
    | some template => modify (·.setText id (render template))
    | none => pure ()
    fillChildren render id children
    match holder with
    | some name =>
      let holderId ← findOrCreate id { name }
      modify fun t =>
        (t.modifyNode holderId fun n => { n with holder := true }).modifyNode id
          fun n => { n with content := some holderId }
    | none => pure ()

/-- Gives a node its fixed children. -/
def fillChildren (render : Template → String) (id : Nat) : List Blueprint → Edit α Unit
  | [] => pure ()
  | b :: bs => do
    let child ← addChild b.name id
    fill render child b
    fillChildren render id bs

end

/-- A new node made from a blueprint, with an identifier. -/
def instantiate (blueprint : Blueprint) (parent : Option Nat) (render : Template → String) :
    Edit α Nat := do
  let id ← addNode blueprint.name parent
  fill render id blueprint
  let ident ← drawIdent
  modify (·.modifyNode id fun n => { n with ident := some ident })
  pure id

/-! ## Moving -/

/-- The tree where a node is no child of another one. -/
def detach (t : Tree α) (child parent : Nat) : Tree α :=
  t.modifyNode parent fun n => { n with children := n.children.filter (· != child) }

/-- The tree where a node has a parent link. -/
def setParent (t : Tree α) (child parent : Nat) : Tree α :=
  t.modifyNode child fun n => { n with parent := some parent }

/-- The tree where a node has been moved to the end of where the children of another one go. -/
def reparent (t : Tree α) (child parent : Nat) : Tree α :=
  let target := t.contentOf parent
  let detached := match (t.node child).parent with
    | some old => t.detach child old
    | none => t
  (detached.setParent child target).modifyNode target fun n =>
    { n with children := n.children ++ [child] }

/-- The tree where a node has been taken from its parent and linked to another one, which does not
list it yet unless it did before. -/
def adopt (t : Tree α) (target child : Nat) : Tree α :=
  let detached := match (t.node child).parent with
    | some old => if old = target then t else t.detach child old
    | none => t
  detached.setParent child target

/-- The tree where the children of a node are those of a list, in order. -/
def setChildren (t : Tree α) (parent : Nat) (children : List Nat) : Tree α :=
  let target := t.contentOf parent
  (children.foldl (fun t child => t.adopt target child) t).modifyNode target fun n =>
    { n with children }

/-! ## Lines of ancestors -/

/-- A node and at most so many of its ancestors less one, nearest first. -/
def lineFrom (t : Tree α) : Nat → Nat → List Nat
  | 0, _ => []
  | steps + 1, id =>
    id :: match (t.node id).parent with
      | none => []
      | some parent => lineFrom t steps parent

/-- A node and its ancestors, nearest first. No line without a cycle is longer than the arena. -/
def line (t : Tree α) (id : Nat) : List Nat := t.lineFrom t.size id

/-- How many ancestors a node has. -/
def depth (t : Tree α) (id : Nat) : Nat := (t.line id).length - 1

/-- The node that is so many links above another one. -/
def climb? (t : Tree α) : Nat → Nat → Option Nat
  | 0, id => some id
  | links + 1, id => (t.node id).parent.bind (climb? t links)

/-- Where two climbs meet that go link by link at the same time, if they do within so many steps. -/
def meet? (t : Tree α) : Nat → Nat → Nat → Option Nat
  | 0, _, _ => none
  | steps + 1, a, b =>
    if a = b then some a
    else (t.node a).parent.bind fun a => (t.node b).parent.bind fun b => meet? t steps a b

/-- The nearest node that is an ancestor of two nodes or one of them. The climb from the deeper one
begins alone, until both are at the same depth. -/
def nearestCommon? (t : Tree α) (a b : Nat) : Option Nat :=
  (t.climb? (t.depth a - t.depth b) a).bind fun a' =>
    (t.climb? (t.depth b - t.depth a) b).bind fun b' => t.meet? t.size a' b'

/-- The nodes below a node and the node itself, each before its children, to a depth. -/
def below (t : Tree α) : Nat → Nat → List Nat
  | 0, _ => []
  | levels + 1, id => id :: (t.node id).children.flatMap (below t levels)

/-- The nodes of the tree, each before its children. -/
def walk (t : Tree α) : List Nat :=
  match t.root with
  | none => []
  | some root => t.below t.size root

/-! ## Constraints -/

/-- Records a constraint, and hands back its position. -/
def record (make : String → Constraint α) : Edit α Nat := do
  let ident ← drawIdent
  let position := (← get).constraints.length
  modify fun t => { t with constraints := t.constraints ++ [make ident] }
  pure position

section

variable [Scalar α]

/-- Records `first relation second * multiplier + constant`. -/
def relate (first second : Anchor) (relation : Relation) (constant multiplier : α) : Edit α Nat :=
  record fun ident =>
    { first, second := some second, relation, constant, multiplier, ident
      priority := Priority.required }

/-- Records `first = second + constant`. -/
def pin (first second : Anchor) (constant : α) : Edit α Nat :=
  relate first second .equal constant 1

/-- Records `anchor = constant`. -/
def setTo (anchor : Anchor) (constant : α) (priority : Nat) : Edit α Nat :=
  record fun ident =>
    { first := anchor, second := none, relation := .equal, constant, multiplier := 1, ident
      priority }

/-- Records `anchor ≥ constant`. -/
def atLeast (anchor : Anchor) (constant : α) : Edit α Nat :=
  record fun ident =>
    { first := anchor, second := none, relation := .atLeast, constant, multiplier := 1, ident
      priority := Priority.required }

/-- The tree where the constraint at a position has another priority. -/
def setPriority (t : Tree α) (position priority : Nat) : Tree α :=
  { t with constraints := t.constraints.modify position fun c => { c with priority } }

/-- The node that a constraint belongs to: the nearest one above all that take part. A node that
only holds children passes it on to its parent. -/
def host (t : Tree α) (c : Constraint α) : Outcome Nat :=
  match c.second with
  | none => .ok c.first.node
  | some second =>
    match t.nearestCommon? c.first.node second.node with
    | none => .error (.disjoint t.ids.seed c.display)
    | some common =>
      let n := t.node common
      .ok (if n.holder then n.parent.getD common else common)

/-- Every constraint with the node it belongs to, as recorded. -/
def hosted (t : Tree α) : Outcome (List (Nat × Constraint α)) :=
  t.constraints.mapM fun c => (t.host c).map fun id => (id, c)

end

end Tree

end LayoutCompiler
