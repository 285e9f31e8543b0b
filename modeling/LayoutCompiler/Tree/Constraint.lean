import LayoutCompiler.Number.Scalar
/-!
# Constraints

Linear relations between measurable facets of nodes.
-/

namespace LayoutCompiler

/-- The measurable facets of a box. -/
inductive Facet where
  | top
  | bottom
  | leading
  | trailing
  | width
  | height
  | centerX
  | centerY
deriving Repr, DecidableEq

namespace Facet

/-- All facets. -/
def all : List Facet := [top, bottom, leading, trailing, width, height, centerX, centerY]

/-- The name of a facet. -/
def name : Facet → String
  | top => "top"
  | bottom => "bottom"
  | leading => "leading"
  | trailing => "trailing"
  | width => "width"
  | height => "height"
  | centerX => "centerX"
  | centerY => "centerY"

end Facet

/-- A facet of one node. -/
structure Anchor where
  node : Nat
  facet : Facet
deriving Repr, DecidableEq

/-- How the two sides of a constraint compare. -/
inductive Relation where
  | equal
  | atLeast
  | atMost
deriving Repr, DecidableEq

/-- The sign of a relation. -/
def Relation.sign : Relation → String
  | equal => "=="
  | atLeast => ">="
  | atMost => "<="

/-- The priority of a constraint that must hold. -/
def Priority.required : Nat := 1000

/-- The priority of an explicit size that a minimum may override. -/
def Priority.yielding : Nat := 999

/-- `first relation second * multiplier + constant`; without a second anchor,
`first relation constant`. -/
structure Constraint (α : Type) where
  first : Anchor
  second : Option Anchor
  relation : Relation
  constant : α
  multiplier : α
  priority : Nat
  ident : String
deriving Repr, DecidableEq

namespace Constraint

variable {α : Type} [Scalar α]

/-- The text of an anchor. -/
def anchorText (a : Anchor) : String := "#" ++ toString a.node ++ "." ++ a.facet.name

/-- The right-hand side in words, without what changes nothing. -/
def rightSide (c : Constraint α) : String :=
  match c.second with
  | none => Scalar.text c.constant
  | some second =>
    anchorText second ++
      (if c.multiplier == 1 then "" else " * " ++ Scalar.text c.multiplier) ++
      (if c.constant == 0 then "" else " + " ++ Scalar.text c.constant)

/-- The text of a constraint. -/
def display (c : Constraint α) : String :=
  anchorText c.first ++ " " ++ c.relation.sign ++ " " ++ c.rightSide ++
    (if c.priority = Priority.required then "" else " @" ++ toString c.priority)

/-- The nodes that take part. -/
def participants (c : Constraint α) : List Nat :=
  c.first.node :: (c.second.map (·.node)).toList

end Constraint

end LayoutCompiler
