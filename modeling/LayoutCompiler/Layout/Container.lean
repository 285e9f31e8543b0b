import LayoutCompiler.Layout.Overlay
import LayoutCompiler.Layout.Scroll
import LayoutCompiler.Layout.Stack
/-!
# Containers

The kinds of containers, and the arrangement of children by kind.
-/

namespace LayoutCompiler

/-- How an element lays out its children. -/
inductive Container where
  | linear
  | frame
  | scroll (axis : Axis)
  | none
deriving Repr, DecidableEq

namespace Container

/-- All kinds with their names in rule documents. -/
def names : List (String × Container) :=
  [("linear", linear), ("frame", frame), ("scroll-vertical", scroll .vertical),
   ("scroll-horizontal", scroll .horizontal), ("none", none)]

/-- The name of a kind. -/
def name : Container → String
  | linear => "linear"
  | frame => "frame"
  | scroll .vertical => "scroll-vertical"
  | scroll .horizontal => "scroll-horizontal"
  | none => "none"

end Container

namespace Layout

variable {α : Type} [Scalar α]

/-- Lays out the children of a node, and hands back how many nodes were added for it. -/
def arrange (kind : Container) (base : Blueprint) (container : Nat) (params : Params α)
    (children : List (Child α)) : Edit α Nat :=
  match kind with
  | .linear => arrangeStack base container params children
  | .frame => do
    arrangeOverlay container params children
    pure 0
  | .scroll axis => do
    arrangeScroll container params children axis
    pure 0
  | .none => pure 0

end Layout

end LayoutCompiler
