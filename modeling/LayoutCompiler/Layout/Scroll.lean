import LayoutCompiler.Layout.Pin
/-!
# Scroll views

Containers that scroll along one axis: the content is pinned to all edges, and is as large as the
container across that axis.
-/

namespace LayoutCompiler.Layout

variable {α : Type} [Scalar α]

/-- Places one child of a container that scrolls along an axis. -/
def scrollChild (container : Nat) (params : Params α) (axis : Axis) (child : Child α) :
    Edit α Unit := do
  let insets := params.padding.plus child.params.margin
  for side in Axis.both do
    pinEdges child.node container side (insets.start side) (insets.finish side)
  let cross := axis.cross
  discard <| Tree.relate ⟨child.node, cross.extent⟩ ⟨container, cross.extent⟩ .equal
    (-(insets.start cross + insets.finish cross)) 1

/-- Places the children of a container that scrolls along an axis. -/
def arrangeScroll (container : Nat) (params : Params α) (children : List (Child α)) (axis : Axis) :
    Edit α Unit := do
  for child in children do
    scrollChild container params axis child

end LayoutCompiler.Layout
