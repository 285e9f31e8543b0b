import LayoutCompiler.Layout.Pin
/-!
# Overlays

Containers whose children lie over each other: each child is placed against the container on each
axis by itself.
-/

namespace LayoutCompiler.Layout

variable {α : Type} [Scalar α]

/-- How a child of an overlay is aligned on an axis. -/
def overlayAlignment (child : Params α) (axis : Axis) : Align :=
  if (child.size axis).isMatchParent then .fill else (child.layoutGravity.on axis).getD .start

/-- Places a child of an overlay on one axis. -/
def overlayChild (container : Nat) (params : Params α) (child : Child α) (axis : Axis) :
    Edit α Unit := do
  let start := params.padding.start axis + child.params.margin.start axis
  let finish := params.padding.finish axis + child.params.margin.finish axis
  let align := overlayAlignment child.params axis
  place child.node container axis align start finish
  if align ≠ .fill then sizeConstraints child.node child.params axis

/-- Places the children of an overlay. -/
def arrangeOverlay (container : Nat) (params : Params α) (children : List (Child α)) :
    Edit α Unit := do
  for child in children do
    for axis in Axis.both do
      overlayChild container params child axis

end LayoutCompiler.Layout
