import LayoutCompiler.Layout.Params
import LayoutCompiler.Tree.Basic
/-!
# Pins

The constraints from which all containers build their layout: a box pinned to the edges or to the
middle of another one, its size, and how strongly it holds on to its content.
-/

namespace LayoutCompiler

/-- A child that its container places, and what it says about its box. -/
structure Child (α : Type) where
  node : Nat
  params : Params α

namespace Layout

variable {α : Type} [Scalar α]

/-! ## Edges -/

/-- `child.start = container.start + inset`. -/
def pinStart (child container : Nat) (axis : Axis) (inset : α) : Edit α Unit :=
  discard <| Tree.pin ⟨child, axis.start⟩ ⟨container, axis.start⟩ inset

/-- `container.end = child.end + inset`. -/
def pinFinish (child container : Nat) (axis : Axis) (inset : α) : Edit α Unit :=
  discard <| Tree.pin ⟨container, axis.finish⟩ ⟨child, axis.finish⟩ inset

/-- Both edges of an axis. -/
def pinEdges (child container : Nat) (axis : Axis) (start finish : α) : Edit α Unit := do
  pinStart child container axis start
  pinFinish child container axis finish

/-- The middle of an axis, shifted by half of the difference of the insets. -/
def pinCenter (child container : Nat) (axis : Axis) (start finish : α) : Edit α Unit :=
  discard <| Tree.pin ⟨child, axis.center⟩ ⟨container, axis.center⟩ (Scalar.half (start - finish))

/-- The pins of an alignment. -/
def place (child container : Nat) (axis : Axis) (align : Align) (start finish : α) :
    Edit α Unit :=
  match align with
  | .fill => pinEdges child container axis start finish
  | .start => pinStart child container axis start
  | .finish => pinFinish child container axis finish
  | .center => pinCenter child container axis start finish

/-! ## Sizes -/

/-- The explicit and the least size on an axis. An explicit size yields to a least one. -/
def sizeConstraints (node : Nat) (params : Params α) (axis : Axis) : Edit α Unit := do
  let anchor : Anchor := ⟨node, axis.extent⟩
  match params.size axis with
  | .exact length =>
    let priority :=
      if (params.minSize axis).isSome then Priority.yielding else Priority.required
    discard <| Tree.setTo anchor length priority
  | _ => pure ()
  match params.minSize axis with
  | some least => discard <| Tree.atLeast anchor least
  | none => pure ()

/-! ## Wrapping content -/

/-- The attribute for how strongly a node resists growing on an axis. -/
def huggingKey : Axis → String
  | .horizontal => "horizontalHuggingPriority"
  | .vertical => "verticalHuggingPriority"

/-- The attribute for how strongly a node resists shrinking on an axis. -/
def compressionKey : Axis → String
  | .horizontal => "horizontalCompressionResistancePriority"
  | .vertical => "verticalCompressionResistancePriority"

/-- How strongly a node holds on to its content: 998, and 2 less for each ancestor that wraps its
content on the same axis, but never less than 1. -/
def wrapPower (depth : Nat) : Nat := Nat.max 1 (998 - 2 * depth)

/-- The tree where a node holds on to its content on an axis. -/
def applyWrapPower (t : Tree α) (node : Nat) (axis : Axis) (depth : Nat) : Tree α :=
  (t.setAttribute node (huggingKey axis) (toString (wrapPower depth))).setAttribute node
    (compressionKey axis) (toString (wrapPower depth))

/-! ## Added views -/

/-- A plain node made from the base blueprint, whose holes stay empty. -/
def addPlain (base : Blueprint) (parent : Nat) : Edit α Nat :=
  Tree.instantiate base (some parent) fun template => template.write fun _ => none

end Layout

end LayoutCompiler
