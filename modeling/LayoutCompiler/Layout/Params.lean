import LayoutCompiler.Layout.Axis
import LayoutCompiler.Resource.Table
/-!
# Box parameters

What an element says about its own box: its size, the space around and inside it, and how it wants
to be aligned.
-/

namespace LayoutCompiler

/-- The size of a box on one axis. -/
inductive BoxSize (α : Type) where
  | unset
  | matchParent
  | wrapContent
  | exact (length : α)
deriving Repr, DecidableEq

namespace BoxSize

variable {α : Type}

/-- Whether the box is as large as its container. -/
def isMatchParent : BoxSize α → Bool
  | matchParent => true
  | _ => false

/-- Whether the box is as large as its content. -/
def isWrapContent : BoxSize α → Bool
  | wrapContent => true
  | _ => false

end BoxSize

/-- Lengths on the four sides of a box. -/
structure Insets (α : Type) where
  top : α
  bottom : α
  leading : α
  trailing : α
deriving Repr, DecidableEq

namespace Insets

variable {α : Type}

/-- The same length on all sides. -/
def uniform (x : α) : Insets α := ⟨x, x, x, x⟩

/-- The length where an axis begins. -/
def start (i : Insets α) : Axis → α
  | .horizontal => i.leading
  | .vertical => i.top

/-- The length where an axis ends. -/
def finish (i : Insets α) : Axis → α
  | .horizontal => i.trailing
  | .vertical => i.bottom

variable [Scalar α]

/-- Side by side sums. -/
def plus (i j : Insets α) : Insets α :=
  ⟨i.top + j.top, i.bottom + j.bottom, i.leading + j.leading, i.trailing + j.trailing⟩

/-- The insets with a length added at both ends of an axis. -/
def grow (i : Insets α) (axis : Axis) (x : α) : Insets α :=
  match axis with
  | .horizontal => { i with leading := i.leading + x, trailing := i.trailing + x }
  | .vertical => { i with top := i.top + x, bottom := i.bottom + x }

/-- Whether all lengths are zero. -/
def isZero (i : Insets α) : Bool :=
  i.top == 0 && i.bottom == 0 && i.leading == 0 && i.trailing == 0

end Insets

/-- What an element says about its box. -/
structure Params (α : Type) where
  width : BoxSize α
  height : BoxSize α
  minWidth : Option α
  minHeight : Option α
  margin : Insets α
  padding : Insets α
  /-- How the element aligns what is inside it. -/
  gravity : Gravity
  /-- How the element wants to be aligned. -/
  layoutGravity : Gravity
  weight : α
  orientation : Axis
deriving Repr

namespace Params

variable {α : Type}

/-- The size on an axis. -/
def size (p : Params α) : Axis → BoxSize α
  | .horizontal => p.width
  | .vertical => p.height

/-- The least size on an axis. -/
def minSize (p : Params α) : Axis → Option α
  | .horizontal => p.minWidth
  | .vertical => p.minHeight

variable [Scalar α]

/-! ## Reading -/

/-- The length that an attribute states, if it states one. -/
def readLength (resources : ResourceTable α) (attributes : Attributes) (name : String) :
    Outcome (Option α) :=
  match attributes.get? name with
  | none => .ok none
  | some raw => (resources.dimension? raw).map fun d => d.map (·.magnitude)

/-- The size that an attribute states. -/
def readSize (resources : ResourceTable α) (attributes : Attributes) (name : String) :
    Outcome (BoxSize α) :=
  match attributes.get? name with
  | none => .ok .unset
  | some "match_parent" => .ok .matchParent
  | some "fill_parent" => .ok .matchParent
  | some "wrap_content" => .ok .wrapContent
  | some raw => (resources.dimension? raw).map fun
    | some d => .exact d.magnitude
    | none => .unset

/-- The endings of the attributes for parts of the insets, with the sides that each sets; what a
later one states wins. -/
def insetParts : List (String × (Insets α → α → Insets α)) :=
  [("Horizontal", fun i x => { i with leading := x, trailing := x }),
   ("Vertical", fun i x => { i with top := x, bottom := x }),
   ("Left", fun i x => { i with leading := x }),
   ("Start", fun i x => { i with leading := x }),
   ("Right", fun i x => { i with trailing := x }),
   ("End", fun i x => { i with trailing := x }),
   ("Top", fun i x => { i with top := x }),
   ("Bottom", fun i x => { i with bottom := x })]

/-- The insets that a family of attributes states. -/
def readInsets (resources : ResourceTable α) (attributes : Attributes) (name : String) :
    Outcome (Insets α) := do
  let all ← readLength resources attributes name
  insetParts.foldlM (fun insets (ending, set) => do
    match ← readLength resources attributes (name ++ ending) with
    | some x => pure (set insets x)
    | none => pure insets) (Insets.uniform (all.getD 0))

/-- The gravity that an attribute asks for. -/
def readGravity (attributes : Attributes) (name : String) : Gravity :=
  ((attributes.get? name).map Gravity.read).getD {}

/-- The weight of an element: only a positive number counts. -/
def readWeight (attributes : Attributes) : α :=
  match (attributes.get? "android:layout_weight").bind fun raw => Scalar.read? (Text.trim raw) with
  | some w => if 0 < w then w else 0
  | none => 0

/-- The axis along which a container lines up its children. -/
def readOrientation (attributes : Attributes) : Axis :=
  if attributes.get? "android:orientation" = some "vertical" then .vertical else .horizontal

/-- What the attributes of an element say about its box. -/
def read (resources : ResourceTable α) (attributes : Attributes) : Outcome (Params α) := do
  let width ← readSize resources attributes "android:layout_width"
  let height ← readSize resources attributes "android:layout_height"
  let minWidth ← readLength resources attributes "android:minWidth"
  let minHeight ← readLength resources attributes "android:minHeight"
  let margin ← readInsets resources attributes "android:layout_margin"
  let padding ← readInsets resources attributes "android:padding"
  pure
    { width, height, minWidth, minHeight, margin, padding
      gravity := readGravity attributes "android:gravity"
      layoutGravity := readGravity attributes "android:layout_gravity"
      weight := readWeight attributes
      orientation := readOrientation attributes }

end Params

end LayoutCompiler
