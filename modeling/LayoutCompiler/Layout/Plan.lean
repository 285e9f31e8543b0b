import LayoutCompiler.Layout.Params
/-!
# Plans for stacks

How the children of a linear container become members of a stack, before anything is built. A
stack aligns all members alike, spaces them evenly and has one inset on each side. Margins that all
children share are taken into the spacing and the insets; what a child needs beyond that is given
to it by a wrapper of its own.
-/

namespace LayoutCompiler

/-- How a child becomes a member of a stack. -/
inductive Placement (α : Type) where
  /-- As it is. -/
  | direct
  /-- In a wrapper that adds room before and after it along the axis. -/
  | padded (before after : α)
  /-- In a wrapper that also aligns it across the axis. -/
  | wrapped (align : Align) (along across : α × α)
deriving Repr, DecidableEq

/-- Where spacers take up the room that is left along the axis. -/
inductive Filler where
  | none
  | before
  | after
  | around
deriving Repr, DecidableEq

/-- How a stack is going to be built. -/
structure StackPlan (α : Type) where
  axis : Axis
  /-- The alignment of the stack across its axis. -/
  consensus : Align
  /-- The margin that all children share along the axis. -/
  hoisted : α
  /-- The margin that all children share across the axis. -/
  hoistedCross : α
  insets : Insets α
  placements : List (Placement α)
  /-- The positions of the children that share in the room that is left. -/
  weighted : List Nat
  filler : Filler
deriving Repr

namespace Layout

variable {α : Type}

/-! ## Alignment -/

/-- The alignment that a child asks for across the axis. -/
def stackAlignment (container child : Params α) (cross : Axis) : Align :=
  if (child.size cross).isMatchParent then .fill
  else ((child.layoutGravity.on cross).or (container.gravity.on cross)).getD .start

/-- How much an alignment is worth: two for each child that asks for it, and one more for filling,
which wins a tie. -/
def score (alignments : List Align) (align : Align) : Nat :=
  2 * alignments.count align + if align = .fill then 1 else 0

/-- The better of two alignments; of two equally good ones the first. -/
def better (alignments : List Align) (a b : Align) : Align :=
  if score alignments a < score alignments b then b else a

/-- The alignment that most children ask for. Filling wins every tie, and otherwise the first of
start, center and end; filling is also the alignment of no children. -/
def consensus (alignments : List Align) : Align :=
  if alignments.isEmpty then .fill
  else [.center, .finish, .fill].foldl (better alignments) .start

variable [Scalar α]

/-! ## Margins -/

/-- What counts as no margin. -/
def epsilon : α := 1 / Scalar.nat 1000000

/-- The largest margin that all children have at both ends of an axis, if it is a positive
number. -/
def sharedMargin (children : List (Params α)) (axis : Axis) : α :=
  match children.flatMap fun c => [c.margin.start axis, c.margin.finish axis] with
  | [] => 0
  | x :: xs =>
    let least := xs.foldl Scalar.min x
    -- Margins outside the range of the type are not shared.
    if Scalar.isFinite least then Scalar.max least 0 else 0

/-- What is left of the margins of a child on an axis. -/
def excess (child : Params α) (axis : Axis) (hoisted : α) : α × α :=
  (child.margin.start axis - hoisted, child.margin.finish axis - hoisted)

/-- Whether what is left of margins need not be regarded. -/
def negligible (margins : α × α) : Bool := margins.1 ≤ epsilon && margins.2 ≤ epsilon

/-- How a child becomes a member. -/
def placement (consensus align : Align) (along across : α × α) : Placement α :=
  if align = consensus ∧ negligible across then
    if negligible along then .direct else .padded along.1 along.2
  else .wrapped align along across

/-! ## Room that is left -/

/-- Whether a child shares in the room that is left. -/
def isWeighted (child : Params α) : Bool := 0 < child.weight

/-- Where spacers are needed: nowhere if something else takes up the room, or there is none. -/
def filler (container : Params α) (children : List (Params α)) (axis : Axis) : Filler :=
  if children.any isWeighted || children.any (fun c => (c.size axis).isMatchParent) ||
      (container.size axis).isWrapContent then
    .none
  else match (container.gravity.on axis).getD .start with
    | .start | .fill => .after
    | .center => .around
    | .finish => .before

/-- The plan for a container and its children. -/
def plan (container : Params α) (children : List (Params α)) : StackPlan α :=
  let axis := container.orientation
  let cross := axis.cross
  let alignment := fun child => stackAlignment container child cross
  let consensus := consensus (children.map alignment)
  let hoisted := sharedMargin children axis
  let hoistedCross := sharedMargin children cross
  { axis, consensus, hoisted, hoistedCross
    insets := (container.padding.grow axis hoisted).grow cross hoistedCross
    placements := children.map fun child =>
      placement consensus (alignment child) (excess child axis hoisted)
        (excess child cross hoistedCross)
    weighted := (children.zipIdx.filter fun (child, _) => isWeighted child).map Prod.snd
    filler := filler container children axis }

end Layout

end LayoutCompiler
