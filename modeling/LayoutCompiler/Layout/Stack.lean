import LayoutCompiler.Layout.Pin
import LayoutCompiler.Layout.Plan
/-!
# Stacks

Building a stack by its plan: wrappers and spacers are added, the members are put in order, and
the facts of the stack are written on its node.
-/

namespace LayoutCompiler.Layout

/-! ## What is written on a stack -/

/-- The attribute for the axis. -/
def axisKey : String := "axis"

/-- The attribute for the alignment. -/
def alignmentKey : String := "alignment"

/-- The attribute for the space between members. -/
def spacingKey : String := "spacing"

/-- The child that states the insets, and how it is marked. -/
def marginsStep : PathStep :=
  { name := "directionalEdgeInsets", key := some ("key", "directionalLayoutMargins") }

/-- The attribute that makes the insets count. -/
def relativeMarginsKey : String := "layoutMarginsRelativeArrangement"

/-- The word for an alignment across the axis; filling is understood. -/
def alignmentName? : Axis → Align → Option String
  | _, .fill => none
  | _, .center => some "center"
  | .horizontal, .start => some "leading"
  | .horizontal, .finish => some "trailing"
  | .vertical, .start => some "top"
  | .vertical, .finish => some "bottom"

variable {α : Type} [Scalar α]

/-! ## Members -/

/-- A spacer, which hardly resists growing. -/
def addSpacer (base : Blueprint) (container : Nat) (axis : Axis) : Edit α Nat := do
  let spacer ← addPlain base container
  modify (·.setAttribute spacer (huggingKey axis) "1")
  pure spacer

/-- A wrapper with a child in it. -/
def addWrapper (base : Blueprint) (container child : Nat) : Edit α Nat := do
  let wrapper ← addPlain base container
  modify (·.reparent child wrapper)
  pure wrapper

/-- Keeps a child from leaving its wrapper on the side where it is not pinned. -/
def contain (child wrapper : Nat) (cross : Axis) (align : Align) (across : α × α) :
    Edit α Unit :=
  match align with
  | .start =>
    discard <| Tree.relate ⟨wrapper, cross.finish⟩ ⟨child, cross.finish⟩ .atLeast across.2 1
  | .center | .finish =>
    discard <| Tree.relate ⟨child, cross.start⟩ ⟨wrapper, cross.start⟩ .atLeast across.1 1
  | .fill => pure ()

/-- The member of the stack for a child. -/
def addMember (plan : StackPlan α) (base : Blueprint) (container child : Nat) :
    Placement α → Edit α Nat
  | .direct => pure child
  | .padded before after => do
    let wrapper ← addWrapper base container child
    pinEdges child wrapper plan.axis before after
    pinEdges child wrapper plan.axis.cross 0 0
    pure wrapper
  | .wrapped align along across => do
    let cross := plan.axis.cross
    let wrapper ← addWrapper base container child
    pinEdges child wrapper plan.axis along.1 along.2
    -- The excess margins stand between the child and the wrapper, which the stack aligns.
    place child wrapper cross align across.1 across.2
    contain child wrapper cross align across
    -- A stack that does not stretch its members leaves it to the wrapper to be as wide as it is.
    if plan.consensus ≠ .fill then
      discard <| Tree.relate ⟨wrapper, cross.extent⟩ ⟨container, cross.extent⟩ .equal
        (-(plan.insets.start cross + plan.insets.finish cross)) 1
    pure wrapper

/-- The sizes of a child. A child with a weight has none along the axis. -/
def memberSizes (axis : Axis) (child : Child α) : Edit α Unit := do
  if !isWeighted child.params then sizeConstraints child.node child.params axis
  sizeConstraints child.node child.params axis.cross

/-- Makes the extents of weighted members proportional to their weights: each is related to the
first one. -/
def shareWeights (axis : Axis) : List (Nat × α) → Edit α Unit
  | [] => pure ()
  | (reference, weight) :: rest => do
    for (member, other) in rest do
      discard <| Tree.relate ⟨reference, axis.extent⟩ ⟨member, axis.extent⟩ .equal 0
        (weight / other)

/-- The facts of a stack, as attributes of its node. -/
def stackFacts (plan : StackPlan α) : List (String × String) :=
  (axisKey, plan.axis.name) ::
    (((alignmentName? plan.axis.cross plan.consensus).map (alignmentKey, ·)).toList ++
      if epsilon < plan.hoisted then
        [(spacingKey, Scalar.text (plan.hoisted * Scalar.nat 2))]
      else [])

/-- The insets of a stack, as attributes of the child that states them. -/
def insetFacts (insets : Insets α) : List (String × String) :=
  [("top", Scalar.text insets.top), ("leading", Scalar.text insets.leading),
   ("bottom", Scalar.text insets.bottom), ("trailing", Scalar.text insets.trailing)]

/-- Writes the facts of a stack on its node. -/
def describe (plan : StackPlan α) (container : Nat) : Edit α Unit := do
  for (key, value) in stackFacts plan do
    modify (·.setAttribute container key value)
  if !plan.insets.isZero then
    let margins ← Tree.findOrCreate container marginsStep
    for (key, value) in insetFacts plan.insets do
      modify (·.setAttribute margins key value)
    modify (·.setAttribute container relativeMarginsKey "YES")

/-! ## Stacks -/

/-- The members of a stack: those for its children, and the spacers around them. -/
structure Members where
  leading : Option Nat
  inner : List Nat
  trailing : Option Nat
deriving Repr, DecidableEq

/-- All members, in order. -/
def Members.all (m : Members) : List Nat := m.leading.toList ++ m.inner ++ m.trailing.toList

/-- A spacer, where the plan has one of some fillers. -/
def addFiller (plan : StackPlan α) (base : Blueprint) (container : Nat) (fillers : List Filler) :
    Edit α (Option Nat) :=
  if plan.filler ∈ fillers then some <$> addSpacer base container plan.axis else pure none

/-- Adds the members for some children by their placements. -/
def addMembers (plan : StackPlan α) (base : Blueprint) (container : Nat)
    (children : List (Child α)) : Edit α Members := do
  let leading ← addFiller plan base container [.before, .around]
  let inner ← (children.zip plan.placements).mapM fun (child, placement) => do
    memberSizes plan.axis child
    addMember plan base container child.node placement
  let trailing ← addFiller plan base container [.after, .around]
  pure { leading, inner, trailing }

/-- Makes two spacers share the room that is left evenly. -/
def balance (axis : Axis) (members : Members) : Edit α Unit :=
  match members.leading, members.trailing with
  | some first, some last => discard <| Tree.pin ⟨first, axis.extent⟩ ⟨last, axis.extent⟩ 0
  | _, _ => pure ()

/-- The members for the children that share in the room that is left, with their weights. -/
def weightedMembers (plan : StackPlan α) (children : List (Child α)) (inner : List Nat) :
    List (Nat × α) :=
  plan.weighted.filterMap fun i => do
    pure ((← inner[i]?), (← children[i]?).params.weight)

/-- The tree where the members of a container stand in order. Children of the container that are no
members stay in front of them. -/
def lineUp (t : Tree α) (container : Nat) (members : List Nat) : Tree α :=
  let fixed := (t.node (t.contentOf container)).children.filter (!members.contains ·)
  t.setChildren container (fixed ++ members)

/-- Builds a stack of children, and hands back how many wrappers and spacers it took. -/
def arrangeStack (base : Blueprint) (container : Nat) (params : Params α)
    (children : List (Child α)) : Edit α Nat := do
  let plan := plan params (children.map (·.params))
  let members ← addMembers plan base container children
  balance plan.axis members
  shareWeights plan.axis (weightedMembers plan children members.inner)
  modify (lineUp · container members.all)
  describe plan container
  let wrappers := plan.placements.filter fun
    | .direct => false
    | _ => true
  pure (wrappers.length + members.leading.toList.length + members.trailing.toList.length)

end LayoutCompiler.Layout
