import LayoutCompiler.Proofs.Layout.BoxModel
/-!
# Where margins go

The plan of a stack takes the margin that all children share, and the wrapper of a child keeps what
is left of the margins of that child. A child without a wrapper keeps nothing. This is right when
what is left is too small to be regarded; a margin below zero is left as well, and it is not small.

* `room?_placementOf`: what a placement keeps is what is left, or what is left is not regarded.
* `margins_of_plan`: on which axes the plan accounts for the margins of each child.
-/

namespace LayoutCompiler

/-- The other axis is the one across. -/
theorem Axis.eq_or_eq_cross (axis main : Axis) : axis = main ∨ axis = main.cross ∧ axis ≠ main := by
  cases axis <;> cases main <;> decide

/-- The margin that a plan takes from all children on an axis. -/
def StackPlan.shared (plan : StackPlan ℚ) (axis : Axis) : ℚ :=
  if axis = plan.axis then plan.hoisted else plan.hoistedCross

/-- The room that a placement keeps in front of its child and behind it on an axis, if it keeps any
there, in a stack along the main axis. -/
def Placement.room? (main : Axis) : Placement ℚ → Axis → Option (ℚ × ℚ)
  | .direct, _ => none
  | .padded before after, axis => if axis = main then some (before, after) else none
  | .wrapped _ along across, axis => some (if axis = main then along else across)

namespace Layout

/-- What a plan takes and what a placement keeps make up the margins of a child on an axis. -/
def Accounts (plan : StackPlan ℚ) (child : Params ℚ) (placement : Placement ℚ) (axis : Axis) :
    Prop :=
  let room := (placement.room? plan.axis axis).getD (0, 0)
  |plan.shared axis + room.1 - child.margin.start axis| ≤ epsilon ∧
    |plan.shared axis + room.2 - child.margin.finish axis| ≤ epsilon

variable {container child : Params ℚ} {children : List (Params ℚ)} {axis : Axis}

/-! ## What is taken -/

theorem plan_shared (container : Params ℚ) (children : List (Params ℚ)) (axis : Axis) :
    (plan container children).shared axis = sharedMargin children axis := by
  unfold StackPlan.shared
  rw [plan_axis]
  rcases axis.eq_or_eq_cross container.orientation with rfl | ⟨hcross, hne⟩
  · rw [if_pos rfl, plan_hoisted]
  · rw [if_neg hne, hcross]
    rfl

/-- Nothing is taken on an axis where a margin is below zero. -/
theorem sharedMargin_eq_zero (hc : child ∈ children)
    (hneg : child.margin.start axis < 0 ∨ child.margin.finish axis < 0) :
    sharedMargin children axis = 0 := by
  have hle := sharedMargin_le_max axis hc
  have hnonneg := sharedMargin_nonneg children axis
  rcases hneg with h | h
  · rw [max_eq_right (le_of_lt h)] at hle
    exact le_antisymm hle.1 hnonneg
  · rw [max_eq_right (le_of_lt h)] at hle
    exact le_antisymm hle.2 hnonneg

/-! ## What is kept -/

/-- A placement keeps on an axis what is left of the margins, or keeps nothing because what is left
need not be regarded. -/
theorem room?_placementOf (container child : Params ℚ) (children : List (Params ℚ)) (axis : Axis) :
    (placementOf (plan container children) container child).room? container.orientation axis =
        some (excess child axis (sharedMargin children axis)) ∨
      (placementOf (plan container children) container child).room? container.orientation axis =
        none ∧ negligible (excess child axis (sharedMargin children axis)) = true := by
  have hexcess : excess child axis (sharedMargin children axis) =
      if axis = container.orientation then
        excess child container.orientation (plan container children).hoisted
      else excess child container.orientation.cross (plan container children).hoistedCross := by
    rcases axis.eq_or_eq_cross container.orientation with rfl | ⟨hcross, hne⟩
    · rw [if_pos rfl]
      rfl
    · rw [if_neg hne, hcross]
      rfl
  rw [hexcess]
  unfold placementOf placement
  rw [plan_axis]
  split
  · -- no wrapper: what is left across the axis is dropped, and along the axis if it fits as well
    rename_i hfits
    split
    · rename_i halong
      refine Or.inr ⟨rfl, ?_⟩
      split
      · exact halong
      · exact hfits.2
    · by_cases hmain : axis = container.orientation
      · left
        simp only [Placement.room?, if_pos hmain]
      · right
        simp only [Placement.room?, if_neg hmain]
        exact ⟨trivial, hfits.2⟩
  · exact Or.inl rfl

/-- Where nothing is kept, margins are accounted for unless one of them is below zero by more than
what counts as no margin. -/
theorem accounts_of_negligible (hc : child ∈ children)
    (hsmall : negligible (excess child axis (sharedMargin children axis)) = true) :
    (|sharedMargin children axis + 0 - child.margin.start axis| ≤ epsilon ∧
      |sharedMargin children axis + 0 - child.margin.finish axis| ≤ epsilon) ↔
    -epsilon ≤ child.margin.start axis ∧ -epsilon ≤ child.margin.finish axis := by
  rw [negligible_iff] at hsmall
  have hstart : child.margin.start axis - sharedMargin children axis ≤ epsilon := hsmall.1
  have hfinish : child.margin.finish axis - sharedMargin children axis ≤ epsilon := hsmall.2
  have hepsilon : (0 : ℚ) ≤ epsilon := epsilon_nonneg
  rw [add_zero, abs_le, abs_le]
  by_cases hneg : child.margin.start axis < 0 ∨ child.margin.finish axis < 0
  · -- nothing is taken either, so that all of the margins is lost
    rw [sharedMargin_eq_zero hc hneg] at hstart hfinish ⊢
    constructor
    · rintro ⟨⟨-, h⟩, -, h'⟩
      constructor <;> linarith
    · rintro ⟨h, h'⟩
      refine ⟨⟨?_, ?_⟩, ?_, ?_⟩ <;> linarith
  · -- what is taken is between zero and either margin, and no less than it but for a little
    have hle := sharedMargin_le_max axis hc
    rw [not_or, not_lt, not_lt] at hneg
    rw [max_eq_left hneg.1, max_eq_left hneg.2] at hle
    constructor
    · intro _
      constructor <;> linarith [hneg.1, hneg.2]
    · intro _
      refine ⟨⟨?_, ?_⟩, ?_, ?_⟩ <;> linarith [hle.1, hle.2]

/-! ## All children -/

/-- A plan accounts for the margins of every child on every axis on which the placement of the child
keeps room, and then exactly; where it keeps none, it does so as long as no margin is below zero.
A margin below zero is lost as a whole there, as nothing is taken on its axis either. -/
theorem margins_of_plan (container : Params ℚ) (children : List (Params ℚ)) :
    List.Forall₂ (fun child placement => ∀ axis,
        (Accounts (plan container children) child placement axis ↔
          (placement.room? container.orientation axis).isSome ∨
            -epsilon ≤ child.margin.start axis ∧ -epsilon ≤ child.margin.finish axis) ∧
        (∀ room, placement.room? container.orientation axis = some room →
          (plan container children).shared axis + room.1 = child.margin.start axis ∧
            (plan container children).shared axis + room.2 = child.margin.finish axis) ∧
        (child.margin.start axis < 0 ∨ child.margin.finish axis < 0 →
          (plan container children).shared axis = 0))
      children (plan container children).placements := by
  have hplacements : (plan container children).placements =
      children.map (placementOf (plan container children) container) := rfl
  rw [hplacements, List.forall₂_map_right_iff, List.forall₂_same]
  intro child hchild axis
  -- room that is kept is what the shared margin leaves, so nothing of the margin is lost
  have hexact : ∀ room, (placementOf (plan container children) container child).room?
      container.orientation axis = some room →
      (plan container children).shared axis + room.1 = child.margin.start axis ∧
        (plan container children).shared axis + room.2 = child.margin.finish axis := by
    intro room hroom
    rcases room?_placementOf container child children axis with hkept | ⟨hnone, -⟩
    · obtain rfl := Option.some.inj (hkept.symm.trans hroom)
      rw [plan_shared]
      exact ⟨add_sub_cancel _ _, add_sub_cancel _ _⟩
    · rw [hnone] at hroom
      cases hroom
  refine ⟨?_, hexact, fun hneg => ?_⟩
  · unfold Accounts
    rw [plan_axis]
    -- without room the margins are accounted for when the shared one is close enough to both of
    -- them
    rcases room?_placementOf container child children axis with hkept | ⟨hnone, hsmall⟩
    · obtain ⟨hstart, hfinish⟩ := hexact _ hkept
      rw [hkept]
      simp only [Option.getD_some, Option.isSome_some, true_or, iff_true]
      rw [hstart, hfinish, sub_self, sub_self, abs_zero]
      exact ⟨epsilon_nonneg, epsilon_nonneg⟩
    · rw [hnone, plan_shared]
      simp only [Option.getD_none, Option.isSome_none, Bool.false_eq_true, false_or]
      exact accounts_of_negligible hchild hsmall
  · rw [plan_shared]
    exact sharedMargin_eq_zero hchild hneg

/-- A child that is pulled up over what is in front of it. -/
def Sample.raised : Params ℚ := params { Insets.uniform 0 with top := -8 } (.uniform 0)

/-- A child that is pulled up is placed as it is, and its margin is lost; across the axis of the
stack it has none to lose. -/
theorem margins_of_raised :
    (plan Sample.container [Sample.raised]).placements = [.direct] ∧
    ¬ Accounts (plan Sample.container [Sample.raised]) Sample.raised .direct .vertical ∧
    Accounts (plan Sample.container [Sample.raised]) Sample.raised .direct .horizontal := by
  have hplaced : (plan Sample.container [Sample.raised]).placements = [.direct] := by
    decide +kernel
  have hall := margins_of_plan Sample.container [Sample.raised]
  rw [hplaced] at hall
  obtain ⟨hraised, -⟩ := List.forall₂_cons.1 hall
  refine ⟨hplaced, fun h => ?_, (hraised .horizontal).1.2 (Or.inr (by decide +kernel))⟩
  -- no room is kept along the axis, and the margin at the top is far below zero
  rcases (hraised .vertical).1.1 h with hroom | hmargins
  · cases hroom
  · exact absurd hmargins (by decide +kernel)

end Layout

end LayoutCompiler
