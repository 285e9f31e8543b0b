import LayoutCompiler.Proofs.Layout.Margins
/-!
# Weights

The children of a stack that have a weight share the room that is left by their weights. It is
their members that share it: a wrapper takes what it keeps around its child from the share of the
child, so that the children themselves need not be in proportion.

* `mem_weightedMembers`: which members have a weight.
* `proportional_of_weightLaws`: members that have a weight are in proportion.
* `Joined.extent_eq`: how much larger a member is than its child.
* `weights_of_stack`: when the children are in proportion.
-/

namespace LayoutCompiler

/-- The room that a placement keeps along the axis of the stack, on both sides of its child. -/
def Placement.slack (main : Axis) (placement : Placement ℚ) : ℚ :=
  let room := (placement.room? main main).getD (0, 0)
  room.1 + room.2

namespace Layout

variable {boxes : Nat → Box} {container : Nat} {laws : List (Constraint ℚ)}

/-! ## Members with a weight -/

theorem mem_weighted {params : Params ℚ} {children : List (Params ℚ)} {i : Nat} :
    i ∈ (plan params children).weighted ↔
      ∃ child, children[i]? = some child ∧ 0 < child.weight := by
  have hweighted : ∀ child : Params ℚ, isWeighted child = true ↔ 0 < child.weight := by
    intro child
    exact decide_eq_true_iff
  have hlist : (plan params children).weighted =
      (children.zipIdx.filter fun (child, _) => isWeighted child).map Prod.snd := rfl
  rw [hlist, List.mem_map]
  constructor
  · rintro ⟨⟨child, j⟩, hmem, rfl⟩
    obtain ⟨hzip, hw⟩ := List.mem_filter.1 hmem
    exact ⟨child, List.mem_zipIdx_iff_getElem?.1 hzip, (hweighted child).1 hw⟩
  · rintro ⟨child, hget, hw⟩
    exact ⟨(child, i), List.mem_filter.2
      ⟨List.mem_zipIdx_iff_getElem?.2 hget, (hweighted child).2 hw⟩, rfl⟩

/-- The members with a weight are those of the children with a positive one. -/
theorem mem_weightedMembers {params : Params ℚ} {children : List (Child ℚ)} {inner : List Nat}
    {m : Nat} {weight : ℚ} :
    (m, weight) ∈ weightedMembers (plan params (children.map (·.params))) children inner ↔
      ∃ (i : Nat) (child : Child ℚ), children[i]? = some child ∧ inner[i]? = some m ∧
        0 < child.params.weight ∧ weight = child.params.weight := by
  unfold weightedMembers
  rw [List.mem_filterMap]
  constructor
  -- the index of the pair gives the child and the member that stand at it
  · rintro ⟨i, hi, hpair⟩
    obtain ⟨member, hmember, hpair⟩ := Option.bind_eq_some_iff.1 hpair
    obtain ⟨child, hchild, hpair⟩ := Option.bind_eq_some_iff.1 hpair
    cases hpair
    obtain ⟨other, hother, hpos⟩ := mem_weighted.1 hi
    rw [List.getElem?_map, hchild] at hother
    cases hother
    exact ⟨i, child, hchild, hmember, hpos, rfl⟩
  · rintro ⟨i, child, hchild, hmember, hpos, rfl⟩
    refine ⟨i, mem_weighted.2 ⟨child.params, ?_, hpos⟩, ?_⟩
    · rw [List.getElem?_map, hchild]
      rfl
    · rw [hmember, hchild]
      rfl

theorem holds_shareLaw {reference member : Nat} {axis : Axis} {share : ℚ} :
    (relateLaw ⟨reference, axis.extent⟩ ⟨member, axis.extent⟩ .equal 0 share).Holds boxes ↔
      (boxes reference).extent axis = (boxes member).extent axis * share := by
  rw [← add_zero ((boxes member).extent axis * share), ← Box.measure_extent, ← Box.measure_extent]
  exact Iff.rfl

theorem required_of_weightLaws {axis : Axis} {members : List (Nat × ℚ)} {l : Constraint ℚ}
    (h : l ∈ weightLaws axis members) : l.priority = Priority.required := by
  cases members with
  | nil => cases h
  | cons reference rest =>
    obtain ⟨pair, -, hl⟩ := List.mem_flatMap.1 h
    rw [List.mem_singleton.1 hl]
    rfl

/-- Members whose weights are positive are in proportion to them. -/
theorem proportional_of_weightLaws {axis : Axis} {members : List (Nat × ℚ)}
    (hpos : ∀ pair ∈ members, 0 < pair.2)
    (hholds : ∀ l ∈ weightLaws axis members, l.Holds boxes) :
    ∀ a ∈ members, ∀ b ∈ members,
      (boxes a.1).extent axis * b.2 = (boxes b.1).extent axis * a.2 := by
  cases members with
  | nil =>
    intro a ha
    cases ha
  | cons reference rest =>
    -- every member is compared with the first one, and so any two are with each other
    have hfirst : ∀ a ∈ reference :: rest,
        (boxes a.1).extent axis * reference.2 = (boxes reference.1).extent axis * a.2 := by
      intro a ha
      rcases List.mem_cons.1 ha with rfl | hrest
      · rfl
      · have hlaw := hholds _ (List.mem_flatMap.2 ⟨a, hrest, List.mem_singleton_self _⟩)
        rw [holds_shareLaw] at hlaw
        have hne : a.2 ≠ 0 := (hpos a ha).ne'
        rw [hlaw, mul_assoc, div_mul_cancel₀ reference.2 hne]
    intro a ha b hb
    have hne : reference.2 ≠ 0 := (hpos reference List.mem_cons_self).ne'
    apply mul_right_cancel₀ hne
    calc (boxes a.1).extent axis * b.2 * reference.2
        = (boxes a.1).extent axis * reference.2 * b.2 := by ring
      _ = (boxes reference.1).extent axis * a.2 * b.2 := by rw [hfirst a ha]
      _ = (boxes reference.1).extent axis * b.2 * a.2 := by ring
      _ = (boxes b.1).extent axis * reference.2 * a.2 := by rw [hfirst b hb]
      _ = (boxes b.1).extent axis * a.2 * reference.2 := by ring

/-! ## Members and children -/

/-- A member is larger than its child by the room that its placement keeps. -/
theorem Joined.extent_eq {plan : StackPlan ℚ} {child : Child ℚ} {placement : Placement ℚ} {m : Nat}
    (h : Joined plan container laws (child, placement) m)
    (hholds : ∀ l ∈ laws, l.priority = Priority.required → l.Holds boxes) :
    (boxes m).extent plan.axis =
      (boxes child.node).extent plan.axis + placement.slack plan.axis := by
  -- tied edges leave just the room between the child and its member
  have hedges : ∀ room : ℚ × ℚ,
      (∀ l ∈ edgeLaws child.node m plan.axis room.1 room.2, l.Holds boxes) →
      (boxes m).extent plan.axis = (boxes child.node).extent plan.axis + (room.1 + room.2) := by
    intro room hlaws
    rw [(holds_edgeLaws.1 hlaws).extent, sub_add_cancel]
  cases placement with
  | direct =>
    have hnone : (Placement.direct : Placement ℚ).slack plan.axis = 0 + 0 := rfl
    rw [h.direct_eq, hnone, add_zero, add_zero]
  | padded before after =>
    have hlaws := h.holds (by simp) hholds
    have hroom : (Placement.padded before after).slack plan.axis = before + after := by
      simp [Placement.slack, Placement.room?]
    rw [hroom]
    exact hedges (before, after) fun l hl => hlaws l (List.mem_append_left _ hl)
  | wrapped align along across =>
    have hlaws := h.holds (by simp) hholds
    have hroom : (Placement.wrapped align along across).slack plan.axis = along.1 + along.2 := by
      simp [Placement.slack, Placement.room?]
    rw [hroom]
    exact hedges along fun l hl => hlaws l (List.mem_append_left _ hl)

/-- The room that the member of a child keeps around it along the axis of the stack. -/
def kept (params : Params ℚ) (children : List (Child ℚ)) (child : Child ℚ) : ℚ :=
  (placementOf (plan params (children.map (·.params))) params child.params).slack params.orientation

/-- What is kept around a child is what is left of its margins along the axis, unless it is placed
as it is. -/
theorem kept_eq (params : Params ℚ) (children : List (Child ℚ)) (child : Child ℚ) :
    kept params children child =
      if placementOf (plan params (children.map (·.params))) params child.params = .direct then 0
      else child.params.margin.start params.orientation +
        child.params.margin.finish params.orientation -
          2 * (plan params (children.map (·.params))).hoisted := by
  unfold kept
  rw [← plan_axis params (children.map (·.params))]
  generalize plan params (children.map (·.params)) = plan
  -- what is kept is both parts of the excess, and a member of its own keeps none
  have hleft : (excess child.params plan.axis plan.hoisted).1 +
      (excess child.params plan.axis plan.hoisted).2 =
        child.params.margin.start plan.axis + child.params.margin.finish plan.axis -
          2 * plan.hoisted := by
    unfold excess
    ring
  rw [← hleft]
  unfold placementOf placement
  split
  · split
    · exact add_zero 0
    · simp [Placement.slack, Placement.room?]
  · simp [Placement.slack, Placement.room?]

/-! ## Children with a weight -/

/-- A child with a weight has a member of that weight, which is as large as the child and the room
that is kept around it. -/
theorem exists_weighted_member {params : Params ℚ} {children : List (Child ℚ)} {inner : List Nat}
    {child : Child ℚ}
    (hjoined : List.Forall₂ (Joined (plan params (children.map (·.params))) container laws)
      (children.zip (plan params (children.map (·.params))).placements) inner)
    (hholds : ∀ l ∈ laws, l.priority = Priority.required → l.Holds boxes)
    (hchild : child ∈ children) (hpos : 0 < child.params.weight) :
    ∃ m, (m, child.params.weight) ∈
        weightedMembers (plan params (children.map (·.params))) children inner ∧
      (boxes m).extent params.orientation =
        (boxes child.node).extent params.orientation + kept params children child := by
  rw [zip_placements, List.forall₂_map_left_iff] at hjoined
  obtain ⟨i, hi, rfl⟩ := List.mem_iff_getElem.1 hchild
  have hi' : i < inner.length := by
    rw [← hjoined.length_eq]
    exact hi
  refine ⟨inner[i], ?_, (hjoined.get hi hi').extent_eq hholds⟩
  exact mem_weightedMembers.2 ⟨i, children[i], List.getElem?_eq_getElem hi,
    List.getElem?_eq_getElem hi', hpos, rfl⟩

/-- The children of a stack that have a weight share the room by their weights, each with what its
wrapper keeps around it. So two of them are in proportion by themselves if and only if what is kept
around them is. A wrapper keeps what is left of the margins along the axis, and a child that needs
none has nothing around it. -/
theorem weights_of_stack (base : Blueprint) (container : Nat) (params : Params ℚ)
    (children : List (Child ℚ)) (t : Tree ℚ) (boxes : Nat → Box)
    (hholds : ∀ c ∈ (arrangeStack base container params children t).2.constraints.drop
      t.constraints.length, c.priority = Priority.required → c.Holds boxes) :
    (∀ child ∈ children, ∀ other ∈ children,
      0 < child.params.weight → 0 < other.params.weight →
      ((boxes child.node).extent params.orientation + kept params children child) *
          other.params.weight =
        ((boxes other.node).extent params.orientation + kept params children other) *
          child.params.weight ∧
      ((boxes child.node).extent params.orientation * other.params.weight =
          (boxes other.node).extent params.orientation * child.params.weight ↔
        kept params children child * other.params.weight =
          kept params children other * child.params.weight)) ∧
    ∀ child ∈ children, kept params children child =
      if placementOf (plan params (children.map (·.params))) params child.params = .direct then 0
      else child.params.margin.start params.orientation +
        child.params.margin.finish params.orientation -
          2 * (plan params (children.map (·.params))).hoisted := by
  obtain ⟨laws, hrecords, hjoined, hweights⟩ :=
    arrangeStack_records base container params children t
  have hlaws := holds_of_records hrecords hholds
  -- only members with a positive weight share, so that dividing by a weight is safe
  have hpositive : ∀ pair ∈ weightedMembers (plan params (children.map (·.params))) children
      (membersOf base container params children t).inner, 0 < pair.2 := by
    rintro ⟨member, weight⟩ hmem
    obtain ⟨i, child, -, -, hpos, rfl⟩ := mem_weightedMembers.1 hmem
    exact hpos
  have hshares := proportional_of_weightLaws hpositive fun l hl =>
    hlaws l (hweights l hl) (required_of_weightLaws hl)
  rw [plan_axis] at hshares
  constructor
  · intro child hchild other hother hpos hpos'
    obtain ⟨m, hm, hextent⟩ := exists_weighted_member hjoined hlaws hchild hpos
    obtain ⟨n, hn, hextent'⟩ := exists_weighted_member hjoined hlaws hother hpos'
    have hshare := hshares _ hm _ hn
    rw [hextent, hextent'] at hshare
    refine ⟨hshare, ?_⟩
    -- what the members keep is in proportion just when the rest of their extents is
    rw [add_mul, add_mul] at hshare
    constructor
    · intro h
      linarith
    · intro h
      linarith
  · intro child _
    exact kept_eq params children child

namespace Sample

def upright : Params ℚ := params (.uniform 0) (.uniform 0)

/-- Two children of one weight, of which the second has a margin at the top. -/
def first : Child ℚ := ⟨1, { upright with weight := 1 }⟩

def second : Child ℚ :=
  ⟨2, { upright with weight := 1, margin := { Insets.uniform 0 with top := 8 } }⟩

/-- The boxes of the container, the two children and the wrapper of the second one. -/
def halves : Nat → Box
  | 0 => ⟨0, 100, 0, 80⟩
  | 1 => ⟨0, 100, 0, 40⟩
  | 2 => ⟨0, 100, 48, 80⟩
  | _ => ⟨0, 100, 40, 80⟩

end Sample

/-- The wrapper of the second child is as large as the first one, which makes the child in it
smaller. -/
theorem weights_of_halves :
    (∀ c ∈ (arrangeStack Sample.plain 0 Sample.upright [Sample.first, Sample.second]
      Sample.tree).2.constraints, c.Holds Sample.halves) ∧
    (Sample.halves 1).extent .vertical = (Sample.halves 2).extent .vertical + 8 ∧
    ¬ (Sample.halves 1).extent .vertical * Sample.second.params.weight =
      (Sample.halves 2).extent .vertical * Sample.first.params.weight := by
  have hkept : kept Sample.upright [Sample.first, Sample.second] Sample.first = 0 ∧
      kept Sample.upright [Sample.first, Sample.second] Sample.second = 8 := by
    decide +kernel
  have hweight : Sample.first.params.weight = 1 ∧ Sample.second.params.weight = 1 := by
    decide +kernel
  obtain ⟨hshare, hratio⟩ := (weights_of_stack Sample.plain 0 Sample.upright
    [Sample.first, Sample.second] Sample.tree Sample.halves (by decide +kernel)).1
    Sample.first (by simp) Sample.second (by simp) (by decide +kernel) (by decide +kernel)
  rw [hkept.1, hkept.2, hweight.1, hweight.2, add_zero, mul_one, mul_one] at hshare
  refine ⟨by decide +kernel, hshare, fun h => ?_⟩
  have hsame := hratio.1 h
  rw [hkept.1, hkept.2, hweight.1, hweight.2] at hsame
  norm_num at hsame

end Layout

end LayoutCompiler
