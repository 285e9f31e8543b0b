import LayoutCompiler.Proofs.Data.Relation
import LayoutCompiler.Proofs.Layout.Geometry
import Mathlib.Data.List.Chain
/-!
# The box model of stacks

A stack aligns all members alike and spaces them evenly. Together with the wrappers that some of the
children get, this puts every child where its own margins and the padding of the container ask for,
up to a margin that is too small to be regarded.

* `Stacked`: what a container does that behaves as the stack it declares.
* `child_aligned`, `child_offsets`: one child with its member, by its placement.
* `stack_box_model`: all children of a stack.
-/

namespace LayoutCompiler

/-- No length is negative. -/
def Insets.NonNeg (i : Insets ℚ) : Prop := ∀ axis, 0 ≤ i.start axis ∧ 0 ≤ i.finish axis

namespace Layout

/-! ## Hoisted margins -/

theorem sharedMargin_nonneg (children : List (Params ℚ)) (axis : Axis) :
    0 ≤ sharedMargin children axis := by
  unfold sharedMargin
  split
  · exact le_refl 0
  · rename_i x xs _
    show 0 ≤ Scalar.max (xs.foldl Scalar.min x) 0
    rw [Rational.max_eq]
    exact le_max_right _ _

/-- The margin that all children share is no larger than any of theirs, unless that is negative. -/
theorem sharedMargin_le_max {children : List (Params ℚ)} (axis : Axis) {c : Params ℚ}
    (hc : c ∈ children) :
    sharedMargin children axis ≤ max (c.margin.start axis) 0 ∧
      sharedMargin children axis ≤ max (c.margin.finish axis) 0 := by
  have hstart : c.margin.start axis ∈
      children.flatMap fun c => [c.margin.start axis, c.margin.finish axis] :=
    List.mem_flatMap.2 ⟨c, hc, List.mem_cons_self⟩
  have hfinish : c.margin.finish axis ∈
      children.flatMap fun c => [c.margin.start axis, c.margin.finish axis] :=
    List.mem_flatMap.2 ⟨c, hc, List.mem_cons_of_mem _ List.mem_cons_self⟩
  unfold sharedMargin
  cases hall : children.flatMap fun c => [c.margin.start axis, c.margin.finish axis] with
  -- the margins of `c` are among those of which the least is taken, so there is a first one
  | nil =>
    rw [hall] at hstart
    cases hstart
  | cons x xs =>
    rw [hall] at hstart hfinish
    have hmax : ∀ y ∈ x :: xs, Scalar.max (xs.foldl Scalar.min x) 0 ≤ max y 0 := by
      intro y hy
      rw [Rational.max_eq]
      exact max_le_max_right 0 (Rational.foldl_min_le xs x y hy)
    exact ⟨hmax _ hstart, hmax _ hfinish⟩

/-- The margin that all children share is no larger than any of theirs. -/
theorem sharedMargin_le {children : List (Params ℚ)} (axis : Axis)
    (hmargins : ∀ c ∈ children, c.margin.NonNeg) {c : Params ℚ} (hc : c ∈ children) :
    sharedMargin children axis ≤ c.margin.start axis ∧
      sharedMargin children axis ≤ c.margin.finish axis := by
  have hnonneg := hmargins c hc axis
  have hle := sharedMargin_le_max axis hc
  rwa [max_eq_left hnonneg.1, max_eq_left hnonneg.2] at hle

/-- What the shared margin leaves of the margins of a child is not negative. -/
theorem excess_nonneg {children : List (Params ℚ)} (axis : Axis)
    (hmargins : ∀ c ∈ children, c.margin.NonNeg) {c : Params ℚ} (hc : c ∈ children) :
    0 ≤ (excess c axis (sharedMargin children axis)).1 ∧
      0 ≤ (excess c axis (sharedMargin children axis)).2 := by
  have hle := sharedMargin_le axis hmargins hc
  exact ⟨sub_nonneg.2 hle.1, sub_nonneg.2 hle.2⟩

theorem insets_grow (i : Insets ℚ) (axis : Axis) (x y : ℚ) :
    ((i.grow axis x).grow axis.cross y).start axis.cross = i.start axis.cross + y ∧
      ((i.grow axis x).grow axis.cross y).finish axis.cross = i.finish axis.cross + y := by
  cases axis <;> exact ⟨rfl, rfl⟩

/-- Across the axis, the insets of a stack and what they leave of the margins of a child are the
padding and those margins. -/
theorem insets_add_excess (params child : Params ℚ) (children : List (Params ℚ)) :
    params.padding.start params.orientation.cross + child.margin.start params.orientation.cross =
      (plan params children).insets.start params.orientation.cross +
        (excess child params.orientation.cross
          (sharedMargin children params.orientation.cross)).1 ∧
    params.padding.finish params.orientation.cross + child.margin.finish params.orientation.cross =
      (plan params children).insets.finish params.orientation.cross +
        (excess child params.orientation.cross
          (sharedMargin children params.orientation.cross)).2 := by
  have hgrow := insets_grow params.padding params.orientation
    (sharedMargin children params.orientation) (sharedMargin children params.orientation.cross)
  constructor
  · refine Eq.trans ?_ (congrArg (· + _) hgrow.1.symm)
    show _ = _ + (_ - _)
    ring
  · refine Eq.trans ?_ (congrArg (· + _) hgrow.2.symm)
    show _ = _ + (_ - _)
    ring

/-! ## One child -/

section

variable {plan : StackPlan ℚ} {boxes : Nat → Box} {container m : Nat} {child : Child ℚ}
  {align : Align} {along across : ℚ × ℚ} {laws : List (Constraint ℚ)}

theorem epsilon_nonneg : (0 : ℚ) ≤ epsilon := by
  show (0 : ℚ) ≤ 1 / ((1000000 : ℕ) : ℚ)
  positivity

theorem negligible_iff (margins : ℚ × ℚ) :
    negligible margins = true ↔ margins.1 ≤ epsilon ∧ margins.2 ≤ epsilon := by
  simp [negligible]

/-- A placement as it is leaves nothing to a wrapper. -/
theorem Joined.direct_eq (h : Joined plan container laws (child, .direct) m) : m = child.node := by
  cases h with
  | direct => rfl
  | wrapper _ _ _ hp _ => exact absurd rfl hp

/-- A wrapper holds its child by laws that must hold. -/
theorem Joined.holds {placement : Placement ℚ} (h : Joined plan container laws (child, placement) m)
    (hp : placement ≠ .direct)
    (hholds : ∀ l ∈ laws, l.priority = Priority.required → l.Holds boxes) :
    ∀ l ∈ wrapperLaws plan container child.node m placement, l.Holds boxes := by
  intro l hl
  cases h with
  | direct => exact absurd rfl hp
  | wrapper _ _ _ _ hlaws =>
    refine hholds l (hlaws l hl) ?_
    rcases joins_wrapperLaws hl with hj | hj
    · exact hj.required
    · exact hj.required

theorem fill_of_edgeLaws {node other : Nat} {axis : Axis} {start finish : ℚ}
    (h : ∀ l ∈ edgeLaws node other axis start finish, l.Holds boxes) :
    Aligned 0 (boxes node) (boxes other) axis .fill start finish := by
  have hplace : ∀ l ∈ placeLaws node other axis .fill start finish, l.Holds boxes := h
  exact holds_placeLaws.1 hplace

/-- A wrapper in a stack is as wide as there is room: the stack stretches it, or its own extent
does. -/
theorem wrapper_fills {align : Align}
    (hlaws : ∀ l ∈ wrapperLaws plan container child.node m (.wrapped align along across),
      l.Holds boxes)
    (hmember : Aligned 0 (boxes m) (boxes container) plan.axis.cross plan.consensus
      (plan.insets.start plan.axis.cross) (plan.insets.finish plan.axis.cross)) :
    Aligned 0 (boxes m) (boxes container) plan.axis.cross .fill
      (plan.insets.start plan.axis.cross) (plan.insets.finish plan.axis.cross) := by
  by_cases hfill : plan.consensus = .fill
  · rwa [hfill] at hmember
  · have hspan : extentLaw m container plan.axis.cross
        (plan.insets.start plan.axis.cross + plan.insets.finish plan.axis.cross) ∈
        wrapperLaws plan container child.node m (.wrapped align along across) := by
      simp [wrapperLaws, spanLaws, hfill]
    exact hmember.fill_of_extent (holds_extentLaw.1 (hlaws _ hspan))

/-- Across the axis a child sits at the insets of the stack and what is left of its margins. -/
theorem child_aligned
    (hjoined : Joined plan container laws (child, placement plan.consensus align along across) m)
    (hholds : ∀ l ∈ laws, l.priority = Priority.required → l.Holds boxes)
    (hmember : Aligned 0 (boxes m) (boxes container) plan.axis.cross plan.consensus
      (plan.insets.start plan.axis.cross) (plan.insets.finish plan.axis.cross))
    (hacross : 0 ≤ across.1 ∧ 0 ≤ across.2) :
    Aligned epsilon (boxes child.node) (boxes container) plan.axis.cross align
      (plan.insets.start plan.axis.cross + across.1)
      (plan.insets.finish plan.axis.cross + across.2) := by
  unfold placement at hjoined
  split at hjoined
  · -- the member is aligned like the child, and what is left of the margins is negligible
    rename_i hfits
    obtain ⟨rfl, hnegligible⟩ := hfits
    rw [negligible_iff] at hnegligible
    have hloose : Aligned epsilon (boxes m) (boxes container) plan.axis.cross plan.consensus
        (plan.insets.start plan.axis.cross + across.1)
        (plan.insets.finish plan.axis.cross + across.2) := by
      refine hmember.loosen ?_ ?_
      · rw [abs_le]
        constructor <;> linarith [hnegligible.1, hacross.1]
      · rw [abs_le]
        constructor <;> linarith [hnegligible.2, hacross.2]
    split at hjoined
    · rwa [hjoined.direct_eq] at hloose
    · have hlaws := hjoined.holds (by simp) hholds
      have hcross := fill_of_edgeLaws fun l hl => hlaws l (List.mem_append_right _ hl)
      refine hloose.of_edges ?_ ?_
      · rw [hcross.start_eq, add_zero]
      · rw [hcross.finish_eq, sub_zero]
  · have hlaws := hjoined.holds (by simp) hholds
    have hplace : Aligned 0 (boxes child.node) (boxes m) plan.axis.cross align across.1 across.2 :=
      holds_placeLaws.1 fun l hl =>
        hlaws l (List.mem_append_right _ (List.mem_append_left _ hl))
    refine (hplace.inside (wrapper_fills hlaws hmember)).loosen ?_ ?_
    · rw [sub_self, abs_zero]
      exact epsilon_nonneg
    · rw [sub_self, abs_zero]
      exact epsilon_nonneg

/-- Along the axis a child keeps from the ends of its member what is left of its margins. -/
theorem child_offsets
    (hjoined : Joined plan container laws (child, placement plan.consensus align along across) m)
    (hholds : ∀ l ∈ laws, l.priority = Priority.required → l.Holds boxes)
    (halong : 0 ≤ along.1 ∧ 0 ≤ along.2) :
    |(boxes child.node).start plan.axis - (boxes m).start plan.axis - along.1| ≤ epsilon ∧
      |(boxes m).finish plan.axis - (boxes child.node).finish plan.axis - along.2| ≤ epsilon := by
  -- a child whose edges are tied to the member's is off by just what is left of its margins
  have hexact : Aligned 0 (boxes child.node) (boxes m) plan.axis .fill along.1 along.2 →
      |(boxes child.node).start plan.axis - (boxes m).start plan.axis - along.1| ≤ epsilon ∧
      |(boxes m).finish plan.axis - (boxes child.node).finish plan.axis - along.2| ≤ epsilon := by
    intro h
    have hstart : (boxes child.node).start plan.axis - (boxes m).start plan.axis - along.1 = 0 := by
      linarith [h.start_eq]
    have hfinish :
        (boxes m).finish plan.axis - (boxes child.node).finish plan.axis - along.2 = 0 := by
      linarith [h.finish_eq]
    rw [hstart, hfinish, abs_zero]
    exact ⟨epsilon_nonneg, epsilon_nonneg⟩
  unfold placement at hjoined
  split at hjoined
  · split at hjoined
    -- the child is its own member, which leaves out an excess that is negligible
    · rename_i hnegligible
      rw [negligible_iff] at hnegligible
      rw [hjoined.direct_eq, abs_le, abs_le]
      refine ⟨⟨?_, ?_⟩, ?_, ?_⟩ <;> linarith [hnegligible.1, hnegligible.2, halong.1, halong.2]
    · have hlaws := hjoined.holds (by simp) hholds
      exact hexact (fill_of_edgeLaws fun l hl => hlaws l (List.mem_append_left _ hl))
  · have hlaws := hjoined.holds (by simp) hholds
    exact hexact (fill_of_edgeLaws fun l hl => hlaws l (List.mem_append_left _ hl))

/-- The placement of a child by the plan for it and its siblings. -/
def placementOf (plan : StackPlan ℚ) (params child : Params ℚ) : Placement ℚ :=
  placement plan.consensus (stackAlignment params child plan.axis.cross)
    (excess child plan.axis plan.hoisted) (excess child plan.axis.cross plan.hoistedCross)

/-- Children of neighbouring members keep the margins that face each other. -/
theorem child_gap {params : Params ℚ} {next : Child ℚ} {n : Nat}
    (hj : Joined plan container laws (child, placementOf plan params child.params) m)
    (hj' : Joined plan container laws (next, placementOf plan params next.params) n)
    (hholds : ∀ l ∈ laws, l.priority = Priority.required → l.Holds boxes)
    (hexcess : 0 ≤ (excess child.params plan.axis plan.hoisted).1 ∧
      0 ≤ (excess child.params plan.axis plan.hoisted).2)
    (hexcess' : 0 ≤ (excess next.params plan.axis plan.hoisted).1 ∧
      0 ≤ (excess next.params plan.axis plan.hoisted).2)
    (hgap : (boxes n).start plan.axis - (boxes m).finish plan.axis = 2 * plan.hoisted) :
    |(boxes next.node).start plan.axis - (boxes child.node).finish plan.axis -
      (child.params.margin.finish plan.axis + next.params.margin.start plan.axis)| ≤
        2 * epsilon := by
  -- each of the two children is off from the edges of its own member by what is left of its margin
  have hoff : |(boxes m).finish plan.axis - (boxes child.node).finish plan.axis -
      (child.params.margin.finish plan.axis - plan.hoisted)| ≤ epsilon :=
    (child_offsets hj hholds hexcess).2
  have hoff' : |(boxes next.node).start plan.axis - (boxes n).start plan.axis -
      (next.params.margin.start plan.axis - plan.hoisted)| ≤ epsilon :=
    (child_offsets hj' hholds hexcess').1
  rw [abs_le] at hoff hoff' ⊢
  constructor <;> linarith [hoff.1, hoff.2, hoff'.1, hoff'.2]

end

/-! ## A stack of two children -/

namespace Sample

/-- The blueprint of all nodes. -/
def plain : Blueprint := { name := "view" }

/-- A node with two children. -/
def tree : Tree ℚ :=
  let build : Edit ℚ Unit := do
    let container ← Tree.instantiate plain none fun _ => ""
    discard <| addPlain plain container
    discard <| addPlain plain container
  (build (Tree.empty "sample")).2

/-- A box with some margins and some padding, and nothing else said of it. -/
def params (margin padding : Insets ℚ) : Params ℚ :=
  { width := .unset, height := .unset, minWidth := none, minHeight := none, margin, padding
    gravity := {}, layoutGravity := {}, weight := 0, orientation := .vertical }

def container : Params ℚ := params (.uniform 0) (.uniform 10)

/-- Two children, of which the second needs a wrapper for its larger margin. -/
def children : List (Child ℚ) :=
  [⟨1, params (.uniform 4) (.uniform 0)⟩,
    ⟨2, params { Insets.uniform 4 with leading := 8 } (.uniform 0)⟩]

/-- The boxes of the container, its children, the wrapper and the spacer at the end. -/
def boxes : Nat → Box
  | 0 => ⟨0, 100, 0, 200⟩
  | 1 => ⟨14, 50, 14, 40⟩
  | 2 => ⟨18, 60, 48, 80⟩
  | 3 => ⟨14, 86, 48, 80⟩
  | _ => ⟨14, 20, 88, 186⟩

end Sample

/-! ## All children -/

/-- What a container does that behaves as the stack it declares: its members are aligned across the
axis inside of the insets, and spaced evenly along it. -/
structure Stacked (plan : StackPlan ℚ) (boxes : Nat → Box) (container : Nat) (members : List Nat) :
    Prop where
  aligned : ∀ m ∈ members, Aligned 0 (boxes m) (boxes container) plan.axis.cross plan.consensus
    (plan.insets.start plan.axis.cross) (plan.insets.finish plan.axis.cross)
  spaced : members.IsChain fun m n =>
    (boxes n).start plan.axis - (boxes m).finish plan.axis = 2 * plan.hoisted

section

variable {boxes : Nat → Box} {container : Nat} {laws : List (Constraint ℚ)}

theorem plan_axis (params : Params ℚ) (children : List (Params ℚ)) :
    (plan params children).axis = params.orientation := rfl

theorem plan_hoisted (params : Params ℚ) (children : List (Params ℚ)) :
    (plan params children).hoisted = sharedMargin children params.orientation := rfl

theorem zip_placements (params : Params ℚ) (children : List (Child ℚ)) :
    children.zip (plan params (children.map (·.params))).placements =
      children.map fun child =>
        (child, placementOf (plan params (children.map (·.params))) params child.params) := by
  have hplacements : (plan params (children.map (·.params))).placements =
      children.map fun child =>
        placementOf (plan params (children.map (·.params))) params child.params := by
    show (children.map (·.params)).map _ = _
    rw [List.map_map]
    rfl
  rw [hplacements]
  exact List.map_prod_left_eq_zip.symm

theorem forall₂_mem {β γ : Type} {R : β → γ → Prop} {xs : List β} {ys : List γ}
    (h : List.Forall₂ R xs ys) : List.Forall₂ (fun x y => (x ∈ xs ∧ y ∈ ys) ∧ R x y) xs ys := by
  induction h with
  | nil => exact .nil
  | cons hr _ ih =>
    refine .cons ⟨⟨List.mem_cons_self, List.mem_cons_self⟩, hr⟩ (ih.imp ?_)
    rintro x y ⟨⟨hx, hy⟩, hr⟩
    exact ⟨⟨List.mem_cons_of_mem _ hx, List.mem_cons_of_mem _ hy⟩, hr⟩

/-- What relates neighbours in a list relates the entries that stand for them in another one. -/
theorem isChain_of_forall₂ {β γ : Type} {R : β → γ → Prop} {S : γ → γ → Prop} {T : β → β → Prop}
    {xs : List β} {ys : List γ} (h : List.Forall₂ R xs ys) (hys : ys.IsChain S)
    (hst : ∀ x y x' y', R x y → R x' y' → S y y' → T x x') : xs.IsChain T := by
  induction h with
  | nil => exact .nil
  | cons hr hrest ih =>
    cases hrest with
    | nil => exact .singleton _
    | cons hr' hrest' =>
      rw [List.isChain_cons_cons] at hys ⊢
      exact ⟨hst _ _ _ _ hr hr' hys.1, ih hys.2⟩

/-- The laws that a stack has recorded hold of some boxes if what it has recorded does. -/
theorem holds_of_records {t t' : Tree ℚ} (hr : Tree.Records t t' laws)
    (hholds : ∀ c ∈ t'.constraints.drop t.constraints.length,
      c.priority = Priority.required → c.Holds boxes) :
    ∀ l ∈ laws, l.priority = Priority.required → l.Holds boxes := by
  obtain ⟨new, heq, hlaws⟩ := hr
  rw [heq, List.drop_left] at hholds
  intro l hl hpriority
  rw [← hlaws] at hl
  obtain ⟨c, hc, rfl⟩ := List.mem_map.1 hl
  exact holds_law.2 (hholds c hc hpriority)

/-- The box model of stacks. Whatever boxes satisfy the constraints that a stack records, if the
container behaves as the stack that it declares: across the axis every child sits at the padding of
the container and its own margins, as its own alignment asks for; and along the axis, neighbours
keep the margins between them. -/
theorem stack_box_model (base : Blueprint) (container : Nat) (params : Params ℚ)
    (children : List (Child ℚ)) (t : Tree ℚ) (boxes : Nat → Box)
    (hmargins : ∀ child ∈ children, child.params.margin.NonNeg)
    (hholds : ∀ c ∈ (arrangeStack base container params children t).2.constraints.drop
      t.constraints.length, c.priority = Priority.required → c.Holds boxes)
    (hstacked : Stacked (plan params (children.map (·.params))) boxes container
      (membersOf base container params children t).all) :
    (∀ child ∈ children,
      Aligned epsilon (boxes child.node) (boxes container) params.orientation.cross
        (stackAlignment params child.params params.orientation.cross)
        (params.padding.start params.orientation.cross +
          child.params.margin.start params.orientation.cross)
        (params.padding.finish params.orientation.cross +
          child.params.margin.finish params.orientation.cross)) ∧
    children.IsChain fun child next =>
      |(boxes next.node).start params.orientation - (boxes child.node).finish params.orientation -
        (child.params.margin.finish params.orientation +
          next.params.margin.start params.orientation)| ≤ 2 * epsilon := by
  obtain ⟨laws, hrecords, hjoined⟩ := arrangeStack_laws base container params children t
  have hlaws := holds_of_records hrecords hholds
  rw [zip_placements, List.forall₂_map_left_iff] at hjoined
  have hnonneg : ∀ c ∈ children.map (·.params), c.margin.NonNeg := by
    intro c hc
    obtain ⟨child, hchild, rfl⟩ := List.mem_map.1 hc
    exact hmargins child hchild
  have hinner : ∀ m ∈ (membersOf base container params children t).inner,
      m ∈ (membersOf base container params children t).all := fun m hm =>
    List.mem_append_left _ (List.mem_append_right _ hm)
  refine ⟨fun child hchild => ?_, ?_⟩
  · -- across the axis every child can be seen by itself
    obtain ⟨m, hm, hj⟩ := exists_of_forall₂ hjoined hchild
    have haligned := child_aligned hj hlaws (hstacked.aligned m (hinner m hm))
      (excess_nonneg _ hnonneg (List.mem_map_of_mem hchild))
    obtain ⟨hstart, hfinish⟩ := insets_add_excess params child.params (children.map (·.params))
    rw [hstart, hfinish]
    exact haligned
  · -- along the axis the members have their gap, and what is left of the margins is inside them
    have hchain := (List.isChain_append.1 (List.isChain_append.1 hstacked.spaced).1).2.1
    rw [← plan_axis params (children.map (·.params))]
    refine isChain_of_forall₂ (forall₂_mem hjoined) hchain ?_
    rintro child m next n ⟨⟨hchild, -⟩, hj⟩ ⟨⟨hnext, -⟩, hj'⟩ hgap
    have hexcess := excess_nonneg params.orientation hnonneg (List.mem_map_of_mem hchild)
    have hexcess' := excess_nonneg params.orientation hnonneg (List.mem_map_of_mem hnext)
    rw [← plan_hoisted, ← plan_axis params (children.map (·.params))] at hexcess hexcess'
    exact child_gap hj hj' hlaws hexcess hexcess' hgap

theorem stack_box_model_sample :
    (arrangeStack Sample.plain 0 Sample.container Sample.children Sample.tree).2.constraints ≠ [] ∧
    (∀ child ∈ Sample.children,
      Aligned epsilon (Sample.boxes child.node) (Sample.boxes 0) .horizontal
        (stackAlignment Sample.container child.params .horizontal)
        (10 + child.params.margin.leading) (10 + child.params.margin.trailing)) := by
  have hmargins : ∀ child ∈ Sample.children, child.params.margin.NonNeg := by
    intro child hchild axis
    have hall : ∀ child ∈ Sample.children, ∀ axis ∈ Axis.both,
        0 ≤ child.params.margin.start axis ∧ 0 ≤ child.params.margin.finish axis := by
      decide +kernel
    exact hall child hchild axis (by cases axis <;> decide)
  refine ⟨by decide +kernel, ?_⟩
  exact (stack_box_model Sample.plain 0 Sample.container Sample.children Sample.tree Sample.boxes
    hmargins (by decide +kernel) ⟨by decide +kernel, by decide +kernel⟩).1

end

end Layout

end LayoutCompiler
