import LayoutCompiler.Proofs.Layout.Geometry
/-!
# The box model of overlays and scroll views

Overlays and scroll views place each child by itself, at the padding of the container and the
margins of the child. Nothing is assumed of the lengths: they may have any sign.

* `overlaid_iff`: how a child of an overlay is aligned, in terms of its size and its gravity.
* `boxes_of_separate_children`: which boxes satisfy what an overlay or a scroll view records.
-/

namespace LayoutCompiler

namespace Layout

variable {boxes : Nat → Box} {child container : Nat} {axis : Axis} {align : Align}
  {start finish : ℚ} {a b : Box}

/-! ## What a step records -/

/-- The constraints that a step adds to those of a tree. -/
def recorded {β : Type} (step : Edit ℚ β) (t : Tree ℚ) : List (Constraint ℚ) :=
  (step t).2.constraints.drop t.constraints.length

/-- What holds of all recorded constraints holds of all laws, as long as it does not depend on
identifiers. -/
theorem forall_recorded_iff {β : Type} {step : Edit ℚ β} {t : Tree ℚ} {laws : List (Constraint ℚ)}
    (hrecords : Ensures step t fun _ t' => Tree.Notes t t' laws) {P : Constraint ℚ → Prop}
    (hP : ∀ c, P c.law ↔ P c) : (∀ c ∈ recorded step t, P c) ↔ ∀ l ∈ laws, P l := by
  obtain ⟨new, heq, rfl⟩ := Tree.Notes.records hrecords
  unfold recorded
  rw [heq, List.drop_left, List.forall_mem_map]
  exact forall₂_congr fun c _ => (hP c).symm

/-! ## Overlays -/

/-- The padding of a container and the margins of a child, side by side. -/
def insetsOf (params child : Params ℚ) : Insets ℚ := params.padding.plus child.margin

theorem start_insetsOf (params child : Params ℚ) (axis : Axis) :
    (insetsOf params child).start axis = params.padding.start axis + child.margin.start axis := by
  cases axis <;> rfl

theorem finish_insetsOf (params child : Params ℚ) (axis : Axis) :
    (insetsOf params child).finish axis =
      params.padding.finish axis + child.margin.finish axis := by
  cases axis <;> rfl

/-- A child of an overlay sits on an axis as its size and its gravity ask for. -/
structure Overlaid (params child : Params ℚ) (a b : Box) (axis : Axis) : Prop where
  fill : child.size axis = .matchParent ∨ child.layoutGravity.on axis = some .fill →
    Inset a b axis ((insetsOf params child).start axis) ((insetsOf params child).finish axis)
  start : child.size axis ≠ .matchParent →
    child.layoutGravity.on axis = none ∨ child.layoutGravity.on axis = some .start →
    a.start axis = b.start axis + (insetsOf params child).start axis
  finish : child.size axis ≠ .matchParent → child.layoutGravity.on axis = some .finish →
    a.finish axis = b.finish axis - (insetsOf params child).finish axis
  center : child.size axis ≠ .matchParent → child.layoutGravity.on axis = some .center →
    a.center axis = b.center axis +
      ((insetsOf params child).start axis - (insetsOf params child).finish axis) / 2

theorem isMatchParent_iff {size : BoxSize ℚ} : size.isMatchParent = true ↔ size = .matchParent := by
  cases size <;> simp [BoxSize.isMatchParent]

/-- The alignment of a child of an overlay is that of its size and its gravity. -/
theorem overlaid_iff {params child : Params ℚ} :
    Overlaid params child a b axis ↔ Aligned 0 a b axis (overlayAlignment child axis)
      ((insetsOf params child).start axis) ((insetsOf params child).finish axis) := by
  unfold overlayAlignment
  by_cases hsize : child.size axis = .matchParent
  · rw [if_pos (isMatchParent_iff.2 hsize), aligned_fill_iff]
    constructor
    · intro h
      exact h.fill (Or.inl hsize)
    · intro h
      exact ⟨fun _ => h, fun hne => absurd hsize hne, fun hne => absurd hsize hne,
        fun hne => absurd hsize hne⟩
  · rw [if_neg (mt isMatchParent_iff.1 hsize)]
    -- one gravity at a time: all other fields ask for another one
    rcases hgravity : child.layoutGravity.on axis with _ | _ | _ | _ | _
    · rw [Option.getD_none, aligned_start_iff]
      refine ⟨fun h => h.start hsize (Or.inl hgravity), fun h => ?_⟩
      constructor <;> simp [hsize, hgravity, h]
    · rw [Option.getD_some, aligned_start_iff]
      refine ⟨fun h => h.start hsize (Or.inr hgravity), fun h => ?_⟩
      constructor <;> simp [hsize, hgravity, h]
    · rw [Option.getD_some, aligned_center_iff]
      refine ⟨fun h => h.center hsize hgravity, fun h => ?_⟩
      constructor <;> simp [hsize, hgravity, h]
    · rw [Option.getD_some, aligned_finish_iff]
      refine ⟨fun h => h.finish hsize hgravity, fun h => ?_⟩
      constructor <;> simp [hsize, hgravity, h]
    · rw [Option.getD_some, aligned_fill_iff]
      refine ⟨fun h => h.fill (Or.inr hgravity), fun h => ?_⟩
      constructor <;> simp [hsize, hgravity, h]

/-- Of the laws of a child of an overlay, those between two boxes place it. -/
theorem holds_overlayLaws {params : Params ℚ} {child : Child ℚ} :
    (∀ l ∈ overlayLaws container params child axis, l.second ≠ none → l.Holds boxes) ↔
      Overlaid params child.params (boxes child.node) (boxes container) axis := by
  -- a law of a size alone has no second anchor, so only the laws of the place are asked for here
  have hsizes : ∀ l ∈ (if overlayAlignment child.params axis ≠ .fill then
      sizeLaws child.node child.params axis else []), l.second ≠ none → l.Holds boxes := by
    intro l hl hsecond
    split at hl
    · exact absurd (bounds_sizeLaws hl).1 hsecond
    · cases hl
  have hpins : ∀ l ∈ placeLaws child.node container axis (overlayAlignment child.params axis)
      (params.padding.start axis + child.params.margin.start axis)
      (params.padding.finish axis + child.params.margin.finish axis), l.second ≠ none := by
    intro l hl
    generalize overlayAlignment child.params axis = align at hl
    cases align <;> simp only [placeLaws, edgeLaws, List.mem_cons, List.not_mem_nil, or_false] at hl
    · exact hl ▸ Option.some_ne_none _
    · exact hl ▸ Option.some_ne_none _
    · exact hl ▸ Option.some_ne_none _
    · rcases hl with rfl | rfl <;> exact Option.some_ne_none _
  rw [overlaid_iff, start_insetsOf, finish_insetsOf, ← holds_placeLaws]
  unfold overlayLaws
  rw [List.forall_mem_append, and_iff_left hsizes]
  exact forall₂_congr fun l hl => ⟨fun h => h (hpins l hl), fun h _ => h⟩

/-! ## Scroll views -/

/-- Whether a law is about the edges of boxes, and not about how large they are across an axis. -/
def IsPin (along : Axis) (c : Constraint ℚ) : Prop := c.first.facet ≠ along.cross.extent

theorem isPin_of_mem_edgeLaws {along : Axis} {l : Constraint ℚ}
    (hl : l ∈ edgeLaws child container axis start finish) : IsPin along l := by
  simp only [edgeLaws, List.mem_cons, List.not_mem_nil, or_false] at hl
  rcases hl with rfl | rfl <;> cases axis <;> cases along <;> exact Facet.noConfusion

/-- The pins of a child of a scroll view place its edges. -/
theorem holds_scrollPins {params : Params ℚ} {along : Axis} {child : Child ℚ} :
    (∀ l ∈ scrollLaws container params along child, IsPin along l → l.Holds boxes) ↔
      ∀ axis, Inset (boxes child.node) (boxes container) axis
        ((insetsOf params child.params).start axis)
        ((insetsOf params child.params).finish axis) := by
  -- the law that ties the extents across the scrolled axis is no pin
  have hextent : ∀ less, ¬ IsPin along (extentLaw child.node container along.cross less) :=
    fun less h => h rfl
  have hedges : ∀ axis, (∀ l ∈ edgeLaws child.node container axis
      ((insetsOf params child.params).start axis) ((insetsOf params child.params).finish axis),
      IsPin along l → l.Holds boxes) ↔ Inset (boxes child.node) (boxes container) axis
        ((insetsOf params child.params).start axis)
        ((insetsOf params child.params).finish axis) := by
    intro axis
    rw [← holds_edgeLaws]
    exact forall₂_congr fun l hl => ⟨fun h => h (isPin_of_mem_edgeLaws hl), fun h _ => h⟩
  unfold scrollLaws
  rw [List.forall_mem_append, List.forall_mem_append, List.forall_mem_singleton,
    and_iff_left fun h => absurd h (hextent _)]
  refine (and_congr (hedges .horizontal) (hedges .vertical)).trans ⟨fun h axis => ?_, fun h => ?_⟩
  · cases axis with
    | horizontal => exact h.1
    | vertical => exact h.2
  · exact ⟨h .horizontal, h .vertical⟩

/-- What a scroll view says about the extent of a child follows from its pins. -/
theorem holds_scrollLaws {params : Params ℚ} {along : Axis} {child : Child ℚ} :
    (∀ l ∈ scrollLaws container params along child, l.Holds boxes) ↔
      ∀ l ∈ scrollLaws container params along child, IsPin along l → l.Holds boxes := by
  refine ⟨fun h l hl _ => h l hl, fun h l hl => ?_⟩
  by_cases hpin : IsPin along l
  · exact h l hl hpin
  · have hinset := holds_scrollPins.1 h along.cross
    simp only [scrollLaws, List.mem_append, List.mem_singleton] at hl
    rcases hl with (hl | hl) | rfl
    · exact absurd (isPin_of_mem_edgeLaws hl) hpin
    · exact absurd (isPin_of_mem_edgeLaws hl) hpin
    · exact holds_extentLaw.2 hinset.extent

/-! ## All children -/

/-- Which boxes satisfy what a container records that places each child by itself. In an overlay,
the constraints between two boxes hold just if every child sits on each axis as its size and its
gravity ask for. In a scroll view, all constraints hold just if all edges of every child are at the
padding and its margins; and what is recorded about its size across the axis follows from the
pins, so that it cannot be in their way. -/
theorem boxes_of_separate_children (container : Nat) (params : Params ℚ)
    (children : List (Child ℚ)) (t : Tree ℚ) (boxes : Nat → Box) :
    ((∀ c ∈ recorded (arrangeOverlay container params children) t,
        c.second ≠ none → c.Holds boxes) ↔
      ∀ child ∈ children, ∀ axis,
        Overlaid params child.params (boxes child.node) (boxes container) axis) ∧
    ∀ along,
      ((∀ c ∈ recorded (arrangeScroll container params children along) t, c.Holds boxes) ↔
        ∀ child ∈ children, ∀ axis, Inset (boxes child.node) (boxes container) axis
          ((insetsOf params child.params).start axis)
          ((insetsOf params child.params).finish axis)) ∧
      ((∀ c ∈ recorded (arrangeScroll container params children along) t,
          IsPin along c → c.Holds boxes) →
        ∀ c ∈ recorded (arrangeScroll container params children along) t, c.Holds boxes) := by
  have hboth : ∀ P : Axis → Prop, (∀ axis ∈ Axis.both, P axis) ↔ ∀ axis, P axis := by
    intro P
    refine ⟨fun h axis => h axis ?_, fun h axis _ => h axis⟩
    cases axis <;> decide
  refine ⟨?_, fun along => ?_⟩
  -- the laws are those of the children one after the other, and for each child those of the two
  -- axes
  · rw [forall_recorded_iff (arrangeOverlay_spec container params children) fun _ => Iff.rfl,
      List.forall_mem_flatMap]
    refine forall₂_congr fun child _ => ?_
    rw [List.forall_mem_flatMap, hboth]
    exact forall_congr' fun axis => holds_overlayLaws
  · have hspec := arrangeScroll_spec (t := t) container params children along
    rw [forall_recorded_iff hspec fun _ => Iff.rfl, forall_recorded_iff hspec fun _ => Iff.rfl,
      List.forall_mem_flatMap, List.forall_mem_flatMap]
    constructor
    · exact forall₂_congr fun child _ => holds_scrollLaws.trans holds_scrollPins
    · intro h child hchild
      exact holds_scrollLaws.2 (h child hchild)

end Layout

end LayoutCompiler
