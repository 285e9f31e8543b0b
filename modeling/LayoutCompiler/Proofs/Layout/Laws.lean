import LayoutCompiler.Layout.Container
import LayoutCompiler.Proofs.Tree.Hosting
/-!
# What layout records

The constraints that each step of layout records, as a list of laws that can be read without
running the step. Steps that only record are specified by `Tree.Notes`, which also says that the
nodes stay as they are.

* `place_spec`, `sizes_spec`, `arrangeOverlay_spec`, `arrangeScroll_spec`: the laws of each step.
* `addMember_spec`: a child becomes a member by itself, or in a wrapper whose laws are recorded.
* `joins_placeLaws`, `joins_wrapperLaws`, `bounds_sizeLaws`: between which nodes the laws are.
-/

namespace LayoutCompiler.Layout

open LayoutCompiler.Tree (Notes)

variable {α : Type} {t : Tree α}

/-! ## Laws -/

/-- `first relation second * multiplier + constant`. -/
def relateLaw (first second : Anchor) (relation : Relation) (constant multiplier : α) :
    Constraint α :=
  { first, second := some second, relation, constant, multiplier, ident := ""
    priority := Priority.required }

theorem relate_spec (first second : Anchor) (relation : Relation) (constant multiplier : α) :
    Ensures (discard <| Tree.relate first second relation constant multiplier) t fun _ t' =>
      Notes t t' [relateLaw first second relation constant multiplier] :=
  Tree.record_spec _ (fun _ => rfl) fun _ => rfl

variable [Scalar α]

/-- `first = second + constant`. -/
def pinLaw (first second : Anchor) (constant : α) : Constraint α :=
  relateLaw first second .equal constant 1

/-- `child.start = container.start + inset`. -/
def startLaw (child container : Nat) (axis : Axis) (inset : α) : Constraint α :=
  pinLaw ⟨child, axis.start⟩ ⟨container, axis.start⟩ inset

/-- `container.end = child.end + inset`. -/
def finishLaw (child container : Nat) (axis : Axis) (inset : α) : Constraint α :=
  pinLaw ⟨container, axis.finish⟩ ⟨child, axis.finish⟩ inset

/-- The middle of an axis, shifted by half of the difference of the insets. -/
def centerLaw (child container : Nat) (axis : Axis) (start finish : α) : Constraint α :=
  pinLaw ⟨child, axis.center⟩ ⟨container, axis.center⟩ (Scalar.half (start - finish))

/-- Both edges of an axis. -/
def edgeLaws (child container : Nat) (axis : Axis) (start finish : α) : List (Constraint α) :=
  [startLaw child container axis start, finishLaw child container axis finish]

/-- The pins of an alignment. -/
def placeLaws (child container : Nat) (axis : Axis) (align : Align) (start finish : α) :
    List (Constraint α) :=
  match align with
  | .fill => edgeLaws child container axis start finish
  | .start => [startLaw child container axis start]
  | .finish => [finishLaw child container axis finish]
  | .center => [centerLaw child container axis start finish]

/-- The extent of a node across an axis, as large as that of another one less some length. -/
def extentLaw (node container : Nat) (axis : Axis) (less : α) : Constraint α :=
  relateLaw ⟨node, axis.extent⟩ ⟨container, axis.extent⟩ .equal (-less) 1

/-- `anchor relation constant`. -/
def boundLaw (anchor : Anchor) (relation : Relation) (constant : α) (priority : Nat) :
    Constraint α :=
  { first := anchor, second := none, relation, constant, multiplier := 1, ident := "", priority }

/-- The explicit and the least size on an axis. -/
def sizeLaws (node : Nat) (params : Params α) (axis : Axis) : List (Constraint α) :=
  (match params.size axis with
    | .exact length =>
      [boundLaw ⟨node, axis.extent⟩ .equal length
        (if (params.minSize axis).isSome then Priority.yielding else Priority.required)]
    | _ => []) ++
  match params.minSize axis with
    | some least => [boundLaw ⟨node, axis.extent⟩ .atLeast least Priority.required]
    | none => []

/-- The laws of a child of an overlay on one axis. -/
def overlayLaws (container : Nat) (params : Params α) (child : Child α) (axis : Axis) :
    List (Constraint α) :=
  placeLaws child.node container axis (overlayAlignment child.params axis)
      (params.padding.start axis + child.params.margin.start axis)
      (params.padding.finish axis + child.params.margin.finish axis) ++
    if overlayAlignment child.params axis ≠ .fill then sizeLaws child.node child.params axis
    else []

/-- The laws of a child of a container that scrolls along an axis. -/
def scrollLaws (container : Nat) (params : Params α) (axis : Axis) (child : Child α) :
    List (Constraint α) :=
  let insets := params.padding.plus child.params.margin
  edgeLaws child.node container .horizontal (insets.start .horizontal)
      (insets.finish .horizontal) ++
    edgeLaws child.node container .vertical (insets.start .vertical) (insets.finish .vertical) ++
      [extentLaw child.node container axis.cross
        (insets.start axis.cross + insets.finish axis.cross)]

/-- The laws of a child of a container that places each of its children by itself. -/
def childLaws (kind : Container) (container : Nat) (params : Params α) (child : Child α) :
    List (Constraint α) :=
  match kind with
  | .frame => Axis.both.flatMap (overlayLaws container params child)
  | .scroll axis => scrollLaws container params axis child
  | _ => []

/-- What keeps a child from leaving its wrapper on the side where it is not pinned. -/
def containLaws (child wrapper : Nat) (cross : Axis) (align : Align) (across : α × α) :
    List (Constraint α) :=
  match align with
  | .start => [relateLaw ⟨wrapper, cross.finish⟩ ⟨child, cross.finish⟩ .atLeast across.2 1]
  | .center | .finish =>
    [relateLaw ⟨child, cross.start⟩ ⟨wrapper, cross.start⟩ .atLeast across.1 1]
  | .fill => []

/-- What makes a wrapper as wide as the stack when the stack does not stretch its members. -/
def spanLaws (plan : StackPlan α) (container wrapper : Nat) : List (Constraint α) :=
  if plan.consensus ≠ .fill then
    [extentLaw wrapper container plan.axis.cross
      (plan.insets.start plan.axis.cross + plan.insets.finish plan.axis.cross)]
  else []

/-- The laws of a child in its wrapper, by its placement. -/
def wrapperLaws (plan : StackPlan α) (container child wrapper : Nat) :
    Placement α → List (Constraint α)
  | .direct => []
  | .padded before after =>
    edgeLaws child wrapper plan.axis before after ++ edgeLaws child wrapper plan.axis.cross 0 0
  | .wrapped align along across =>
    edgeLaws child wrapper plan.axis along.1 along.2 ++
      (placeLaws child wrapper plan.axis.cross align across.1 across.2 ++
        (containLaws child wrapper plan.axis.cross align across ++
          spanLaws plan container wrapper))

/-- The laws for the sizes of a member's child. -/
def memberSizeLaws (axis : Axis) (child : Child α) : List (Constraint α) :=
  (if !isWeighted child.params then sizeLaws child.node child.params axis else []) ++
    sizeLaws child.node child.params axis.cross

/-- The laws that make the extents of members proportional to their weights. -/
def weightLaws (axis : Axis) : List (Nat × α) → List (Constraint α)
  | [] => []
  | (reference, weight) :: rest =>
    rest.flatMap fun (member, other) =>
      [relateLaw ⟨reference, axis.extent⟩ ⟨member, axis.extent⟩ .equal 0 (weight / other)]

/-- The law that makes two spacers equally large. -/
def balanceLaws (axis : Axis) (members : Members) : List (Constraint α) :=
  match members.leading, members.trailing with
  | some first, some last => [pinLaw ⟨first, axis.extent⟩ ⟨last, axis.extent⟩ 0]
  | _, _ => []

/-! ## Between which nodes -/

/-- A constraint between two nodes that must hold. -/
structure Joins (a b : Nat) (c : Constraint α) : Prop where
  second : c.second.isSome
  participants : c.participants.Perm [a, b]
  required : c.priority = Priority.required

/-- A constraint on one node alone. -/
def Bounds (a : Nat) (c : Constraint α) : Prop := c.second = none ∧ c.first.node = a

section

variable {a b child container wrapper : Nat} {axis cross : Axis} {align : Align} {start finish : α}
  {across : α × α} {params : Params α} {plan : StackPlan α} {l : Constraint α}

omit [Scalar α] in
theorem Joins.symm (h : Joins a b l) : Joins b a l :=
  { h with participants := h.participants.trans (List.Perm.swap _ _ _) }

omit [Scalar α] in
theorem Joins.eq_or_eq (h : Joins a b l) {m : Nat} (hm : m ∈ l.participants) : m = a ∨ m = b := by
  simpa using h.participants.mem_iff.1 hm

omit [Scalar α] in
theorem Joins.all {P : Nat → Prop} (h : Joins a b l) (ha : P a) (hb : P b) :
    ∀ m ∈ l.participants, P m := by
  intro m hm
  rcases h.eq_or_eq hm with rfl | rfl
  · exact ha
  · exact hb

omit [Scalar α] in
theorem Bounds.eq_of_mem (h : Bounds a l) {m : Nat} (hm : m ∈ l.participants) : m = a := by
  simp only [Constraint.participants, h.1, Option.map_none, Option.toList_none,
    List.mem_singleton] at hm
  exact hm.trans h.2

omit [Scalar α] in
theorem Bounds.all {P : Nat → Prop} (h : Bounds a l) (ha : P a) : ∀ m ∈ l.participants, P m := by
  intro m hm
  exact h.eq_of_mem hm ▸ ha

omit [Scalar α] in
theorem joins_relateLaw (f g : Facet) (relation : Relation) (constant multiplier : α) :
    Joins a b (relateLaw ⟨a, f⟩ ⟨b, g⟩ relation constant multiplier) :=
  ⟨rfl, List.Perm.refl _, rfl⟩

theorem joins_edgeLaws (h : l ∈ edgeLaws child container axis start finish) :
    Joins child container l := by
  simp only [edgeLaws, List.mem_cons, List.not_mem_nil, or_false] at h
  rcases h with rfl | rfl
  · exact joins_relateLaw _ _ _ _ _
  · exact (joins_relateLaw _ _ _ _ _).symm

theorem joins_placeLaws (h : l ∈ placeLaws child container axis align start finish) :
    Joins child container l := by
  cases align with
  | fill => exact joins_edgeLaws h
  | start => exact List.mem_singleton.1 h ▸ joins_relateLaw _ _ _ _ _
  | finish => exact List.mem_singleton.1 h ▸ (joins_relateLaw _ _ _ _ _).symm
  | center => exact List.mem_singleton.1 h ▸ joins_relateLaw _ _ _ _ _

theorem joins_containLaws (h : l ∈ containLaws child wrapper cross align across) :
    Joins child wrapper l := by
  cases align with
  | fill => cases h
  | start => exact List.mem_singleton.1 h ▸ (joins_relateLaw _ _ _ _ _).symm
  | finish => exact List.mem_singleton.1 h ▸ joins_relateLaw _ _ _ _ _
  | center => exact List.mem_singleton.1 h ▸ joins_relateLaw _ _ _ _ _

theorem joins_spanLaws (h : l ∈ spanLaws plan container wrapper) : Joins wrapper container l := by
  unfold spanLaws at h
  split at h
  · exact List.mem_singleton.1 h ▸ joins_relateLaw _ _ _ _ _
  · cases h

theorem joins_wrapperLaws {placement : Placement α}
    (h : l ∈ wrapperLaws plan container child wrapper placement) :
    Joins child wrapper l ∨ Joins wrapper container l := by
  cases placement with
  | direct => cases h
  | padded before after =>
    rcases List.mem_append.1 h with h | h
    · exact Or.inl (joins_edgeLaws h)
    · exact Or.inl (joins_edgeLaws h)
  | wrapped align along across =>
    simp only [wrapperLaws, List.mem_append] at h
    rcases h with h | h | h | h
    · exact Or.inl (joins_edgeLaws h)
    · exact Or.inl (joins_placeLaws h)
    · exact Or.inl (joins_containLaws h)
    · exact Or.inr (joins_spanLaws h)

theorem bounds_sizeLaws (h : l ∈ sizeLaws child params axis) : Bounds child l := by
  unfold sizeLaws at h
  rcases List.mem_append.1 h with h | h
  · split at h
    · exact List.mem_singleton.1 h ▸ ⟨rfl, rfl⟩
    · cases h
  · split at h
    · exact List.mem_singleton.1 h ▸ ⟨rfl, rfl⟩
    · cases h

theorem bounds_memberSizeLaws {child : Child α} (h : l ∈ memberSizeLaws axis child) :
    Bounds child.node l := by
  rcases List.mem_append.1 h with h | h
  · split at h
    · exact bounds_sizeLaws h
    · cases h
  · exact bounds_sizeLaws h

theorem joins_overlayLaws {child : Child α} (h : l ∈ overlayLaws container params child axis) :
    Joins child.node container l ∨ Bounds child.node l := by
  rcases List.mem_append.1 h with h | h
  · exact Or.inl (joins_placeLaws h)
  · split at h
    · exact Or.inr (bounds_sizeLaws h)
    · cases h

theorem joins_scrollLaws {child : Child α} (h : l ∈ scrollLaws container params axis child) :
    Joins child.node container l := by
  simp only [scrollLaws, List.mem_append, List.mem_singleton] at h
  rcases h with (h | h) | rfl
  · exact joins_edgeLaws h
  · exact joins_edgeLaws h
  · exact joins_relateLaw _ _ _ _ _

theorem joins_childLaws {kind : Container} {child : Child α}
    (h : l ∈ childLaws kind container params child) :
    Joins child.node container l ∨ Bounds child.node l := by
  cases kind with
  | linear => cases h
  | none => cases h
  | frame =>
    obtain ⟨axis, -, h⟩ := List.mem_flatMap.1 h
    exact joins_overlayLaws h
  | scroll axis => exact Or.inl (joins_scrollLaws h)

theorem joins_weightLaws {members : List (Nat × α)} (hnodup : (members.map Prod.fst).Nodup)
    (h : l ∈ weightLaws axis members) :
    ∃ a ∈ members.map Prod.fst, ∃ b ∈ members.map Prod.fst, a ≠ b ∧ Joins a b l := by
  match members with
  | [] => cases h
  | (reference, weight) :: rest =>
    obtain ⟨⟨member, other⟩, hmem, h⟩ := List.mem_flatMap.1 h
    have hmember : member ∈ rest.map Prod.fst := List.mem_map_of_mem hmem
    refine ⟨reference, List.mem_cons_self, member, List.mem_cons_of_mem _ hmember, ?_,
      List.mem_singleton.1 h ▸ joins_relateLaw _ _ _ _ _⟩
    rintro rfl
    exact (List.nodup_cons.1 hnodup).1 hmember

theorem joins_balanceLaws {members : Members} (h : l ∈ balanceLaws axis members) :
    ∃ a ∈ members.leading, ∃ b ∈ members.trailing, Joins a b l := by
  unfold balanceLaws at h
  split at h
  · rename_i a b ha hb
    exact ⟨a, ha, b, hb, List.mem_singleton.1 h ▸ joins_relateLaw _ _ _ _ _⟩
  · cases h

end

/-! ## Steps that only record -/

theorem bound_spec (anchor : Anchor) (constant : α) (priority : Nat) :
    Ensures (discard <| Tree.setTo anchor constant priority) t fun _ t' =>
      Notes t t' [boundLaw anchor .equal constant priority] :=
  Tree.record_spec _ (fun _ => rfl) fun _ => rfl

theorem atLeast_spec (anchor : Anchor) (constant : α) :
    Ensures (discard <| Tree.atLeast anchor constant) t fun _ t' =>
      Notes t t' [boundLaw anchor .atLeast constant Priority.required] :=
  Tree.record_spec _ (fun _ => rfl) fun _ => rfl

theorem pinEdges_spec (child container : Nat) (axis : Axis) (start finish : α) :
    Ensures (pinEdges child container axis start finish) t fun _ t' =>
      Notes t t' (edgeLaws child container axis start finish) :=
  Notes.seq (relate_spec _ _ _ _ _) fun _ => relate_spec _ _ _ _ _

theorem place_spec (child container : Nat) (axis : Axis) (align : Align) (start finish : α) :
    Ensures (place child container axis align start finish) t fun _ t' =>
      Notes t t' (placeLaws child container axis align start finish) := by
  cases align with
  | fill => exact pinEdges_spec child container axis start finish
  | start => exact relate_spec _ _ _ _ _
  | finish => exact relate_spec _ _ _ _ _
  | center => exact relate_spec _ _ _ _ _

theorem sizes_spec (node : Nat) (params : Params α) (axis : Axis) :
    Ensures (sizeConstraints node params axis) t fun _ t' =>
      Notes t t' (sizeLaws node params axis) := by
  -- the least size is asked for whatever the size itself is
  have hleast : ∀ t : Tree α, Ensures (match params.minSize axis with
      | some least => discard <| Tree.atLeast ⟨node, axis.extent⟩ least
      | none => pure ()) t fun _ t' => Notes t t' (match params.minSize axis with
        | some least => [boundLaw ⟨node, axis.extent⟩ .atLeast least Priority.required]
        | none => []) := by
    intro t
    cases params.minSize axis with
    | some least => exact atLeast_spec _ _
    | none => exact Notes.refl t
  unfold sizeConstraints sizeLaws
  cases params.size axis with
  | exact length => exact Notes.seq (bound_spec _ _ _) hleast
  | unset => exact hleast t
  | matchParent => exact hleast t
  | wrapContent => exact hleast t

/-! ## Overlays and scroll views -/

theorem overlayChild_spec (container : Nat) (params : Params α) (child : Child α) (axis : Axis) :
    Ensures (overlayChild container params child axis) t fun _ t' =>
      Notes t t' (overlayLaws container params child axis) := by
  unfold overlayChild overlayLaws
  refine Notes.seq (place_spec _ _ _ _ _ _) fun t => ?_
  by_cases h : overlayAlignment child.params axis = .fill
  · simp only [h, ne_eq, not_true_eq_false, if_false]
    exact Notes.refl t
  · simp only [ne_eq, h, not_false_eq_true, if_true]
    exact sizes_spec _ _ _

theorem arrangeOverlay_spec (container : Nat) (params : Params α) (children : List (Child α)) :
    Ensures (arrangeOverlay container params children) t fun _ t' =>
      Notes t t' (children.flatMap fun child =>
        Axis.both.flatMap (overlayLaws container params child)) := by
  refine Notes.forIn children _ _ (fun child t => ?_) t
  exact Notes.forIn Axis.both _ _ (fun _ _ => overlayChild_spec _ _ _ _) t

theorem scrollChild_spec (container : Nat) (params : Params α) (axis : Axis) (child : Child α) :
    Ensures (scrollChild container params axis child) t fun _ t' =>
      Notes t t' (scrollLaws container params axis child) := by
  unfold scrollChild
  refine Notes.seq ?_ fun t => relate_spec _ _ _ _ _
  exact Notes.forIn Axis.both _
    (fun side => edgeLaws child.node container side
      ((params.padding.plus child.params.margin).start side)
      ((params.padding.plus child.params.margin).finish side))
    (fun _ _ => pinEdges_spec _ _ _ _ _) t

theorem arrangeScroll_spec (container : Nat) (params : Params α) (children : List (Child α))
    (axis : Axis) :
    Ensures (arrangeScroll container params children axis) t fun _ t' =>
      Notes t t' (children.flatMap (scrollLaws container params axis)) :=
  Notes.forIn children _ _ (fun _ _ => scrollChild_spec _ _ _ _) t

/-- All containers but stacks place each child by itself. -/
theorem arrange_spec {kind : Container} (hkind : kind ≠ .linear) (base : Blueprint)
    (container : Nat) (params : Params α) (children : List (Child α)) :
    Ensures (arrange kind base container params children) t fun _ t' =>
      Notes t t' (children.flatMap (childLaws kind container params)) := by
  cases kind with
  | linear => exact absurd rfl hkind
  | none =>
    have hnil : children.flatMap (childLaws .none container params) = [] :=
      List.flatMap_eq_nil_iff.2 fun _ _ => rfl
    rw [hnil]
    exact Notes.refl t
  | frame => exact Ensures.seq (arrangeOverlay_spec container params children) fun _ _ hn => hn
  | scroll axis =>
    exact Ensures.seq (arrangeScroll_spec container params children axis) fun _ _ hn => hn

/-! ## Members of stacks -/

theorem memberSizes_spec (axis : Axis) (child : Child α) :
    Ensures (memberSizes axis child) t fun _ t' => Notes t t' (memberSizeLaws axis child) := by
  unfold memberSizes memberSizeLaws
  cases isWeighted child.params with
  | true => exact sizes_spec _ _ _
  | false => exact Notes.seq (sizes_spec _ _ _) fun _ => sizes_spec _ _ _

theorem contain_spec (child wrapper : Nat) (cross : Axis) (align : Align) (across : α × α) :
    Ensures (contain child wrapper cross align across) t fun _ t' =>
      Notes t t' (containLaws child wrapper cross align across) := by
  cases align with
  | fill => exact Notes.refl t
  | start => exact relate_spec _ _ _ _ _
  | finish => exact relate_spec _ _ _ _ _
  | center => exact relate_spec _ _ _ _ _

/-- A member is the child itself, or a new wrapper around it whose laws are recorded. -/
theorem addMember_spec (plan : StackPlan α) (base : Blueprint) (container child : Nat)
    {placement : Placement α} {post : Nat → Tree α → Prop}
    (hdirect : placement = .direct → post child t)
    (hwrapped : placement ≠ .direct → Ensures (addWrapper base container child) t fun w t₁ =>
      ∀ t₂, Notes t₁ t₂ (wrapperLaws plan container child w placement) → post w t₂) :
    Ensures (addMember plan base container child placement) t post := by
  cases placement with
  | direct => exact hdirect rfl
  | padded before after =>
    refine Ensures.seq (hwrapped (by simp)) fun w t₁ hpost => ?_
    exact (Notes.seq (pinEdges_spec _ _ _ _ _) fun _ => pinEdges_spec _ _ _ _ _).imp
      fun _ t₂ h => hpost t₂ h
  | wrapped align along across =>
    refine Ensures.seq (hwrapped (by simp)) fun w t₁ hpost => ?_
    refine Ensures.seq (pinEdges_spec _ _ _ _ _) fun _ t₂ h₂ => ?_
    refine Ensures.seq (place_spec _ _ _ _ _ _) fun _ t₃ h₃ => ?_
    refine Ensures.seq (contain_spec _ _ _ _ _) fun _ t₄ h₄ => ?_
    -- All four groups of laws are recorded one after the other, and the last one may be empty.
    have hlaws : ∀ t₅, Notes t₄ t₅ (spanLaws plan container w) → post w t₅ :=
      fun t₅ h₅ => hpost t₅ (h₂.trans (h₃.trans (h₄.trans h₅)))
    unfold spanLaws at hlaws
    split
    · rename_i h
      rw [if_pos h] at hlaws
      exact Ensures.seq (relate_spec _ _ _ _ _) fun _ t₅ h₅ => hlaws t₅ h₅
    · rename_i h
      rw [if_neg h] at hlaws
      exact hlaws t₄ (Notes.refl t₄)

theorem shareWeights_spec (axis : Axis) (members : List (Nat × α)) :
    Ensures (shareWeights axis members) t fun _ t' => Notes t t' (weightLaws axis members) := by
  match members with
  | [] => exact Notes.refl t
  | (reference, weight) :: rest =>
    exact Notes.forIn rest _ _ (fun _ _ => relate_spec _ _ _ _ _) t

theorem balance_spec (axis : Axis) (members : Members) :
    Ensures (balance axis members) t fun _ t' => Notes t t' (balanceLaws axis members) := by
  unfold balance balanceLaws
  match members.leading, members.trailing with
  | some first, some last => exact relate_spec _ _ _ _ _
  | some _, none => exact Notes.refl t
  | none, some _ => exact Notes.refl t
  | none, none => exact Notes.refl t

end LayoutCompiler.Layout
