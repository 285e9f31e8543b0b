import LayoutCompiler.Proofs.Layout.Members
/-!
# The sizes of stretched children

A child that is stretched to its container on an axis is as large as that makes it, so that an
explicit size which must hold can only be in the way. Explicit sizes are the laws on one box alone,
which can be told from all others that a container records: these are between two boxes.

* `Sizes`: constraints have been recorded, with the given laws on one box alone.
* `sizes_arrange`: what any kind of container records on one box alone.
* `fixed_of_arrange`: which extents are fixed. Overlays and scroll views fix none of a stretched
  child; a stack does wherever the child states a size.
-/

namespace LayoutCompiler.Layout

open LayoutCompiler.Tree (Notes Records)

variable {α : Type} {t t' t'' : Tree α} {laws laws' : List (Constraint α)} {container : Nat}

/-! ## Laws on one box alone -/

/-- The laws on one box alone. -/
def loneLaws (laws : List (Constraint α)) : List (Constraint α) := laws.filter (·.second.isNone)

theorem loneLaws_append (laws laws' : List (Constraint α)) :
    loneLaws (laws ++ laws') = loneLaws laws ++ loneLaws laws' := List.filter_append laws laws'

theorem loneLaws_eq_self (h : ∀ l ∈ laws, l.second = none) : loneLaws laws = laws := by
  apply List.filter_eq_self.2
  intro l hl
  rw [h l hl]
  rfl

theorem loneLaws_eq_nil (h : ∀ l ∈ laws, l.second.isSome) : loneLaws laws = [] := by
  apply List.filter_eq_nil_iff.2
  intro l hl hnone
  rw [Option.isNone_iff_eq_none] at hnone
  have hsome := h l hl
  rw [hnone] at hsome
  cases hsome

theorem mem_loneLaws {l : Constraint α} : l ∈ loneLaws laws ↔ l ∈ laws ∧ l.second = none := by
  rw [loneLaws, List.mem_filter, Option.isNone_iff_eq_none]

/-- Constraints have been recorded; those on one box alone have some laws. -/
def Sizes (t t' : Tree α) (sizes : List (Constraint α)) : Prop :=
  ∃ laws, Records t t' laws ∧ loneLaws laws = sizes

namespace Sizes

theorem of_records (h : Records t t' laws) (hlaws : ∀ l ∈ laws, l.second = none) :
    Sizes t t' laws := ⟨laws, h, loneLaws_eq_self hlaws⟩

theorem of_joining (h : Records t t' laws) (hlaws : ∀ l ∈ laws, l.second.isSome) :
    Sizes t t' [] := ⟨laws, h, loneLaws_eq_nil hlaws⟩

theorem of_eq (h : Records t t' []) : Sizes t t' [] := ⟨[], h, rfl⟩

theorem trans (h : Sizes t t' laws) (h' : Sizes t' t'' laws') : Sizes t t'' (laws ++ laws') := by
  obtain ⟨all, hrecords, rfl⟩ := h
  obtain ⟨all', hrecords', rfl⟩ := h'
  exact ⟨all ++ all', hrecords.trans hrecords', loneLaws_append all all'⟩

end Sizes

variable [Scalar α]

/-! ## What containers record on one box alone -/

theorem sizes_addMember (plan : StackPlan α) (base : Blueprint) (container child : Nat)
    (placement : Placement α) (t : Tree α) :
    Ensures (addMember plan base container child placement) t fun _ t' => Sizes t t' [] := by
  refine addMember_spec plan base container child (fun _ => Sizes.of_eq (Records.refl t)) ?_
  intro _
  refine (Quiet.records (along_addWrapper lasting_constraints base container child) t).imp ?_
  intro wrapper t₁ h₁ t₂ h₂
  refine (Sizes.of_eq h₁).trans (Sizes.of_joining h₂.records ?_)
  intro l hl
  rcases joins_wrapperLaws hl with h | h
  · exact h.second
  · exact h.second

/-- The members of a stack come with the sizes of the children, in order. -/
theorem sizes_addMembers (plan : StackPlan α) (base : Blueprint) (container : Nat)
    (children : List (Child α)) (t : Tree α) :
    Ensures (addMembers plan base container children) t fun _ t' =>
      Sizes t t' ((children.zip plan.placements).flatMap fun pair =>
        memberSizeLaws plan.axis pair.1) := by
  unfold addMembers
  refine Ensures.seq (Quiet.records (along_addFiller lasting_constraints plan base container _) t)
    fun leading t₁ h₁ => ?_
  -- The sizes so far are those of the pairs that have been worked off.
  refine Ensures.seq (Ensures.mapM
    (I := fun rest _ t' => ∃ done, children.zip plan.placements = done ++ rest ∧
      Sizes t t' (done.flatMap fun pair => memberSizeLaws plan.axis pair.1)) _ ?_ _ []
    ⟨[], rfl, Sizes.of_eq h₁⟩) fun inner t₂ h₂ => ?_
  · rintro ⟨child, placement⟩ rest inner t' ⟨done, hdone, hsizes⟩
    refine Ensures.seq (memberSizes_spec plan.axis child) fun _ t₂ h₂ => ?_
    refine (sizes_addMember plan base container child.node placement t₂).imp ?_
    intro m t₃ h₃
    have hchild : Sizes t' t₂ (memberSizeLaws plan.axis child) :=
      Sizes.of_records h₂.records fun l hl => (bounds_memberSizeLaws hl).1
    refine ⟨done ++ [(child, placement)], by rw [hdone, List.append_assoc]; rfl, ?_⟩
    have hall := hsizes.trans (hchild.trans h₃)
    rw [List.append_nil] at hall
    rwa [List.flatMap_append, List.flatMap_singleton]
  · obtain ⟨done, hdone, hsizes⟩ := h₂
    rw [List.append_nil] at hdone
    refine Ensures.seq
      (Quiet.records (along_addFiller lasting_constraints plan base container _) t₂)
      fun trailing t₃ h₃ => ?_
    have hall := hsizes.trans (Sizes.of_eq h₃)
    rw [List.append_nil] at hall
    exact hdone ▸ hall

theorem isSome_of_weightLaws {axis : Axis} {members : List (Nat × α)} {l : Constraint α}
    (h : l ∈ weightLaws axis members) : l.second.isSome := by
  match members with
  | [] => cases h
  | (reference, weight) :: rest =>
    obtain ⟨⟨member, other⟩, -, h⟩ := List.mem_flatMap.1 h
    rw [List.mem_singleton.1 h]
    rfl

theorem sizes_arrangeStack (base : Blueprint) (container : Nat) (params : Params α)
    (children : List (Child α)) (t : Tree α) :
    Ensures (arrangeStack base container params children) t fun _ t' =>
      Sizes t t' (children.flatMap (memberSizeLaws params.orientation)) := by
  unfold arrangeStack
  -- the loop runs over children with their placements, of which the sizes see the child alone
  have hpairs : (children.zip (plan params (children.map (·.params))).placements).flatMap
      (fun pair => memberSizeLaws params.orientation pair.1) =
        children.flatMap (memberSizeLaws params.orientation) := by
    have hfst : (children.zip (plan params (children.map (·.params))).placements).map Prod.fst =
        children := by
      apply List.map_fst_zip
      simp [plan]
    conv_rhs => rw [← hfst]
    rw [List.flatMap_map]
  refine Ensures.seq (sizes_addMembers _ base container children t) fun members t₁ h₁ => ?_
  refine Ensures.seq (balance_spec _ _) fun _ t₂ h₂ => ?_
  refine Ensures.seq (shareWeights_spec _ _) fun _ t₃ h₃ => ?_
  refine Ensures.bind (Ensures.modify ?_)
  refine Ensures.seq (Quiet.records (along_describe lasting_constraints.stable _ container) _)
    fun _ t₄ h₄ => ?_
  -- the steps after the members tie two nodes to each other and set no size
  have hbalance : Sizes t₁ t₂ [] := by
    refine Sizes.of_joining h₂.records ?_
    intro l hl
    obtain ⟨a, -, b, -, hjoins⟩ := joins_balanceLaws hl
    exact hjoins.second
  have hweights : Sizes t₂ t₃ [] := Sizes.of_joining h₃.records fun l => isSome_of_weightLaws
  have hline : Sizes t₃ t₄ [] :=
    Sizes.of_eq ((Records.of_eq (Tree.constraints_setChildren t₃ container _)).trans h₄)
  have hall := h₁.trans (hbalance.trans (hweights.trans hline))
  simp only [List.append_nil] at hall
  show Sizes t t₄ (children.flatMap (memberSizeLaws params.orientation))
  rw [← hpairs]
  exact hall

/-- A container gives a child its own size on an axis. -/
def Grants (kind : Container) (params child : Params α) (axis : Axis) : Prop :=
  match kind with
  | .linear => ¬ (isWeighted child ∧ axis = params.orientation)
  | .frame => overlayAlignment child axis ≠ .fill
  | .scroll _ => False
  | .none => False

theorem mem_memberSizeLaws {params : Params α} {child : Child α} {l : Constraint α} :
    l ∈ memberSizeLaws params.orientation child ↔
      ∃ axis, Grants .linear params child.params axis ∧
        l ∈ sizeLaws child.node child.params axis := by
  have hcross : params.orientation.cross ≠ params.orientation := by
    cases params.orientation <;> decide
  have haxis : ∀ axis, axis = params.orientation ∨ axis = params.orientation.cross := by
    intro axis
    cases params.orientation <;> cases axis <;> decide
  have hmain : (l ∈ if !isWeighted child.params then
      sizeLaws child.node child.params params.orientation else []) ↔
        Grants .linear params child.params params.orientation ∧
          l ∈ sizeLaws child.node child.params params.orientation := by
    cases hweighted : isWeighted child.params <;> simp [Grants, hweighted]
  unfold memberSizeLaws
  rw [List.mem_append, hmain]
  constructor
  · rintro (h | h)
    · exact ⟨_, h⟩
    · exact ⟨_, fun hgrants => hcross hgrants.2, h⟩
  · rintro ⟨axis, hgrants, h⟩
    rcases haxis axis with rfl | rfl
    · exact Or.inl ⟨hgrants, h⟩
    · exact Or.inr h

theorem mem_overlayLaws {params : Params α} {child : Child α} {axis : Axis} {l : Constraint α} :
    l ∈ overlayLaws container params child axis ∧ l.second = none ↔
      Grants .frame params child.params axis ∧ l ∈ sizeLaws child.node child.params axis := by
  unfold overlayLaws
  rw [List.mem_append]
  constructor
  -- the laws of the place have a second anchor, so one without comes from the sizes
  · rintro ⟨h | h, hnone⟩
    · have hsome := (joins_placeLaws h).second
      rw [hnone] at hsome
      cases hsome
    · split at h
      · rename_i hgrants
        exact ⟨hgrants, h⟩
      · cases h
  · rintro ⟨hgrants, h⟩
    have hnot : overlayAlignment child.params axis ≠ .fill := hgrants
    refine ⟨Or.inr ?_, (bounds_sizeLaws h).1⟩
    rwa [if_pos hnot]

/-- What a container other than a stack records on one box alone, child by child. -/
theorem mem_childLaws {kind : Container} (hkind : kind ≠ .linear) {params : Params α}
    {child : Child α} {l : Constraint α} :
    l ∈ childLaws kind container params child ∧ l.second = none ↔
      ∃ axis, Grants kind params child.params axis ∧
        l ∈ sizeLaws child.node child.params axis := by
  cases kind with
  | linear => exact absurd rfl hkind
  | none =>
    constructor
    · rintro ⟨h, -⟩
      cases h
    · rintro ⟨axis, hgrants, -⟩
      cases hgrants
  -- a scrolled child gets laws that tie it to the container, and none of its size
  | scroll along =>
    constructor
    · rintro ⟨h, hnone⟩
      have hsome := (joins_scrollLaws h).second
      rw [hnone] at hsome
      cases hsome
    · rintro ⟨axis, hgrants, -⟩
      cases hgrants
  | frame =>
    constructor
    · rintro ⟨h, hnone⟩
      obtain ⟨axis, -, h⟩ := List.mem_flatMap.1 h
      exact ⟨axis, mem_overlayLaws.1 ⟨h, hnone⟩⟩
    · rintro ⟨axis, h⟩
      have hlaw : l ∈ overlayLaws container params child axis ∧ l.second = none :=
        mem_overlayLaws.2 h
      refine ⟨List.mem_flatMap.2 ⟨axis, ?_, hlaw.1⟩, hlaw.2⟩
      cases axis <;> decide

/-- What a container records on one box alone are the sizes that it gives to its children. -/
theorem sizes_arrange (kind : Container) (base : Blueprint) (container : Nat) (params : Params α)
    (children : List (Child α)) (t : Tree α) :
    Ensures (arrange kind base container params children) t fun _ t' =>
      ∃ sizes, Sizes t t' sizes ∧ ∀ l, l ∈ sizes ↔ ∃ child ∈ children, ∃ axis,
        Grants kind params child.params axis ∧ l ∈ sizeLaws child.node child.params axis := by
  -- a stack goes through its members, all others treat each child by itself
  by_cases hkind : kind = .linear
  · subst hkind
    refine (sizes_arrangeStack base container params children t).imp ?_
    intro _ t' h
    refine ⟨_, h, ?_⟩
    intro l
    rw [List.mem_flatMap]
    exact exists_congr fun child => and_congr_right fun _ => mem_memberSizeLaws
  · refine (arrange_spec hkind base container params children).imp ?_
    intro _ t' h
    refine ⟨_, ⟨_, h.records, rfl⟩, ?_⟩
    intro l
    rw [mem_loneLaws, List.mem_flatMap]
    constructor
    · rintro ⟨⟨child, hchild, hl⟩, hnone⟩
      exact ⟨child, hchild, (mem_childLaws hkind).1 ⟨hl, hnone⟩⟩
    · rintro ⟨child, hchild, hl⟩
      have hlaw : l ∈ childLaws kind container params child ∧ l.second = none :=
        (mem_childLaws hkind).2 hl
      exact ⟨⟨child, hchild, hlaw.1⟩, hlaw.2⟩

/-! ## Fixed extents -/

/-- A constraint fixes the extent of a node on an axis: it states it by itself, and must hold. -/
def Fixes (node : Nat) (axis : Axis) (c : Constraint α) : Prop :=
  c.first = ⟨node, axis.extent⟩ ∧ c.second = none ∧ c.relation = .equal ∧
    c.priority = Priority.required

/-- A box states its size on an axis, and no least one that it would have to yield to. -/
def Firm (params : Params α) (axis : Axis) : Prop :=
  (∃ length, params.size axis = .exact length) ∧ params.minSize axis = none

/-- A container makes a child as large as itself on an axis. -/
def Stretches (kind : Container) (params child : Params α) (axis : Axis) : Prop :=
  match kind with
  | .linear =>
    axis = params.orientation.cross ∧ stackAlignment params child params.orientation.cross = .fill
  | .frame => overlayAlignment child axis = .fill
  | .scroll _ => True
  | .none => False

/-- Of the containers that stretch a child, only a stack gives it its own size. -/
theorem grants_of_stretches {kind : Container} {params child : Params α} {axis : Axis}
    (h : Stretches kind params child axis) : Grants kind params child axis ↔ kind = .linear := by
  cases kind with
  | linear =>
    refine ⟨fun _ => rfl, fun _ => ?_⟩
    rintro ⟨-, haxis⟩
    have hcross := h.1
    rw [haxis] at hcross
    revert hcross
    cases params.orientation <;> decide
  | frame => exact ⟨fun hgrants => absurd h hgrants, fun hkind => nomatch hkind⟩
  | scroll along => exact ⟨fun hgrants => hgrants.elim, fun hkind => nomatch hkind⟩
  | none => exact h.elim

/-- The size of a box fixes its extent on just the axis on which it is firm. -/
theorem fixes_sizeLaws {node n : Nat} {params : Params α} {axis a : Axis} :
    (∃ l ∈ sizeLaws node params axis, Fixes n a l) ↔ node = n ∧ axis = a ∧ Firm params axis := by
  have hextent : axis.extent = a.extent ↔ axis = a := by
    cases axis <;> cases a <;> decide
  have hyielding : Priority.yielding ≠ Priority.required := by decide
  unfold sizeLaws Firm
  cases params.size axis <;> cases params.minSize axis <;>
    simp [Fixes, boundLaw, hextent, hyielding]

/-- Which extents a container fixes: of the children that it gives their own size to, just those
that state one and no least one beside it. A child that an overlay or a scroll view stretches is
not among them, so that nothing is in the way of the container. A stack gives their own size to the
children that it stretches, too. -/
theorem fixed_of_arrange (kind : Container) (base : Blueprint) (container : Nat)
    (params : Params α) (children : List (Child α)) (t : Tree α) :
    Ensures (arrange kind base container params children) t fun _ t' =>
      ∃ new, t'.constraints = t.constraints ++ new ∧ ∀ node axis,
        ((∃ c ∈ new, Fixes node axis c) ↔ ∃ child ∈ children, child.node = node ∧
          Firm child.params axis ∧ Grants kind params child.params axis) ∧
        ((∀ child ∈ children, child.node = node → Stretches kind params child.params axis) →
          ((∃ c ∈ new, Fixes node axis c) ↔ kind = .linear ∧
            ∃ child ∈ children, child.node = node ∧ Firm child.params axis)) := by
  refine (sizes_arrange kind base container params children t).imp ?_
  rintro _ t' ⟨_, ⟨_, ⟨new, hnew, rfl⟩, rfl⟩, hmem⟩
  refine ⟨new, hnew, ?_⟩
  intro node axis
  -- a law that fixes an extent has one anchor only, so it is one of the size laws
  have hfixes : (∃ c ∈ new, Fixes node axis c) ↔ ∃ child ∈ children, child.node = node ∧
      Firm child.params axis ∧ Grants kind params child.params axis := by
    constructor
    · rintro ⟨c, hc, hfixes⟩
      have hlaw : c.law ∈ loneLaws (new.map Constraint.law) :=
        mem_loneLaws.2 ⟨List.mem_map_of_mem hc, hfixes.2.1⟩
      obtain ⟨child, hchild, a, hgrants, hl⟩ := (hmem _).1 hlaw
      obtain ⟨hnode, rfl, hfirm⟩ := fixes_sizeLaws.1 ⟨_, hl, hfixes⟩
      exact ⟨child, hchild, hnode, hfirm, hgrants⟩
    · rintro ⟨child, hchild, hnode, hfirm, hgrants⟩
      obtain ⟨l, hl, hfixes⟩ := fixes_sizeLaws.2 ⟨hnode, rfl, hfirm⟩
      have hlone := (hmem l).2 ⟨child, hchild, axis, hgrants, hl⟩
      obtain ⟨c, hc, rfl⟩ := List.mem_map.1 (mem_loneLaws.1 hlone).1
      exact ⟨c, hc, hfixes⟩
  refine ⟨hfixes, ?_⟩
  intro hstretches
  rw [hfixes]
  constructor
  · rintro ⟨child, hchild, hnode, hfirm, hgrants⟩
    exact ⟨(grants_of_stretches (hstretches child hchild hnode)).1 hgrants, child, hchild, hnode,
      hfirm⟩
  · rintro ⟨hkind, child, hchild, hnode, hfirm⟩
    exact ⟨child, hchild, hnode, hfirm,
      (grants_of_stretches (hstretches child hchild hnode)).2 hkind⟩

end LayoutCompiler.Layout
