import LayoutCompiler.Proofs.Layout.Laws
import LayoutCompiler.Proofs.Tree.Quiet
/-!
# What building a stack records

The members that a stack gets for its children, and the laws that are recorded for them. Nothing is
assumed of the tree here: what is recorded depends on the plan and on the children alone.

* `Layable.arrange`: what none of the steps breaks, no layout breaks.
* `addMembers_laws`: every child is a member itself, or is held by one through a wrapper's laws.
* `arrangeStack_laws`: the same of a whole stack; `arrangeStack_records` with the laws of weights.
-/

namespace LayoutCompiler.Layout

open LayoutCompiler.Tree (Notes Records)

variable {α : Type} {t : Tree α} {container : Nat}

/-! ## Facts of stacks -/

/-- The keys under which the facts of a stack are written, and its insets. -/
def factKeys : List String :=
  [axisKey, alignmentKey, spacingKey, relativeMarginsKey, "top", "leading", "bottom", "trailing"]

theorem key_mem_of_stackFacts [Scalar α] {plan : StackPlan α} {fact : String × String}
    (h : fact ∈ stackFacts plan) : fact.1 ∈ factKeys := by
  rcases List.mem_cons.1 h with rfl | h
  · show axisKey ∈ factKeys
    decide
  · rcases List.mem_append.1 h with h | h
    · obtain ⟨name, -, rfl⟩ := Option.map_eq_some_iff.1 (Option.mem_toList.1 h)
      show alignmentKey ∈ factKeys
      decide
    · split at h
      · rw [List.mem_singleton.1 h]
        show spacingKey ∈ factKeys
        decide
      · cases h

theorem key_mem_of_insetFacts [Scalar α] {insets : Insets α} {fact : String × String}
    (h : fact ∈ insetFacts insets) : fact.1 ∈ factKeys := by
  have hkeys : ∀ key ∈ (insetFacts insets).map Prod.fst, key ∈ factKeys := by
    show ∀ key ∈ ["top", "leading", "bottom", "trailing"], key ∈ factKeys
    decide
  exact hkeys fact.1 (List.mem_map_of_mem h)

/-! ## Steps along a relation -/

section

variable {R : Tree α → Tree α → Prop} (hR : Lasting R)

include hR

theorem along_addPlain (base : Blueprint) (container : Nat) :
    Along R (addPlain base container : Edit α Nat) :=
  Tree.along_instantiate hR _ _ _

theorem along_addWrapper (base : Blueprint) (container child : Nat) :
    Along R (addWrapper base container child : Edit α Nat) := by
  refine Along.seq hR.stable (along_addPlain hR base container) fun wrapper => ?_
  refine Along.seq hR.stable (Along.modify fun t => ?_) fun _ => Along.pure hR.stable wrapper
  exact Tree.movable_reparent hR.stable.movable t child wrapper

theorem along_addSpacer (base : Blueprint) (container : Nat) (axis : Axis) :
    Along R (addSpacer base container axis : Edit α Nat) := by
  refine Along.seq hR.stable (along_addPlain hR base container) fun spacer => ?_
  refine Along.seq hR.stable (Along.modify fun t => ?_) fun _ => Along.pure hR.stable spacer
  exact Tree.stable_setAttribute hR.stable t spacer _ _

theorem along_addFiller (plan : StackPlan α) (base : Blueprint) (container : Nat)
    (fillers : List Filler) : Along R (addFiller plan base container fillers) := by
  unfold addFiller
  split
  · exact Along.map (along_addSpacer hR base container plan.axis) _
  · exact Along.pure hR.stable none

omit hR

theorem along_describe [Scalar α] (hR : Stable R) (plan : StackPlan α) (container : Nat) :
    Along R (describe plan container) := by
  have hfacts := fun (id : Nat) (facts : List (String × String)) =>
    Tree.along_entries hR facts (fun fact t => t.setAttribute id fact.1 fact.2)
      fun fact t => Tree.stable_setAttribute hR t id _ _
  unfold describe
  refine Along.seq hR (hfacts container (stackFacts plan)) fun _ => ?_
  split
  · refine Along.seq hR (Tree.along_findOrCreate hR container marginsStep) fun margins => ?_
    refine Along.seq hR (hfacts margins (insetFacts plan.insets)) fun _ => Along.modify fun t => ?_
    exact Tree.stable_setAttribute hR t container _ _
  · exact Along.pure hR ()

end

variable [Scalar α]

/-! ## Relations that no layout breaks -/

/-- A relation that is not broken by constraints, by plain nodes and spacers that are made like a
blueprint, by the facts of a stack, and by a change to the links of a node. -/
structure Layable (base : Blueprint) (R : Tree α → Tree α → Prop) : Prop extends Movable R where
  note : ∀ {t t' laws}, Notes t t' laws → R t t'
  plain : ∀ container, Along R (addPlain base container : Edit α Nat)
  spacer : ∀ container axis, Along R (addSpacer base container axis : Edit α Nat)
  margins : ∀ container, Along R (Tree.findOrCreate container marginsStep : Edit α Nat)
  fact : ∀ t id value, ∀ key ∈ factKeys, R t (t.setAttribute id key value)

namespace Layable

variable {R : Tree α → Tree α → Prop} {base : Blueprint}

omit [Scalar α] in
theorem of_lasting (hR : Lasting R) (hnote : ∀ {t t' laws}, Notes t t' laws → R t t') :
    Layable base R where
  toMovable := hR.stable.movable
  note := hnote
  plain := along_addPlain hR base
  spacer := along_addSpacer hR base
  margins container := Tree.along_findOrCreate hR.stable container marginsStep
  fact t id value key _ := Tree.stable_setAttribute hR.stable t id key value

variable (hR : Layable base R)

include hR

omit [Scalar α] in
theorem addFiller (plan : StackPlan α) (container : Nat) (fillers : List Filler) :
    Along R (addFiller plan base container fillers) := by
  unfold Layout.addFiller
  split
  · exact Along.map (hR.spacer container plan.axis) _
  · exact hR.refl

omit [Scalar α] in
theorem addWrapper (container child : Nat) (t : Tree α) :
    Ensures (addWrapper base container child) t fun _ t' => R t t' := by
  unfold Layout.addWrapper
  refine Ensures.seq ((hR.plain container).ensures t) fun wrapper t₁ h₁ => ?_
  exact hR.trans h₁ (Tree.movable_reparent hR.toMovable t₁ child wrapper)

theorem addMembers (plan : StackPlan α) (container : Nat) (children : List (Child α))
    (t : Tree α) : Ensures (addMembers plan base container children) t fun _ t' => R t t' := by
  unfold Layout.addMembers
  refine Ensures.seq ((hR.addFiller plan container _).ensures t) fun leading t₁ h₁ => ?_
  refine Ensures.seq (Ensures.mapM (I := fun _ _ t' => R t t') _ ?_ _ [] h₁) fun inner t₂ h₂ => ?_
  · rintro ⟨child, placement⟩ rest done t' h
    refine Ensures.seq (memberSizes_spec plan.axis child) fun _ t₂ hn => ?_
    have hsizes := hR.trans h (hR.note hn)
    -- a child that is placed directly gets constraints only, any other one a wrapper as well
    refine addMember_spec plan base container child.node (fun _ => hsizes) fun _ => ?_
    refine (hR.addWrapper container child.node t₂).imp ?_
    intro w t₃ h₃ t₄ hn'
    exact hR.trans hsizes (hR.trans h₃ (hR.note hn'))
  · refine Ensures.seq ((hR.addFiller plan container _).ensures t₂) fun trailing t₃ h₃ => ?_
    exact hR.trans h₂ h₃

omit [Scalar α] in
theorem facts (id : Nat) {facts : List (String × String)}
    (hfacts : ∀ fact ∈ facts, fact.1 ∈ factKeys) (t : Tree α) :
    Ensures (forIn facts PUnit.unit fun fact _ => do
        modify (Tree.setAttribute · id fact.1 fact.2)
        pure (ForInStep.yield PUnit.unit)) t fun _ t' => R t t' :=
  Ensures.forIn facts PUnit.unit _ (hR.refl t) fun fact hfact _ t₁ h₁ =>
    hR.trans h₁ (hR.fact t₁ id fact.2 fact.1 (hfacts fact hfact))

theorem describe (plan : StackPlan α) (container : Nat) (t : Tree α) :
    Ensures (describe plan container) t fun _ t' => R t t' := by
  unfold Layout.describe
  refine Ensures.seq (hR.facts container (fun _ => key_mem_of_stackFacts) t) fun _ t₁ h₁ => ?_
  split
  · refine Ensures.seq ((hR.margins container).ensures t₁) fun margins t₂ h₂ => ?_
    refine Ensures.seq (hR.facts margins (fun _ => key_mem_of_insetFacts) t₂) fun _ t₃ h₃ => ?_
    have hmarked := hR.fact t₃ container "YES" relativeMarginsKey (by decide)
    exact hR.trans h₁ (hR.trans h₂ (hR.trans h₃ hmarked))
  · exact h₁

theorem arrangeStack (container : Nat) (params : Params α) (children : List (Child α))
    (t : Tree α) :
    Ensures (arrangeStack base container params children) t fun _ t' => R t t' := by
  unfold Layout.arrangeStack
  refine Ensures.seq (hR.addMembers _ container children t) fun members t₁ h₁ => ?_
  refine Ensures.seq (balance_spec _ members) fun _ t₂ hn₂ => ?_
  refine Ensures.seq (shareWeights_spec _ _) fun _ t₃ hn₃ => ?_
  have hline : R t₃ (lineUp t₃ container members.all) :=
    Tree.movable_setChildren hR.toMovable t₃ container _
  refine Ensures.bind (Ensures.modify ?_)
  refine Ensures.seq (hR.describe _ container _) fun _ t₄ h₄ => ?_
  have hplaced := hR.trans h₁ (hR.note (hn₂.trans hn₃))
  exact hR.trans hplaced (hR.trans hline h₄)

/-- What no step of a layout breaks is kept by the whole layout. -/
theorem arrange (kind : Container) (container : Nat) (params : Params α)
    (children : List (Child α)) : Along R (arrange kind base container params children) := by
  intro t
  by_cases hkind : kind = .linear
  · subst hkind
    exact hR.arrangeStack container params children t
  · have hnotes := arrange_spec (t := t) hkind base container params children
    exact hR.note hnotes

end Layable

/-! ## Members -/

/-- A child and its member: they are the same, or the member is a wrapper whose laws are among
some. -/
inductive Joined (plan : StackPlan α) (container : Nat) (laws : List (Constraint α)) :
    Child α × Placement α → Nat → Prop
  | direct (child : Child α) : Joined plan container laws (child, .direct) child.node
  | wrapper (child : Child α) (placement : Placement α) (member : Nat) (hp : placement ≠ .direct)
    (hlaws : ∀ l ∈ wrapperLaws plan container child.node member placement, l ∈ laws) :
    Joined plan container laws (child, placement) member

theorem Joined.mono {plan : StackPlan α} {laws laws' : List (Constraint α)}
    {pair : Child α × Placement α} {m : Nat} (h : Joined plan container laws pair m)
    (hsub : ∀ l ∈ laws, l ∈ laws') : Joined plan container laws' pair m := by
  cases h with
  | direct child => exact .direct child
  | wrapper child placement _ hp hlaws =>
    exact .wrapper child placement m hp fun l hl => hsub l (hlaws l hl)

theorem addMember_laws (plan : StackPlan α) (base : Blueprint) (container : Nat)
    (child : Child α) (placement : Placement α) (t : Tree α) :
    Ensures (addMember plan base container child.node placement) t fun m t' =>
      ∃ laws, Records t t' laws ∧ Joined plan container laws (child, placement) m := by
  refine addMember_spec plan base container child.node (fun hp => ?_) fun hp => ?_
  · exact ⟨[], Records.refl t, hp ▸ .direct child⟩
  · refine (Quiet.records (along_addWrapper lasting_constraints base container child.node) t).imp
      fun w t₁ h₁ t₂ hn => ?_
    exact ⟨_, h₁.trans hn.records, .wrapper child placement w hp fun l hl => hl⟩

/-- Every child gets its member, in order. -/
theorem addMembers_laws (plan : StackPlan α) (base : Blueprint) (container : Nat)
    (children : List (Child α)) (t : Tree α) :
    Ensures (addMembers plan base container children) t fun members t' =>
      ∃ laws, Records t t' laws ∧
        List.Forall₂ (Joined plan container laws) (children.zip plan.placements)
          members.inner := by
  unfold addMembers
  refine Ensures.seq (Quiet.records (along_addFiller lasting_constraints plan base container _) t)
    fun leading t₁ h₁ => ?_
  -- The members so far belong to the pairs that have been worked off.
  refine Ensures.seq (Ensures.mapM
    (I := fun rest inner t' => ∃ done laws, children.zip plan.placements = done ++ rest ∧
      Records t t' laws ∧ List.Forall₂ (Joined plan container laws) done inner) _ ?_ _ []
    ⟨[], [], rfl, h₁, .nil⟩) fun inner t₂ h₂ => ?_
  · rintro ⟨child, placement⟩ rest inner t' ⟨done, laws, hdone, hrecords, hjoined⟩
    refine Ensures.seq (memberSizes_spec plan.axis child) fun _ t₂ hn₂ => ?_
    refine (addMember_laws plan base container child placement t₂).imp ?_
    rintro m t₃ ⟨laws', hrecords', hm⟩
    refine ⟨done ++ [(child, placement)], laws ++ (memberSizeLaws plan.axis child ++ laws'),
      by rw [hdone, List.append_assoc]; rfl, hrecords.trans (hn₂.records.trans hrecords'), ?_⟩
    refine List.rel_append (hjoined.imp fun pair m h => h.mono fun l hl => ?_)
      (.cons (hm.mono fun l hl => ?_) .nil)
    · exact List.mem_append_right _ (List.mem_append_right _ hl)
    · exact List.mem_append_left _ hl
  · obtain ⟨done, laws, hdone, hrecords, hjoined⟩ := h₂
    rw [List.append_nil] at hdone
    refine Ensures.seq
      (Quiet.records (along_addFiller lasting_constraints plan base container _) t₂)
      fun trailing t₃ h₃ => ?_
    have hall := hrecords.trans h₃
    rw [List.append_nil] at hall
    exact ⟨laws, hall, hdone ▸ hjoined⟩

/-- The members of a stack of children that is built in a tree. -/
def membersOf (base : Blueprint) (container : Nat) (params : Params α) (children : List (Child α))
    (t : Tree α) : Members :=
  (addMembers (plan params (children.map (·.params))) base container children t).1

/-- A stack records the laws of its members and those of their weights, whatever else it records. -/
theorem arrangeStack_records (base : Blueprint) (container : Nat) (params : Params α)
    (children : List (Child α)) (t : Tree α) :
    Ensures (arrangeStack base container params children) t fun _ t' =>
      ∃ laws, Records t t' laws ∧
        List.Forall₂ (Joined (plan params (children.map (·.params))) container laws)
          (children.zip (plan params (children.map (·.params))).placements)
          (membersOf base container params children t).inner ∧
        ∀ l ∈ weightLaws (plan params (children.map (·.params))).axis
          (weightedMembers (plan params (children.map (·.params))) children
            (membersOf base container params children t).inner), l ∈ laws := by
  unfold arrangeStack membersOf
  -- of the plan no more is used than that it is one plan for all steps
  generalize plan params (children.map (·.params)) = plan
  have hmembers := addMembers_laws plan base container children t
  refine Ensures.seq (R := fun members t₁ =>
    members = (addMembers plan base container children t).1 ∧ ∃ laws, Records t t₁ laws ∧
      List.Forall₂ (Joined plan container laws) (children.zip plan.placements) members.inner)
    ⟨rfl, hmembers⟩ ?_
  rintro members t₁ ⟨rfl, laws, h₁, hjoined⟩
  refine Ensures.seq (balance_spec plan.axis _) fun _ t₂ h₂ => ?_
  refine Ensures.seq (shareWeights_spec plan.axis _) fun _ t₃ h₃ => ?_
  refine Ensures.bind (Ensures.modify ?_)
  refine Ensures.seq (Quiet.records (along_describe lasting_constraints.stable plan container) _)
    fun _ t₄ h₄ => ?_
  -- the members' laws are recorded first, and the steps after them only add to what is there
  have hline : Records t₃ t₄ [] :=
    (Records.of_eq (Tree.constraints_setChildren t₃ container _)).trans h₄
  have hall := h₁.trans (h₂.records.trans (h₃.records.trans hline))
  refine ⟨_, hall, hjoined.imp ?_, ?_⟩
  · intro pair m h
    exact h.mono fun l hl => List.mem_append_left _ hl
  · intro l hl
    exact List.mem_append_right _ (List.mem_append_right _ (List.mem_append_left _ hl))

/-- A stack records the laws of its members, whatever else it records. -/
theorem arrangeStack_laws (base : Blueprint) (container : Nat) (params : Params α)
    (children : List (Child α)) (t : Tree α) :
    Ensures (arrangeStack base container params children) t fun _ t' =>
      ∃ laws, Records t t' laws ∧
        List.Forall₂ (Joined (plan params (children.map (·.params))) container laws)
          (children.zip (plan params (children.map (·.params))).placements)
          (membersOf base container params children t).inner := by
  refine (arrangeStack_records base container params children t).imp fun _ t' h => ?_
  obtain ⟨laws, hrecords, hjoined, -⟩ := h
  exact ⟨laws, hrecords, hjoined⟩

end LayoutCompiler.Layout
