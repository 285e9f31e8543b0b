import LayoutCompiler.Proofs.Layout.Laws
/-!
# Pins

Which laws pin an edge of a node to the same edge of another one, and how far inside of it. An edge
that is pinned once, by `inset`, is where `inset` says.

* `pins_eq_nil`: laws that are not about both nodes pin no edge.
* `pins_edgeLaws`, `pins_overlayLaws`, `pins_scrollLaws`: the pins of what a container records.
-/

namespace LayoutCompiler

/-- The two edges of a box on an axis. -/
inductive Edge where
  | start
  | finish
deriving Repr, DecidableEq

/-- What belongs to an edge, of what belongs to both. -/
def Edge.pick {α : Type} (start finish : α) : Edge → α
  | .start => start
  | .finish => finish

/-- The inset at an edge. -/
def Insets.at {α : Type} (i : Insets α) (edge : Edge) (axis : Axis) : α :=
  edge.pick (i.start axis) (i.finish axis)

namespace Layout

variable {α : Type} {edge : Edge} {axis axis' : Axis} {child container : Nat}
  {l : Constraint α} {laws laws' : List (Constraint α)}

/-! ## Reading pins off laws -/

/-- What a law that pins an edge of a child inside a container says is equal: outer edges are where
the inner ones are, or further along the axis. -/
def pinned (edge : Edge) (axis : Axis) (child container : Nat) : Anchor × Anchor :=
  match edge with
  | .start => (⟨child, axis.start⟩, ⟨container, axis.start⟩)
  | .finish => (⟨container, axis.finish⟩, ⟨child, axis.finish⟩)

/-- How far inside a container a law pins an edge of a child, if it does. -/
def pin? (edge : Edge) (axis : Axis) (child container : Nat) (l : Constraint α) : Option α :=
  let anchors := pinned edge axis child container
  if l.first = anchors.1 ∧ l.second = some anchors.2 ∧ l.relation = .equal then some l.constant
  else none

/-- The distances at which laws pin an edge of a child inside a container. -/
def pins (edge : Edge) (axis : Axis) (child container : Nat) (laws : List (Constraint α)) :
    List α :=
  laws.filterMap (pin? edge axis child container)

theorem pins_append : pins edge axis child container (laws ++ laws') =
    pins edge axis child container laws ++ pins edge axis child container laws' := by
  simp only [pins, List.filterMap_append]

theorem pins_map_law (ks : List (Constraint α)) :
    pins edge axis child container (ks.map Constraint.law) =
      pins edge axis child container ks := by
  simp only [pins, List.filterMap_map]
  rfl

/-- A law that pins one node to another is about both. -/
theorem mem_of_pin? (h : pin? edge axis child container l ≠ none) :
    child ∈ l.participants ∧ container ∈ l.participants := by
  unfold pin? at h
  dsimp only at h
  split at h
  · rename_i hl
    obtain ⟨hfirst, hsecond, -⟩ := hl
    cases edge with
    | start => simp [Constraint.participants, hfirst, hsecond, pinned]
    | finish => simp [Constraint.participants, hfirst, hsecond, pinned]
  · exact absurd rfl h

theorem pins_eq_nil (h : ∀ l ∈ laws, child ∈ l.participants → container ∉ l.participants) :
    pins edge axis child container laws = [] := by
  refine List.filterMap_eq_nil_iff.2 fun l hl => ?_
  by_contra hpin
  obtain ⟨hchild, hcontainer⟩ := mem_of_pin? hpin
  exact h l hl hchild hcontainer

/-- Laws on one node alone pin nothing. -/
theorem pins_of_bounds {a : Nat} (h : ∀ l ∈ laws, Bounds a l) :
    pins edge axis child container laws = [] := by
  refine List.filterMap_eq_nil_iff.2 fun l hl => ?_
  unfold pin?
  rw [(h l hl).1]
  refine if_neg fun hpin => ?_
  cases hpin.2.1

/-! ## The pins of containers -/

/-- Whether an alignment of a child says where an edge of it is. -/
def fixes : Align → Edge → Bool
  | .fill, _ => true
  | .start, .start => true
  | .finish, .finish => true
  | _, _ => false

/-- Whether a container pins an edge of a child. -/
def pinsEdge (kind : Container) (child : Params α) (edge : Edge) (axis : Axis) : Bool :=
  match kind with
  | .frame => fixes (overlayAlignment child axis) edge
  | .scroll _ => true
  | _ => false

variable [Scalar α] {params : Params α} {start finish x : α} {align : Align}

theorem pin?_startLaw : pin? edge axis child container (startLaw child container axis' x) =
    if edge = .start ∧ axis = axis' then some x else none := by
  cases edge <;> cases axis <;> cases axis' <;> simp [pin?, pinned, startLaw, pinLaw, relateLaw,
    Axis.start, Axis.finish]

theorem pin?_finishLaw : pin? edge axis child container (finishLaw child container axis' x) =
    if edge = .finish ∧ axis = axis' then some x else none := by
  cases edge <;> cases axis <;> cases axis' <;> simp [pin?, pinned, finishLaw, pinLaw, relateLaw,
    Axis.start, Axis.finish]

theorem pin?_centerLaw :
    pin? edge axis child container (centerLaw child container axis' start finish) = none := by
  cases edge <;> cases axis <;> cases axis' <;> simp [pin?, pinned, centerLaw, pinLaw, relateLaw,
    Axis.start, Axis.finish, Axis.center]

theorem pin?_extentLaw :
    pin? edge axis child container (extentLaw child container axis' x) = none := by
  cases edge <;> cases axis <;> cases axis' <;> simp [pin?, pinned, extentLaw, relateLaw,
    Axis.start, Axis.finish, Axis.extent]

theorem pins_edgeLaws :
    pins edge axis child container (edgeLaws child container axis' start finish) =
      if axis = axis' then [edge.pick start finish] else [] := by
  unfold pins edgeLaws
  by_cases h : axis = axis'
  · cases edge <;> simp [pin?_startLaw, pin?_finishLaw, Edge.pick, h]
  · simp [pin?_startLaw, pin?_finishLaw, h]

theorem pins_placeLaws :
    pins edge axis child container (placeLaws child container axis' align start finish) =
      if axis = axis' ∧ fixes align edge then [edge.pick start finish] else [] := by
  cases align with
  | fill => simpa [fixes, placeLaws] using pins_edgeLaws
  | start =>
    cases edge <;> by_cases h : axis = axis' <;>
      simp [pins, placeLaws, pin?_startLaw, fixes, Edge.pick, h]
  | finish =>
    cases edge <;> by_cases h : axis = axis' <;>
      simp [pins, placeLaws, pin?_finishLaw, fixes, Edge.pick, h]
  | center => simp [pins, placeLaws, pin?_centerLaw, fixes]

omit [Scalar α] in
/-- Of laws for both axes, those for one pin edges on it. -/
theorem pins_both {laws : Axis → List (Constraint α)} {result : Axis → List α}
    (h : ∀ axis', pins edge axis child container (laws axis') =
      if axis = axis' then result axis' else []) :
    pins edge axis child container (Axis.both.flatMap laws) = result axis := by
  have hboth : Axis.both.flatMap laws = laws .horizontal ++ laws .vertical := by
    simp [Axis.both]
  rw [hboth, pins_append, h, h]
  cases axis <;> simp

theorem pick_add (i j : Insets α) (edge : Edge) (axis : Axis) :
    edge.pick (i.start axis + j.start axis) (i.finish axis + j.finish axis) =
      i.at edge axis + j.at edge axis := by
  cases edge <;> rfl

theorem at_plus (i j : Insets α) (edge : Edge) (axis : Axis) :
    (i.plus j).at edge axis = i.at edge axis + j.at edge axis := by
  cases edge <;> cases axis <;> rfl

theorem pins_overlayLaws (child : Child α) :
    pins edge axis child.node container (overlayLaws container params child axis') =
      if axis = axis' then
        if fixes (overlayAlignment child.params axis') edge then
          [params.padding.at edge axis' + child.params.margin.at edge axis']
        else []
      else [] := by
  have hsizes : pins edge axis child.node container
      (if overlayAlignment child.params axis' ≠ .fill then
        sizeLaws child.node child.params axis' else []) = [] := by
    refine pins_of_bounds (a := child.node) fun l hl => ?_
    split at hl
    · exact bounds_sizeLaws hl
    · cases hl
  unfold overlayLaws
  rw [pins_append, hsizes, List.append_nil, pins_placeLaws, pick_add, ite_and]

theorem pins_scrollLaws (child : Child α) (along : Axis) :
    pins edge axis child.node container (scrollLaws container params along child) =
      [params.padding.at edge axis + child.params.margin.at edge axis] := by
  have hextent : ∀ less : α, pins edge axis child.node container
      [extentLaw child.node container along.cross less] = [] := by
    intro less
    simp [pins, pin?_extentLaw]
  unfold scrollLaws
  dsimp only
  rw [pins_append, pins_append, hextent, List.append_nil, pins_edgeLaws, pins_edgeLaws]
  rw [← at_plus]
  cases axis <;> rfl

theorem pins_childLaws (kind : Container) (child : Child α) :
    pins edge axis child.node container (childLaws kind container params child) =
      if pinsEdge kind child.params edge axis then
        [params.padding.at edge axis + child.params.margin.at edge axis]
      else [] := by
  cases kind with
  | linear => rfl
  | none => rfl
  | frame => exact pins_both fun axis' => pins_overlayLaws child
  | scroll along => exact pins_scrollLaws child along

omit [Scalar α] in
/-- Laws about other children pin none of a child's edges. -/
theorem pins_flatMap {children : List (Child α)} {child : Child α}
    {laws : Child α → List (Constraint α)} (hnodup : (children.map (·.node)).Nodup)
    (hmem : child ∈ children) (hne : child.node ≠ container)
    (hlaws : ∀ c ∈ children, ∀ l ∈ laws c, Joins c.node container l ∨ Bounds c.node l) :
    pins edge axis child.node container (children.flatMap laws) =
      pins edge axis child.node container (laws child) := by
  -- the laws of another child are about that child and the container alone
  have hother : ∀ c ∈ children, c.node ≠ child.node →
      pins edge axis child.node container (laws c) = [] := by
    intro c hc hcc
    refine pins_eq_nil fun l hl hchild => ?_
    rcases hlaws c hc l hl with hj | hb
    · rcases hj.eq_or_eq hchild with heq | heq
      · exact absurd heq.symm hcc
      · exact absurd heq hne
    · exact absurd (hb.eq_of_mem hchild).symm hcc
  clear hlaws
  induction children with
  | nil => cases hmem
  | cons first rest ih =>
    obtain ⟨hfresh, hnodup⟩ := List.nodup_cons.1 hnodup
    rw [List.flatMap_cons, pins_append]
    rcases List.mem_cons.1 hmem with rfl | hmem
    -- the node is the first child's, so none of the rest has it
    · have hrest : pins edge axis child.node container (rest.flatMap laws) = [] := by
        refine List.filterMap_eq_nil_iff.2 fun l hl => ?_
        obtain ⟨c, hc, hl⟩ := List.mem_flatMap.1 hl
        have hcc : c.node ≠ child.node := fun heq => hfresh (List.mem_map.2 ⟨c, hc, heq⟩)
        exact List.filterMap_eq_nil_iff.1 (hother c (List.mem_cons_of_mem _ hc) hcc) l hl
      rw [hrest, List.append_nil]
    · have hfirst : first.node ≠ child.node := fun heq =>
        hfresh (List.mem_map.2 ⟨child, hmem, heq.symm⟩)
      rw [hother first List.mem_cons_self hfirst, List.nil_append]
      exact ih hnodup hmem fun c hc => hother c (List.mem_cons_of_mem _ hc)

end Layout

end LayoutCompiler
