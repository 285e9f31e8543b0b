import LayoutCompiler.Proofs.Compilation.Visits
import LayoutCompiler.Proofs.Layout.Pins
/-!
# Insets of children

How far inside of the outer box of its element a child is pinned. An element with attributes that
need a node of their own has two boxes: the inner one is pinned into the outer one at the padding
that these attributes state, and the children into the inner one at the padding that all of its
attributes state. Padding that needs a node of its own therefore counts twice.

* `Laid.pins_child`, `Laid.pins_inner`: the only pins between the boxes of an element.
* `inset_of_visited`: the inset of every child, and when it is the padding and the margin alone.
-/

namespace LayoutCompiler

open Layout (pins pinsEdge pins_append pins_eq_nil)

variable {α : Type} [Scalar α]

/-- The inset from the outer box to the inner box of an element, as far as attributes state it. -/
def Prepared.outline (setting : Setting α) (p : Prepared α) : Outcome (Insets α) :=
  if p.forcing.isEmpty then .ok (Insets.uniform 0)
  else (Params.read setting.resources p.forcing).map (·.padding)

/-- The distances at which an edge of the inner box of an element is pinned inside the outer box. -/
def Tree.outlinePins (t : Tree α) (placed : Placed) (edge : Edge) (axis : Axis) : List α :=
  if placed.inner = placed.outer then [0]
  else pins edge axis placed.inner placed.outer t.constraints

/-- How far inside the outer box of its element an edge of a child is pinned, if it is. -/
def Tree.inset? (t : Tree α) (placed : Placed) (child : Nat) (edge : Edge) (axis : Axis) :
    Option α :=
  match t.outlinePins placed edge axis, pins edge axis child placed.inner t.constraints with
  | [outline], [inset] => some (outline + inset)
  | _, _ => none

namespace Compilation

variable {setting : Setting α} {file : String} {root e : Element} {p : Prepared α}
  {placed : Placed} {child : Child α} {children : List (Child α)} {t : Tree α}
  {edge : Edge} {axis : Axis}

/-! ## The pins of an element -/

theorem pins_outlineLaws (placed : Placed) (padding : Insets α) :
    pins edge axis placed.inner placed.outer (Compile.outlineLaws placed padding) =
      [padding.at edge axis] := by
  have hlaws : ∀ axis', pins edge axis placed.inner placed.outer (Layout.edgeLaws placed.inner
      placed.outer axis' (padding.start axis') (padding.finish axis')) =
        if axis = axis' then [padding.at edge axis'] else [] := fun _ => Layout.pins_edgeLaws
  exact Layout.pins_both hlaws

/-- Between the nodes of an element and its children only those laws are that were recorded when
the outer node was made, and when the children were laid out. -/
theorem Laid.pins_eq (h : Laid setting p placed children t)
    (htarget : setting.options.target.usesConstraints = true)
    (hkind : Compile.containerOf p.chain ≠ .linear) :
    ∃ outline, Compile.Outlined setting p placed outline ∧ ∀ edge axis x y,
      placed.outer < x → (x = placed.inner ∨ ∃ child ∈ children, x = child.node) →
      placed.outer ≤ y → y ≤ placed.inner →
      pins edge axis x y t.constraints = pins edge axis x y outline ++
        pins edge axis x y (children.flatMap
          (Layout.childLaws (Compile.containerOf p.chain) placed.inner p.params)) := by
  obtain ⟨old, outline, inside, later, houtlined, heq, hold, hinside, hlater⟩ :=
    h.recorded htarget hkind
  refine ⟨outline, houtlined, fun edge axis x y hlt hx hle hinner => ?_⟩
  -- What came before is about older nodes, what came in between about the insides of children, and
  -- what came later about nodes above or beside the element, or about newer ones.
  have hold : pins edge axis x y old = [] := by
    refine pins_eq_nil fun l hl _ hy => ?_
    have := hold l hl y hy
    omega
  have hinside : pins edge axis x y inside = [] := by
    refine pins_eq_nil fun l hl _ hy => ?_
    have := hinside l hl y hy
    omega
  have hlater : pins edge axis x y later = [] := by
    refine pins_eq_nil fun l hl hmem => ?_
    rcases hlater l hl x hmem with hle' | ⟨hgt, hgts⟩
    · omega
    · rcases hx with rfl | ⟨child, hchild, rfl⟩
      · exact absurd hgt (Nat.lt_irrefl _)
      · exact absurd (hgts child hchild) (Nat.lt_irrefl _)
  rw [← Layout.pins_map_law, heq, pins_append, pins_append, pins_append, pins_append, hold, hinside,
    hlater, List.append_nil, List.nil_append, List.nil_append]

/-- The edges of a child are pinned by the container alone. -/
theorem Laid.pins_child (h : Laid setting p placed children t)
    (htarget : setting.options.target.usesConstraints = true)
    (hkind : Compile.containerOf p.chain ≠ .linear) (hmem : child ∈ children) :
    pins edge axis child.node placed.inner t.constraints =
      if pinsEdge (Compile.containerOf p.chain) child.params edge axis then
        [p.params.padding.at edge axis + child.params.margin.at edge axis]
      else [] := by
  obtain ⟨outline, houtlined, heq⟩ := h.pins_eq htarget hkind
  have habove := h.above child hmem
  have houter := h.outer_le
  -- the child is newer than both nodes of its element, so the laws of the outline are not about it
  have houtline : pins edge axis child.node placed.inner outline = [] := by
    refine pins_eq_nil fun l hl hchild => ?_
    rcases (houtlined.joins l hl).eq_or_eq hchild with heq | heq
    · omega
    · omega
  rw [heq edge axis child.node placed.inner (by omega) (Or.inr ⟨child, hmem, rfl⟩) houter
      (Nat.le_refl _), houtline, List.nil_append,
    Layout.pins_flatMap h.distinct hmem (Nat.ne_of_gt habove) fun c _ l hl =>
      Layout.joins_childLaws hl]
  exact Layout.pins_childLaws _ child

/-- The inner box of an element is pinned into the outer one at the padding of the attributes that
needed a node of their own. -/
theorem Laid.pins_inner (h : Laid setting p placed children t)
    (htarget : setting.options.target.usesConstraints = true)
    (hkind : Compile.containerOf p.chain ≠ .linear) :
    ∃ split, p.outline setting = .ok split ∧
      ∀ edge axis, t.outlinePins placed edge axis = [split.at edge axis] := by
  obtain ⟨outline, houtlined, heq⟩ := h.pins_eq htarget hkind
  cases houtlined with
  -- one node is not inset from itself
  | one hforcing hsame =>
    refine ⟨Insets.uniform 0, if_pos hforcing, fun edge axis => ?_⟩
    unfold Tree.outlinePins
    rw [if_pos hsame]
    cases edge <;> cases axis <;> rfl
  | free hforcing hlt hnone =>
    rw [htarget] at hnone
    cases hnone
  -- of two nodes the inner one is inset by the padding of the forcing attributes
  | two params hforcing hlt hread =>
    refine ⟨params.padding, ?_, fun edge axis => ?_⟩
    · unfold Prepared.outline
      rw [hforcing, hread]
      rfl
    · -- the laws of the children are about the inner node, and not about the outer one
      have hchildren : pins edge axis placed.inner placed.outer (children.flatMap
          (Layout.childLaws (Compile.containerOf p.chain) placed.inner p.params)) = [] := by
        refine pins_eq_nil fun l hl _ houter => ?_
        obtain ⟨child, hmem, hl⟩ := List.mem_flatMap.1 hl
        have habove := h.above child hmem
        rcases Layout.joins_childLaws hl with hj | hb
        · rcases hj.eq_or_eq houter with heq | heq
          · omega
          · omega
        · have := hb.eq_of_mem houter
          omega
      unfold Tree.outlinePins
      rw [if_neg (Nat.ne_of_gt hlt), heq edge axis placed.inner placed.outer hlt (Or.inl rfl)
        (Nat.le_refl _) (Nat.le_of_lt hlt), hchildren, List.append_nil, pins_outlineLaws]

/-! ## Insets -/

/-- In a finished tree the children of an overlay or of a scroll view are pinned where their margin
and the padding of their element say, and further inside by the padding that needed a node of its
own. So the inset is the padding and the margin alone just if there is no such padding on that side;
there is none in an element with a single node. -/
theorem inset_of_visited {setting : Setting ℚ} {p : Prepared ℚ} {children : List (Child ℚ)}
    {c : Compilation ℚ} (h : ofElement setting file root = .ok c)
    (htarget : setting.options.target.usesConstraints = true)
    (hv : Visited setting file root e p placed children)
    (hkind : Compile.containerOf p.chain ≠ .linear) :
    ∃ split, p.outline setting = .ok split ∧ ∀ child ∈ children, ∀ edge axis,
      if pinsEdge (Compile.containerOf p.chain) child.params edge axis then
        c.tree.inset? placed child.node edge axis = some (split.at edge axis +
          (p.params.padding.at edge axis + child.params.margin.at edge axis)) ∧
        (c.tree.inset? placed child.node edge axis =
          some (p.params.padding.at edge axis + child.params.margin.at edge axis) ↔
            split.at edge axis = 0)
      else c.tree.inset? placed child.node edge axis = none := by
  have hl := hv.laid h
  obtain ⟨split, hsplit, houtline⟩ := hl.pins_inner htarget hkind
  refine ⟨split, hsplit, fun child hmem edge axis => ?_⟩
  unfold Tree.inset?
  rw [houtline, hl.pins_child htarget hkind hmem]
  split
  · refine ⟨rfl, ?_⟩
    rw [Option.some.injEq, add_eq_right]
  · rfl

end Compilation

namespace Sample

/-- An overlay in a wrapper, whose child is as large as it is. -/
def overlay : Element :=
  { tag := "FrameLayout"
    attributes := SortedMap.ofList [("android:padding", "4dp")]
    children :=
      [view [("android:layout_width", "match_parent"), ("android:layout_margin", "8dp")]] }

/-- The padding of the overlay needs a node of its own, so that it counts twice. -/
theorem inset_of_overlay : ∃ c p placed child, Compilation.ofElement setting file overlay = .ok c ∧
    Compilation.Visited setting file overlay overlay p placed [child] ∧
    p.params.padding.at .start .horizontal = 4 ∧ child.params.margin.at .start .horizontal = 8 ∧
    c.tree.inset? placed child.node .start .horizontal = some 16 := by
  have hrun : (Compilation.visitRoot setting file overlay).toOption.any (fun r => decide (
      r.2.2.2.length = 1 ∧ Compile.containerOf r.2.1.chain ≠ .linear ∧
      r.2.1.params.padding.at .start .horizontal = 4 ∧
      (r.2.1.outline setting).map (·.at .start .horizontal) = .ok 4 ∧
      ∀ child ∈ r.2.2.2, child.params.margin.at .start .horizontal = 8 ∧
        pinsEdge (Compile.containerOf r.2.1.chain) child.params .start .horizontal = true)) =
      true := by
    decide +kernel
  cases h : Compilation.visitRoot setting file overlay with
  | error e =>
    rw [h] at hrun
    cases hrun
  | ok r =>
    rw [h] at hrun
    obtain ⟨c, p, placed, children⟩ := r
    obtain ⟨hlength, hkind, hpadding, houtline, hchildren⟩ := of_decide_eq_true hrun
    obtain ⟨child, rfl⟩ := List.length_eq_one_iff.1 hlength
    obtain ⟨hmargin, hpins⟩ := hchildren child List.mem_cons_self
    obtain ⟨hc, hv⟩ := Compilation.visited_of_visitRoot h
    obtain ⟨split, hsplit, hinset⟩ := Compilation.inset_of_visited hc rfl hv hkind
    have hchild := hinset child List.mem_cons_self .start .horizontal
    rw [hsplit] at houtline
    have hfour : split.at .start .horizontal = 4 := Except.ok.inj houtline
    rw [if_pos hpins, hpadding, hmargin, hfour] at hchild
    exact ⟨c, p, placed, child, hc, hv, hpadding, hmargin, hchild.1.trans (by norm_num)⟩

end Sample

end LayoutCompiler
