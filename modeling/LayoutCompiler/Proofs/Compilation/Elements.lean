import LayoutCompiler.Proofs.Compilation.Steps
/-!
# Compiling elements

What compiling an element leaves behind. `Compiled M` is what holds of a pass at every moment: the
tree is linked, every constraint rests on its anchor, and outlets are nodes of the tree; `M` are the
nodes that their containers have not laid out yet.

* `make_spec`: the nodes of an element, and how the outer one is related to the inner one.
* `element_spec`, `elements_spec`: by induction over elements, that compiling keeps all of this.
-/

namespace LayoutCompiler

open LayoutCompiler.Tree (Notes Grows Records Made Decorates)

variable {α β γ : Type} {t t' t₀ : Tree α} {s s' : Pass α} {M : List Nat} {parent : Option Nat}
  {placed : Placed} {x : Nat}

/-! ## Passes -/

/-- What holds of a pass at every moment. -/
structure Compiled (M : List Nat) (s : Pass α) : Prop where
  linked : s.tree.Linked
  settled : s.tree.Settled M
  outlets : ∀ o ∈ s.outlets, ∀ n ∈ o.node, n < s.tree.size

namespace Compiled

/-- A step that only adds nodes keeps all this. -/
theorem grow (h : Compiled M s) (hg : Grows s.tree.size s.tree s'.tree) (hl : s'.tree.Linked)
    (hc : s'.tree.constraints = s.tree.constraints) (ho : s'.outlets = s.outlets) :
    Compiled M s' where
  linked := hl
  settled := h.settled.of_grows hg hc fun _ hm => Or.inl hm
  outlets o hmem n hn := by
    rw [ho] at hmem
    exact Nat.lt_of_lt_of_le (h.outlets o hmem n hn) hg.size_le

theorem write (h : Compiled M s) (hw : Written s s') : Compiled M s' :=
  h.grow hw.sprouts.toGrows hw.linked hw.sprouts.constraints hw.outlets

/-- A new node may be waiting to be laid out. -/
theorem made {place : Option Nat} (h : Compiled M s) (hmade : Made x place s.tree t) :
    Compiled (x :: M) { s with tree := t } where
  linked := hmade.linked
  settled := by
    refine h.settled.of_grows hmade.toGrows hmade.constraints fun m hm => ?_
    rcases List.mem_cons.1 hm with rfl | hm
    · exact Or.inr (Nat.le_of_eq hmade.first.symm)
    · exact Or.inl hm
  outlets o hmem n hn := Nat.lt_of_lt_of_le (h.outlets o hmem n hn) hmade.size_le

theorem mono {N : List Nat} (h : Compiled M s) (hsub : ∀ m ∈ N, m ∈ M) : Compiled N s :=
  { h with settled := h.settled.mono hsub }

end Compiled

/-- A pass in which an element can be compiled under a node. -/
structure Ready (parent : Option Nat) (M : List Nat) (s : Pass α) : Prop extends Compiled M s where
  place : s.tree.Place parent
  below : ∀ m ∈ M, m < s.tree.size

/-! ## The nodes of an element -/

/-- The nodes of an element stand in the tree, and the outer one waits to be laid out. -/
structure Standing (parent : Option Nat) (M : List Nat) (placed : Placed) (t₀ : Tree α)
    (s : Pass α) : Prop extends Compiled (placed.outer :: M) s where
  first : placed.outer = t₀.size
  grows : Grows t₀.size t₀ s.tree
  outer_named : (s.tree.node placed.outer).ident.isSome
  inner_named : (s.tree.node placed.inner).ident.isSome
  outer_le : placed.outer ≤ placed.inner
  parent_eq : (s.tree.node placed.outer).parent = parent.map t₀.contentOf

namespace Standing

theorem outer_lt (h : Standing parent M placed t₀ s) : placed.outer < s.tree.size :=
  Tree.lt_size_of_ident h.outer_named

theorem inner_lt (h : Standing parent M placed t₀ s) : placed.inner < s.tree.size :=
  Tree.lt_size_of_ident h.inner_named

/-- What happens to newer nodes leaves those of an element standing. -/
theorem grow (h : Standing parent M placed t₀ s) (h' : Compiled (placed.outer :: M) s')
    (hg : Grows s.tree.size s.tree s'.tree) : Standing parent M placed t₀ s' :=
  { h' with
    first := h.first
    grows := h.grows.trans (hg.mono h.grows.size_le)
    outer_named := by
      rw [hg.ident _ h.outer_lt]
      exact h.outer_named
    inner_named := by
      rw [hg.ident _ h.inner_lt]
      exact h.inner_named
    outer_le := h.outer_le
    parent_eq := (hg.parent _ h.outer_lt).trans h.parent_eq }

/-- Counters do not matter. -/
theorem count (h : Standing parent M placed t₀ s) (htree : s'.tree = s.tree)
    (houtlets : s'.outlets = s.outlets) : Standing parent M placed t₀ s' := by
  refine h.grow (h.toCompiled.grow ?_ ?_ (congrArg _ htree) houtlets) ?_
  · rw [htree]
    exact Grows.refl _ _
  · rw [htree]
    exact h.linked
  · rw [htree]
    exact Grows.refl _ _

theorem write (h : Standing parent M placed t₀ s) (hw : Written s s') :
    Standing parent M placed t₀ s' :=
  h.grow (h.toCompiled.write hw) hw.sprouts.toGrows

/-- The children of the inner node have been laid out. -/
theorem arrange {xs : List Nat} (h : Standing parent M placed t₀ s)
    (ha : Layout.Arranged placed.inner xs (placed.outer :: M) s.tree t) :
    Standing parent M placed t₀ { s with tree := t } where
  linked := ha.linked
  settled := ha.settled
  outlets o hmem n hn := Nat.lt_of_lt_of_le (h.outlets o hmem n hn) ha.size_le
  first := h.first
  grows := h.grows.trans (ha.toGrows.mono (h.first ▸ h.outer_le))
  outer_named := by
    show (t.node placed.outer).ident.isSome
    -- the outer node is older than the one arranged, or it is that node
    rcases Nat.lt_or_eq_of_le h.outer_le with hlt | heq
    · rw [ha.ident _ hlt]
      exact h.outer_named
    · rw [heq]
      exact ha.named
  inner_named := ha.named
  outer_le := h.outer_le
  parent_eq := by
    show (t.node placed.outer).parent = _
    rw [← h.parent_eq]
    rcases Nat.lt_or_eq_of_le h.outer_le with hlt | heq
    · exact ha.parent _ hlt
    · rw [heq]
      exact ha.parent_self

end Standing

/-- An element has two nodes, of which the inner one stands in the outer one, and nothing has been
recorded yet. -/
structure Split (parent : Option Nat) (M : List Nat) (placed : Placed) (t₀ : Tree α)
    (s : Pass α) : Prop extends Standing parent M placed t₀ s where
  lt : placed.outer < placed.inner
  inside : s.tree.Up placed.inner (s.tree.contentOf placed.outer)
  constraints : s.tree.constraints = t₀.constraints

namespace Split

theorem of_made {outer inner : Nat} {t₁ t₂ : Tree α} (h : Ready parent M s)
    (houter : Made outer parent s.tree t₁) (hinner : Made inner (some outer) t₁ t₂) :
    Split parent M ⟨outer, inner⟩ s.tree { s with tree := t₂ } := by
  have hlt : outer < t₁.size := Tree.lt_size_of_ident houter.named
  -- the inner node is made when the outer one is there already
  have hinnerLt : outer < inner := by
    rw [hinner.first]
    exact hlt
  refine { (h.toCompiled.made houter).made hinner with
    settled := ?_
    first := houter.first
    grows := houter.toGrows.trans (hinner.toGrows.mono houter.size_le)
    outer_named := ?_
    inner_named := hinner.named
    outer_le := Nat.le_of_lt hinnerLt
    parent_eq := (hinner.parent _ hlt).trans houter.placed
    lt := hinnerLt
    inside := ?_
    constraints := hinner.constraints.trans houter.constraints }
  · exact ((h.toCompiled.made houter).made hinner).settled.mono fun m hm =>
      List.mem_cons_of_mem _ hm
  · show (t₂.node outer).ident.isSome
    rw [hinner.ident _ hlt]
    exact houter.named
  · show t₂.Up inner (t₂.contentOf outer)
    rw [hinner.toGrows.contentOf hlt]
    exact hinner.placed

theorem count (h : Split parent M placed t₀ s) (htree : s'.tree = s.tree)
    (houtlets : s'.outlets = s.outlets) : Split parent M placed t₀ s' :=
  { h.toStanding.count htree houtlets with
    lt := h.lt
    inside := by
      rw [htree]
      exact h.inside
    constraints := by rw [htree, h.constraints] }

/-- Writing the attributes of an element neither moves its nodes nor records anything. -/
theorem write (h : Split parent M placed t₀ s) (hw : Written s s') :
    Split parent M placed t₀ s' :=
  { h.toStanding.write hw with
    lt := h.lt
    inside := by
      rw [hw.sprouts.contentOf h.outer_lt, hw.sprouts.up h.inner_lt]
      exact h.inside
    constraints := hw.sprouts.constraints.trans h.constraints }

/-- Pins of the inner node into the outer one keep both standing. -/
theorem note {laws : List (Constraint α)} (h : Split parent M placed t₀ s)
    (hM : ∀ m ∈ M, m < t₀.size) (hn : Notes s.tree t laws)
    (hlaws : ∀ l ∈ laws, Layout.Joins placed.inner placed.outer l) :
    Standing parent M placed t₀ { s with tree := t } := by
  -- The outer node may still be moved by its own container, and the inner one may not.
  have hfree : placed.inner ∉ placed.outer :: M := by
    intro hm
    rcases List.mem_cons.1 hm with heq | hm
    · exact Nat.ne_of_gt h.lt heq
    · have := hM _ hm
      have := h.first
      have := h.lt
      omega
  have hcompiled : Compiled (placed.outer :: M) { s with tree := t } :=
    { linked := hn.linked h.linked
      settled := h.settled.note hn fun l hl =>
        (hlaws l hl).rests h.linked h.inner_named h.outer_named h.inside hfree
      outlets := fun o ho n hmem => by
        show n < t.size
        rw [hn.size]
        exact h.outlets o ho n hmem }
  have hgrows : Grows placed.outer s.tree t :=
    hn.grows fun l hl => (hlaws l hl).all h.outer_le (Nat.le_refl _)
  exact
    { hcompiled with
      first := h.first
      grows := h.grows.trans (h.first ▸ hgrows)
      outer_named := by
        show (t.node placed.outer).ident.isSome
        rw [hn.node]
        exact h.outer_named
      inner_named := by
        show (t.node placed.inner).ident.isSome
        rw [hn.node]
        exact h.inner_named
      outer_le := h.outer_le
      parent_eq := by
        show (t.node placed.outer).parent = _
        rw [hn.node]
        exact h.parent_eq }

end Split

namespace Compile

/-! ## Making the nodes of an element -/

variable [Scalar α] {setting : Setting α} {p : Prepared α}

/-- The laws that pin the inner node of an element into the outer one. -/
def outlineLaws (placed : Placed) (padding : Insets α) : List (Constraint α) :=
  Axis.both.flatMap fun axis =>
    Layout.edgeLaws placed.inner placed.outer axis (padding.start axis) (padding.finish axis)

/-- How the nodes of an element are related: they are one, or the inner one stands in the outer
one and is pinned into it at the padding that the outer one has. -/
inductive Outlined (setting : Setting α) (p : Prepared α) (placed : Placed) :
    List (Constraint α) → Prop
  | one (hforcing : p.forcing.isEmpty = true) (heq : placed.inner = placed.outer) :
    Outlined setting p placed []
  | free (hforcing : p.forcing.isEmpty = false) (hlt : placed.outer < placed.inner)
    (htarget : setting.options.target.usesConstraints = false) : Outlined setting p placed []
  | two (params : Params α) (hforcing : p.forcing.isEmpty = false)
    (hlt : placed.outer < placed.inner)
    (hread : Params.read setting.resources p.forcing = .ok params) :
    Outlined setting p placed (outlineLaws placed params.padding)

theorem makeOne_spec (file : String) (h : Ready parent M s) :
    Ends (makeOne setting file p parent) s fun placed s' =>
      Standing parent M placed s.tree s' ∧ placed.inner = placed.outer ∧
        Records s.tree s'.tree [] := by
  unfold makeOne
  refine Ends.seq (Ends.edit (Tree.instantiate_spec h.linked p.blueprint h.place _)) ?_
  rintro id _ ⟨t₁, rfl, hmade⟩
  -- one node is its own outer and inner node
  have hstands : Standing parent M ⟨id, id⟩ s.tree { s with tree := t₁ } :=
    { h.toCompiled.made hmade with
      first := hmade.first
      grows := hmade.toGrows
      outer_named := hmade.named
      inner_named := hmade.named
      outer_le := Nat.le_refl _
      parent_eq := hmade.placed }
  refine Ends.seq (applyAttributes_spec setting file p.chain p.scope _ hstands.linked
    hstands.outer_lt) fun _ s₂ hw => ?_
  exact Ends.pure ⟨hstands.write hw, rfl,
    Records.of_eq (hw.sprouts.constraints.trans hmade.constraints)⟩

theorem joins_outlineLaws {placed : Placed} {padding : Insets α} {l : Constraint α}
    (h : l ∈ outlineLaws placed padding) : Layout.Joins placed.inner placed.outer l := by
  obtain ⟨axis, -, h⟩ := List.mem_flatMap.1 h
  exact Layout.joins_edgeLaws h

theorem Outlined.joins {laws : List (Constraint α)} (h : Outlined setting p placed laws) :
    ∀ l ∈ laws, Layout.Joins placed.inner placed.outer l := by
  cases h with
  | one => exact fun _ hl => absurd hl List.not_mem_nil
  | free => exact fun _ hl => absurd hl List.not_mem_nil
  | two params => exact fun _ hl => joins_outlineLaws hl

theorem makeTwo_spec (file : String) (hforcing : p.forcing.isEmpty = false)
    (h : Ready parent M s) :
    Ends (makeTwo setting file p parent) s fun placed s' =>
      Standing parent M placed s.tree s' ∧
        ∃ laws, Outlined setting p placed laws ∧ Records s.tree s'.tree laws := by
  unfold makeTwo
  refine Ends.seq (Ends.lift (P := fun _ s₁ => s = s₁) (reading_rulesFor _ _ _ _).placeless
    fun _ _ => rfl) ?_
  rintro rules _ rfl
  refine Ends.seq (Ends.edit (Tree.instantiate_spec h.linked rules.2 h.place _)) ?_
  rintro outer _ ⟨t₁, rfl, houter⟩
  have hplace : t₁.Place (some outer) := Tree.lt_size_of_ident houter.named
  refine Ends.seq (Ends.edit (Tree.instantiate_spec houter.linked p.blueprint hplace _)) ?_
  rintro inner _ ⟨t₂, rfl, hinner⟩
  have h₂ := Split.of_made h houter hinner
  refine Ends.seq (Ends.modify (P := fun _ s' => Split parent M ⟨outer, inner⟩ s.tree s')
    (h₂.count rfl rfl)) fun _ s₃ h₃ => ?_
  refine Ends.seq (applyAttributes_spec setting file rules.1 p.scope p.forcing h₃.linked
    h₃.outer_lt) fun _ s₄ hw₄ => ?_
  have h₄ := h₃.write hw₄
  refine Ends.seq (applyAttributes_spec setting file p.chain p.scope p.rest h₄.linked
    h₄.inner_lt) fun _ s₅ hw₅ => ?_
  have h₅ := h₄.write hw₅
  cases htarget : setting.options.target.usesConstraints with
  | false =>
    exact Ends.pure ⟨h₅.toStanding, [], .free hforcing h₅.lt htarget,
      Records.of_eq h₅.constraints⟩
  | true =>
    refine Ends.seq (Ends.atElement (P := fun v s' => s₅ = s' ∧
      Params.read setting.resources p.forcing = .ok v) _ _ _ (reading_params _ _).placeless
      fun v hv => ⟨rfl, hv⟩) ?_
    rintro params _ ⟨rfl, hread⟩
    refine Ends.seq (Ends.forIn_notes Axis.both _ _ (fun axis _ =>
      Layout.pinEdges_spec inner outer axis (params.padding.start axis)
        (params.padding.finish axis)) s₅) ?_
    rintro _ _ ⟨t₆, rfl, hn⟩
    -- all that is recorded are the laws that tie the two nodes' edges
    have hlaws : ∀ l ∈ outlineLaws ⟨outer, inner⟩ params.padding, Layout.Joins inner outer l :=
      fun l hl => joins_outlineLaws hl
    refine Ends.pure ⟨h₅.note h.below hn hlaws, _, .two params hforcing h₅.lt hread, ?_⟩
    exact (Records.of_eq h₅.constraints).trans hn.records

/-- The nodes of an element stand in the tree, related as its attributes ask for. -/
theorem make_spec (file : String) (h : Ready parent M s) :
    Ends (make setting file p parent) s fun placed s' =>
      Standing parent M placed s.tree s' ∧
        ∃ laws, Outlined setting p placed laws ∧ Records s.tree s'.tree laws := by
  unfold make
  cases hforcing : p.forcing.isEmpty with
  | true =>
    refine (makeOne_spec file h).imp ?_
    rintro placed s' ⟨hstands, heq, hrecords⟩
    exact ⟨hstands, [], .one hforcing heq, hrecords⟩
  | false => exact makeTwo_spec file hforcing h

omit [Scalar α] in
theorem declareOutlet_spec (h : Standing parent M placed t₀ s) :
    Ends (declareOutlet p placed) s fun _ s' =>
      Standing parent M placed t₀ s' ∧ s'.tree = s.tree := by
  unfold declareOutlet
  split
  · exact Ends.pure ⟨h, rfl⟩
  · refine Ends.modify ⟨h.grow ?_ (Grows.refl _ _), rfl⟩
    refine { h.toCompiled with outlets := fun o ho n hn => ?_ }
    rcases List.mem_append.1 ho with ho | ho
    · exact h.outlets o ho n hn
    · rw [List.mem_singleton.1 ho] at hn
      exact Option.mem_some.1 hn ▸ h.inner_lt

omit [Scalar α] in
theorem decorates_applyWrapPower (t : Tree α) (node : Nat) (axis : Axis) (depth : Nat) :
    Decorates t (Layout.applyWrapPower t node axis depth) :=
  (Tree.decorates_setAttribute _ _ _ _).trans (Tree.decorates_setAttribute _ _ _ _)

omit [Scalar α] in
theorem holdContent_spec (depth : WrapDepth) (hl : s.tree.Linked) :
    Ends (holdContent setting p placed depth) s fun _ s' => Written s s' := by
  -- each round writes attributes of one node
  have hhold : ∀ (node : Nat) (axis : Axis) (s₁ : Pass α), Written s s₁ →
      Written s { s₁ with tree := Layout.applyWrapPower s₁.tree node axis (depth.on axis) } :=
    fun node axis s₁ h₁ => h₁.decorate (decorates_applyWrapPower _ node axis _)
  unfold holdContent
  split
  · refine Ends.seq (Ends.forIn (I := Written s) _ _ _ (Written.refl hl) fun axis _ s₁ h₁ => ?_)
      fun _ s₁ h₁ => Ends.pure h₁
    split
    · refine Ends.seq (Ends.change (P := fun _ s' => Written s s') (hhold _ axis s₁ h₁)) ?_
      intro _ s₂ h₂
      split
      · exact Ends.seq (Ends.change (P := fun _ s' => Written s s') (hhold _ axis s₂ h₂))
          fun _ s₃ h₃ => Ends.pure h₃
      · exact Ends.pure h₂
    · exact Ends.pure h₁
  · exact Ends.pure (Written.refl hl)

/-! ## Laying out children -/

/-- What laying out the children of an element leaves behind. -/
structure Fitted (setting : Setting α) (p : Prepared α) (placed : Placed)
    (children : List (Child α)) (parent : Option Nat) (M : List Nat) (t₀ : Tree α)
    (s s' : Pass α) : Prop where
  standing : Standing parent M placed t₀ s'
  size_le : s.tree.size ≤ s'.tree.size
  near : Tree.Between (Layout.Near placed.inner (children.map (·.node)) s.tree) s.tree s'.tree
  records : setting.options.target.usesConstraints = true → containerOf p.chain ≠ .linear →
    Records s.tree s'.tree (children.flatMap
      (Layout.childLaws (containerOf p.chain) placed.inner p.params))

theorem arrangeChildren_spec (children : List (Child α)) (h : Standing parent M placed t₀ s)
    (hs : Layout.Stacking placed.inner (children.map (·.node)) (placed.outer :: M)
      (children.map (·.node)) [] s.tree s.tree) :
    Ends (arrangeChildren setting p placed children) s fun _ s' =>
      Fitted setting p placed children parent M t₀ s s' := by
  unfold arrangeChildren
  dsimp only
  split
  · refine Ends.seq (Ends.lift (P := fun _ s' => s = s') (reading_base setting).placeless
      fun _ _ => rfl) ?_
    rintro base _ rfl
    have harrange : Ensures (Layout.arrange (containerOf p.chain) base placed.inner p.params
        children) s.tree fun _ t => Layout.Arranged placed.inner (children.map (·.node))
          (placed.outer :: M) s.tree t ∧ (containerOf p.chain ≠ .linear →
            Records s.tree t (children.flatMap
              (Layout.childLaws (containerOf p.chain) placed.inner p.params))) :=
      ⟨Layout.arrange_arranged _ base p.params children hs,
        fun hkind => (Layout.arrange_spec hkind base placed.inner p.params children).imp
          fun _ _ hn => hn.records⟩
    refine Ends.seq (Ends.edit harrange) ?_
    rintro added _ ⟨t, rfl, harranged, hrecords⟩
    exact Ends.modify ⟨(h.arrange harranged).count rfl rfl, harranged.size_le, harranged.near,
      fun _ => hrecords⟩
  · rename_i hnone
    refine Ends.pure ⟨h, Nat.le_refl _, Tree.Between.of_eq rfl, fun htarget hkind => ?_⟩
    have hnil : children.flatMap (Layout.childLaws (containerOf p.chain) placed.inner p.params) =
        [] := by
      cases children with
      | nil => rfl
      | cons c cs =>
        -- there are children and constraints, so it can only be that no container was declared
        have hkindNone : containerOf p.chain = .none := by
          by_contra hk
          exact hnone ⟨htarget, rfl, hk⟩
        rw [hkindNone]
        exact List.flatMap_eq_nil_iff.2 fun _ _ => rfl
    rw [hnil]
    exact Records.refl _

/-! ## Elements -/

/-- How the nodes of an element have been made, before its children are compiled. -/
structure Opened (setting : Setting α) (file : String) (e : Element) (around : Option Scope)
    (parent : Option Nat) (M : List Nat) (p : Prepared α) (placed : Placed) (s s' : Pass α) :
    Prop where
  prepared : prepare setting file e around = .ok p
  standing : Standing parent M placed s.tree s'
  outlined : ∃ laws, Outlined setting p placed laws ∧ Records s.tree s'.tree laws

/-- What compiling an element under a node leaves behind. -/
structure Added (setting : Setting α) (file : String) (e : Element) (around : Option Scope)
    (parent : Option Nat) (M : List Nat) (child : Child α) (s s' : Pass α) : Prop where
  params : ∃ p, prepare setting file e around = .ok p ∧ child.params = p.params
  first : child.node = s.tree.size
  compiled : Compiled (child.node :: M) s'
  grows : Grows s.tree.size s.tree s'.tree
  named : (s'.tree.node child.node).ident.isSome
  parent_eq : (s'.tree.node child.node).parent = parent.map s.tree.contentOf

/-- What compiling the elements of a list under a node leaves behind. -/
structure Nested (setting : Setting α) (file : String) (es : List Element) (around : Scope)
    (parent : Nat) (M : List Nat) (children : List (Child α)) (s s' : Pass α) : Prop where
  params : List.Forall₂ (fun e child => ∃ p, prepare setting file e (some around) = .ok p ∧
    child.params = p.params) es children
  compiled : Compiled (children.map (·.node) ++ M) s'
  grows : Grows s.tree.size s.tree s'.tree
  placed : ∀ child ∈ children, s.tree.size ≤ child.node ∧
    s'.tree.Up child.node (s.tree.contentOf parent) ∧ (s'.tree.node child.node).ident.isSome
  distinct : (children.map (·.node)).Nodup

theorem opening_spec (file : String) (e : Element) (around : Option Scope) (depth : WrapDepth)
    (h : Ready parent M s) :
    Ends (opening setting file e around parent depth) s fun r s' =>
      Opened setting file e around parent M r.1 r.2 s s' := by
  unfold opening
  refine Ends.seq (Ends.modify (P := fun _ s₁ => s₁.tree = s.tree ∧ Ready parent M s₁)
    ⟨rfl, { h with }⟩) ?_
  rintro _ s₁ ⟨htree, h₁⟩
  refine Ends.seq (Ends.lift (P := fun p s' => s₁ = s' ∧ prepare setting file e around = .ok p)
    (reading_prepare _ _ _ _).placeless fun p hp => ⟨rfl, hp⟩) ?_
  rintro p _ ⟨rfl, hp⟩
  refine Ends.seq (make_spec file h₁) ?_
  rintro placed s₂ ⟨h₂, laws, houtlined, hr₂⟩
  refine Ends.seq (declareOutlet_spec h₂) ?_
  rintro _ s₃ ⟨h₃, htree₃⟩
  refine Ends.seq (holdContent_spec depth h₃.linked) fun _ s₄ hw => ?_
  -- nothing after the making of the nodes records a law
  have hr₄ := hr₂.trans (Records.of_eq (hw.sprouts.constraints.trans (congrArg _ htree₃)))
  rw [List.append_nil, htree] at hr₄
  exact Ends.pure ⟨hp, htree ▸ h₃.write hw, laws, houtlined, hr₄⟩

namespace Opened

variable {file : String} {e : Element} {around : Option Scope} {children : List (Child α)}
  {s₁ s₂ : Pass α}

/-- The children of an element can be compiled once its nodes have been made. -/
theorem ready (h : Opened setting file e around parent M p placed s s₁)
    (hM : ∀ m ∈ M, m < s.tree.size) : Ready (some placed.inner) (placed.outer :: M) s₁ :=
  { h.standing.toCompiled with
    place := h.standing.inner_lt
    below := fun m hm => by
      rcases List.mem_cons.1 hm with rfl | hm
      · exact h.standing.outer_lt
      · exact Nat.lt_of_lt_of_le (hM m hm) h.standing.grows.size_le }

/-- The nodes of an element stand while its children are compiled. -/
theorem standing_of_nested (h : Opened setting file e around parent M p placed s s₁)
    (hn : Nested setting file e.children p.scope placed.inner (placed.outer :: M) children s₁ s₂) :
    Standing parent M placed s.tree s₂ :=
  h.standing.grow (hn.compiled.mono fun _ hm => List.mem_append_right _ hm) hn.grows

/-- The children of an element wait in its inner node. -/
theorem stacking (h : Opened setting file e around parent M p placed s s₁)
    (hM : ∀ m ∈ M, m < s.tree.size)
    (hn : Nested setting file e.children p.scope placed.inner (placed.outer :: M) children s₁ s₂) :
    Layout.Stacking placed.inner (children.map (·.node)) (placed.outer :: M)
      (children.map (·.node)) [] s₂.tree s₂.tree := by
  have hs := h.standing
  refine
    { Grows.refl placed.inner s₂.tree with
      linked := hn.compiled.linked
      settled := hn.compiled.settled
      named := (h.standing_of_nested hn).inner_named
      parent_self := rfl
      near := Tree.Between.of_eq rfl
      below := fun m hm => ?_
      placed := fun x hx => ?_
      distinct := ?_
      known := fun x hx => ?_ }
  -- what has to stay free is no newer than the container
  · rcases List.mem_cons.1 hm with rfl | hm
    · exact hs.outer_le
    · have := hM m hm
      have := hs.first
      have := hs.outer_le
      omega
  · rw [List.append_nil] at hx
    obtain ⟨child, hchild, rfl⟩ := List.mem_map.1 hx
    obtain ⟨hle, hup, hnamed⟩ := hn.placed child hchild
    rw [hn.grows.contentOf hs.inner_lt]
    exact ⟨Nat.lt_of_lt_of_le hs.inner_lt hle, hup, hnamed⟩
  · rw [List.append_nil]
    exact hn.distinct
  · rw [List.append_nil] at hx
    exact Or.inl hx

end Opened

/-- An element has been compiled once its children have been laid out. -/
theorem Fitted.added {file : String} {e : Element} {around : Option Scope}
    {children : List (Child α)} {s₁ s₂ : Pass α}
    (h : Fitted setting p placed children parent M s.tree s₂ s')
    (ho : Opened setting file e around parent M p placed s s₁) :
    Added setting file e around parent M { node := placed.outer, params := p.params } s s' where
  params := ⟨p, ho.prepared, rfl⟩
  first := h.standing.first
  compiled := h.standing.toCompiled
  grows := h.standing.grows
  named := h.standing.outer_named
  parent_eq := h.standing.parent_eq

/-- More elements can be compiled under the same node. -/
theorem Added.ready {file : String} {e : Element} {around : Option Scope} {child : Child α}
    (hx : x < s.tree.size) (hM : ∀ m ∈ M, m < s.tree.size)
    (h : Added setting file e around (some x) M child s s') :
    Ready (some x) (child.node :: M) s' :=
  { h.compiled with
    place := Nat.lt_of_lt_of_le hx h.grows.size_le
    below := fun m hm => by
      rcases List.mem_cons.1 hm with rfl | hm
      · exact Tree.lt_size_of_ident h.named
      · exact Nat.lt_of_lt_of_le (hM m hm) h.grows.size_le }

theorem Nested.ready {file : String} {es : List Element} {around : Scope}
    {children : List (Child α)} (h : Ready (some x) M s)
    (hn : Nested setting file es around x M children s s') :
    Ready (some x) (children.map (·.node) ++ M) s' :=
  { hn.compiled with
    place := Nat.lt_of_lt_of_le h.place hn.grows.size_le
    below := fun m hm => by
      rcases List.mem_append.1 hm with hm | hm
      · obtain ⟨child, hchild, rfl⟩ := List.mem_map.1 hm
        exact Tree.lt_size_of_ident (hn.placed child hchild).2.2
      · exact Nat.lt_of_lt_of_le (h.below m hm) hn.grows.size_le }

/-- One more element under the same node. -/
theorem Nested.cons {file : String} {e : Element} {es : List Element} {around : Scope}
    {child : Child α} {children : List (Child α)} {s₁ : Pass α} (hx : x < s.tree.size)
    (h : Added setting file e (some around) (some x) M child s s₁)
    (hn : Nested setting file es around x (child.node :: M) children s₁ s') :
    Nested setting file (e :: es) around x M (child :: children) s s' := by
  have hlt : child.node < s₁.tree.size := Tree.lt_size_of_ident h.named
  refine
    { params := .cons h.params hn.params
      compiled := hn.compiled.mono fun m hm => ?_
      grows := h.grows.trans (hn.grows.mono h.grows.size_le)
      placed := fun c hc => ?_
      distinct := ?_ }
  · simp only [List.map_cons, List.cons_append, List.mem_cons, List.mem_append] at hm ⊢
    tauto
  · rcases List.mem_cons.1 hc with rfl | hc
    · refine ⟨Nat.le_of_eq h.first.symm, ?_, ?_⟩
      · exact (hn.grows.up hlt).2 h.parent_eq
      · rw [hn.grows.ident _ hlt]
        exact h.named
    · obtain ⟨hle, hup, hnamed⟩ := hn.placed c hc
      rw [h.grows.contentOf hx] at hup
      exact ⟨Nat.le_trans h.grows.size_le hle, hup, hnamed⟩
  · -- the others were added to a tree that had this one already
    refine List.nodup_cons.2 ⟨fun hmem => ?_, hn.distinct⟩
    obtain ⟨c, hc, heq⟩ := List.mem_map.1 hmem
    have hle := (hn.placed c hc).1
    have hsame : c.node = child.node := heq
    omega

mutual

/-- Compiling an element adds it under its parent, and keeps what holds of the pass. -/
theorem element_spec (setting : Setting α) (file : String) :
    ∀ (e : Element) (around : Option Scope) (depth : WrapDepth) (parent : Option Nat)
      (M : List Nat) (s : Pass α), Ready parent M s →
      Ends (element setting file e around parent depth) s fun child s' =>
        Added setting file e around parent M child s s'
  | ⟨tag, attributes, es, text⟩, around, depth, parent, M, s, h => by
    unfold element
    refine Ends.seq (opening_spec file _ around depth h) ?_
    rintro ⟨p, placed⟩ s₁ h₁
    refine Ends.seq (elements_spec setting file es p.scope placed.inner _ _ s₁ (h₁.ready h.below))
      fun children s₂ h₂ => ?_
    refine Ends.seq (arrangeChildren_spec children (h₁.standing_of_nested h₂)
      (h₁.stacking h.below h₂)) fun _ s₃ h₃ => ?_
    exact Ends.pure (h₃.added h₁)

/-- Compiling the elements of a list adds them under their node, each beside the others. -/
theorem elements_spec (setting : Setting α) (file : String) :
    ∀ (es : List Element) (around : Scope) (x : Nat) (depth : WrapDepth) (M : List Nat)
      (s : Pass α), Ready (some x) M s →
      Ends (elements setting file es around x depth) s fun children s' =>
        Nested setting file es around x M children s s'
  | [], around, x, depth, M, s, h => by
    unfold elements
    exact Ends.pure
      { params := .nil
        compiled := h.toCompiled
        grows := Grows.refl _ _
        placed := fun c hc => absurd hc List.not_mem_nil
        distinct := List.nodup_nil }
  | e :: es, around, x, depth, M, s, h => by
    unfold elements
    refine Ends.seq (element_spec setting file e (some around) depth (some x) M s h) ?_
    intro child s₁ h₁
    refine Ends.seq (elements_spec setting file es around x depth (child.node :: M) s₁
      (h₁.ready h.place h.below)) fun children s₂ h₂ => ?_
    exact Ends.pure (Nested.cons h.place h₁ h₂)

end

end Compile

end LayoutCompiler
