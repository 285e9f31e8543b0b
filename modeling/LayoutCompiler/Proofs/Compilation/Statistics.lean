import LayoutCompiler.Proofs.Compilation.Outlets
/-!
# Statistics

The counts that a compilation reports are those of its output. Nodes get identifiers in several
places: one for each element, one for each node around an element, and those that a layout hands
back as added. Every step is therefore tallied with what it adds to the counts (`Counts`).

* `issued_arrange`: a layout names as many nodes as it hands back.
* `counts_element`: an element is counted once, with all that is named for it.
* `statistics_of_ofElement`: the counts of a whole compilation.
-/

namespace LayoutCompiler

open LayoutCompiler.Tree (Issued Mute Notes)

variable {α β γ : Type}

/-! ## Nodes that are added by layout -/

namespace Layout

theorem issued_of_notes {step : Edit α β} {laws : List (Constraint α)}
    (h : ∀ t, Ensures step t fun _ t' => Notes t t' laws) : Along (Issued 0) step := by
  intro t
  have hnotes : Notes t (step t).2 laws := h t
  exact hnotes.issued

theorem issued_of_mute {step : Edit α β} (h : Along Mute step) : Along (Issued 0) step :=
  fun t => (h t).issued

theorem issued_addWrapper (base : Blueprint) (container child : Nat) :
    Along (Issued 1) (addWrapper base container child : Edit α Nat) := by
  intro t
  show Ensures (addWrapper base container child) t fun _ t' => Issued 1 t t'
  refine Ensures.seq (Tree.issued_instantiate base (some container) _ t) fun wrapper t₁ h₁ => ?_
  exact h₁.trans (Tree.movable_reparent Tree.stable_mute.movable t₁ child wrapper).issued

/-- A filler is one node, where there is one. -/
theorem issued_addFiller (plan : StackPlan α) (base : Blueprint) (container : Nat)
    (fillers : List Filler) (t : Tree α) :
    Ensures (addFiller plan base container fillers) t fun filler t' =>
      Issued filler.toList.length t t' := by
  unfold addFiller
  split
  · refine Ensures.map ?_
    refine Ensures.seq (Tree.issued_instantiate base (some container) _ t) fun spacer t₁ h₁ => ?_
    exact h₁.trans (Tree.stable_setAttribute Tree.stable_mute t₁ spacer _ _).issued
  · exact Issued.refl t

/-- Whether a child is held by a wrapper. -/
def isHeld : Placement α → Bool
  | .direct => false
  | _ => true

variable [Scalar α]

theorem issued_addMember (plan : StackPlan α) (base : Blueprint) (container child : Nat)
    (placement : Placement α) :
    Along (Issued (if isHeld placement then 1 else 0))
      (addMember plan base container child placement) := by
  intro t
  have hmember : Ensures (addMember plan base container child placement) t fun _ t' =>
      Issued (if isHeld placement then 1 else 0) t t' := by
    refine addMember_spec plan base container child (fun hdirect => ?_) fun hplacement => ?_
    · subst hdirect
      exact Issued.refl t
    -- a wrapper takes one identifier, and whatever is not direct has a wrapper
    · have hheld : isHeld placement = true := by
        cases placement with
        | direct => exact absurd rfl hplacement
        | padded _ _ => rfl
        | wrapped _ _ _ => rfl
      rw [if_pos hheld]
      intro t₂ hnotes
      exact (issued_addWrapper base container child t).trans hnotes.issued
  exact hmember

omit [Scalar α] in
/-- A list is worked off, and some of its entries take one node each. -/
theorem issued_mapM (p : γ → Bool) (step : γ → Edit α β)
    (hstep : ∀ x, Along (Issued (if p x then 1 else 0)) (step x)) (xs : List γ) :
    Along (Issued (xs.countP p)) (xs.mapM step) := by
  induction xs with
  | nil =>
    rw [List.mapM_nil]
    exact Issued.refl
  | cons x xs ih =>
    rw [List.mapM_cons, List.countP_cons, Nat.add_comm]
    intro t
    exact (hstep x t).trans (ih _)

/-- The members for some children take the fillers, and a wrapper for each child that is held. -/
theorem issued_addMembers (plan : StackPlan α) (base : Blueprint) (container : Nat)
    (children : List (Child α)) (t : Tree α) :
    Ensures (addMembers plan base container children) t fun members t' =>
      Issued ((children.zip plan.placements).countP (fun pair => isHeld pair.2) +
        members.leading.toList.length + members.trailing.toList.length) t t' := by
  unfold addMembers
  refine Ensures.seq (issued_addFiller plan base container _ t) fun leading t₁ h₁ => ?_
  refine Ensures.seq (R := fun _ t₂ =>
    Issued ((children.zip plan.placements).countP fun pair => isHeld pair.2) t₁ t₂) ?_
    fun inner t₂ h₂ => ?_
  · refine issued_mapM (fun pair : Child α × Placement α => isHeld pair.2) _
      (fun pair t => ?_) (children.zip plan.placements) t₁
    have hsizes := issued_of_notes (fun t => memberSizes_spec plan.axis pair.1) t
    have hmember := issued_addMember plan base container pair.1.node pair.2
    have hall := hsizes.trans (hmember _)
    rwa [Nat.zero_add] at hall
  · refine Ensures.seq (issued_addFiller plan base container _ t₂) fun trailing t₃ h₃ => ?_
    have hall := (h₁.trans h₂).trans h₃
    rwa [Nat.add_comm leading.toList.length] at hall

/-- A stack names as many nodes as it hands back: its wrappers and its spacers. -/
theorem issued_arrangeStack (base : Blueprint) (container : Nat) (params : Params α)
    (children : List (Child α)) (t : Tree α) :
    Ensures (arrangeStack base container params children) t fun added t' => Issued added t t' := by
  -- each child has its placement, so counting pairs is counting placements
  have hcount : (children.zip (plan params (children.map (·.params))).placements).countP
      (fun pair => isHeld pair.2) =
        ((plan params (children.map (·.params))).placements.filter isHeld).length := by
    have hlength : (plan params (children.map (·.params))).placements.length =
        children.length := by
      show ((children.map (·.params)).map _).length = _
      rw [List.length_map, List.length_map]
    rw [← List.countP_eq_length_filter]
    conv => rhs; rw [← List.map_snd_zip (Nat.le_of_eq hlength), List.countP_map]
    rfl
  have hmembers := issued_addMembers (plan params (children.map (·.params))) base container
    children t
  rw [hcount] at hmembers
  unfold arrangeStack
  refine Ensures.seq hmembers fun members t₁ h₁ => ?_
  refine Ensures.seq (balance_spec _ members) fun _ t₂ h₂ => ?_
  refine Ensures.seq (shareWeights_spec _ _) fun _ t₃ h₃ => ?_
  refine Ensures.bind (Ensures.modify ?_)
  -- the lining up and the description draw no identifiers
  have hline : Mute t₃ (lineUp t₃ container members.all) :=
    Tree.movable_setChildren Tree.stable_mute.movable t₃ container _
  have hdescribe := issued_of_mute (along_describe Tree.stable_mute
    (plan params (children.map (·.params))) container)
  exact (h₁.trans (h₂.issued.trans h₃.issued)).trans (hline.issued.trans (hdescribe _))

/-- A layout names as many nodes as it hands back. -/
theorem issued_arrange (kind : Container) (base : Blueprint) (container : Nat) (params : Params α)
    (children : List (Child α)) (t : Tree α) :
    Ensures (arrange kind base container params children) t fun added t' => Issued added t t' := by
  by_cases hkind : kind = .linear
  · subst hkind
    exact issued_arrangeStack base container params children t
  · have hissued := issued_of_notes
      (fun t => arrange_spec (t := t) hkind base container params children) t
    have hnone : (arrange kind base container params children t).1 = 0 := by
      cases kind with
      | linear => exact absurd rfl hkind
      | frame => rfl
      | scroll axis => rfl
      | none => rfl
    show Issued (arrange kind base container params children t).1 t _
    rwa [hnone]

end Layout

/-! ## Counting while compiling -/

/-- Some nodes have got an identifier, and some have been counted: as elements, or as added. -/
structure Counts (nodes elements added : Nat) (s s' : Pass α) : Prop where
  issued : Issued nodes s.tree s'.tree
  elements : s'.elements = s.elements + elements
  added : s'.wrappers + s'.synthetic = s.wrappers + s.synthetic + added

namespace Counts

variable {s s' s'' : Pass α} {m n k l i j : Nat}

theorem refl (s : Pass α) : Counts 0 0 0 s s := ⟨Issued.refl s.tree, rfl, rfl⟩

theorem trans (h : Counts m k i s s') (h' : Counts n l j s' s'') :
    Counts (m + n) (k + l) (i + j) s s'' where
  issued := h.issued.trans h'.issued
  elements := by rw [h'.elements, h.elements, Nat.add_assoc]
  added := by rw [h'.added, h.added, Nat.add_assoc]

theorem of_edit {t : Tree α} (h : Issued n s.tree t) : Counts n 0 0 s { s with tree := t } :=
  ⟨h, rfl, rfl⟩

end Counts

theorem permits_counts : Permits (Counts 0 0 0 : Pass α → Pass α → Prop) where
  refl := Counts.refl
  trans h h' := h.trans h'
  write _ _ h := .of_edit h.issued

namespace Compile

variable [Scalar α] {setting : Setting α} {file : String} {p : Prepared α} {placed : Placed}
  {parent : Option Nat} {s s' : Pass α}

omit [Scalar α] in
theorem counts_instantiate {b : Blueprint} {place : Option Nat} {render : Template → String}
    {node : Nat} (h : edit (Tree.instantiate b place render) s = .ok (node, s')) :
    Counts 1 0 0 s s' := by
  cases h
  exact .of_edit (Tree.issued_instantiate b place render s.tree)

theorem counts_applyAttributes (chain : List ElementRule) (node : Nat) (scope : Scope)
    (attributes : Attributes) :
    Leads (Counts 0 0 0) (applyAttributes setting file chain node scope attributes) :=
  leads_applyAttributes permits_counts setting file
    (fun s _ => ⟨Issued.refl s.tree, rfl, rfl⟩) chain node scope attributes

/-- An element gets its node, and the node around it is counted as added. -/
theorem counts_make (h : make setting file p parent s = .ok (placed, s')) :
    ∃ k, Counts (1 + k) 0 k s s' := by
  unfold make at h
  split at h
  · obtain ⟨node, s₁, hnode, hattributes, -⟩ := run_makeOne h
    exact ⟨0, (counts_instantiate hnode).trans (counts_applyAttributes _ _ _ _ _ _ _ hattributes)⟩
  · obtain ⟨chain, b, outer, inner, s₁, s₂, s₃, s₄, -, houter, hinner, hforcing, hrest, -,
      hrecord⟩ := run_makeTwo h
    have hcounted : Counts 0 0 1 s₂ { s₂ with wrappers := s₂.wrappers + 1 } :=
      ⟨Issued.refl s₂.tree, rfl, Nat.add_right_comm _ _ _⟩
    have hforced : Counts 0 0 0 _ s₃ := counts_applyAttributes _ _ _ _ _ _ _ hforcing
    have happlied : Counts 0 0 0 s₃ s₄ := counts_applyAttributes _ _ _ _ _ _ _ hrest
    have hrecorded : Counts 0 0 0 s₄ s' :=
      hrecord _ permits_counts.toComposes fun _ s t laws hnotes => .of_edit hnotes.issued
    exact ⟨1, (counts_instantiate houter).trans ((counts_instantiate hinner).trans
      (hcounted.trans (hforced.trans (happlied.trans hrecorded))))⟩

theorem counts_opening {e : Element} {around : Option Scope} {depth : WrapDepth}
    (h : opening setting file e around parent depth s = .ok ((p, placed), s')) :
    ∃ k, Counts (1 + k) 1 k s s' := by
  obtain ⟨-, s₁, s₂, hmake, hdeclare, hhold⟩ := run_opening h
  obtain ⟨k, hmade⟩ := counts_make hmake
  have hcounted : Counts 0 1 0 s { s with elements := s.elements + 1 } :=
    ⟨Issued.refl s.tree, rfl, rfl⟩
  have hdeclared : Counts 0 0 0 s₁ s₂ := leads_declareOutlet permits_counts.toComposes
    (fun s _ => ⟨Issued.refl s.tree, rfl, rfl⟩) p placed _ _ _ hdeclare
  have hheld := leads_holdContent permits_counts setting p placed depth _ _ _ hhold
  have hall := hcounted.trans (hmade.trans (hdeclared.trans hheld))
  simp only [Nat.zero_add, Nat.add_zero] at hall
  exact ⟨k, hall⟩

/-- A layout counts what it adds. -/
theorem counts_arrangeChildren {children : List (Child α)}
    (h : arrangeChildren setting p placed children s = .ok ((), s')) :
    ∃ k, Counts k 0 k s s' := by
  rcases run_arrangeChildren h with rfl | ⟨-, b, added, t, -, harrange, rfl⟩
  · exact ⟨0, Counts.refl s'⟩
  · have hissued : Issued _ s.tree _ := Layout.issued_arrange (containerOf p.chain) b placed.inner
      p.params children s.tree
    rw [harrange] at hissued
    exact ⟨added, hissued, rfl, (Nat.add_assoc _ _ _).symm⟩

mutual

/-- An element and those inside it are counted once, with all that is named for them. -/
theorem counts_element : ∀ (e : Element) (around : Option Scope) (parent : Option Nat)
    (depth : WrapDepth) (s s' : Pass α) (child : Child α),
    element setting file e around parent depth s = .ok (child, s') →
    ∃ k, Counts (e.count + k) e.count k s s'
  | ⟨tag, attributes, es, text⟩, around, parent, depth, s, s', child, hrun => by
    obtain ⟨p, placed, s₁, inside, s₂, hopening, helements, harrange, -⟩ := run_element hrun
    obtain ⟨wrapped, hopened⟩ := counts_opening hopening
    obtain ⟨nested, hinside⟩ := counts_elements es p.scope placed.inner _ s₁ s₂ inside helements
    obtain ⟨added, harranged⟩ := counts_arrangeChildren harrange
    have hall := hopened.trans (hinside.trans harranged)
    have hnodes : 1 + wrapped + (Element.countAll es + nested + added) =
        1 + Element.countAll es + (wrapped + (nested + added)) := by omega
    rw [hnodes] at hall
    exact ⟨_, hall⟩

theorem counts_elements : ∀ (es : List Element) (around : Scope) (x : Nat) (depth : WrapDepth)
    (s s' : Pass α) (children : List (Child α)),
    elements setting file es around x depth s = .ok (children, s') →
    ∃ k, Counts (Element.countAll es + k) (Element.countAll es) k s s'
  | [], around, x, depth, s, s', children, hrun => by
    unfold elements at hrun
    cases hrun
    exact ⟨0, Counts.refl s⟩
  | e :: es, around, x, depth, s, s', children, hrun => by
    obtain ⟨child, s₁, rest, helement, helements, -⟩ := run_elements_cons hrun
    obtain ⟨first, hfirst⟩ := counts_element e (some around) (some x) depth s s₁ child helement
    obtain ⟨others, hothers⟩ := counts_elements es around x depth s₁ s' rest helements
    have hall := hfirst.trans hothers
    rw [Nat.add_add_add_comm] at hall
    exact ⟨_, hall⟩

end

/-! ## Without constraints -/

/-- Nothing has been added by a layout, and no constraint has been recorded. -/
structure Unlaid (s s' : Pass α) : Prop where
  synthetic : s'.synthetic = s.synthetic
  constraints : s'.tree.constraints = s.tree.constraints

omit [Scalar α] in
theorem permits_unlaid : Permits (Unlaid : Pass α → Pass α → Prop) where
  refl _ := ⟨rfl, rfl⟩
  trans h h' := ⟨h'.synthetic.trans h.synthetic, h'.constraints.trans h.constraints⟩
  write _ _ h := ⟨rfl, h.constraints⟩

theorem unlaid_make (hfree : setting.options.target.usesConstraints = false) :
    Leads Unlaid (make setting file p parent) := by
  have hmade : ∀ (b : Blueprint) (place : Option Nat) (render : Template → String),
      Leads Unlaid (edit (Tree.instantiate b place render) : Compile α Nat) :=
    fun b place render => Leads.edit fun s =>
      ⟨rfl, Tree.along_instantiate lasting_constraints b place render s.tree⟩
  refine leads_make permits_unlaid.toComposes (hmade _) (fun _ b _ => hmade b)
    (fun _ _ => ⟨rfl, rfl⟩) (fun chain node attributes => ?_) (fun hlaid => ?_) parent
  · exact leads_applyAttributes permits_unlaid setting file (fun _ _ => ⟨rfl, rfl⟩) chain node
      p.scope attributes
  · rw [hfree] at hlaid
    cases hlaid

/-- A target without constraints has no layout. -/
theorem spans_unlaid (hfree : setting.options.target.usesConstraints = false) :
    Spans setting file Unlaid where
  toComposes := permits_unlaid.toComposes
  opening e around parent depth := by
    refine leads_opening permits_unlaid.toComposes (fun _ _ => ⟨rfl, rfl⟩) (fun p _ => ?_)
      (fun _ _ => ⟨rfl, rfl⟩) fun p placed => ?_
    · exact unlaid_make hfree
    · exact leads_holdContent permits_unlaid setting p placed depth
  arrange p placed children s v s' h := by
    rcases run_arrangeChildren h with rfl | ⟨hlaid, -⟩
    · exact ⟨rfl, rfl⟩
    · rw [hfree] at hlaid
      cases hlaid

end Compile

namespace Compilation

variable [Scalar α] {setting : Setting α} {file : String} {root : Element} {c : Compilation α}

/-- The counts of a compilation are those of its output. Every element is counted; the nodes that
have an identifier are one for each element, one for each node around an element and those that
were added by layout; the identifiers of nodes and constraints are the first ones of the file, each
of them in use once; and without constraints nothing is added by layout. -/
theorem statistics_of_ofElement (h : ofElement setting file root = .ok c) :
    c.elementCount = root.count ∧
    c.tree.nodes.toList.countP (·.ident.isSome) =
      c.elementCount + c.wrapperCount + c.syntheticCount ∧
    c.tree.idents.Perm (IdSource.first file
      (c.elementCount + c.wrapperCount + c.syntheticCount + c.constraintCount)) ∧
    (setting.options.target = .web → c.syntheticCount = 0 ∧ c.constraintCount = 0) := by
  rcases ofElement_cases setting file root with ⟨child, s, hrun, -, hok⟩ | ⟨e, herror, -⟩
  · rw [hok] at h
    obtain rfl := Except.ok.inj h
    obtain ⟨k, hcounts⟩ := Compile.counts_element root none none {} (start file) s child hrun
    have helements : s.elements = root.count := hcounts.elements.trans (Nat.zero_add _)
    have hadded : s.wrappers + s.synthetic = k := hcounts.added.trans (Nat.zero_add _)
    have hnamed : s.tree.nodeIdents.length = root.count + k :=
      hcounts.issued.named.trans (Nat.zero_add _)
    have htally : s.tree.Tally := hcounts.issued.tally (Tree.tally_empty file)
    -- every named node is an element's, a wrapper's or one that the layout added
    have hnodes : s.tree.nodeIdents.length = s.elements + s.wrappers + s.synthetic := by omega
    refine ⟨helements, s.tree.length_nodeIdents.symm.trans hnodes, ?_, fun hweb => ?_⟩
    · have hdrawn := htally.drawn_eq
      rw [hnodes] at hdrawn
      have hseed : s.tree.ids.seed = file := hcounts.issued.seed
      unfold Tree.Tally at htally
      rw [hdrawn, hseed] at htally
      exact htally
    · have hfree : setting.options.target.usesConstraints = false := by
        rw [hweb]
        rfl
      -- without constraints no step of the layout runs at all
      have hspans : Compile.Spans setting file Compile.Unlaid := Compile.spans_unlaid hfree
      have hunlaid := Compile.leads_element hspans root none none {} (start file) child s hrun
      exact ⟨hunlaid.synthetic, congrArg List.length hunlaid.constraints⟩
  · rw [herror] at h
    cases h

/-- The stack of the sample for a target without constraints. -/
def Sample.free : Setting ℚ := { Sample.setting with options := { target := .web } }

theorem statistics_of_sample :
    (∃ c, ofElement Sample.setting Sample.file Sample.stack = .ok c ∧
      (c.elementCount, c.wrapperCount, c.syntheticCount, c.constraintCount) = (3, 1, 1, 9) ∧
      c.tree.nodes.toList.countP (·.ident.isSome) = 5 ∧
      c.tree.idents.Perm (IdSource.first Sample.file 14)) ∧
    ∃ c, ofElement Sample.free Sample.file Sample.stack = .ok c ∧
      c.syntheticCount = 0 ∧ c.constraintCount = 0 := by
  have hios : (ofElement Sample.setting Sample.file Sample.stack).toOption.any (fun c =>
      decide ((c.elementCount, c.wrapperCount, c.syntheticCount, c.constraintCount) =
        (3, 1, 1, 9))) = true := by
    decide +kernel
  have hweb : (ofElement Sample.free Sample.file Sample.stack).toOption.any (fun _ => true) =
      true := by
    decide +kernel
  obtain ⟨c, hc, hcounts⟩ := exists_ok hios
  obtain ⟨d, hd, -⟩ := exists_ok hweb
  have hcounts' := of_decide_eq_true hcounts
  obtain ⟨-, hnamed, hidents, -⟩ := statistics_of_ofElement hc
  obtain ⟨-, -, -, hfree⟩ := statistics_of_ofElement hd
  simp only [Prod.mk.injEq] at hcounts'
  obtain ⟨helements, hwrappers, hsynthetic, hconstraints⟩ := hcounts'
  rw [helements, hwrappers, hsynthetic] at hnamed hidents
  rw [hconstraints] at hidents
  exact ⟨⟨c, hc, of_decide_eq_true hcounts, hnamed, hidents⟩, d, hd, hfree rfl⟩

end Compilation

end LayoutCompiler
