import LayoutCompiler.Proofs.Tree.Branches
import LayoutCompiler.Proofs.Tree.Growth
import Mathlib.Data.Set.Lattice
import Mathlib.Order.CompletePartialOrder
/-!
# What stands at a node

A node of the arena and the nodes below it stand for a branch, and take their places in the arena.
Nodes that different branches take are different ones, so that a step which works on one branch
leaves the others as they are. By this, steps of construction follow the functions of branches.

* `Tree.Stands`, `Tree.StandAll`: what stands at nodes, and the nodes that it takes.
* `Tree.Grafted`, `Tree.ensures_graft`: how a step of a path works on the children of a node.
* `Tree.reshapes_writeAttribute`: by induction over the steps, how writing works on a branch.
* `Tree.Bears.graft`: how writing works below a node.
-/

namespace LayoutCompiler

namespace Tree

variable {α : Type}

/-- Writes an attribute where the steps of a path lead. -/
def writeAttribute (key text : String) (steps : List PathStep) (start : Nat) :
    Edit α Unit := do
  let target ← walkPath start steps
  modify (·.setAttribute target key text)

mutual

/-- What stands at a node under its parent, and the nodes that it takes. -/
inductive Stands (t : Tree α) : Nat → Nat → Branch → Set Nat → Prop
  | intro {parent id : Nat} {b : Branch} {ids : List Nat} {below : Set Nat}
      (hnode : t.node id =
        { name := b.name, attributes := b.attributes, children := ids, parent := some parent })
      (hbelow : StandAll t id ids b.children below) (hid : id ∉ below) :
      Stands t parent id b (insert id below)

/-- What stands at several nodes under one parent, and the nodes that they take. -/
inductive StandAll (t : Tree α) : Nat → List Nat → List Branch → Set Nat → Prop
  | nil {parent : Nat} : StandAll t parent [] [] ∅
  | cons {parent id : Nat} {ids : List Nat} {b : Branch} {bs : List Branch} {own rest : Set Nat}
      (h : Stands t parent id b own) (hs : StandAll t parent ids bs rest)
      (hapart : Disjoint own rest) : StandAll t parent (id :: ids) (b :: bs) (own ∪ rest)

end

variable {t t' t'' : Tree α} {parent id : Nat} {ids : List Nat} {b : Branch} {bs : List Branch}
  {own own' own'' rest : Set Nat} {step : PathStep}

mutual

/-- What stands at a node is told by the nodes that it takes. -/
theorem Stands.frame : ∀ {parent id : Nat} {b : Branch} {own : Set Nat},
    t.Stands parent id b own → (∀ x ∈ own, t'.node x = t.node x) → t'.Stands parent id b own
  | _, _, _, _, .intro hnode hbelow hid, h =>
    .intro ((h _ (Set.mem_insert _ _)).trans hnode)
      (hbelow.frame fun x hx => h x (Set.mem_insert_of_mem _ hx)) hid

theorem StandAll.frame : ∀ {parent : Nat} {ids : List Nat} {bs : List Branch} {own : Set Nat},
    t.StandAll parent ids bs own → (∀ x ∈ own, t'.node x = t.node x) →
      t'.StandAll parent ids bs own
  | _, _, _, _, .nil, _ => .nil
  | _, _, _, _, .cons hfirst hrest hapart, h =>
    .cons (hfirst.frame fun x hx => h x (Set.mem_union_left _ hx))
      (hrest.frame fun x hx => h x (Set.mem_union_right _ hx)) hapart

end

/-- A step leads to a node when it leads to the branch at it. -/
theorem Stands.fits_eq (h : t.Stands parent id b own) (step : PathStep) :
    fits (t.node id) step = b.fits step := by
  cases h with
  | intro hnode =>
    rw [hnode]
    rfl

theorem writeAttribute_cons (key text : String) (steps : List PathStep) (start : Nat) :
    (writeAttribute key text (step :: steps) start : Edit α Unit) =
      findOrCreate start step >>= writeAttribute key text steps := rfl

/-! ## Changes of branches -/

/-- What takes some nodes has come to take others, of which some may be new. All other nodes are as
they were. -/
structure Reshaped (t t' : Tree α) (own own' : Set Nat) : Prop where
  size_le : t.size ≤ t'.size
  bounded : ∀ x ∈ own', x < t'.size
  fresh : ∀ x ∈ own', x ∈ own ∨ t.size ≤ x
  frame : ∀ x < t.size, x ∉ own → t'.node x = t.node x

namespace Reshaped

theorem refl (h : ∀ x ∈ own, x < t.size) : Reshaped t t own own :=
  ⟨Nat.le_refl _, h, fun _ hx => Or.inl hx, fun _ _ _ => rfl⟩

theorem trans (h : Reshaped t t' own own') (h' : Reshaped t' t'' own' own'') :
    Reshaped t t'' own own'' where
  size_le := Nat.le_trans h.size_le h'.size_le
  bounded := h'.bounded
  fresh x hx := by
    rcases h'.fresh x hx with hmem | hle
    · exact h.fresh x hmem
    · exact Or.inr (Nat.le_trans h.size_le hle)
  frame x hx hout := by
    have hout' : x ∉ own' := fun hmem => (h.fresh x hmem).elim hout (Nat.not_le.2 hx)
    rw [h'.frame x (Nat.lt_of_lt_of_le hx h.size_le) hout', h.frame x hx hout]

/-- More nodes may be taken, if they are left as they were. -/
theorem union (h : Reshaped t t' own own') (hrest : ∀ x ∈ rest, x < t.size) :
    Reshaped t t' (own ∪ rest) (own' ∪ rest) where
  size_le := h.size_le
  bounded x hx := hx.elim (h.bounded x) fun hx => Nat.lt_of_lt_of_le (hrest x hx) h.size_le
  fresh x hx := by
    rcases hx with hx | hx
    · exact (h.fresh x hx).imp_left (Set.mem_union_left _)
    · exact Or.inl (Set.mem_union_right _ hx)
  frame x hx hout := h.frame x hx fun hmem => hout (Set.mem_union_left _ hmem)

/-- What was apart is still apart, and as it was. -/
theorem apart (h : Reshaped t t' own own') (hrest : ∀ x ∈ rest, x < t.size)
    (hapart : Disjoint own rest) : Disjoint own' rest ∧ ∀ x ∈ rest, t'.node x = t.node x := by
  rw [Set.disjoint_left] at hapart ⊢
  constructor
  · intro x hx hmem
    rcases h.fresh x hx with hold | hnew
    · exact hapart hold hmem
    · exact Nat.not_lt.2 hnew (hrest x hmem)
  · intro x hmem
    exact h.frame x (hrest x hmem) fun hold => hapart hold hmem

end Reshaped

/-- A step for nodes changes what stands at a node, and nothing else. -/
def Reshapes (f : Branch → Branch) (act : Nat → Edit α Unit) : Prop :=
  ∀ {t : Tree α} {parent id : Nat} {b : Branch} {own : Set Nat}, t.Stands parent id b own →
    (∀ x ∈ own, x < t.size) → Ensures (act id) t fun _ t' =>
      ∃ own', t'.Stands parent id (f b) own' ∧ Reshaped t t' own own'

theorem reshapes_setAttribute (key text : String) :
    Reshapes (α := α) (fun b => { b with attributes := setEntry key text b.attributes })
      fun id => modify (·.setAttribute id key text) := by
  intro t parent id b own h hbounded
  cases h with
  | @intro _ _ _ ids below hnode hbelow hid =>
    have hlt := hbounded id (Set.mem_insert _ _)
    -- only the node at the top changes, and it is apart from all below
    have hafter : ∀ x, (t.setAttribute id key text).node x = if x = id then
        { t.node x with attributes := setEntry key text (t.node x).attributes }
        else t.node x := node_modifyNode_of_lt hlt _
    have hself := hafter id
    rw [if_pos rfl, hnode] at hself
    refine Ensures.modify ⟨_, .intro hself (hbelow.frame fun x hx => ?_) hid, ?_, ?_, ?_, ?_⟩
    · rw [hafter, if_neg fun hx' : x = id => hid (hx' ▸ hx)]
    · exact Nat.le_of_eq (size_modifyNode _ _ _).symm
    · intro x hx
      exact Nat.lt_of_lt_of_eq (hbounded x hx) (size_modifyNode _ _ _).symm
    · exact fun x hx => Or.inl hx
    · intro x _ hout
      rw [hafter, if_neg fun hx : x = id => hout (hx ▸ Set.mem_insert _ _)]

/-! ## Steps of a path -/

/-- A step leads to the first child that it fits. -/
theorem findOrCreate_of_fits {old : List Nat}
    (hchildren : (t.node parent).children = old ++ id :: ids)
    (hold : ∀ c ∈ old, fits (t.node c) step = false) (hfits : fits (t.node id) step = true) :
    Ensures (findOrCreate parent step) t fun found t' => found = id ∧ t' = t := by
  have hfind : (t.node parent).children.find? (fun c => fits (t.node c) step) = some id := by
    rw [hchildren, List.find?_eq_some_iff_append]
    exact ⟨hfits, old, ids, rfl, fun c hc => by rw [hold c hc]; rfl⟩
  unfold findOrCreate
  refine Ensures.bind (Ensures.get ?_)
  rw [hfind]
  exact ⟨rfl, rfl⟩

/-- A step that fits no child leads to a new one. -/
theorem findOrCreate_new (hparent : parent < t.size)
    (hnone : ∀ c ∈ (t.node parent).children, fits (t.node c) step = false) :
    Ensures (findOrCreate parent step) t fun id t' => id = t.size ∧ t'.size = t.size + 1 ∧
      ∀ x, t'.node x =
        if x = t.size then
          { name := step.name, attributes := step.key.toList, parent := some parent }
        else if x = parent then
          { t.node x with children := (t.node x).children ++ [t.size] }
        else t.node x := by
  have hfind : (t.node parent).children.find? (fun c => fits (t.node c) step) = none :=
    List.find?_eq_none.2 fun c hc => by rw [hnone c hc]; exact Bool.false_ne_true
  have hadded := node_addChild (t := t) step.name hparent
  unfold findOrCreate
  refine Ensures.bind (Ensures.get ?_)
  rw [hfind]
  refine Ensures.seq (R := fun id t₁ => id = t.size ∧ t₁ = (addChild step.name parent t).2)
    ⟨rfl, rfl⟩ ?_
  rintro _ _ ⟨rfl, rfl⟩
  -- a step with a key is written into the new node as its first attribute
  cases hkey : step.key with
  | none => exact ⟨rfl, size_addChild _ _ _, hadded⟩
  | some entry =>
    have hlt : t.size < (addChild step.name parent t).2.size := by
      rw [size_addChild]
      exact Nat.lt_succ_self _
    refine ⟨rfl, (size_modifyNode _ _ _).trans (size_addChild _ _ _), fun x => ?_⟩
    refine (node_modifyNode_of_lt hlt _ x).trans ?_
    rw [hadded]
    split
    · rfl
    · rfl

/-- Behind the children `old` that a step has passed, those of the node have come to stand for other
branches. Nothing has changed but the node and what they take. -/
structure Grafted (t t' : Tree α) (parent : Nat) (old ids : List Nat) (bs : List Branch)
    (own own' : Set Nat) : Prop where
  children : t'.node parent = { t.node parent with children := old ++ ids }
  stands : t'.StandAll parent ids bs own'
  outside : parent ∉ own'
  reshaped : Reshaped t t' (insert parent own) (insert parent own')

namespace Grafted

variable {old : List Nat} {id' : Nat} {first first' : Set Nat} {c : Branch}

/-- A step that leads to no child makes one, and what is done there is done at a new node. -/
theorem of_new {t₁ : Tree α} (hparent : parent < t.size)
    (hchildren : (t.node parent).children = old) (hsize : t₁.size = t.size + 1)
    (hnode : ∀ x < t.size, t₁.node x = if x = parent then
      { t.node x with children := (t.node x).children ++ [t.size] } else t.node x)
    (hstands : t'.Stands parent t.size c own')
    (hreshaped : Reshaped t₁ t' (insert t.size ∅) own') :
    Grafted t t' parent old [t.size] [c] ∅ own' := by
  have hnew : ∀ x ∈ own', t.size ≤ x := by
    intro x hx
    rcases hreshaped.fresh x hx with (rfl | hx) | hle
    · exact Nat.le_refl _
    · exact absurd hx (Set.notMem_empty _)
    · omega
  have hframe : ∀ x < t.size, t'.node x = t₁.node x := by
    refine fun x hx => hreshaped.frame x (by omega) ?_
    rintro (rfl | hmem)
    · exact Nat.lt_irrefl _ hx
    · exact hmem
  have hgrows : t.size ≤ t'.size := by
    have := hreshaped.size_le
    omega
  refine
    { children := ?_
      stands := Set.union_empty own' ▸ .cons hstands .nil (Set.disjoint_empty _)
      outside := fun hmem => Nat.not_le.2 hparent (hnew parent hmem)
      reshaped := ⟨hgrows, ?_, ?_, fun x hx hother => ?_⟩ }
  · rw [hframe parent hparent, hnode parent hparent, if_pos rfl, hchildren]
  · rintro x (rfl | hx)
    · exact Nat.lt_of_lt_of_le hparent hgrows
    · exact hreshaped.bounded x hx
  · rintro x (rfl | hx)
    · exact Or.inl (Set.mem_insert _ _)
    · exact Or.inr (hnew x hx)
  · rw [hframe x hx, hnode x hx, if_neg fun heq : x = parent => hother (heq ▸ Set.mem_insert _ _)]

/-- A step that leads to a child changes it, and leaves those behind it as they were. -/
theorem of_here (hchildren : (t.node parent).children = old ++ id' :: ids)
    (hparent : parent < t.size) (hout : parent ∉ first ∪ rest)
    (hrest : t.StandAll parent ids bs rest) (hrest_lt : ∀ x ∈ rest, x < t.size)
    (hapart : Disjoint first rest) (hstands : t'.Stands parent id' c first')
    (hreshaped : Reshaped t t' first first') :
    Grafted t t' parent old (id' :: ids) (c :: bs) (first ∪ rest) (first' ∪ rest) := by
  have hothers : ∀ x ∈ insert parent rest, x < t.size := by
    rintro x (rfl | hx)
    · exact hparent
    · exact hrest_lt x hx
  obtain ⟨hdisjoint, hframe⟩ := hreshaped.apart hothers
    (Set.disjoint_insert_right.2 ⟨fun hmem => hout (Or.inl hmem), hapart⟩)
  obtain ⟨hout', hdisjoint⟩ := Set.disjoint_insert_right.1 hdisjoint
  refine ⟨?_, .cons hstands (hrest.frame fun x hx => ?_) hdisjoint, ?_, ?_⟩
  · rw [hframe parent (Set.mem_insert _ _), ← hchildren]
  · exact hframe x (Set.mem_insert_of_mem _ hx)
  · rintro (hmem | hmem)
    · exact hout' hmem
    · exact hout (Or.inr hmem)
  · have hunion := hreshaped.union hothers
    rwa [Set.union_insert, Set.union_insert] at hunion

/-- A step that passes a child leaves it as it was. -/
theorem of_behind {ids' : List Nat} {bs' : List Branch} {rest' : Set Nat}
    (hout : parent ∉ first ∪ rest) (hfirst : t.Stands parent id' b first)
    (hfirst_lt : ∀ x ∈ first, x < t.size) (hapart : Disjoint first rest)
    (h : Grafted t t' parent (old ++ [id']) ids' bs' rest rest') :
    Grafted t t' parent old (id' :: ids') (b :: bs') (first ∪ rest) (first ∪ rest') := by
  have hapart' : Disjoint (insert parent rest) first :=
    Set.disjoint_insert_left.2 ⟨fun hmem => hout (Or.inl hmem), hapart.symm⟩
  obtain ⟨hdisjoint, hframe⟩ := h.reshaped.apart hfirst_lt hapart'
  obtain ⟨-, hdisjoint⟩ := Set.disjoint_insert_left.1 hdisjoint
  refine ⟨?_, .cons (hfirst.frame hframe) h.stands hdisjoint.symm, ?_, ?_⟩
  · rw [h.children, List.append_assoc]
    rfl
  · rintro (hmem | hmem)
    · exact hout (Or.inl hmem)
    · exact h.outside hmem
  · have hunion := h.reshaped.union hfirst_lt
    rwa [Set.insert_union, Set.insert_union, Set.union_comm rest, Set.union_comm rest'] at hunion

end Grafted

/-- Changing the branch that a step leads to grafts it: the children of the node that stood for
branches stand for the others now, and those in front of them, which the step does not lead to, are
as they were. -/
theorem ensures_graft {f : Branch → Branch} {act : Nat → Edit α Unit} (hact : Reshapes f act)
    (hparent : parent < t.size) {old : List Nat}
    (hchildren : (t.node parent).children = old ++ ids)
    (hold : ∀ c ∈ old, fits (t.node c) step = false) (h : t.StandAll parent ids bs own)
    (hout : parent ∉ own) (hbounded : ∀ x ∈ own, x < t.size) :
    Ensures (findOrCreate parent step >>= act) t fun _ t' => ∃ ids' own',
      Grafted t t' parent old ids' (Branch.graft step f bs) own own' := by
  -- on the way along the branches, those that the step has passed join the children in front
  induction bs generalizing old ids own with
  | nil =>
    cases h
    rw [List.append_nil] at hchildren
    refine Ensures.seq (findOrCreate_new hparent (hchildren ▸ hold)) ?_
    rintro id t₁ ⟨rfl, hsize, hnode⟩
    have hfresh : t₁.Stands parent t.size (Branch.fresh step) (insert t.size ∅) :=
      .intro ((hnode _).trans (if_pos rfl)) .nil (Set.notMem_empty _)
    refine (hact hfresh fun x hx => ?_).imp ?_
    · rcases hx with rfl | hx
      · omega
      · exact absurd hx (Set.notMem_empty _)
    · rintro - t' ⟨own', hstands, hreshaped⟩
      have hkept : ∀ x < t.size, t₁.node x = if x = parent then
          { t.node x with children := (t.node x).children ++ [t.size] } else t.node x := by
        intro x hx
        rw [hnode, if_neg (Nat.ne_of_lt hx)]
      exact ⟨_, own', .of_new hparent hchildren hsize hkept hstands hreshaped⟩
  | cons b bs ih =>
    cases h with
    | @cons _ id ids _ _ first rest hfirst hrest hapart =>
      have hfirst_lt : ∀ x ∈ first, x < t.size := fun x hx => hbounded x (Or.inl hx)
      have hrest_lt : ∀ x ∈ rest, x < t.size := fun x hx => hbounded x (Or.inr hx)
      unfold Branch.graft
      cases hfits : b.fits step with
      | true =>
        refine Ensures.seq (findOrCreate_of_fits hchildren hold (hfirst.fits_eq step ▸ hfits)) ?_
        rintro found t₁ ⟨hfound, hsame⟩
        rw [hfound, hsame]
        refine (hact hfirst hfirst_lt).imp ?_
        rintro - t' ⟨first', hstands, hreshaped⟩
        exact ⟨_, _, .of_here hchildren hparent hout hrest hrest_lt hapart hstands hreshaped⟩
      | false =>
        have hpassed : ∀ c ∈ old ++ [id], fits (t.node c) step = false := by
          intro c hc
          rcases List.mem_append.1 hc with hc | hc
          · exact hold c hc
          · rw [List.mem_singleton.1 hc, hfirst.fits_eq, hfits]
        have hbehind : (t.node parent).children = old ++ [id] ++ ids := by
          rw [hchildren, List.append_assoc]
          rfl
        refine (ih hbehind hpassed hrest (fun hmem => hout (Or.inr hmem)) hrest_lt).imp ?_
        rintro - t' ⟨ids', rest', h⟩
        exact ⟨_, _, h.of_behind hout hfirst hfirst_lt hapart⟩

/-- Writing at the end of a path changes the branch in which it starts, and nothing else. -/
theorem reshapes_writeAttribute (key text : String) (steps : List PathStep) :
    Reshapes (α := α) (Branch.write key text steps) (writeAttribute key text steps) := by
  induction steps with
  | nil => exact reshapes_setAttribute key text
  | cons step steps ih =>
    intro t parent id b own h hbounded
    cases h with
    | @intro _ _ _ ids below hnode hbelow hid =>
      have hid_lt := hbounded id (Set.mem_insert _ _)
      have hchildren : (t.node id).children = [] ++ ids := by rw [hnode]; rfl
      rw [writeAttribute_cons]
      refine (ensures_graft ih hid_lt hchildren nofun hbelow hid
        fun x hx => hbounded x (Set.mem_insert_of_mem _ hx)).imp ?_
      rintro - t' ⟨ids', below', h⟩
      refine ⟨insert id below', .intro ?_ h.stands h.outside, h.reshaped⟩
      rw [h.children, hnode]
      rfl

/-! ## Branches below a node -/

theorem StandAll.forall₂ (h : t.StandAll parent ids bs own) :
    List.Forall₂ (fun id b => ∃ own, t.Stands parent id b own) ids bs := by
  induction bs generalizing ids own with
  | nil =>
    cases h
    exact .nil
  | cons b bs ih =>
    cases h with
    | cons hfirst hrest _ => exact .cons ⟨_, hfirst⟩ (ih hrest)

/-- Behind the children that a node had there are some for branches now, and nothing else has
changed. -/
def Bears (t t' : Tree α) (node : Nat) (bs : List Branch) : Prop :=
  ∃ ids own, t'.node node =
      { t.node node with children := (t.node node).children ++ ids } ∧
    t'.StandAll node ids bs own ∧ node ∉ own ∧ Reshaped t t' {node} (insert node own)

theorem bears_nil {node : Nat} (hnode : node < t.size) : Bears t t node [] := by
  refine ⟨[], ∅, ?_, .nil, Set.notMem_empty _, ?_⟩
  · rw [List.append_nil]
  · rw [insert_empty_eq]
    refine .refl fun x hx => ?_
    rwa [Set.mem_singleton_iff.1 hx]

/-- Nodes that there were have nothing but more children. -/
theorem Bears.old {node c : Nat} (h : Bears t t' node bs) (hc : c < t.size) :
    ∃ ids, t'.node c = { t.node c with children := (t.node c).children ++ ids } := by
  obtain ⟨ids, own, hself, -, -, hreshaped⟩ := h
  by_cases hcn : c = node
  · rw [hcn]
    exact ⟨ids, hself⟩
  · refine ⟨[], ?_⟩
    rw [hreshaped.frame c hc hcn, List.append_nil]

/-- A step that leads to none of the children that there were grafts the branches. -/
theorem Bears.graft {node : Nat} {f : Branch → Branch} {act : Nat → Edit α Unit}
    (h : Bears t t' node bs) (hact : Reshapes f act)
    (hold : ∀ c ∈ (t.node node).children, c < t.size ∧ fits (t.node c) step = false) :
    Ensures (findOrCreate node step >>= act) t' fun _ t'' =>
      Bears t t'' node (Branch.graft step f bs) := by
  -- the children that there were have kept what steps look at
  have hpassed : ∀ c ∈ (t.node node).children, fits (t'.node c) step = false := by
    intro c hc
    obtain ⟨hlt, hfits⟩ := hold c hc
    obtain ⟨_, hkept⟩ := h.old hlt
    rw [hkept]
    exact hfits
  obtain ⟨ids, own, hself, hstands, hout, hreshaped⟩ := h
  have hbounded := hreshaped.bounded
  refine (ensures_graft hact (hbounded node (Set.mem_insert _ _)) (by rw [hself]) hpassed hstands
    hout fun x hx => hbounded x (Set.mem_insert_of_mem _ hx)).imp ?_
  rintro - t'' ⟨ids', own', h'⟩
  refine ⟨ids', own', ?_, h'.stands, h'.outside, hreshaped.trans h'.reshaped⟩
  rw [h'.children, hself]

end Tree

end LayoutCompiler
