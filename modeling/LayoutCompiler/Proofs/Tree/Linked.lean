import LayoutCompiler.Proofs.Tree.Ancestry
/-!
# Linked trees

The two directions of a tree, kept in step by every change of the arena. `Linked` says what holds
of a tree at every moment of its construction: child lists and parent links agree, nothing is its
own ancestor, only the root is without a parent, and a node whose children go elsewhere has a child
that holds them.

* `Linked.addChild`: a new node hangs where it was put.
* `Linked.reparent`: a node moves, with all that is below it, to a place that is not below it.
* `Linked.setChildren`: the children of a node change their order.
-/

namespace LayoutCompiler

/-- A node without what documents show of it: its links, its identifier and its role. -/
def Node.bare (n : Node) : Node :=
  { n with name := "", attributes := [], style := [], text := none }

namespace Tree

variable {α : Type} {t t' : Tree α} {c k m p q x : Nat}

/-- What holds of a tree at every moment of its construction. -/
structure Linked (t : Tree α) : Prop where
  listed : t.Listed
  once : ∀ p, (t.node p).children.Nodup
  bounded : t.Bounded
  acyclic : t.Acyclic
  /-- The content of a node is a child that holds its children. -/
  held : ∀ c k, (t.node c).content = some k → t.Up k c ∧ (t.node k).holder = true
  /-- What only holds children has no identifier. -/
  anonymous : ∀ k, (t.node k).holder = true → (t.node k).ident = none
  orphan : ∀ c, c < t.size → (t.node c).parent = none → t.root = some c
  rooted : ∀ r, t.root = some r → r < t.size ∧ (t.node r).parent = none

/-! ## Nodes after a change -/

@[simp] theorem size_modifyNode (t : Tree α) (id : Nat) (f : Node → Node) :
    (t.modifyNode id f).size = t.size := by
  simp [modifyNode, size]

@[simp] theorem root_modifyNode (t : Tree α) (id : Nat) (f : Node → Node) :
    (t.modifyNode id f).root = t.root := rfl

theorem node_modifyNode (t : Tree α) (id : Nat) (f : Node → Node) (x : Nat) :
    (t.modifyNode id f).node x = if x = id ∧ id < t.size then f (t.node x) else t.node x := by
  unfold modifyNode node size
  rw [Array.getElem?_modify]
  by_cases hid : id = x
  · subst hid
    by_cases hlt : id < t.nodes.size
    · simp [hlt]
    · simp [hlt]
  · have hne : ¬ (x = id ∧ id < t.nodes.size) := fun h => hid h.1.symm
    rw [if_neg hid, if_neg hne]

theorem node_modifyNode_of_lt (hid : k < t.size) (f : Node → Node) (x : Nat) :
    (t.modifyNode k f).node x = if x = k then f (t.node x) else t.node x := by
  rw [node_modifyNode]
  simp [hid]

theorem modifyNode_eq_self (f : Node → Node) (hf : f (t.node k) = t.node k) :
    t.modifyNode k f = t := by
  have hnodes : t.nodes.modify k f = t.nodes := by
    refine Array.ext (by simp) fun i hi hi' => ?_
    rw [Array.getElem_modify]
    split
    · rename_i heq
      subst heq
      have hnode : t.node k = t.nodes[k] := by simp [node, hi']
      rw [← hnode, hf]
    · rfl
  unfold modifyNode
  rw [hnodes]

/-- Only nodes of the arena have an identifier. -/
theorem lt_size_of_ident (h : (t.node x).ident.isSome) : x < t.size := by
  by_contra hx
  rw [node_eq_default (Nat.le_of_not_lt hx)] at h
  cases h

theorem Linked.contentOf_lt (hl : t.Linked) (hp : p < t.size) : t.contentOf p < t.size := by
  unfold contentOf
  cases hc : (t.node p).content with
  | none => exact hp
  | some k => exact (hl.held p k hc).1.lt_size

/-- The place of the children of a node is the node itself or a child of it. -/
theorem Linked.contentOf_cases (hl : t.Linked) (p : Nat) :
    t.contentOf p = p ∨ t.Up (t.contentOf p) p ∧ (t.node (t.contentOf p)).holder = true := by
  unfold contentOf
  cases hc : (t.node p).content with
  | none => exact Or.inl rfl
  | some k => exact Or.inr (hl.held p k hc)

/-! ## Decoration -/

/-- Two trees that differ in nothing but what documents show of their nodes. -/
structure Decorates (t t' : Tree α) : Prop where
  size : t'.size = t.size
  root : t'.root = t.root
  constraints : t'.constraints = t.constraints
  bare : ∀ x, (t'.node x).bare = (t.node x).bare

namespace Decorates

theorem children (hd : Decorates t t') (x : Nat) :
    (t'.node x).children = (t.node x).children := by
  have h := congrArg Node.children (hd.bare x)
  exact h

theorem parent (hd : Decorates t t') (x : Nat) :
    (t'.node x).parent = (t.node x).parent := by
  have h := congrArg Node.parent (hd.bare x)
  exact h

theorem content (hd : Decorates t t') (x : Nat) :
    (t'.node x).content = (t.node x).content := by
  have h := congrArg Node.content (hd.bare x)
  exact h

theorem holder (hd : Decorates t t') (x : Nat) :
    (t'.node x).holder = (t.node x).holder := by
  have h := congrArg Node.holder (hd.bare x)
  exact h

theorem ident (hd : Decorates t t') (x : Nat) :
    (t'.node x).ident = (t.node x).ident := by
  have h := congrArg Node.ident (hd.bare x)
  exact h

theorem refl (t : Tree α) : Decorates t t := ⟨rfl, rfl, rfl, fun _ => rfl⟩

theorem trans {t'' : Tree α} (hd : Decorates t t') (hd' : Decorates t' t'') : Decorates t t'' :=
  ⟨hd'.size.trans hd.size, hd'.root.trans hd.root, hd'.constraints.trans hd.constraints,
    fun x => (hd'.bare x).trans (hd.bare x)⟩

theorem modifyNode (t : Tree α) (id : Nat) {f : Node → Node} (hf : ∀ n, (f n).bare = n.bare) :
    Decorates t (t.modifyNode id f) where
  size := size_modifyNode t id f
  root := rfl
  constraints := rfl
  bare x := by
    rw [node_modifyNode]
    split
    · exact hf _
    · rfl

end Decorates

theorem decorates_setAttribute (t : Tree α) (id : Nat) (key value : String) :
    Decorates t (t.setAttribute id key value) :=
  Decorates.modifyNode t id fun _ => rfl

theorem decorates_setStyle (t : Tree α) (id : Nat) (key value : String) :
    Decorates t (t.setStyle id key value) :=
  Decorates.modifyNode t id fun _ => rfl

theorem decorates_setText (t : Tree α) (id : Nat) (text : String) :
    Decorates t (t.setText id text) :=
  Decorates.modifyNode t id fun _ => rfl

/-- Trees with the same parent links have the same lines. -/
theorem up_iff_of_parent (hp : ∀ x, (t'.node x).parent = (t.node x).parent) (c p : Nat) :
    t'.Up c p ↔ t.Up c p := by
  unfold Up
  rw [hp]

theorem Acyclic.of_parent (ha : t.Acyclic) (hp : ∀ x, (t'.node x).parent = (t.node x).parent) :
    t'.Acyclic := by
  unfold Acyclic
  have hup : (fun p c => t'.Up c p) = fun p c => t.Up c p := by
    funext p c
    exact propext (up_iff_of_parent hp c p)
  rw [hup]
  exact ha

/-- Nodes may be reordered, named and given a role, as long as their links stay. -/
theorem Linked.relabel (hl : t.Linked) (hsize : t'.size = t.size) (hroot : t'.root = t.root)
    (hparent : ∀ x, (t'.node x).parent = (t.node x).parent)
    (hchildren : ∀ x, (t'.node x).children.Perm (t.node x).children)
    (hheld : ∀ c k, (t'.node c).content = some k → t.Up k c ∧ (t'.node k).holder = true)
    (hanonymous : ∀ k, (t'.node k).holder = true → (t'.node k).ident = none) : t'.Linked where
  -- the links are what they were up to the order of the children
  listed p c := by
    rw [(hchildren p).mem_iff, up_iff_of_parent hparent]
    exact hl.listed p c
  once p := (hchildren p).nodup_iff.2 (hl.once p)
  bounded c p h := by
    rw [hsize]
    exact hl.bounded c p ((up_iff_of_parent hparent c p).1 h)
  acyclic := hl.acyclic.of_parent hparent
  held c k h := by
    rw [up_iff_of_parent hparent]
    exact hheld c k h
  anonymous := hanonymous
  orphan c hc h := by
    rw [hsize] at hc
    rw [hparent] at h
    rw [hroot]
    exact hl.orphan c hc h
  rooted r h := by
    rw [hroot] at h
    rw [hsize, hparent]
    exact hl.rooted r h

theorem Linked.of_decorates (hl : t.Linked) (hd : Decorates t t') : t'.Linked := by
  refine hl.relabel hd.size hd.root hd.parent (fun x => ?_) (fun c k h => ?_) (fun k h => ?_)
  · rw [hd.children]
  · rw [hd.content] at h
    rw [hd.holder]
    exact hl.held c k h
  · rw [hd.holder] at h
    rw [hd.ident]
    exact hl.anonymous k h

/-! ## Acyclicity after a change of one link -/

/-- Nodes that get other parents make no cycle, as long as nothing above those is one of them. -/
theorem Acyclic.relink (ha : t.Acyclic) (moved : List Nat)
    (hsame : ∀ c, c ∉ moved → (t'.node c).parent = (t.node c).parent)
    (haway : ∀ c ∈ moved, ∀ q, t'.Up c q → ∀ m ∈ moved, ¬ t.Reaches q m) : t'.Acyclic := by
  have hup : ∀ c p, c ∉ moved → t'.Up c p → t.Up c p := by
    intro c p hc h
    unfold Up at h ⊢
    rwa [hsame c hc] at h
  -- first the nodes that are not below a moved one, then the moved ones, then all others
  have hfree : ∀ x, (∀ m ∈ moved, ¬ t.Reaches x m) → Acc (fun p c => t'.Up c p) x := by
    intro x
    induction x using ha.induction with
    | _ x ih =>
      intro hx
      refine Acc.intro x fun y hy => ?_
      have hxm : x ∉ moved := fun h => hx x h (Reaches.refl t x)
      have hxy := hup x y hxm hy
      exact ih y hxy fun m hm hr => hx m hm (hxy.reaches.trans hr)
  have hmoved : ∀ c ∈ moved, Acc (fun p c => t'.Up c p) c := by
    intro c hc
    exact Acc.intro c fun y hy => hfree y (haway c hc y hy)
  refine ⟨fun x => ?_⟩
  induction x using ha.induction with
  | _ x ih =>
    by_cases hx : x ∈ moved
    · exact hmoved x hx
    · exact Acc.intro x fun y hy => ih y (hup x y hx hy)

/-! ## A new node -/

theorem node_push (t : Tree α) (n : Node) (root : Option Nat) (x : Nat) :
    node { t with nodes := t.nodes.push n, root } x = if x = t.size then n else t.node x := by
  unfold node size
  rw [Array.getElem?_push]
  split <;> rfl

theorem node_addChild (name : String) (hp : p < t.size) (x : Nat) :
    (addChild name p t).2.node x =
      if x = t.size then { name, parent := some p }
      else if x = p then { t.node x with children := (t.node x).children ++ [t.size] }
      else t.node x := by
  have hpush : ∀ x, ({ t with nodes := t.nodes.push { name, parent := some p } } : Tree α).node x =
      if x = t.size then { name, parent := some p } else t.node x :=
    node_push t { name, parent := some p } t.root
  have hsize : p < ({ t with nodes := t.nodes.push { name, parent := some p } } : Tree α).size := by
    unfold size at hp ⊢
    rw [Array.size_push]
    omega
  -- the new node is pushed first, so that the parent is still found in the longer arena
  show (Tree.modifyNode _ p _).node x = _
  rw [node_modifyNode_of_lt hsize, hpush]
  by_cases hx : x = t.size
  · have hxp : x ≠ p := by omega
    rw [if_neg hxp, if_pos hx, if_pos hx]
  · simp only [hx, if_false]

@[simp] theorem size_addChild (name : String) (p : Nat) (t : Tree α) :
    (addChild name p t).2.size = t.size + 1 := by
  simp [addChild, size, modifyNode]

theorem parent_addChild (name : String) (hp : p < t.size) (x : Nat) :
    ((addChild name p t).2.node x).parent =
      if x = t.size then some p else (t.node x).parent := by
  rw [node_addChild name hp]
  split
  · rfl
  · split <;> rfl

theorem children_addChild (name : String) (hp : p < t.size) (x : Nat) :
    ((addChild name p t).2.node x).children =
      if x = p then (t.node x).children ++ [t.size] else (t.node x).children := by
  rw [node_addChild name hp]
  by_cases hx : x = t.size
  · have hxp : x ≠ p := by omega
    have hnone : (t.node x).children = [] := by rw [node_eq_default (Nat.le_of_eq hx.symm)]
    rw [if_pos hx, if_neg hxp, hnone]
  · rw [if_neg hx]
    split <;> rfl

/-- The fields that a new node leaves as they are, its own being those of a node without any. -/
theorem keeps_addChild {β : Type} (f : Node → β) (name : String) (hp : p < t.size) (x : Nat)
    (hnew : f { name, parent := some p } = f {})
    (hold : ∀ n l, f { n with children := l } = f n) :
    f ((addChild name p t).2.node x) = f (t.node x) := by
  rw [node_addChild name hp]
  split
  · rename_i hx
    rw [hnew, node_eq_default (Nat.le_of_eq hx.symm)]
  · split
    · exact hold _ _
    · rfl

theorem up_addChild (name : String) (hp : p < t.size) (c q : Nat) :
    (addChild name p t).2.Up c q ↔ if c = t.size then q = p else t.Up c q := by
  unfold Up
  rw [parent_addChild name hp]
  split
  · rw [Option.some.injEq, eq_comm]
  · rfl

/-- A new node is a child of no other node yet. -/
theorem Linked.size_notMem_children (hl : t.Linked) (q : Nat) : t.size ∉ (t.node q).children := by
  intro h
  exact Nat.lt_irrefl _ ((hl.listed q t.size).1 h).lt_size

theorem Linked.addChild (hl : t.Linked) (name : String) (hp : p < t.size) :
    (addChild name p t).2.Linked := by
  have hparent := parent_addChild (t := t) name hp
  have hchildren := children_addChild (t := t) name hp
  have hup := up_addChild (t := t) name hp
  have hcontent : ∀ x, ((Tree.addChild name p t).2.node x).content = (t.node x).content :=
    fun x => keeps_addChild Node.content name hp x rfl fun _ _ => rfl
  have hholder : ∀ x, ((Tree.addChild name p t).2.node x).holder = (t.node x).holder :=
    fun x => keeps_addChild Node.holder name hp x rfl fun _ _ => rfl
  have hident : ∀ x, ((Tree.addChild name p t).2.node x).ident = (t.node x).ident :=
    fun x => keeps_addChild Node.ident name hp x rfl fun _ _ => rfl
  refine
    { listed := ?listed, once := ?once, bounded := ?bounded, acyclic := ?acyclic, held := ?held
      anonymous := ?anonymous, orphan := ?orphan, rooted := ?rooted }
  case listed =>
    intro q c
    rw [hchildren, hup]
    by_cases hc : c = t.size
    · subst hc
      have hnot := hl.size_notMem_children q
      by_cases hq : q = p <;> simp [hq]
      simpa [hq] using hnot
    · rw [if_neg hc, ← hl.listed q c]
      split <;> simp [hc]
  case once =>
    intro q
    rw [hchildren]
    split
    · refine List.nodup_append.2 ⟨hl.once q, List.nodup_singleton _, ?_⟩
      rintro a ha b hb rfl
      exact hl.size_notMem_children q (List.mem_singleton.1 hb ▸ ha)
    · exact hl.once q
  case bounded =>
    intro c q h
    rw [hup] at h
    rw [size_addChild]
    split at h
    · omega
    · have := hl.bounded c q h
      omega
  case acyclic =>
    -- nothing old leads to the new node, so that its link closes no cycle
    refine hl.acyclic.relink [t.size] (fun c hc => ?_) fun c hc q hq m hm hr => ?_
    · rw [hparent, if_neg (by simpa using hc)]
    · rw [List.mem_singleton] at hc hm
      rw [hup, if_pos hc] at hq
      rw [hq, hm] at hr
      exact Nat.lt_irrefl _ (hr.lt_size hl.bounded hp)
  case held =>
    intro c k h
    rw [hcontent] at h
    obtain ⟨hk, hh⟩ := hl.held c k h
    rw [hup, hholder, if_neg (Nat.ne_of_lt hk.lt_size)]
    exact ⟨hk, hh⟩
  case anonymous =>
    intro k h
    rw [hholder] at h
    rw [hident]
    exact hl.anonymous k h
  case orphan =>
    intro c hc h
    rw [hparent] at h
    rw [size_addChild] at hc
    split at h
    · cases h
    · exact hl.orphan c (by omega) h
  case rooted =>
    intro r h
    obtain ⟨hr, hnone⟩ := hl.rooted r h
    rw [size_addChild, hparent, if_neg (Nat.ne_of_lt hr)]
    exact ⟨by omega, hnone⟩

/-! ## A root -/

theorem node_addRoot (name : String) (x : Nat) :
    (addRoot name t).2.node x = if x = t.size then { name } else t.node x := by
  unfold addRoot node size
  rw [Array.getElem?_push]
  split <;> rfl

/-- A tree without any links, whose only node is its root if there is one. -/
theorem Linked.of_bare (hbare : ∀ x, (t.node x).bare = {})
    (horphan : ∀ c, c < t.size → t.root = some c) (hrooted : ∀ r, t.root = some r → r < t.size) :
    t.Linked := by
  -- without links each part of the invariant is empty, but for what is said about the root
  have hparent : ∀ x, (t.node x).parent = none := by
    intro x
    have h := congrArg Node.parent (hbare x)
    exact h
  have hup : ∀ c q, ¬ t.Up c q := by
    intro c q h
    unfold Up at h
    rw [hparent] at h
    cases h
  have hchildren : ∀ x, (t.node x).children = [] := by
    intro x
    have h := congrArg Node.children (hbare x)
    exact h
  have hcontent : ∀ x, (t.node x).content = none := by
    intro x
    have h := congrArg Node.content (hbare x)
    exact h
  have hident : ∀ x, (t.node x).ident = none := by
    intro x
    have h := congrArg Node.ident (hbare x)
    exact h
  refine
    { listed := fun q c => ?_
      once := fun q => ?_
      bounded := fun c q h => absurd h (hup c q)
      acyclic := ⟨fun x => Acc.intro x fun y hy => absurd hy (hup x y)⟩
      held := fun c k h => ?_
      anonymous := fun k _ => hident k
      orphan := fun c hc _ => horphan c hc
      rooted := fun r h => ⟨hrooted r h, hparent r⟩ }
  · rw [hchildren]
    exact ⟨fun h => absurd h List.not_mem_nil, fun h => absurd h (hup c q)⟩
  · rw [hchildren]
    exact List.nodup_nil
  · rw [hcontent] at h
    cases h

theorem linked_empty (seed : String) : (Tree.empty seed : Tree α).Linked := by
  refine Linked.of_bare (fun x => ?_) (fun c hc => absurd hc (Nat.not_lt_zero c)) fun r h => ?_
  · rw [node_eq_default (Nat.zero_le x)]
    rfl
  · cases h

/-- The first node is the root. -/
theorem Linked.addRoot (hl : t.Linked) (name : String) (hempty : t.size = 0) :
    (addRoot name t).2.Linked := by
  have hsize : (Tree.addRoot name t).2.size = 1 := by
    show (t.nodes.push _).size = 1
    rw [Array.size_push]
    exact congrArg (· + 1) hempty
  have hroot : (Tree.addRoot name t).2.root = some 0 := by
    show t.root.or (some t.size) = some 0
    cases hr : t.root with
    | none => rw [hempty, Option.none_or]
    | some r =>
      have hlt := (hl.rooted r hr).1
      omega
  -- the first node of an empty tree has no links yet
  refine Linked.of_bare (fun x => ?_) (fun c hc => ?_) fun r h => ?_
  · rw [node_addRoot]
    split
    · rfl
    · rw [node_eq_default (hempty ▸ Nat.zero_le x)]
      rfl
  · have hc0 : c = 0 := by omega
    rw [hroot, hc0]
  · rw [hroot, Option.some.injEq] at h
    omega

/-! ## Moving -/

theorem size_reparent (t : Tree α) (child place : Nat) :
    (t.reparent child place).size = t.size := by
  unfold reparent detach setParent
  split <;> simp only [size_modifyNode]

/-- A node that is taken from its parent is in no list any more, if no other node lists it. -/
theorem node_detach_of_only {child old : Nat} (hup : t.Up child old) (ho : old < t.size)
    (honly : ∀ x, child ∈ (t.node x).children → t.Up child x) (x : Nat) :
    (t.detach child old).node x =
      { t.node x with children := (t.node x).children.filter (· != child) } := by
  unfold detach
  rw [node_modifyNode_of_lt ho]
  split
  · rfl
  · rename_i hx
    have hnot : child ∉ (t.node x).children := fun hmem => hx ((honly x hmem).unique hup)
    rw [List.filter_bne_eq_self_of_not_mem hnot]

theorem node_setParent {child target : Nat} (hc : child < t.size) (x : Nat) :
    (t.setParent child target).node x =
      { t.node x with parent := if x = child then some target else (t.node x).parent } := by
  unfold setParent
  rw [node_modifyNode_of_lt hc]
  split <;> rfl

/-- A node gets a parent link, and stands at the end of the list of that parent. -/
theorem node_link {child target : Nat} (hc : child < t.size) (ht : target < t.size) (x : Nat) :
    ((t.setParent child target).modifyNode target fun n =>
        { n with children := n.children ++ [child] }).node x =
      { t.node x with
        parent := if x = child then some target else (t.node x).parent
        children := (t.node x).children ++ if x = target then [child] else [] } := by
  have hsize : (t.setParent child target).size = t.size := size_modifyNode _ _ _
  rw [node_modifyNode_of_lt (hsize.symm ▸ ht), node_setParent hc]
  by_cases hx : x = target
  · simp only [if_pos hx]
  · simp only [if_neg hx, List.append_nil]

/-- What a move leaves of every node: the moved one gets another parent, and its old and its new
parent other children. Nothing is asked of the tree but that no node lists it but its parent. -/
theorem node_reparent_of_only {child place : Nat} (hb : t.Bounded) (hc : child < t.size)
    (ht : t.contentOf place < t.size) (honly : ∀ x, child ∈ (t.node x).children → t.Up child x)
    (x : Nat) :
    (t.reparent child place).node x =
      { t.node x with
        parent := if x = child then some (t.contentOf place) else (t.node x).parent
        children := (t.node x).children.filter (· != child) ++
          if x = t.contentOf place then [child] else [] } := by
  unfold reparent
  simp only
  cases hn : (t.node child).parent with
  | none =>
    -- without a parent it is in no list, so there is nothing to take it from
    have hnot : child ∉ (t.node x).children := by
      intro hmem
      rw [show (t.node child).parent = some x from honly x hmem] at hn
      cases hn
    dsimp only
    rw [node_link hc ht, List.filter_bne_eq_self_of_not_mem hnot]
  | some old =>
    have hsize : (t.detach child old).size = t.size := size_modifyNode _ _ _
    dsimp only
    rw [node_link (hsize.symm ▸ hc) (hsize.symm ▸ ht),
      node_detach_of_only hn (hb child old hn) honly]

theorem node_reparent {child place old : Nat} (hl : t.Linked) (hup : t.Up child old)
    (hplace : place < t.size) (x : Nat) :
    (t.reparent child place).node x =
      { t.node x with
        parent := if x = child then some (t.contentOf place) else (t.node x).parent
        children := (t.node x).children.filter (· != child) ++
          if x = t.contentOf place then [child] else [] } :=
  node_reparent_of_only hl.bounded hup.lt_size (hl.contentOf_lt hplace)
    (fun x => (hl.listed x child).1) x

section

variable {child place old : Nat}

theorem parent_reparent (hl : t.Linked) (hup : t.Up child old) (hplace : place < t.size) (x : Nat) :
    ((t.reparent child place).node x).parent =
      if x = child then some (t.contentOf place) else (t.node x).parent := by
  rw [node_reparent hl hup hplace]

theorem children_reparent (hl : t.Linked) (hup : t.Up child old) (hplace : place < t.size)
    (x : Nat) :
    ((t.reparent child place).node x).children = (t.node x).children.filter (· != child) ++
      if x = t.contentOf place then [child] else [] := by
  rw [node_reparent hl hup hplace]

/-- The fields that a move leaves as they are. -/
theorem keeps_reparent {β : Type} (f : Node → β) (hl : t.Linked) (hup : t.Up child old)
    (hplace : place < t.size) (x : Nat)
    (hold : ∀ n q l, f { n with parent := q, children := l } = f n) :
    f ((t.reparent child place).node x) = f (t.node x) := by
  rw [node_reparent hl hup hplace]
  exact hold _ _ _

theorem root_reparent (t : Tree α) (child place : Nat) :
    (t.reparent child place).root = t.root := by
  unfold reparent detach setParent
  split <;> rfl

theorem constraints_reparent (t : Tree α) (child place : Nat) :
    (t.reparent child place).constraints = t.constraints := by
  unfold reparent detach setParent
  split <;> rfl

theorem up_reparent (hl : t.Linked) (hup : t.Up child old) (hplace : place < t.size) (c q : Nat) :
    (t.reparent child place).Up c q ↔ if c = child then q = t.contentOf place else t.Up c q := by
  unfold Up
  rw [parent_reparent hl hup hplace]
  split
  · rw [Option.some.injEq, eq_comm]
  · rfl

/-- A node that moves to a place that is not below it takes all that is below it along. -/
theorem Linked.reparent (hl : t.Linked) (hup : t.Up child old) (hplace : place < t.size)
    (hfree : ¬ t.Reaches (t.contentOf place) child) (hheld : (t.node child).holder = false) :
    (t.reparent child place).Linked := by
  have hup' := up_reparent hl hup hplace
  have hparent := parent_reparent hl hup hplace
  have hholder : ∀ x, ((t.reparent child place).node x).holder = (t.node x).holder :=
    fun x => keeps_reparent Node.holder hl hup hplace x fun _ _ _ => rfl
  refine
    { listed := ?listed, once := ?once, bounded := ?bounded, acyclic := ?acyclic, held := ?held
      anonymous := ?anonymous, orphan := ?orphan, rooted := ?rooted }
  case listed =>
    intro q c
    rw [children_reparent hl hup hplace, hup']
    simp only [List.mem_append, List.mem_filter, bne_iff_ne, hl.listed q c]
    by_cases hc : c = child
    · by_cases hq : q = t.contentOf place <;> simp [hc, hq]
    · by_cases hq : q = t.contentOf place <;> simp [hc, hq]
  case once =>
    intro q
    rw [children_reparent hl hup hplace]
    refine List.nodup_append.2 ⟨(hl.once q).filter _, ?_, ?_⟩
    · split <;> simp
    · rintro a ha b hb rfl
      split at hb
      · rw [List.mem_singleton] at hb
        simp [hb] at ha
      · cases hb
  case bounded =>
    intro c q h
    rw [size_reparent]
    rw [hup'] at h
    split at h
    · exact h ▸ hl.contentOf_lt hplace
    · exact hl.bounded c q h
  case acyclic =>
    refine hl.acyclic.relink [child] (fun c hc => ?_) fun c hc q hq m hm => ?_
    · rw [hparent, if_neg (by simpa using hc)]
    · rw [List.mem_singleton] at hc hm
      rw [hup', if_pos hc] at hq
      exact hq ▸ hm ▸ hfree
  case held =>
    -- what holds the children of a node has not moved, as it is not what `child` is
    intro c k h
    rw [keeps_reparent Node.content hl hup hplace c fun _ _ _ => rfl] at h
    obtain ⟨hk, hh⟩ := hl.held c k h
    have hkc : k ≠ child := by
      rintro rfl
      rw [hheld] at hh
      cases hh
    rw [hup', if_neg hkc, hholder]
    exact ⟨hk, hh⟩
  case anonymous =>
    intro k h
    rw [hholder] at h
    rw [keeps_reparent Node.ident hl hup hplace k fun _ _ _ => rfl]
    exact hl.anonymous k h
  case orphan =>
    intro c hc h
    rw [size_reparent] at hc
    rw [hparent] at h
    rw [root_reparent]
    split at h
    · cases h
    · exact hl.orphan c hc h
  case rooted =>
    intro r h
    rw [root_reparent] at h
    obtain ⟨hr, hnone⟩ := hl.rooted r h
    have hrc : r ≠ child := by
      rintro rfl
      rw [show (t.node r).parent = some old from hup] at hnone
      cases hnone
    rw [size_reparent, hparent, if_neg hrc]
    exact ⟨hr, hnone⟩

end

/-! ## Ordering children -/

theorem adopt_eq_self {target child : Nat} (h : t.Up child target) : t.adopt target child = t := by
  have hparent : (t.node child).parent = some target := h
  unfold adopt setParent
  rw [hparent]
  simp only [if_true]
  refine modifyNode_eq_self _ ?_
  cases hn : t.node child
  rw [hn] at hparent
  simp_all

theorem foldl_adopt_eq_self {target : Nat} (l : List Nat) (h : ∀ c ∈ l, t.Up c target) :
    l.foldl (fun t c => t.adopt target c) t = t := by
  induction l with
  | nil => rfl
  | cons c cs ih =>
    rw [List.foldl_cons, adopt_eq_self (h c List.mem_cons_self)]
    exact ih fun d hd => h d (List.mem_cons_of_mem _ hd)

/-- Giving a node children that are its own already only changes their order. -/
theorem setChildren_eq (l : List Nat) (h : ∀ c ∈ l, t.Up c (t.contentOf p)) :
    t.setChildren p l = t.modifyNode (t.contentOf p) fun n => { n with children := l } := by
  unfold setChildren
  simp only
  rw [foldl_adopt_eq_self l h]

theorem node_setChildren (hl : t.Linked) (hp : p < t.size) (l : List Nat)
    (h : ∀ c ∈ l, t.Up c (t.contentOf p)) (x : Nat) :
    (t.setChildren p l).node x =
      if x = t.contentOf p then { t.node x with children := l } else t.node x := by
  rw [setChildren_eq l h, node_modifyNode_of_lt (hl.contentOf_lt hp)]

/-- The fields that a change of the order of children leaves as they are. -/
theorem keeps_setChildren {β : Type} (f : Node → β) (hl : t.Linked) (hp : p < t.size)
    (l : List Nat) (h : ∀ c ∈ l, t.Up c (t.contentOf p)) (x : Nat)
    (hold : ∀ n l, f { n with children := l } = f n) :
    f ((t.setChildren p l).node x) = f (t.node x) := by
  rw [node_setChildren hl hp l h]
  split
  · exact hold _ _
  · rfl

/-- A node keeps its children when they get a new order. -/
theorem Linked.setChildren (hl : t.Linked) (hp : p < t.size) (l : List Nat)
    (hperm : l.Perm (t.node (t.contentOf p)).children) : (t.setChildren p l).Linked := by
  have hup : ∀ c ∈ l, t.Up c (t.contentOf p) := by
    intro c hc
    exact (hl.listed _ c).1 (hperm.mem_iff.1 hc)
  have hholder : ∀ x, ((t.setChildren p l).node x).holder = (t.node x).holder :=
    fun x => keeps_setChildren Node.holder hl hp l hup x fun _ _ => rfl
  -- the list has the same members as before, so that every link stays and only their order changes
  refine hl.relabel ?_ ?_ (fun x => ?_) (fun x => ?_) (fun c k h => ?_) (fun k h => ?_)
  · rw [setChildren_eq l hup, size_modifyNode]
  · rw [setChildren_eq l hup, root_modifyNode]
  · exact keeps_setChildren Node.parent hl hp l hup x fun _ _ => rfl
  · rw [node_setChildren hl hp l hup]
    split
    · rename_i hx
      exact hx ▸ hperm
    · exact List.Perm.refl _
  · rw [keeps_setChildren Node.content hl hp l hup c fun _ _ => rfl] at h
    rw [hholder]
    exact hl.held c k h
  · rw [hholder] at h
    rw [keeps_setChildren Node.ident hl hp l hup k fun _ _ => rfl]
    exact hl.anonymous k h

end Tree

end LayoutCompiler
