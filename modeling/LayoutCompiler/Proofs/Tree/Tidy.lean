import LayoutCompiler.Proofs.Tree.Linked
/-!
# Tidy trees

How far the two directions of a tree agree. A tree is tidy if every node is listed by its parent,
and by no other node. Taking children from a node without giving them another one leaves their
parent links behind: such nodes are *left over*, listed by no node although they have a parent.

* `node_setChildren_of_owned`: what a new list of children leaves of every node.
* `TidyBut`: a tree that is tidy but for the nodes left over.
* `TidyBut.reparent`: a node that moves is left over no more.
* `TidyBut.setChildren`: of a node with other children, those of the list are left over no more, and
  those that there were and are not in the list are left over.
-/

namespace LayoutCompiler.Tree

variable {α : Type} {t t' : Tree α} {c child old p place target x : Nat} {l left : List Nat}

/-! ## Taking nodes in -/

/-- No node is listed but by its parent. -/
def Owned (t : Tree α) : Prop := ∀ p, ∀ c ∈ (t.node p).children, t.Up c p

/-- What taking a node in leaves of every node. The one that takes it in keeps its list. -/
theorem node_adopt (ho : t.Owned) (hb : t.Bounded) (hc : child < t.size) (x : Nat) :
    (t.adopt target child).node x =
      { t.node x with
        parent := if x = child then some target else (t.node x).parent
        children :=
          if x = target then (t.node x).children
          else (t.node x).children.filter (· != child) } := by
  have hunlisted : ¬ t.Up child x →
      (t.node x).children.filter (· != child) = (t.node x).children :=
    fun hup => List.filter_bne_eq_self_of_not_mem fun hmem => hup (ho x child hmem)
  unfold adopt
  simp only
  cases hn : (t.node child).parent with
  | none =>
    have hup : ¬ t.Up child x := by
      intro hup
      rw [show (t.node child).parent = some x from hup] at hn
      cases hn
    dsimp only
    rw [node_setParent hc, hunlisted hup, ite_self]
  | some old =>
    have hold : t.Up child old := hn
    dsimp only
    -- a child that is listed by the target itself is not taken out first
    by_cases heq : old = target
    · rw [if_pos heq, node_setParent hc]
      by_cases hx : x = target
      · rw [if_pos hx]
      · rw [if_neg hx, hunlisted fun hup => hx ((hup.unique hold).trans heq)]
    · have hsize : (t.detach child old).size = t.size := size_modifyNode _ _ _
      rw [if_neg heq, node_setParent (hsize.symm ▸ hc),
        node_detach_of_only hold (hb child old hold) fun x => ho x child]
      by_cases hx : x = target
      · rw [if_pos hx, hunlisted fun hup => heq ((hold.unique hup).trans hx)]
      · rw [if_neg hx]

theorem size_adopt (t : Tree α) (target child : Nat) : (t.adopt target child).size = t.size := by
  unfold adopt detach setParent
  split
  · split <;> simp only [size_modifyNode]
  · rw [size_modifyNode]

theorem Owned.adopt (ho : t.Owned) (hb : t.Bounded) (hc : child < t.size) :
    (t.adopt target child).Owned := by
  intro q c hmem
  unfold Up
  rw [node_adopt ho hb hc] at hmem ⊢
  dsimp only at hmem ⊢
  by_cases hq : q = target
  · rw [if_pos hq] at hmem
    split
    · rw [hq]
    · exact ho q c hmem
  · rw [if_neg hq, List.mem_filter, bne_iff_ne] at hmem
    rw [if_neg hmem.2]
    exact ho q c hmem.1

theorem Bounded.adopt (ho : t.Owned) (hb : t.Bounded) (hc : child < t.size)
    (ht : target < t.size) : (t.adopt target child).Bounded := by
  intro c q hup
  unfold Up at hup
  rw [node_adopt ho hb hc] at hup
  dsimp only at hup
  rw [size_adopt]
  split at hup
  · exact Option.some.inj hup ▸ ht
  · exact hb c q hup

/-- What taking in the nodes of a list leaves of every node. -/
theorem node_foldl_adopt (ho : t.Owned) (hb : t.Bounded) (ht : target < t.size)
    (hl : ∀ c ∈ l, c < t.size) (x : Nat) :
    (l.foldl (fun t c => t.adopt target c) t).node x =
      { t.node x with
        parent := if x ∈ l then some target else (t.node x).parent
        children :=
          if x = target then (t.node x).children
          else (t.node x).children.filter (· ∉ l) } := by
  induction l generalizing t with
  | nil => simp
  | cons c cs ih =>
    have hc := hl c List.mem_cons_self
    have hsize := size_adopt t target c
    rw [List.foldl_cons, ih (ho.adopt hb hc) (hb.adopt ho hc ht) (hsize.symm ▸ ht)
      (fun d hd => hsize.symm ▸ hl d (List.mem_cons_of_mem _ hd)), node_adopt ho hb hc]
    have hparent : (if x ∈ cs then some target
        else if x = c then some target else (t.node x).parent) =
        if x ∈ c :: cs then some target else (t.node x).parent := by
      by_cases hxc : x = c <;> by_cases hxs : x ∈ cs <;> simp [hxc, hxs]
    -- the nodes that have been taken in so far are gone from all other lists already
    have hchildren : ((t.node x).children.filter (· != c)).filter (· ∉ cs) =
        (t.node x).children.filter (· ∉ c :: cs) := by
      rw [List.filter_filter]
      refine List.filter_congr fun d _ => ?_
      by_cases hdc : d = c <;> simp [hdc]
    dsimp only
    rw [hparent]
    by_cases hx : x = target
    · simp only [if_pos hx]
    · simp only [if_neg hx, hchildren]

theorem size_foldl_adopt (t : Tree α) (target : Nat) (l : List Nat) :
    (l.foldl (fun t c => t.adopt target c) t).size = t.size := by
  induction l generalizing t with
  | nil => rfl
  | cons c cs ih => rw [List.foldl_cons, ih, size_adopt]

theorem size_setChildren (t : Tree α) (p : Nat) (l : List Nat) :
    (t.setChildren p l).size = t.size := by
  unfold setChildren
  rw [size_modifyNode, size_foldl_adopt]

/-- What a new list of children leaves of every node: those of the list get another parent, and
leave the lists that they were in. The parent links of those that there were stay. -/
theorem node_setChildren_of_owned (ho : t.Owned) (hb : t.Bounded) (ht : t.contentOf p < t.size)
    (hl : ∀ c ∈ l, c < t.size) (x : Nat) :
    (t.setChildren p l).node x =
      { t.node x with
        parent := if x ∈ l then some (t.contentOf p) else (t.node x).parent
        children :=
          if x = t.contentOf p then l else (t.node x).children.filter (· ∉ l) } := by
  unfold setChildren
  simp only
  rw [node_modifyNode_of_lt (by rwa [size_foldl_adopt]), node_foldl_adopt ho hb ht hl]
  by_cases hx : x = t.contentOf p
  · simp only [if_pos hx]
  · simp only [if_neg hx]

/-! ## Tidy trees -/

/-- Every node is listed once by its parent, and by no other node. -/
def Tidy (t : Tree α) : Prop :=
  ∀ p x, (t.node p).children.count x = if (t.node x).parent = some p then 1 else 0

/-- Every node is listed once by its parent, and by no other node, but for some that are listed by
no node although they have a parent. -/
structure TidyBut (t : Tree α) (left : List Nat) : Prop where
  count : ∀ p x, (t.node p).children.count x =
    if (t.node x).parent = some p ∧ x ∉ left then 1 else 0
  parted : ∀ x ∈ left, ∃ p, t.Up x p

theorem tidyBut_nil : t.TidyBut [] ↔ t.Tidy := by
  constructor
  · intro h p x
    simpa using h.count p x
  · intro h
    exact ⟨fun p x => by simpa using h p x, by simp⟩

namespace TidyBut

/-- A node is listed by its parent unless it is left over. -/
theorem mem_children (h : t.TidyBut left) : x ∈ (t.node p).children ↔ t.Up x p ∧ x ∉ left := by
  rw [← List.count_pos_iff, h.count p x]
  unfold Up
  split <;> simp_all

theorem owned (h : t.TidyBut left) : t.Owned := fun _ _ hmem => (h.mem_children.1 hmem).1

/-- A node that moves is listed where it moves to and nowhere else, wherever it was before. -/
theorem reparent (h : t.TidyBut left) (hb : t.Bounded) (hc : child < t.size)
    (ht : t.contentOf place < t.size) :
    (t.reparent child place).TidyBut (left.filter (· != child)) := by
  have hnode := node_reparent_of_only hb hc ht fun x => h.owned x child
  refine ⟨fun q x => ?_, fun x hx => ?_⟩
  · rw [hnode q, hnode x, List.count_append]
    dsimp only
    -- the node that moves is counted at its new place only, and all others where they were
    by_cases hx : x = child
    · subst hx
      by_cases hq : q = t.contentOf place
      · simp [hq, List.count_eq_zero_of_not_mem]
      · simp [hq, Ne.symm hq, List.count_eq_zero_of_not_mem]
    · have hkept : ((t.node q).children.filter (· != child)).count x =
          (t.node q).children.count x := List.count_filter (by simpa using hx)
      have hnew : (if q = t.contentOf place then [child] else []).count x = 0 := by
        rw [List.count_eq_zero]
        split
        · simpa using hx
        · exact List.not_mem_nil
      rw [hkept, hnew, h.count q x, if_neg hx, Nat.add_zero]
      simp [hx]
  · rw [List.mem_filter, bne_iff_ne] at hx
    unfold Up
    rw [hnode x]
    simp only [if_neg hx.2]
    exact h.parted x hx.1

/-- A node gets other children. Those that it had and that are not among them are left over. -/
theorem setChildren (h : t.TidyBut left) (hb : t.Bounded) (ht : t.contentOf p < t.size)
    (hl : ∀ c ∈ l, c < t.size) (hnodup : l.Nodup) :
    (t.setChildren p l).TidyBut
      ((left ++ (t.node (t.contentOf p)).children).filter (· ∉ l)) := by
  have hnode := node_setChildren_of_owned h.owned hb ht hl
  refine ⟨fun q x => ?_, fun x hx => ?_⟩
  · rw [hnode q, hnode x]
    dsimp only
    by_cases hx : x ∈ l
    · by_cases hq : q = t.contentOf p
      · simp [hx, hq, List.count_eq_one_of_mem hnodup hx]
      · simp [hx, hq, Ne.symm hq, List.count_eq_zero_of_not_mem]
    · -- a node that is not in the list is left over if it was, or if this was its parent
      have hleft : x ∈ (left ++ (t.node (t.contentOf p)).children).filter (· ∉ l) ↔
          x ∈ left ∨ t.Up x (t.contentOf p) := by
        rw [List.mem_filter, List.mem_append, h.mem_children, decide_eq_true_eq]
        tauto
      unfold Up at hleft
      simp only [hleft, if_neg hx]
      by_cases hq : q = t.contentOf p
      · rw [if_pos hq, hq, List.count_eq_zero_of_not_mem hx,
          if_neg fun hup => hup.2 (Or.inr hup.1)]
      · have hkept : ((t.node q).children.filter (· ∉ l)).count x = (t.node q).children.count x :=
          List.count_filter (by simpa using hx)
        rw [if_neg hq, hkept, h.count q x]
        refine if_congr (and_congr_right fun hup => ?_) rfl rfl
        simp [hup, hq]
  · rw [List.mem_filter, decide_eq_true_eq] at hx
    unfold Up
    rw [hnode x]
    simp only [if_neg hx.2]
    rcases List.mem_append.1 hx.1 with hx | hx
    · exact h.parted x hx
    · exact ⟨_, h.owned _ x hx⟩

end TidyBut

namespace Tidy

theorem mem_children (h : t.Tidy) : x ∈ (t.node p).children ↔ t.Up x p := by
  simpa using (tidyBut_nil.2 h).mem_children (p := p) (x := x)

theorem nodup (h : t.Tidy) (p : Nat) : (t.node p).children.Nodup := by
  rw [List.nodup_iff_count_le_one]
  intro x
  rw [h p x]
  split <;> omega

theorem bounded (h : t.Tidy) : t.Bounded := by
  intro c p hup
  by_contra hp
  have hmem := h.mem_children.2 hup
  rw [node_eq_default (Nat.le_of_not_lt hp)] at hmem
  cases hmem

/-- Only the links of a tree decide whether it is tidy, and the order of children does not. -/
theorem of_links (h : t.Tidy) (hparent : ∀ x, (t'.node x).parent = (t.node x).parent)
    (hchildren : ∀ x, (t'.node x).children.Perm (t.node x).children) : t'.Tidy := by
  intro p x
  rw [(hchildren p).count_eq, hparent, h p x]

/-- A node that moves is listed where it moves to, and nowhere else. -/
theorem reparent (h : t.Tidy) (hup : t.Up child old) (ht : t.contentOf place < t.size) :
    (t.reparent child place).Tidy :=
  tidyBut_nil.1 ((tidyBut_nil.2 h).reparent h.bounded hup.lt_size ht)

/-- Children get another order. -/
theorem setChildren (h : t.Tidy) (hperm : l.Perm (t.node (t.contentOf p)).children) :
    (t.setChildren p l).Tidy := by
  have hup : ∀ c ∈ l, t.Up c (t.contentOf p) := by
    intro c hc
    exact h.mem_children.1 (hperm.mem_iff.1 hc)
  rw [setChildren_eq l hup]
  refine h.of_links (fun x => ?_) fun x => ?_
  · rw [node_modifyNode]
    split <;> rfl
  · rw [node_modifyNode]
    split
    · rename_i hx
      exact hx.1 ▸ hperm
    · exact List.Perm.refl _

end Tidy

theorem Linked.tidy (hl : t.Linked) : t.Tidy := by
  intro p x
  rw [(hl.once p).count]
  have hlisted := hl.listed p x
  unfold Up at hlisted
  simp only [hlisted]

end LayoutCompiler.Tree
