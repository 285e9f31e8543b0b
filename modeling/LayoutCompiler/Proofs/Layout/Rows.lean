import LayoutCompiler.Proofs.Data.Relation
import LayoutCompiler.Proofs.Layout.BoxModel
import LayoutCompiler.Proofs.Tree.Fences
/-!
# The row of members of a stack

Where the nodes of a stack stand once it has been built. Members are made one by one at the end of
the container, children move into their wrappers, and the row is put in order at last. What holds
at every moment is `Enlisting`: without the members made so far, the container has the children it
had before, without those that have been worked off.

* `Enlisting.plant`, `Enlisting.move`: the two changes that are made.
* `addMember_enlisting`: one child becomes a member.
* `addMembers_enlisting`: all of them do.
* `enlisted_of_arrangeStack`: no child is lost, listed twice or out of order; nothing else moves.
-/

namespace LayoutCompiler.Layout

open LayoutCompiler.Tree (Notes Planted Beyond)

variable {α : Type} {t t' t₀ : Tree α} {container child k m x : Nat} {gone done : List Nat}

/-! ## Members among children -/

theorem filter_notMem_append (l xs ys : List Nat) :
    l.filter (· ∉ xs ++ ys) = (l.filter (· ∉ xs)).filter (· ∉ ys) := by
  rw [List.filter_filter]
  refine List.filter_congr fun x _ => ?_
  simp [Bool.and_comm]

/-- A member that is listed last is all that is left out with it. -/
theorem filter_notMem_snoc {l : List Nat} (hk : k ∉ l) :
    (l ++ [k]).filter (· ∉ done ++ [k]) = l.filter (· ∉ done) := by
  have hlast : [k].filter (· ∉ done ++ [k]) = [] := by simp
  rw [List.filter_append, hlast, List.append_nil]
  refine List.filter_congr fun x hx => ?_
  have hne : x ≠ k := by
    rintro rfl
    exact hk hx
  simp [hne]

/-- While a stack is being built, some members are done and some children are gone: they are members
or stand in one. -/
structure Enlisting (container : Nat) (gone done : List Nat) (t₀ t : Tree α) : Prop where
  home_lt : t₀.contentOf container < t₀.size
  tidy : t.Tidy
  size_le : t₀.size ≤ t.size
  content : ∀ x < t₀.size, (t.node x).content = (t₀.node x).content
  /-- The other children of the container are those that it had, in the same order. -/
  fixed : (t.node (t₀.contentOf container)).children.filter (· ∉ done) =
    (t₀.node (t₀.contentOf container)).children.filter (· ∉ gone)
  others : ∀ x < t₀.size, x ≠ t₀.contentOf container →
    (t.node x).children = (t₀.node x).children
  parent : ∀ x < t₀.size, x ∉ gone → (t.node x).parent = (t₀.node x).parent
  placed : ∀ m ∈ done, t.Up m (t₀.contentOf container)
  distinct : done.Nodup
  known : ∀ m ∈ done, m ∈ gone ∨ t₀.size ≤ m

namespace Enlisting

theorem start (h : t.Tidy) (hhome : t.contentOf container < t.size) :
    Enlisting container [] [] t t where
  home_lt := hhome
  tidy := h
  size_le := Nat.le_refl _
  content _ _ := rfl
  fixed := rfl
  others _ _ _ := rfl
  parent _ _ _ := rfl
  placed _ hm := absurd hm List.not_mem_nil
  distinct := List.nodup_nil
  known _ hm := absurd hm List.not_mem_nil

theorem container_lt (h : Enlisting container gone done t₀ t) : container < t₀.size := by
  by_contra hc
  have hhome := h.home_lt
  unfold Tree.contentOf at hhome
  rw [Tree.node_eq_default (Nat.le_of_not_lt hc)] at hhome
  exact hc hhome

theorem contentOf (h : Enlisting container gone done t₀ t) :
    t.contentOf container = t₀.contentOf container := by
  unfold Tree.contentOf
  rw [h.content container h.container_lt]

/-- Only links count. -/
theorem of_links (h : Enlisting container gone done t₀ t) (hsize : t.size ≤ t'.size)
    (htidy : t'.Tidy) (hparent : ∀ x < t.size, (t'.node x).parent = (t.node x).parent)
    (hchildren : ∀ x < t₀.size, (t'.node x).children = (t.node x).children)
    (hcontent : ∀ x < t₀.size, (t'.node x).content = (t.node x).content) :
    Enlisting container gone done t₀ t' where
  home_lt := h.home_lt
  tidy := htidy
  size_le := Nat.le_trans h.size_le hsize
  content x hx := (hcontent x hx).trans (h.content x hx)
  fixed := by
    rw [hchildren _ h.home_lt]
    exact h.fixed
  others x hx hne := (hchildren x hx).trans (h.others x hx hne)
  parent x hx hgone := (hparent x (Nat.lt_of_lt_of_le hx h.size_le)).trans (h.parent x hx hgone)
  placed m hm := by
    unfold Tree.Up
    rw [hparent m (h.placed m hm).lt_size]
    exact h.placed m hm
  distinct := h.distinct
  known := h.known

theorem note {laws : List (Constraint α)} (h : Enlisting container gone done t₀ t)
    (hn : Notes t t' laws) : Enlisting container gone done t₀ t' := by
  refine h.of_links (Nat.le_of_eq hn.size.symm) (h.tidy.of_links (fun x => ?_) fun x => ?_)
    (fun x _ => ?_) (fun x _ => ?_) fun x _ => ?_
  all_goals rw [hn.node]

/-- A child that is a member by itself. -/
theorem direct (h : Enlisting container gone done t₀ t)
    (hup : t.Up child (t₀.contentOf container)) (hfree : child ∉ done) :
    Enlisting container (gone ++ [child]) (done ++ [child]) t₀ t :=
  { h with
    -- the child becomes a member where it is, so it goes out of the old list and into the new one
    fixed := by rw [filter_notMem_append, filter_notMem_append, h.fixed]
    parent := fun x hx hgone => h.parent x hx fun hmem => hgone (List.mem_append_left _ hmem)
    placed := fun m hm => by
      rcases List.mem_append.1 hm with hm | hm
      · exact h.placed m hm
      · exact List.mem_singleton.1 hm ▸ hup
    distinct := by
      rw [List.nodup_append']
      refine ⟨h.distinct, List.nodup_singleton child, fun m hm hself => ?_⟩
      exact hfree (List.mem_singleton.1 hself ▸ hm)
    known := fun m hm => by
      rcases List.mem_append.1 hm with hm | hm
      · exact (h.known m hm).imp_left (List.mem_append_left _)
      · exact Or.inl (List.mem_append_right _ hm) }

/-- A new node at the end of the container is a member. -/
theorem plant (h : Enlisting container gone done t₀ t)
    (hp : Planted (some (t₀.contentOf container)) k t t') :
    Enlisting container gone (done ++ [k]) t₀ t' := by
  have hlt : ∀ x < t₀.size, x < t.size := fun x hx => Nat.lt_of_lt_of_le hx h.size_le
  have hhome := hlt _ h.home_lt
  have hold : ∀ m ∈ done, m < t.size := fun m hm => (h.placed m hm).lt_size
  refine
    { home_lt := h.home_lt
      tidy := hp.tidy (fun p hmem => Option.mem_some.1 hmem ▸ hhome) h.tidy
      size_le := ?_
      content := fun x hx =>
        (hp.keeps Node.content (fun _ _ => rfl) (hlt x hx)).trans (h.content x hx)
      fixed := ?_
      others := fun x hx hne => ?_
      parent := fun x hx hgone =>
        (hp.keeps Node.parent (fun _ _ => rfl) (hlt x hx)).trans (h.parent x hx hgone)
      placed := fun m hm => ?_
      distinct := ?_
      known := fun m hm => ?_ }
  · have := hp.lt
    have := hp.first
    have := h.size_le
    omega
  -- the new node is listed last, so the old children without the members are what they were
  · have hfresh : k ∉ (t.node (t₀.contentOf container)).children := by
      intro hmem
      have hlt := (h.tidy.mem_children.1 hmem).lt_size
      rw [hp.first] at hlt
      exact Nat.lt_irrefl _ hlt
    rw [← h.fixed, hp.children hhome, if_pos rfl, filter_notMem_snoc hfresh]
  · rw [hp.children (hlt x hx), if_neg (fun heq => hne (Option.some.inj heq).symm),
      List.append_nil]
    exact h.others x hx hne
  · rcases List.mem_append.1 hm with hm | hm
    · unfold Tree.Up
      rw [hp.keeps Node.parent (fun _ _ => rfl) (hold m hm)]
      exact h.placed m hm
    · rw [List.mem_singleton.1 hm]
      exact hp.parent
  · rw [List.nodup_append']
    refine ⟨h.distinct, List.nodup_singleton k, fun m hm hself => ?_⟩
    have := hold m hm
    rw [List.mem_singleton.1 hself, hp.first] at this
    exact Nat.lt_irrefl _ this
  · rcases List.mem_append.1 hm with hm | hm
    · exact h.known m hm
    · right
      rw [List.mem_singleton.1 hm, hp.first]
      exact h.size_le

/-- A child moves into a node that is new. -/
theorem move (h : Enlisting container gone done t₀ t) (hup : t.Up child (t₀.contentOf container))
    (hfree : child ∉ done) (hnew : t₀.size ≤ t.contentOf k) (hlt : t.contentOf k < t.size) :
    Enlisting container (gone ++ [child]) done t₀ (t.reparent child k) := by
  have hnode := Tree.node_reparent_of_only h.tidy.bounded hup.lt_size hlt
    fun _ => h.tidy.mem_children.1
  -- the child leaves the lists of the old nodes and is in none of them but the container's
  have hchildren : ∀ x < t₀.size, ((t.reparent child k).node x).children =
      (t.node x).children.filter (· ∉ [child]) := by
    intro x hx
    rw [hnode, if_neg (show x ≠ t.contentOf k by omega), List.append_nil]
    refine List.filter_congr fun c _ => ?_
    by_cases hc : c = child <;> simp [hc]
  have hplaced : ∀ m, m ≠ child → ((t.reparent child k).node m).parent = (t.node m).parent := by
    intro m hm
    rw [hnode, if_neg hm]
  refine
    { home_lt := h.home_lt
      tidy := h.tidy.reparent hup hlt
      size_le := (Tree.size_reparent t child k).symm ▸ h.size_le
      content := fun x hx => by rw [hnode]; exact h.content x hx
      fixed := ?_
      others := fun x hx hne => ?_
      parent := fun x hx hgone => ?_
      placed := fun m hm => ?_
      distinct := h.distinct
      known := fun m hm => (h.known m hm).imp_left (List.mem_append_left _) }
  · rw [hchildren _ h.home_lt, filter_notMem_append, ← h.fixed, List.filter_comm]
  · -- only the container lists the child
    rw [hchildren x hx, ← h.others x hx hne]
    refine List.filter_eq_self.2 fun c hc => ?_
    have hcx : c ≠ child := by
      rintro rfl
      exact hne ((h.tidy.mem_children.1 hc).unique hup)
    simpa using hcx
  · rw [List.mem_append, not_or, List.mem_singleton] at hgone
    rw [hplaced x hgone.2]
    exact h.parent x hx hgone.1
  · unfold Tree.Up
    rw [hplaced m fun heq => hfree (heq ▸ hm)]
    exact h.placed m hm

end Enlisting

/-! ## Children in their members -/

/-- A child and its member: they are the same, or the member is a new node and the child stands
where the children of that one go. -/
inductive Housed (t₀ t : Tree α) : Child α × Placement α → Nat → Prop
  | direct (child : Child α) : Housed t₀ t (child, .direct) child.node
  | wrapped (child : Child α) (placement : Placement α) (m : Nat) (hp : placement ≠ .direct)
    (hnew : t₀.size ≤ m) (hlt : m < t.size) (hup : t.Up child.node (t.contentOf m)) :
    Housed t₀ t (child, placement) m

/-- A child stays in its member as long as it is not moved. -/
theorem Housed.of_links {pair : Child α × Placement α} (h : Housed t₀ t pair m)
    (hsize : t.size ≤ t'.size)
    (hparent : (t'.node pair.1.node).parent = (t.node pair.1.node).parent)
    (hcontent : ∀ x < t.size, (t'.node x).content = (t.node x).content) :
    Housed t₀ t' pair m := by
  cases h with
  | direct child => exact .direct child
  | wrapped child placement _ hp hnew hlt hup =>
    refine .wrapped child placement m hp hnew (Nat.lt_of_lt_of_le hlt hsize) ?_
    have hsame : t'.contentOf m = t.contentOf m := by
      unfold Tree.contentOf
      rw [hcontent m hlt]
    unfold Tree.Up
    rw [hsame, hparent]
    exact hup

/-! ## Steps -/

variable {pairs : List (Child α × Placement α)} {inner : List Nat}

/-- The children that have been worked off are gone, and stand in their members. -/
def Settles (gone : List Nat) (t₀ t : Tree α) (pairs : List (Child α × Placement α))
    (inner : List Nat) : Prop :=
  List.Forall₂ (fun pair m => pair.1.node ∈ gone ∧ pair.1.node < t₀.size ∧ Housed t₀ t pair m)
    pairs inner

theorem Settles.of_links (h : Settles gone t₀ t pairs inner) (hsize : t.size ≤ t'.size)
    (hparent : ∀ x ∈ gone, x < t₀.size → (t'.node x).parent = (t.node x).parent)
    (hcontent : ∀ x < t.size, (t'.node x).content = (t.node x).content) :
    Settles gone t₀ t' pairs inner := by
  refine h.imp ?_
  rintro pair m ⟨hgone, hlt, hhoused⟩
  exact ⟨hgone, hlt, hhoused.of_links hsize (hparent _ hgone hlt) hcontent⟩

/-- A child hangs among the members, or in one of them. -/
theorem Settles.exists_up {pair : Child α × Placement α} {home : Nat}
    (h : Settles gone t₀ t pairs inner) (hpair : pair ∈ pairs)
    (hplaced : ∀ m ∈ inner, t.Up m home) : ∃ p, t.Up pair.1.node p := by
  obtain ⟨m, hm, -, -, hhoused⟩ := exists_of_forall₂ h hpair
  cases hhoused with
  | direct child => exact ⟨home, hplaced child.node hm⟩
  | wrapped child placement _ _ _ _ hup => exact ⟨_, hup⟩

theorem Settles.note {laws : List (Constraint α)} (h : Settles gone t₀ t pairs inner)
    (hn : Notes t t' laws) : Settles gone t₀ t' pairs inner := by
  refine h.of_links (Nat.le_of_eq hn.size.symm) (fun x _ _ => ?_) fun x _ => ?_
  · rw [hn.node]
  · rw [hn.node]

theorem addPlain_planted (base : Blueprint) (container : Nat) (t : Tree α) :
    Ensures (addPlain base container) t fun k t' =>
      Planted (some (t.contentOf container)) k t t' :=
  Tree.instantiate_planted base (some container) _ t

/-- A wrapper is new, and the child is moved into it. -/
theorem addWrapper_enlisting (base : Blueprint) (h : Enlisting container gone done t₀ t)
    (hup : t.Up child (t₀.contentOf container)) (hfree : child ∉ done) (hold : child < t₀.size)
    (hgone : child ∉ gone) (hsettles : Settles gone t₀ t pairs inner) :
    Ensures (addWrapper base container child) t fun w t' =>
      Enlisting container (gone ++ [child]) (done ++ [w]) t₀ t' ∧ t₀.size ≤ w ∧ w < t'.size ∧
        t'.Up child (t'.contentOf w) ∧ Settles gone t₀ t' pairs inner := by
  unfold addWrapper
  refine Ensures.seq (addPlain_planted base container t) fun w t₁ hp => ?_
  rw [h.contentOf] at hp
  -- the wrapper is planted first and becomes a member, then the child moves into its content
  have h₁ := h.plant hp
  have hlt : ∀ x < t₀.size, x < t.size := fun x hx => Nat.lt_of_lt_of_le hx h.size_le
  have hw : t.size ≤ w := Nat.le_of_eq hp.first.symm
  obtain ⟨htarget, hin⟩ := hp.fenced.contentOf hw hp.lt
  have hup₁ : t₁.Up child (t₀.contentOf container) := by
    unfold Tree.Up
    rw [hp.keeps Node.parent (fun _ _ => rfl) (hlt child hold)]
    exact hup
  have hfree₁ : child ∉ done ++ [w] := by
    rw [List.mem_append, not_or, List.mem_singleton]
    refine ⟨hfree, ?_⟩
    have := hlt child hold
    omega
  -- after the planting the links are tidy, so the move is known node by node
  have hnode := Tree.node_reparent_of_only h₁.tidy.bounded hup₁.lt_size hin
    fun _ => h₁.tidy.mem_children.1
  refine ⟨h₁.move hup₁ hfree₁ (Nat.le_trans h.size_le htarget) hin, ?_, ?_, ?_, ?_⟩
  · exact Nat.le_trans h.size_le hw
  · show w < (t₁.reparent child w).size
    rw [Tree.size_reparent]
    exact hp.lt
  · have hsame : (t₁.reparent child w).contentOf w = t₁.contentOf w := by
      unfold Tree.contentOf
      rw [hnode w]
    show ((t₁.reparent child w).node child).parent = some ((t₁.reparent child w).contentOf w)
    rw [hsame, hnode child, if_pos rfl]
  · refine hsettles.of_links ?_ (fun x hx hlt₀ => ?_) fun x hx => ?_
    · show t.size ≤ (t₁.reparent child w).size
      rw [Tree.size_reparent]
      exact Nat.le_trans hw (Nat.le_of_lt hp.lt)
    · have hne : x ≠ child := fun heq => hgone (heq ▸ hx)
      show ((t₁.reparent child w).node x).parent = _
      rw [hnode x, if_neg hne]
      exact hp.keeps Node.parent (fun _ _ => rfl) (hlt x hlt₀)
    · show ((t₁.reparent child w).node x).content = _
      rw [hnode x]
      exact hp.keeps Node.content (fun _ _ => rfl) hx

theorem addFiller_enlisting (plan : StackPlan α) (base : Blueprint) (fillers : List Filler)
    (h : Enlisting container gone done t₀ t) (hsettles : Settles gone t₀ t pairs inner) :
    Ensures (addFiller plan base container fillers) t fun spacer t' =>
      (spacer.isSome ↔ plan.filler ∈ fillers) ∧ (∀ m ∈ spacer, t₀.size ≤ m) ∧
        Enlisting container gone (done ++ spacer.toList) t₀ t' ∧
        Settles gone t₀ t' pairs inner := by
  unfold addFiller
  split
  · rename_i hfiller
    refine Ensures.map (Ensures.seq (addPlain_planted base container t) fun w t₁ hp => ?_)
    rw [h.contentOf] at hp
    have h₁ := h.plant hp
    have hlt : ∀ x < t₀.size, x < t.size := fun x hx => Nat.lt_of_lt_of_le hx h.size_le
    -- the mark that a filler gets is an attribute, which leaves all links alone
    have hd := Tree.decorates_setAttribute t₁ w (huggingKey plan.axis) "1"
    have hsize : t.size ≤ t₁.size := by
      have := hp.first
      have := hp.lt
      omega
    refine ⟨⟨fun _ => hfiller, fun _ => rfl⟩, ?_, ?_, ?_⟩
    · intro m hm
      obtain rfl := Option.some.inj hm
      rw [hp.first]
      exact h.size_le
    · exact h₁.of_links (Nat.le_of_eq hd.size.symm)
        (h₁.tidy.of_links hd.parent fun x => hd.children x ▸ List.Perm.refl _)
        (fun x _ => hd.parent x) (fun x _ => hd.children x) fun x _ => hd.content x
    · refine hsettles.of_links (hd.size.symm ▸ hsize) (fun x _ hx => ?_) fun x hx => ?_
      · exact (hd.parent x).trans (hp.keeps Node.parent (fun _ _ => rfl) (hlt x hx))
      · exact (hd.content x).trans (hp.keeps Node.content (fun _ _ => rfl) hx)
  · rename_i hfiller
    refine ⟨⟨fun hsome => Bool.noConfusion hsome, fun hmem => absurd hmem hfiller⟩, ?_, ?_,
      hsettles⟩
    · intro m hm
      cases hm
    · show Enlisting container gone (done ++ []) t₀ t
      rwa [List.append_nil]

variable [Scalar α]

/-- One child becomes a member, by itself or in a wrapper. -/
theorem addMember_enlisting (plan : StackPlan α) (base : Blueprint) (child : Child α)
    (placement : Placement α) (h : Enlisting container gone done t₀ t)
    (hup : t.Up child.node (t₀.contentOf container)) (hfree : child.node ∉ done)
    (hold : child.node < t₀.size) (hgone : child.node ∉ gone)
    (hsettles : Settles gone t₀ t pairs inner) :
    Ensures (addMember plan base container child.node placement) t fun m t' =>
      Enlisting container (gone ++ [child.node]) (done ++ [m]) t₀ t' ∧
        Settles (gone ++ [child.node]) t₀ t' (pairs ++ [(child, placement)]) (inner ++ [m]) := by
  -- what is housed so far stays so, and this child is the next one
  have hmore : ∀ t' m, Settles gone t₀ t' pairs inner → Housed t₀ t' (child, placement) m →
      Settles (gone ++ [child.node]) t₀ t' (pairs ++ [(child, placement)]) (inner ++ [m]) := by
    intro t' m hs hm
    refine List.rel_append (hs.imp ?_) (.cons ⟨?_, hold, hm⟩ .nil)
    · rintro pair w ⟨hmem, hrest⟩
      exact ⟨List.mem_append_left _ hmem, hrest⟩
    · exact List.mem_append_right _ (List.mem_singleton_self _)
  refine addMember_spec plan base container child.node (fun hp => ?_) fun hp => ?_
  · subst hp
    exact ⟨h.direct hup hfree, hmore t _ hsettles (.direct child)⟩
  · refine (addWrapper_enlisting base h hup hfree hold hgone hsettles).imp ?_
    rintro w t₁ ⟨h₁, hnew, hlt, hin, hs₁⟩ t₂ hn
    refine ⟨h₁.note hn, hmore t₂ w (hs₁.note hn)
      (.wrapped child placement w hp hnew (hn.size.symm ▸ hlt) ?_)⟩
    unfold Tree.Up Tree.contentOf
    rw [hn.node, hn.node]
    exact hin

/-- One round of the loop over the children: the next child becomes a member, and so it is gone with
those before it. -/
theorem memberRound_enlisting (plan : StackPlan α) (base : Blueprint) {child : Child α}
    {placement : Placement α} {before rest : List (Child α × Placement α)}
    (hdistinct : ((before ++ (child, placement) :: rest).map fun p => p.1.node).Nodup)
    (hup : t₀.Up child.node (t₀.contentOf container))
    (h : Enlisting container (before.map fun p => p.1.node) done t₀ t)
    (hs : Settles (before.map fun p => p.1.node) t₀ t before inner) :
    Ensures (memberSizes plan.axis child >>= fun _ =>
        addMember plan base container child.node placement) t fun m t' =>
      Enlisting container ((before ++ [(child, placement)]).map fun p => p.1.node) (done ++ [m])
          t₀ t' ∧
        Settles ((before ++ [(child, placement)]).map fun p => p.1.node) t₀ t'
          (before ++ [(child, placement)]) (inner ++ [m]) := by
  have hold := hup.lt_size
  have hgone : child.node ∉ before.map fun p => p.1.node := by
    rw [List.map_append, List.map_cons, List.nodup_append'] at hdistinct
    exact fun hin => hdistinct.2.2 hin List.mem_cons_self
  have hfree : child.node ∉ done := by
    intro hin
    rcases h.known _ hin with hin | hle
    · exact hgone hin
    · omega
  rw [List.map_append, List.map_singleton]
  refine Ensures.seq (memberSizes_spec plan.axis child) fun _ t₁ hn => ?_
  refine addMember_enlisting plan base child placement (h.note hn) ?_ hfree hold hgone (hs.note hn)
  unfold Tree.Up
  rw [hn.node, h.parent _ hold hgone]
  exact hup

/-- All children become members, in order. -/
theorem addMembers_enlisting (plan : StackPlan α) (base : Blueprint) (children : List (Child α))
    (hlength : plan.placements.length = children.length) (ht : t.Tidy)
    (hhome : t.contentOf container < t.size)
    (hchildren : ∀ child ∈ children, child.node ∈ (t.node (t.contentOf container)).children)
    (hdistinct : (children.map (·.node)).Nodup) :
    Ensures (addMembers plan base container children) t fun members t' =>
      Enlisting container (children.map (·.node)) members.all t t' ∧
        Settles (children.map (·.node)) t t' (children.zip plan.placements) members.inner ∧
        (members.leading.isSome ↔ plan.filler ∈ [Filler.before, .around]) ∧
        (members.trailing.isSome ↔ plan.filler ∈ [Filler.after, .around]) ∧
        ∀ m ∈ members.leading.toList ++ members.trailing.toList, t.size ≤ m := by
  have hpairs : (children.zip plan.placements).map (fun p => p.1.node) = children.map (·.node) := by
    show (children.zip plan.placements).map ((fun c => c.node) ∘ Prod.fst) = _
    rw [← List.map_map, List.map_fst_zip (Nat.le_of_eq hlength.symm)]
  have hup : ∀ x ∈ children.map (·.node), t.Up x (t.contentOf container) := by
    intro x hx
    obtain ⟨child, hchild, rfl⟩ := List.mem_map.1 hx
    exact ht.mem_children.1 (hchildren child hchild)
  unfold addMembers
  have hstart : Settles [] t t ([] : List (Child α × Placement α)) [] := .nil
  refine Ensures.seq (addFiller_enlisting plan base _ (Enlisting.start ht hhome) hstart) ?_
  rintro leading t₁ ⟨hleading, hnew, h₁, -⟩
  -- The children that are gone are those of the pairs that have been worked off.
  refine Ensures.seq (Ensures.mapM
    (I := fun rest inner t' => ∃ before, children.zip plan.placements = before ++ rest ∧
      Enlisting container (before.map fun p => p.1.node) (leading.toList ++ inner) t t' ∧
      Settles (before.map fun p => p.1.node) t t' before inner) _ ?_
      (children.zip plan.placements) [] ?_) ?_
  · rintro ⟨child, placement⟩ rest inner t' ⟨before, hsplit, h, hs⟩
    rw [← hpairs, hsplit] at hup hdistinct
    have hmem : child.node ∈ (before ++ (child, placement) :: rest).map fun p => p.1.node := by
      rw [List.map_append, List.map_cons]
      exact List.mem_append_right _ List.mem_cons_self
    refine (memberRound_enlisting plan base hdistinct (hup _ hmem) h hs).imp ?_
    rintro m t₂ ⟨h₂, hs₂⟩
    rw [List.append_assoc] at h₂
    exact ⟨before ++ [(child, placement)], by rw [hsplit, List.append_assoc]; rfl, h₂, hs₂⟩
  · exact ⟨[], rfl, by rw [List.append_nil]; exact h₁, .nil⟩
  · rintro inner t₂ ⟨before, hsplit, h₂, hs₂⟩
    rw [List.append_nil] at hsplit
    subst hsplit
    rw [hpairs] at h₂ hs₂
    refine Ensures.seq (addFiller_enlisting plan base _ h₂ hs₂) ?_
    rintro trailing t₃ ⟨htrailing, hnew', h₃, hs₃⟩
    refine ⟨h₃, hs₃, hleading, htrailing, fun m hm => ?_⟩
    rcases List.mem_append.1 hm with hm | hm
    · exact hnew m (Option.mem_toList.1 hm)
    · exact hnew' m (Option.mem_toList.1 hm)

/-! ## The row -/

omit [Scalar α] in
/-- The members are put in order behind all other children. -/
theorem lineUp_enlisting (h : Enlisting container gone done t₀ t) :
    (lineUp t container done).Tidy ∧ (lineUp t container done).size = t.size ∧
      ∀ x, (lineUp t container done).node x =
        if x = t₀.contentOf container then
          { t.node x with children :=
              (t₀.node (t₀.contentOf container)).children.filter (· ∉ gone) ++ done }
        else t.node x := by
  have hfixed : (t.node (t.contentOf container)).children.filter (!done.contains ·) =
      (t₀.node (t₀.contentOf container)).children.filter (· ∉ gone) := by
    rw [h.contentOf, ← h.fixed]
    refine List.filter_congr fun x _ => ?_
    simp
  unfold lineUp
  simp only [hfixed]
  -- The members are children already, and what is left of the children are the fixed ones.
  have hdone : ((t.node (t₀.contentOf container)).children.filter (· ∈ done)).Perm done := by
    rw [List.perm_ext_iff_of_nodup ((h.tidy.nodup _).filter _) h.distinct]
    intro x
    simp only [List.mem_filter, decide_eq_true_eq]
    exact ⟨fun hx => hx.2, fun hx => ⟨h.tidy.mem_children.2 (h.placed x hx), hx⟩⟩
  have hperm : ((t₀.node (t₀.contentOf container)).children.filter (· ∉ gone) ++ done).Perm
      (t.node (t.contentOf container)).children := by
    rw [← h.fixed, h.contentOf]
    have hsplit := List.filter_append_perm (fun x => decide (x ∈ done))
      (t.node (t₀.contentOf container)).children
    simp only [← decide_not] at hsplit
    exact (List.perm_append_comm.trans (hdone.symm.append_right _)).trans hsplit
  have hall : ∀ c ∈ (t₀.node (t₀.contentOf container)).children.filter (· ∉ gone) ++ done,
      t.Up c (t.contentOf container) := by
    intro c hc
    exact h.tidy.mem_children.1 (hperm.mem_iff.1 hc)
  have hlt : t.contentOf container < t.size := by
    rw [h.contentOf]
    exact Nat.lt_of_lt_of_le h.home_lt h.size_le
  refine ⟨h.tidy.setChildren hperm, ?_, fun x => ?_⟩
  · rw [Tree.setChildren_eq _ hall, Tree.size_modifyNode]
  · rw [Tree.setChildren_eq _ hall, Tree.node_modifyNode_of_lt hlt, h.contentOf]

/-- Some new nodes have been put at the end of the children of a node, and no other link of an old
node has changed. -/
structure Appends (p : Nat) (new : List Nat) (t t' : Tree α) : Prop where
  size_le : t.size ≤ t'.size
  fresh : ∀ k ∈ new, t.size ≤ k
  children : ∀ x < t.size,
    (t'.node x).children = (t.node x).children ++ if x = p then new else []
  parent : ∀ x < t.size, (t'.node x).parent = (t.node x).parent
  content : ∀ x < t.size, (t'.node x).content = (t.node x).content
  tidy : p < t.size → t.Tidy → t'.Tidy

omit [Scalar α] in
theorem Appends.decorate {p : Nat} {new : List Nat} {t'' : Tree α} (h : Appends p new t t')
    (hd : Tree.Decorates t' t'') : Appends p new t t'' where
  size_le := hd.size.symm ▸ h.size_le
  fresh := h.fresh
  children x hx := (hd.children x).trans (h.children x hx)
  parent x hx := (hd.parent x).trans (h.parent x hx)
  content x hx := (hd.content x).trans (h.content x hx)
  tidy hp ht := (h.tidy hp ht).of_links hd.parent fun x => hd.children x ▸ List.Perm.refl _

/-- Describing a stack adds no more than the child that states the insets. -/
theorem describe_appends (plan : StackPlan α) (container : Nat) (t : Tree α) :
    Ensures (describe plan container) t fun _ t' =>
      ∃ margins, margins.length ≤ 1 ∧ Appends container margins t t' := by
  -- facts are attributes of one node each and only decorate the tree
  have hfacts := fun (t : Tree α) (id : Nat) (facts : List (String × String)) =>
    Tree.decorates_forIn facts (fun fact t => t.setAttribute id fact.1 fact.2)
      (fun fact t => Tree.decorates_setAttribute t id fact.1 fact.2) t
  have hnone : ∀ t' : Tree α, Tree.Decorates t t' → Appends container [] t t' := by
    intro t' hd
    have hrefl : Appends container [] t t :=
      ⟨Nat.le_refl _, fun _ hk => absurd hk List.not_mem_nil, fun x _ => by simp, fun _ _ => rfl,
        fun _ _ => rfl, fun _ ht => ht⟩
    exact hrefl.decorate hd
  unfold describe
  refine Ensures.seq (hfacts t container (stackFacts plan)) fun _ t₁ hd₁ => ?_
  split
  · refine Ensures.seq (Tree.findOrCreate_planted container marginsStep t₁) fun k t₂ h₂ => ?_
    refine Ensures.seq (hfacts t₂ k (insetFacts plan.insets)) fun _ t₃ hd₃ => ?_
    have hd := hd₃.trans (Tree.decorates_setAttribute t₃ container relativeMarginsKey "YES")
    -- the entry of the margins may be there already; else it is planted behind the container's
    -- children
    rcases h₂ with rfl | hp
    · exact ⟨[], Nat.zero_le _, hnone _ (hd₁.trans hd)⟩
    · refine ⟨[k], Nat.le_refl _, Appends.decorate ?_ hd⟩
      have hsize := hd₁.size
      have hlt : ∀ x < t.size, x < t₁.size := fun x hx => hsize.symm ▸ hx
      refine
        { size_le := ?_
          fresh := fun c hc => ?_
          children := fun x hx => ?_
          parent := fun x hx =>
            (hp.keeps Node.parent (fun _ _ => rfl) (hlt x hx)).trans (hd₁.parent x)
          content := fun x hx =>
            (hp.keeps Node.content (fun _ _ => rfl) (hlt x hx)).trans (hd₁.content x)
          tidy := fun hc ht => hp.tidy (fun p hmem => ?_)
            (ht.of_links hd₁.parent fun x => hd₁.children x ▸ List.Perm.refl _) }
      · have := hp.first
        have := hp.lt
        omega
      · rw [List.mem_singleton.1 hc, hp.first, hsize]
      · rw [hp.children (hlt x hx), hd₁.children]
        simp only [Option.some.injEq, eq_comm]
      · exact Option.mem_some.1 hmem ▸ hlt _ hc
  · exact ⟨[], Nat.zero_le _, hnone _ hd₁⟩

/-- How the nodes around a container stand once its children are members of a stack: in source
order and with spacers around them, behind all other children. -/
structure Enlisted (plan : StackPlan α) (container : Nat) (children : List (Child α))
    (t t' : Tree α) (members : Members) (margins : List Nat) : Prop where
  tidy : t'.Tidy
  /-- A child is its own member, or stands in a new one. -/
  housed : List.Forall₂ (Housed t t') (children.zip plan.placements) members.inner
  /-- A child is listed once, in one place. -/
  once : ∀ child ∈ children, ∃ p, ∀ q,
    (t'.node q).children.count child.node = if q = p then 1 else 0
  placed : ∀ m ∈ members.all, t'.Up m (t.contentOf container)
  distinct : members.all.Nodup
  leading : members.leading.isSome ↔ plan.filler ∈ [Filler.before, .around]
  trailing : members.trailing.isSome ↔ plan.filler ∈ [Filler.after, .around]
  spacers : ∀ m ∈ members.leading.toList ++ members.trailing.toList, t.size ≤ m
  row : (t'.node (t.contentOf container)).children =
    (t.node (t.contentOf container)).children.filter (· ∉ children.map (·.node)) ++
      members.all ++ if t.contentOf container = container then margins else []
  apart : margins.length ≤ 1 ∧ ∀ k ∈ margins, t.size ≤ k ∧ k ∉ members.all
  others : ∀ x < t.size, x ≠ t.contentOf container →
    (t'.node x).children = (t.node x).children ++ if x = container then margins else []
  unmoved : ∀ x < t.size, x ∉ children.map (·.node) → (t'.node x).parent = (t.node x).parent

omit [Scalar α] in
/-- The new members are the wrappers and the spacers. -/
theorem countP_members {plan : StackPlan α} {children : List (Child α)} {members : Members}
    (hlength : plan.placements.length = children.length)
    (hsettles : Settles gone t t' (children.zip plan.placements) members.inner)
    (hspacers : ∀ m ∈ members.leading.toList ++ members.trailing.toList, t.size ≤ m) :
    members.all.countP (t.size ≤ ·) =
      (plan.placements.filter fun
        | .direct => false
        | _ => true).length + members.leading.toList.length + members.trailing.toList.length := by
  -- a member is new just if its placement is not the direct one
  have hinner : members.inner.countP (t.size ≤ ·) = plan.placements.countP fun
      | .direct => false
      | _ => true := by
    have hsnd : (children.zip plan.placements).map Prod.snd = plan.placements :=
      List.map_snd_zip (Nat.le_of_eq hlength)
    rw [← hsnd, List.countP_map]
    refine (countP_of_forall₂ hsettles ?_).symm
    rintro pair m ⟨-, hlt, hhoused⟩
    cases hhoused with
    | direct child =>
      have hnot : ¬ t.size ≤ child.node := by
        have hold : child.node < t.size := hlt
        omega
      simp [hnot]
    | wrapped child placement _ hp hnew _ _ =>
      cases placement with
      | direct => exact absurd rfl hp
      | padded before after => simp [hnew]
      | wrapped align along across => simp [hnew]
  obtain ⟨hleading, htrailing⟩ := List.forall_mem_append.1 hspacers
  -- fillers are all new
  have hall : ∀ l : List Nat, (∀ m ∈ l, t.size ≤ m) → l.countP (t.size ≤ ·) = l.length := by
    intro l hl
    exact List.countP_eq_length.2 fun m hm => decide_eq_true (hl m hm)
  unfold Members.all
  rw [List.countP_append, List.countP_append, hall _ hleading, hall _ htrailing, hinner,
    List.countP_eq_length_filter]
  omega

omit [Scalar α] in
/-- Once all children are members, they are put in order and the stack is described. -/
theorem Enlisting.enlisted {plan : StackPlan α} {children : List (Child α)} {members : Members}
    {margins : List Nat} (h : Enlisting container (children.map (·.node)) members.all t₀ t)
    (hs : Settles (children.map (·.node)) t₀ t (children.zip plan.placements) members.inner)
    (hlength : plan.placements.length = children.length)
    (hleading : members.leading.isSome ↔ plan.filler ∈ [Filler.before, .around])
    (htrailing : members.trailing.isSome ↔ plan.filler ∈ [Filler.after, .around])
    (hspacers : ∀ m ∈ members.leading.toList ++ members.trailing.toList, t₀.size ≤ m)
    (hmargins : margins.length ≤ 1)
    (ha : Appends container margins (lineUp t container members.all) t') :
    Enlisted plan container children t₀ t' members margins := by
  obtain ⟨htidy, hsize, hnode⟩ := lineUp_enlisting h
  generalize lineUp t container members.all = row at htidy hsize hnode ha
  have hlt : ∀ x < t₀.size, x < t.size := fun x hx => Nat.lt_of_lt_of_le hx h.size_le
  -- lining the members up and describing them gives no old node another parent
  have hparent : ∀ x < t.size, (t'.node x).parent = (t.node x).parent := by
    intro x hx
    rw [ha.parent x (hsize.symm ▸ hx), hnode]
    split <;> rfl
  have hcontent : ∀ x < t.size, (t'.node x).content = (t.node x).content := by
    intro x hx
    rw [ha.content x (hsize.symm ▸ hx), hnode]
    split <;> rfl
  have htidy' := ha.tidy (hsize.symm ▸ hlt _ h.container_lt) htidy
  have hs' := hs.of_links (hsize ▸ ha.size_le) (fun x _ hx => hparent x (hlt x hx)) hcontent
  have hplaced : ∀ m ∈ members.all, t'.Up m (t₀.contentOf container) := by
    intro m hm
    unfold Tree.Up
    rw [hparent m (h.placed m hm).lt_size]
    exact h.placed m hm
  refine
    { tidy := htidy'
      housed := hs'.imp fun _ _ h => h.2.2
      once := fun child hchild => ?_
      placed := hplaced
      distinct := h.distinct
      leading := hleading
      trailing := htrailing
      spacers := hspacers
      row := ?_
      apart := ⟨hmargins, fun k hk => ⟨?_, fun hm => ?_⟩⟩
      others := fun x hx hne => ?_
      unmoved := fun x hx hgone => (hparent x (hlt x hx)).trans (h.parent x hx hgone) }
  · have hmem : child ∈ (children.zip plan.placements).map Prod.fst := by
      rw [List.map_fst_zip (Nat.le_of_eq hlength.symm)]
      exact hchild
    obtain ⟨pair, hpair, rfl⟩ := List.mem_map.1 hmem
    obtain ⟨p, hup⟩ := hs'.exists_up hpair fun m hm =>
      hplaced m (List.mem_append_left _ (List.mem_append_right _ hm))
    refine ⟨p, fun q => ?_⟩
    rw [htidy' q, show (t'.node pair.1.node).parent = some p from hup]
    simp only [Option.some.injEq, eq_comm]
  · rw [ha.children _ (hsize.symm ▸ hlt _ h.home_lt), hnode, if_pos rfl]
  · exact Nat.le_trans h.size_le (hsize ▸ ha.fresh k hk)
  · have hold := (h.placed k hm).lt_size
    have hnew := ha.fresh k hk
    omega
  · rw [ha.children x (hsize.symm ▸ hlt x hx), hnode, if_neg hne, h.others x hx hne]

/-- Building a stack of children that stand in a container leaves each of them in just one place:
as a member, or where the children of a wrapper of its own go. The members stand in source order
behind all other children of the container, with spacers around them where the filler says so.
Nothing else is moved or taken from its place, and what is handed back is the number of wrappers and
spacers. -/
theorem enlisted_of_arrangeStack (base : Blueprint) (container : Nat) (params : Params α)
    (children : List (Child α)) (t : Tree α) (ht : t.Tidy)
    (hhome : t.contentOf container < t.size)
    (hchildren : ∀ child ∈ children, child.node ∈ (t.node (t.contentOf container)).children)
    (hdistinct : (children.map (·.node)).Nodup) :
    Ensures (arrangeStack base container params children) t fun added t' =>
      ∃ members margins,
        Enlisted (plan params (children.map (·.params))) container children t t' members margins ∧
        added = members.all.countP (t.size ≤ ·) := by
  unfold arrangeStack
  have hlength : (plan params (children.map (·.params))).placements.length = children.length := by
    simp [plan]
  generalize plan params (children.map (·.params)) = plan at hlength ⊢
  refine Ensures.seq (addMembers_enlisting plan base children hlength ht hhome hchildren
    hdistinct) ?_
  rintro members t₁ ⟨h₁, hs₁, hleading, htrailing, hspacers⟩
  refine Ensures.seq (balance_spec _ members) fun _ t₂ hn₂ => ?_
  refine Ensures.seq (shareWeights_spec _ _) fun _ t₃ hn₃ => ?_
  refine Ensures.bind (Ensures.modify ?_)
  refine Ensures.seq (describe_appends _ container _) ?_
  rintro _ t₄ ⟨margins, hmargins, ha⟩
  -- the laws in between touch no node, so the rows of the members reach the last step as they are
  have hs₃ := (hs₁.note hn₂).note hn₃
  exact ⟨members, margins, ((h₁.note hn₂).note hn₃).enlisted hs₃ hlength hleading htrailing hspacers
    hmargins ha, (countP_members hlength hs₁ hspacers).symm⟩

namespace Sample

/-- A container whose children go into a node of its own, which has a fixed child. -/
def listing : Blueprint :=
  { plain with
    children := [{ name := "subviews", children := [plain] }]
    holder := some "subviews" }

/-- A listing with three children. -/
def listed : Tree ℚ :=
  let build : Edit ℚ Unit := do
    let container ← Tree.instantiate listing none fun _ => ""
    discard <| addPlain plain container
    discard <| addPlain plain container
    discard <| addPlain plain container
  (build (Tree.empty "sample")).2

/-- A container that centers its children along the axis. -/
def centering : Params ℚ :=
  { params (.uniform 0) (.uniform 10) with gravity := { vertical := some .center } }

/-- The first child is a member, the second one needs room above it, and the third one is aligned
in a wrapper. -/
def rows : List (Child ℚ) :=
  let plainly := params (.uniform 0) (.uniform 0)
  [⟨3, plainly⟩, ⟨4, { plainly with margin := { Insets.uniform 0 with top := 8 } }⟩,
    ⟨5, { plainly with layoutGravity := { horizontal := some .finish } }⟩]

theorem tidy_listed : listed.Tidy := by
  -- each node of the sample is added to the first one, which is there from the start
  have hplain : ∀ t : Tree ℚ, t.Linked → 0 < t.size →
      Ensures (discard <| addPlain plain 0) t fun _ t' => t'.Linked ∧ 0 < t'.size := by
    intro t hl hlt
    have hmade := Tree.instantiate_spec hl plain (show t.Place (some 0) from hlt) fun _ => ""
    have hlater : Ensures (addPlain plain 0) t fun _ t' => t'.Linked ∧ 0 < t'.size :=
      hmade.imp fun _ _ hm => ⟨hm.linked, Nat.lt_of_lt_of_le hlt hm.size_le⟩
    exact hlater.map
  have hlinked : Ensures (do
      let container ← Tree.instantiate listing none fun _ => ""
      discard <| addPlain plain container
      discard <| addPlain plain container
      discard <| addPlain plain container) (Tree.empty "sample" : Tree ℚ)
      fun _ t => t.Linked ∧ 0 < t.size := by
    refine Ensures.seq (Tree.instantiate_spec (Tree.linked_empty _) listing
      (show Tree.Place _ none from rfl) _) fun k t₁ hm => ?_
    obtain rfl : k = 0 := hm.first
    have hlt : 0 < t₁.size := Tree.lt_size_of_ident hm.named
    refine Ensures.seq (hplain t₁ hm.linked hlt) fun _ t₂ h₂ => ?_
    exact Ensures.seq (hplain t₂ h₂.1 h₂.2) fun _ t₃ h₃ => hplain t₃ h₃.1 h₃.2
  exact hlinked.1.tidy

end Sample

/-- The fixed child stays the first one; two of the members are wrappers, and two are spacers. -/
theorem enlisted_listed :
    ∃ members margins,
      Enlisted (plan Sample.centering (Sample.rows.map (·.params))) 0 Sample.rows Sample.listed
        (arrangeStack Sample.plain 0 Sample.centering Sample.rows Sample.listed).2 members margins ∧
      (arrangeStack Sample.plain 0 Sample.centering Sample.rows Sample.listed).1 = 4 ∧
      members.all = [6, 3, 7, 8, 9] := by
  obtain ⟨members, margins, h, -⟩ := enlisted_of_arrangeStack Sample.plain 0 Sample.centering
    Sample.rows Sample.listed Sample.tidy_listed (by decide +kernel) (by decide +kernel)
    (by decide +kernel)
  refine ⟨members, margins, h, by decide +kernel, ?_⟩
  have hcontent : Sample.listed.contentOf 0 = 1 := by decide +kernel
  have hfixed : (Sample.listed.node 1).children.filter (· ∉ Sample.rows.map (·.node)) = [2] := by
    decide +kernel
  have hchildren : ((arrangeStack Sample.plain 0 Sample.centering Sample.rows
      Sample.listed).2.node 1).children = [2, 6, 3, 7, 8, 9] := by
    decide +kernel
  have hrow := h.row
  rw [hcontent, hfixed, hchildren, if_neg Nat.one_ne_zero, List.append_nil] at hrow
  exact (List.cons.inj hrow).2.symm

end LayoutCompiler.Layout
