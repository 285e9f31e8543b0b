import LayoutCompiler.Proofs.Layout.Laws
import LayoutCompiler.Proofs.Tree.Quiet
/-!
# Layout keeps trees settled

While the children of a container are laid out, some of them still wait to be moved into wrappers,
and the nodes of `M`, which stand around the container, to be laid out themselves. `Stacking` is
what holds at every moment: all nodes are linked, every constraint rests on its anchor, and the
members made so far stand beside the children that wait.

* `addMember_stacking`: one child becomes a member.
* `arrangeStack_arranged`: a stack of any children.
* `arrange_arranged`: all kinds of containers.
-/

namespace LayoutCompiler.Layout

open LayoutCompiler.Tree (Notes Grows Sprouts Made Decorates)

variable {α : Type} {t t' t₀ : Tree α} {a b container child m w x : Nat} {xs M rest done : List Nat}
  {l : Constraint α} {laws : List (Constraint α)}

/-! ## Where laws rest -/

/-- A node that stands where the children of another one go is not that one. -/
theorem ne_of_up_contentOf (hl : t.Linked) (hup : t.Up m (t.contentOf x)) : m ≠ x := by
  rintro rfl
  exact hl.acyclic.not_reaches hup (hl.contentOf_reaches m)

theorem Bounds.rests (hb : Bounds m l) (hm : (t.node m).ident.isSome) : t.Rests M l := by
  have hself : ∀ x ∈ l.participants, x = m := fun x hx => hb.eq_of_mem hx
  refine ⟨m, ⟨hm, fun x hx => hself x hx ▸ hm, fun x hx => Or.inl (hself x hx), ?_, fun _ => hb.2⟩,
    fun x hx _ => hself x hx⟩
  simp [Constraint.participants, hb.1]

/-- What joins a child with the node it was placed in rests on that node. -/
theorem Joins.rests (hj : Joins m x l) (hl : t.Linked) (hm : (t.node m).ident.isSome)
    (hx : (t.node x).ident.isSome) (hup : t.Up m (t.contentOf x)) (hfree : m ∉ M) :
    t.Rests M l := by
  have hboth : ∀ y ∈ l.participants, y = m ∨ y = x := fun y hy => hj.eq_or_eq hy
  -- the owner is the container itself: it is one of the two, and the other is its child
  refine ⟨x, ⟨hx, fun y hy => ?_, fun y hy => ?_, ?_, fun h => ?_⟩, fun y hy hyM => ?_⟩
  · rcases hboth y hy with rfl | rfl
    · exact hm
    · exact hx
  · rcases hboth y hy with rfl | rfl
    · exact Or.inr hup
    · exact Or.inl rfl
  · rw [hj.participants.nodup_iff]
    simpa using ne_of_up_contentOf hl hup
  · have hsome := hj.second
    rw [h] at hsome
    cases hsome
  · rcases hboth y hy with rfl | rfl
    · exact absurd hyM hfree
    · rfl

/-- What joins two children of a node rests on it. -/
theorem Joins.rests_of_siblings (hj : Joins a b l) (ha : (t.node a).ident.isSome)
    (hb : (t.node b).ident.isSome) (hx : (t.node x).ident.isSome) (hupa : t.Up a (t.contentOf x))
    (hupb : t.Up b (t.contentOf x)) (hne : a ≠ b) (hfreea : a ∉ M) (hfreeb : b ∉ M) :
    t.Rests M l := by
  have hboth : ∀ y ∈ l.participants, y = a ∨ y = b := fun y hy => hj.eq_or_eq hy
  -- neither of the two is the owner, both are children of it
  refine ⟨x, ⟨hx, fun y hy => ?_, fun y hy => ?_, ?_, fun h => ?_⟩, fun y hy hyM => ?_⟩
  · rcases hboth y hy with rfl | rfl
    · exact ha
    · exact hb
  · rcases hboth y hy with rfl | rfl
    · exact Or.inr hupa
    · exact Or.inr hupb
  · rw [hj.participants.nodup_iff]
    simpa using hne
  · have hsome := hj.second
    rw [h] at hsome
    cases hsome
  · rcases hboth y hy with rfl | rfl
    · exact absurd hyM hfreea
    · exact absurd hyM hfreeb

/-! ## Wrappers -/

/-- What putting a wrapper around a child leaves behind. -/
structure Wrapped (container child w : Nat) (t t' : Tree α) : Prop where
  first : w = t.size
  linked : t'.Linked
  size_lt : t.size < t'.size
  constraints : t'.constraints = t.constraints
  parent : ∀ x < t.size, x ≠ child → (t'.node x).parent = (t.node x).parent
  content : ∀ x < t.size, (t'.node x).content = (t.node x).content
  holder : ∀ x < t.size, (t'.node x).holder = (t.node x).holder
  ident : ∀ x < t.size, (t'.node x).ident = (t.node x).ident
  moved : t'.Up child (t'.contentOf w)
  placed : t'.Up w (t.contentOf container)
  named : (t'.node w).ident.isSome
  settled : ∀ M, child ∈ M → t.Settled M → t'.Settled M

theorem addPlain_spec (base : Blueprint) (hl : t.Linked) (hx : x < t.size) :
    Ensures (addPlain base x) t fun k t' => Made k (some x) t t' := by
  have hplace : t.Place (some x) := hx
  exact Tree.instantiate_spec hl base hplace _

/-- A node just made beside another one is not above it. -/
theorem not_reaches_of_made (hl : t.Linked) (hmade : Made w (some container) t t')
    (hup : t.Up child (t.contentOf container)) : ¬ t'.Reaches (t'.contentOf w) child := by
  have hchild : child < t.size := hup.lt_size
  have hupw : t'.Up w (t.contentOf container) := hmade.placed
  have hupc : t'.Up child (t.contentOf container) := (hmade.toGrows.up hchild).2 hup
  have hwc : w ≠ child := by
    rw [hmade.first]
    omega
  have habove : ¬ t'.Reaches w child := by
    intro h
    exact hmade.linked.acyclic.not_reaches hupc (h.of_up hupw hwc)
  rcases hmade.linked.contentOf_cases w with heq | ⟨hupk, -⟩
  · rwa [heq]
  · intro h
    refine habove (h.of_up hupk ?_)
    -- an older node cannot stand in the new one
    intro heq
    have hold : t.Up child w := (hmade.toGrows.up hchild).1 (heq ▸ hupk)
    have := hl.bounded _ _ hold
    rw [hmade.first] at this
    exact Nat.lt_irrefl _ this

/-- Moving a child into a node just made beside it wraps it. -/
theorem Wrapped.of_made (hl : t.Linked) (hmade : Made w (some container) t t')
    (hup : t.Up child (t.contentOf container)) (hnamed : (t.node child).ident.isSome) :
    Wrapped container child w t (t'.reparent child w) := by
  have hchild : child < t.size := hup.lt_size
  have hupc : t'.Up child (t.contentOf container) := (hmade.toGrows.up hchild).2 hup
  have hw : w < t'.size := Tree.lt_size_of_ident hmade.named
  have hnamed' : (t'.node child).ident.isSome := by rwa [hmade.ident child hchild]
  have hl' := hmade.linked
  -- moving the child changes no field but those of the links
  have hkeeps : ∀ {β : Type} (f : Node → β),
      (∀ n q l, f { n with parent := q, children := l } = f n) →
      ∀ x, f ((t'.reparent child w).node x) = f (t'.node x) :=
    fun f hf x => Tree.keeps_reparent f hl' hupc hw x hf
  have hcontent := hkeeps Node.content fun _ _ _ => rfl
  have hident := hkeeps Node.ident fun _ _ _ => rfl
  have hcontentOf : (t'.reparent child w).contentOf w = t'.contentOf w := by
    unfold Tree.contentOf
    rw [hcontent]
  refine
    { first := hmade.first
      linked := hl'.reparent hupc hw (not_reaches_of_made hl hmade hup)
        (hl'.holder_of_ident hnamed')
      size_lt := ?_
      constraints := (Tree.constraints_reparent _ _ _).trans hmade.constraints
      parent := fun x hx hne => ?_
      content := fun x hx => (hcontent x).trans (hmade.content x hx)
      holder := fun x hx => (hkeeps Node.holder (fun _ _ _ => rfl) x).trans (hmade.holder x hx)
      ident := fun x hx => (hident x).trans (hmade.ident x hx)
      moved := ?_
      placed := ?_
      named := ?_
      settled := fun M hM hs => ?_ }
  · rw [Tree.size_reparent]
    exact hmade.first ▸ hw
  · rw [Tree.parent_reparent hl' hupc hw, if_neg hne, hmade.parent x hx]
  · rw [Tree.up_reparent hl' hupc hw, if_pos rfl, hcontentOf]
  · rw [Tree.up_reparent hl' hupc hw, if_neg (by rw [hmade.first]; omega)]
    exact hmade.placed
  · rw [hident]
    exact hmade.named
  · -- the wrapper takes part in nothing yet, and then the child moves, which is still free to
    have hs' := hs.of_grows hmade.toGrows hmade.constraints fun m hm => Or.inl hm
    exact hs'.reparent hl' hupc hw hM

theorem addWrapper_spec (base : Blueprint) (hl : t.Linked) (hcontainer : container < t.size)
    (hup : t.Up child (t.contentOf container)) (hnamed : (t.node child).ident.isSome) :
    Ensures (addWrapper base container child) t fun w t' => Wrapped container child w t t' := by
  refine Ensures.seq (addPlain_spec base hl hcontainer) fun w t₁ hmade => ?_
  exact Wrapped.of_made hl hmade hup hnamed

/-! ## The state of a container -/

/-- What laying out the children `xs` of a container may relate: all of them, and what is new. -/
def Near (container : Nat) (xs : List Nat) (t₀ : Tree α) (m : Nat) : Prop :=
  container ≤ m ∧ (m = container ∨ m ∈ xs ∨ t₀.size ≤ m)

theorem near_self : Near container xs t₀ container := ⟨Nat.le_refl _, Or.inl rfl⟩

/-- What holds of a container and of what stands around it while its children are laid out. -/
structure Arranged (container : Nat) (xs M : List Nat) (t₀ t : Tree α) : Prop extends
    Grows container t₀ t where
  linked : t.Linked
  settled : t.Settled M
  named : (t.node container).ident.isSome
  parent_self : (t.node container).parent = (t₀.node container).parent
  near : Tree.Between (Near container xs t₀) t₀ t

/-- Some children of a container wait to be laid out, and some members have been made. -/
structure Stacking (container : Nat) (xs M rest done : List Nat) (t₀ t : Tree α) : Prop extends
    Arranged container xs (rest ++ M) t₀ t where
  below : ∀ m ∈ M, m ≤ container
  placed : ∀ x ∈ rest ++ done,
    container < x ∧ t.Up x (t.contentOf container) ∧ (t.node x).ident.isSome
  distinct : (rest ++ done).Nodup
  known : ∀ x ∈ rest ++ done, x ∈ xs ∨ t₀.size ≤ x

namespace Arranged

theorem lt_size (h : Arranged container xs M t₀ t) : container < t.size :=
  Tree.lt_size_of_ident h.named

/-- Laws that rest on their anchors may be recorded. -/
theorem note (h : Arranged container xs M t₀ t) (hn : Notes t t' laws)
    (hlaws : ∀ l ∈ laws, t.Rests M l ∧ ∀ m ∈ l.participants, Near container xs t₀ m) :
    Arranged container xs M t₀ t' :=
  { h.toGrows.trans (hn.grows fun l hl m hm => ((hlaws l hl).2 m hm).1) with
    linked := hn.linked h.linked
    settled := h.settled.note hn fun l hl => (hlaws l hl).1
    named := by
      rw [hn.node]
      exact h.named
    parent_self := by rw [hn.node, h.parent_self]
    near := h.near.trans (hn.between fun l hl m hm => (hlaws l hl).2 m hm) }

/-- New nodes change nothing. -/
theorem grow (h : Arranged container xs M t₀ t) (hg : Grows t.size t t') (hl : t'.Linked)
    (hc : t'.constraints = t.constraints) : Arranged container xs M t₀ t' :=
  { h.toGrows.trans (hg.mono (Nat.le_of_lt h.lt_size)) with
    linked := hl
    settled := h.settled.of_grows hg hc fun m hm => Or.inl hm
    named := by
      rw [hg.ident _ h.lt_size]
      exact h.named
    parent_self := (hg.parent _ h.lt_size).trans h.parent_self
    near := h.near.trans (Tree.Between.of_eq hc) }

theorem decorate (h : Arranged container xs M t₀ t) (hd : Decorates t t') :
    Arranged container xs M t₀ t' :=
  h.grow (Grows.of_decorates _ hd) (h.linked.of_decorates hd) hd.constraints

end Arranged

namespace Stacking

theorem free (h : Stacking container xs M rest done t₀ t) (hx : container < x) : x ∉ M := by
  intro hm
  have := h.below x hm
  omega

theorem near_of_mem (h : Stacking container xs M rest done t₀ t) (hx : x ∈ rest ++ done) :
    Near container xs t₀ x :=
  ⟨Nat.le_of_lt (h.placed x hx).1, Or.inr (h.known x hx)⟩

/-- What changes no link of the nodes that there are changes nothing for the children. -/
theorem of_arranged (h : Stacking container xs M rest done t₀ t)
    (h' : Arranged container xs (rest ++ M) t₀ t') (hg : Grows t.size t t') :
    Stacking container xs M rest done t₀ t' :=
  { h' with
    below := h.below
    placed := fun x hx => by
      obtain ⟨hlt, hup, hnamed⟩ := h.placed x hx
      have hsize : x < t.size := hup.lt_size
      rw [hg.contentOf h.lt_size, hg.up hsize, hg.ident x hsize]
      exact ⟨hlt, hup, hnamed⟩
    distinct := h.distinct
    known := h.known }

theorem note (h : Stacking container xs M rest done t₀ t) (hn : Notes t t' laws)
    (hlaws : ∀ l ∈ laws, t.Rests (rest ++ M) l ∧ ∀ m ∈ l.participants, Near container xs t₀ m) :
    Stacking container xs M rest done t₀ t' :=
  { h.toArranged.note hn hlaws with
    below := h.below
    placed := fun x hx => by
      unfold Tree.contentOf Tree.Up
      rw [hn.node, hn.node]
      exact h.placed x hx
    distinct := h.distinct
    known := h.known }

/-- A new plain node becomes a member. -/
theorem made (h : Stacking container xs M rest done t₀ t)
    (hmade : Made w (some container) t t') : Stacking container xs M rest (done ++ [w]) t₀ t' := by
  have hkept := h.of_arranged (h.grow hmade.toGrows hmade.linked hmade.constraints) hmade.toGrows
  -- the new node has an index of its own, which no child in place or waiting has
  have hw : ∀ x ∈ rest ++ done, x ≠ w := by
    intro x hx heq
    have hsize := (h.placed x hx).2.1.lt_size
    rw [heq, hmade.first] at hsize
    exact Nat.lt_irrefl _ hsize
  refine { hkept.toArranged with
    below := h.below
    placed := fun x hx => ?_
    distinct := ?_
    known := fun x hx => ?_ }
  · rw [← List.append_assoc, List.mem_append, List.mem_singleton] at hx
    rcases hx with hx | rfl
    · exact hkept.placed x hx
    · refine ⟨?_, ?_, hmade.named⟩
      · rw [hmade.first]
        exact h.lt_size
      · rw [hmade.toGrows.contentOf h.lt_size]
        exact hmade.placed
  · rw [← List.append_assoc, List.nodup_append]
    refine ⟨h.distinct, List.nodup_singleton w, fun x hx y hy => ?_⟩
    rw [List.mem_singleton.1 hy]
    exact hw x hx
  · rw [← List.append_assoc, List.mem_append, List.mem_singleton] at hx
    rcases hx with hx | rfl
    · exact h.known x hx
    · exact Or.inr (hmade.first ▸ h.size_le)

/-- A child becomes a member as it is. -/
theorem direct (h : Stacking container xs M (child :: rest) done t₀ t) :
    Stacking container xs M rest (done ++ [child]) t₀ t := by
  have hperm : (rest ++ (done ++ [child])).Perm (child :: rest ++ done) := by
    rw [← List.append_assoc]
    exact List.perm_append_singleton child (rest ++ done)
  exact
    { h.toGrows with
      linked := h.linked
      settled := h.settled.mono fun m hm => List.mem_cons_of_mem _ hm
      named := h.named
      parent_self := h.parent_self
      near := h.near
      below := h.below
      placed := fun x hx => h.placed x (hperm.mem_iff.1 hx)
      distinct := hperm.nodup_iff.2 h.distinct
      known := fun x hx => h.known x (hperm.mem_iff.1 hx) }

/-- A child becomes a member in a wrapper. -/
theorem wrap (h : Stacking container xs M (child :: rest) done t₀ t)
    (hw : Wrapped container child w t t') :
    Stacking container xs M rest (done ++ [w]) t₀ t' := by
  have hc : container < t.size := h.lt_size
  have hchild := h.placed child List.mem_cons_self
  have hcontentOf : t'.contentOf container = t.contentOf container := by
    unfold Tree.contentOf
    rw [hw.content _ hc]
  have hsettled : t'.Settled (rest ++ M) :=
     (hw.settled _ List.mem_cons_self h.settled).mono fun m hm => List.mem_cons_of_mem _ hm
  have hnodup := List.nodup_cons.1 h.distinct
  -- the child that goes into the wrapper is no longer waiting, and the wrapper is new
  have hne : ∀ x ∈ rest ++ done, x ≠ child := by
    rintro x hx rfl
    exact hnodup.1 hx
  have hold : ∀ x ∈ rest ++ done, x < t.size := fun x hx =>
    (h.placed x (List.mem_cons_of_mem _ hx)).2.1.lt_size
  refine
    { size_le := Nat.le_trans h.size_le (Nat.le_of_lt hw.size_lt)
      parent := fun x hx => ?_
      content := fun x hx => (hw.content x (by omega)).trans (h.content x hx)
      holder := fun x hx => (hw.holder x (by omega)).trans (h.holder x hx)
      ident := fun x hx => (hw.ident x (by omega)).trans (h.ident x hx)
      recorded := h.recorded.trans (Tree.Between.of_eq hw.constraints)
      linked := hw.linked
      settled := hsettled
      named := by
        rw [hw.ident _ hc]
        exact h.named
      parent_self := (hw.parent _ hc (Nat.ne_of_lt hchild.1)).trans h.parent_self
      near := h.near.trans (Tree.Between.of_eq hw.constraints)
      below := h.below
      placed := fun x hx => ?_
      distinct := ?_
      known := fun x hx => ?_ }
  · rw [hw.parent x (by omega) (by omega), h.parent x hx]
  · rw [hcontentOf]
    rw [← List.append_assoc, List.mem_append, List.mem_singleton] at hx
    rcases hx with hx | rfl
    · obtain ⟨hlt, hup, hnamed⟩ := h.placed x (List.mem_cons_of_mem _ hx)
      rw [hw.ident x (hold x hx)]
      refine ⟨hlt, ?_, hnamed⟩
      unfold Tree.Up
      rw [hw.parent x (hold x hx) (hne x hx)]
      exact hup
    · exact ⟨hw.first ▸ hc, hw.placed, hw.named⟩
  · rw [← List.append_assoc, List.nodup_append]
    refine ⟨hnodup.2, List.nodup_singleton w, fun x hx y hy => ?_⟩
    have := hold x hx
    rw [List.mem_singleton.1 hy, hw.first]
    omega
  · rw [← List.append_assoc, List.mem_append, List.mem_singleton] at hx
    rcases hx with hx | rfl
    · exact h.known x (List.mem_cons_of_mem _ hx)
    · exact Or.inr (hw.first ▸ h.size_le)

/-- The laws of a wrapper rest on it and on the container. -/
theorem note_wrapper {t₁ t₂ : Tree α} [Scalar α] {plan : StackPlan α} {placement : Placement α}
    (h : Stacking container xs M (child :: rest) done t₀ t) (hw : Wrapped container child w t t₁)
    (hn : Notes t₁ t₂ (wrapperLaws plan container child w placement)) :
    Stacking container xs M rest (done ++ [w]) t₀ t₂ := by
  have h₁ := h.wrap hw
  obtain ⟨hchild, hup, hnamed⟩ := h.placed child List.mem_cons_self
  have hplaced := h₁.placed w (by simp)
  have hnear := h₁.near_of_mem (x := w) (by simp)
  -- From here on neither the child nor its wrapper has to move again.
  have hfree : ∀ x, x ∉ rest → container < x → x ∉ rest ++ M := by
    intro x hrest hlt hx
    rcases List.mem_append.1 hx with hx | hx
    · exact hrest hx
    · exact h.free hlt hx
  have hchildFree : child ∉ rest ++ M := by
    refine hfree child (fun hx => ?_) hchild
    exact (List.nodup_cons.1 h.distinct).1 (List.mem_append_left _ hx)
  have hwFree : w ∉ rest ++ M := by
    refine hfree w (fun hx => ?_) hplaced.1
    have hnodup := h₁.distinct
    rw [List.nodup_append] at hnodup
    exact hnodup.2.2 w hx w (by simp) rfl
  have hnamed₁ : (t₁.node child).ident.isSome := by
    rw [hw.ident _ hup.lt_size]
    exact hnamed
  refine h₁.note hn fun l hl => ?_
  rcases joins_wrapperLaws hl with hj | hj
  · exact ⟨hj.rests hw.linked hnamed₁ hw.named hw.moved hchildFree,
      hj.all (h.near_of_mem List.mem_cons_self) hnear⟩
  · exact ⟨hj.rests hw.linked hw.named h₁.named hplaced.2.1 hwFree, hj.all hnear near_self⟩

end Stacking

/-! ## Members -/

section

variable [Scalar α]

theorem addMember_stacking (plan : StackPlan α) (base : Blueprint) (placement : Placement α)
    (h : Stacking container xs M (child :: rest) done t₀ t) :
    Ensures (addMember plan base container child placement) t fun m t' =>
      Stacking container xs M rest (done ++ [m]) t₀ t' := by
  obtain ⟨-, hup, hnamed⟩ := h.placed child List.mem_cons_self
  refine addMember_spec plan base container child (fun _ => h.direct) fun _ => ?_
  refine (addWrapper_spec base h.linked h.lt_size hup hnamed).imp fun w t₁ hw t₂ hn => ?_
  exact h.note_wrapper hw hn

theorem memberSizes_stacking (axis : Axis) {child : Child α}
    (h : Stacking container xs M (child.node :: rest) done t₀ t) :
    Ensures (memberSizes axis child) t fun _ t' =>
      Stacking container xs M (child.node :: rest) done t₀ t' := by
  obtain ⟨-, -, hnamed⟩ := h.placed child.node List.mem_cons_self
  refine (memberSizes_spec axis child).imp fun _ t' hn => h.note hn fun l hl => ?_
  have hb := bounds_memberSizeLaws hl
  exact ⟨hb.rests hnamed, hb.all (h.near_of_mem List.mem_cons_self)⟩

omit [Scalar α] in
theorem addFiller_stacking (plan : StackPlan α) (base : Blueprint) (fillers : List Filler)
    (h : Stacking container xs M rest done t₀ t) :
    Ensures (addFiller plan base container fillers) t fun spacer t' =>
      Stacking container xs M rest (done ++ spacer.toList) t₀ t' := by
  unfold addFiller
  split
  · refine Ensures.map (Ensures.seq (addPlain_spec base h.linked h.lt_size) fun w t₁ hmade => ?_)
    have h₁ := h.made hmade
    have hd := Tree.decorates_setAttribute t₁ w (huggingKey plan.axis) "1"
    exact h₁.of_arranged (h₁.decorate hd) (Grows.of_decorates _ hd)
  · show Stacking container xs M rest (done ++ []) t₀ t
    rwa [List.append_nil]

/-- The members of a stack take the place of its children. -/
theorem addMembers_stacking (plan : StackPlan α) (base : Blueprint) (children : List (Child α))
    (hlength : plan.placements.length = children.length)
    (h : Stacking container xs M (children.map (·.node)) [] t₀ t) :
    Ensures (addMembers plan base container children) t fun members t' =>
      Stacking container xs M [] members.all t₀ t' := by
  have hpairs : (children.zip plan.placements).map (fun p => p.1.node) = children.map (·.node) := by
    show (children.zip plan.placements).map ((fun c => c.node) ∘ Prod.fst) = _
    rw [← List.map_map, List.map_fst_zip (Nat.le_of_eq hlength.symm)]
  unfold addMembers
  -- the invariant of the loop: the fillers and members so far are done, the other children wait
  refine Ensures.seq (addFiller_stacking plan base _ h) fun leading t₁ h₁ => ?_
  refine Ensures.seq (Ensures.mapM
    (I := fun rest inner t => Stacking container xs M (rest.map fun p => p.1.node)
      ([] ++ leading.toList ++ inner) t₀ t) _ ?_ (children.zip plan.placements) [] ?_)
    fun inner t₂ h₂ => ?_
  · rintro ⟨child, placement⟩ rest inner t ht
    refine Ensures.seq (memberSizes_stacking plan.axis ht) fun _ t' ht' => ?_
    refine (addMember_stacking plan base placement ht').imp fun m t'' h'' => ?_
    rwa [List.append_assoc _ inner] at h''
  · rw [hpairs, List.append_nil]
    exact h₁
  · exact Ensures.seq (addFiller_stacking plan base _ h₂) fun trailing t₃ h₃ => h₃

/-! ## The order of members -/

omit [Scalar α] in
theorem lineUp_arranged (h : Stacking container xs M [] done t₀ t) :
    Arranged container xs M t₀ (lineUp t container done) := by
  have hup : ∀ x ∈ done, t.Up x (t.contentOf container) := fun x hx => (h.placed x hx).2.1
  have hmem : ∀ x ∈ done, x ∈ (t.node (t.contentOf container)).children := fun x hx =>
    (h.linked.listed _ x).2 (hup x hx)
  unfold lineUp
  generalize hfixed : (t.node (t.contentOf container)).children.filter (!done.contains ·) = fixed
  -- The members are children already, and what is left of the children are the fixed ones.
  have hperm : (fixed ++ done).Perm (t.node (t.contentOf container)).children := by
    have hdone :
        ((t.node (t.contentOf container)).children.filter (done.contains ·)).Perm done := by
      rw [List.perm_ext_iff_of_nodup ((h.linked.once _).filter _) (by simpa using h.distinct)]
      intro x
      simp only [List.mem_filter, List.contains_iff_mem]
      exact ⟨fun hx => hx.2, fun hx => ⟨hmem x hx, hx⟩⟩
    rw [← hfixed]
    exact (List.perm_append_comm.trans (hdone.symm.append_right _)).trans
      (List.filter_append_perm _ _)
  have hall : ∀ x ∈ fixed ++ done, t.Up x (t.contentOf container) := fun x hx =>
    (h.linked.listed _ x).1 (hperm.mem_iff.1 hx)
  have hc := h.lt_size
  have hkeeps : ∀ {β : Type} (f : Node → β), (∀ n l, f { n with children := l } = f n) →
      ∀ x, f ((t.setChildren container (fixed ++ done)).node x) = f (t.node x) :=
    fun f hf x => Tree.keeps_setChildren f h.linked hc _ hall x hf
  have hsame := Tree.constraints_setChildren t container (fixed ++ done)
  have hgrows : Grows container t (t.setChildren container (fixed ++ done)) := by
    refine ⟨?_, fun x _ => hkeeps Node.parent (fun _ _ => rfl) x,
      fun x _ => hkeeps Node.content (fun _ _ => rfl) x,
      fun x _ => hkeeps Node.holder (fun _ _ => rfl) x,
      fun x _ => hkeeps Node.ident (fun _ _ => rfl) x, Tree.Between.of_eq hsame⟩
    · have hsize : (t.setChildren container (fixed ++ done)).size = t.size := by
        rw [Tree.setChildren_eq _ hall, Tree.size_modifyNode]
      exact Nat.le_of_eq hsize.symm
  exact
    { h.toGrows.trans hgrows with
      linked := h.linked.setChildren hc _ hperm
      settled := h.settled.setChildren h.linked hc _ hall
      named := by
        rw [hkeeps Node.ident fun _ _ => rfl]
        exact h.named
      parent_self := by rw [hkeeps Node.parent fun _ _ => rfl, h.parent_self]
      near := h.near.trans (Tree.Between.of_eq hsame) }

/-! ## Stacks -/

theorem describe_arranged (plan : StackPlan α) (h : Arranged container xs M t₀ t) :
    Ensures (describe plan container) t fun _ t' => Arranged container xs M t₀ t' := by
  have hfacts := fun (t : Tree α) (id : Nat) (facts : List (String × String)) =>
    Tree.decorates_forIn facts (fun fact t => t.setAttribute id fact.1 fact.2)
      (fun fact t => Tree.decorates_setAttribute t id fact.1 fact.2) t
  unfold describe
  refine Ensures.seq (hfacts t container (stackFacts plan)) fun _ t₁ hd₁ => ?_
  have h₁ := h.decorate hd₁
  split
  · refine Ensures.seq (Tree.findOrCreate_spec h₁.linked h₁.lt_size marginsStep) ?_
    rintro margins t₂ ⟨hl₂, hs₂, -⟩
    have h₂ := h₁.grow hs₂.toGrows hl₂ hs₂.constraints
    refine Ensures.seq (hfacts t₂ margins (insetFacts plan.insets)) fun _ t₃ hd₃ => ?_
    exact (h₂.decorate hd₃).decorate (Tree.decorates_setAttribute _ _ _ _)
  · exact h₁

omit [Scalar α] in
/-- Members stand beside each other in their container. -/
theorem Stacking.rests_of_members (h : Stacking container xs M [] done t₀ t) (ha : a ∈ done)
    (hb : b ∈ done) (hne : a ≠ b) (hj : Joins a b l) :
    t.Rests M l ∧ ∀ m ∈ l.participants, Near container xs t₀ m := by
  obtain ⟨hlta, hupa, hnameda⟩ := h.placed a ha
  obtain ⟨hltb, hupb, hnamedb⟩ := h.placed b hb
  exact ⟨hj.rests_of_siblings hnameda hnamedb h.named hupa hupb hne (h.free hlta) (h.free hltb),
    hj.all (h.near_of_mem ha) (h.near_of_mem hb)⟩

omit [Scalar α] in
/-- Each weighted member is listed once, and is a member. -/
theorem nodup_weightedMembers {plan : StackPlan α} {inner : List Nat} (children : List (Child α))
    (hweighted : plan.weighted.Nodup) (hinner : inner.Nodup) :
    ((weightedMembers plan children inner).map Prod.fst).Nodup ∧
      ∀ m ∈ (weightedMembers plan children inner).map Prod.fst, m ∈ inner := by
  -- an entry names the member that stands at its index
  have hentry : ∀ (i : Nat) (entry : Nat × α),
      (do pure ((← inner[i]?), (← children[i]?).params.weight)) = some entry →
      inner[i]? = some entry.1 := by
    intro i entry h
    cases hi : inner[i]? with
    | none => simp [hi] at h
    | some m =>
      cases hc : children[i]? with
      | none => simp [hi, hc] at h
      | some c =>
        simp only [hi, hc, Option.bind_eq_bind, Option.bind_some, Option.pure_def,
          Option.some.injEq] at h
        rw [← h]
  refine ⟨?_, fun m hm => ?_⟩
  · -- the indices differ, and no member stands at two of them
    unfold weightedMembers List.Nodup
    rw [List.pairwise_map, List.pairwise_filterMap]
    refine hweighted.imp fun {i j} hij entry hi entry' hj heq => hij ?_
    have hi' := hentry i entry hi
    have hj' := hentry j entry' hj
    rw [← heq] at hj'
    exact (List.getElem?_inj (List.getElem?_eq_some_iff.1 hi').1 hinner).1 (hi'.trans hj'.symm)
  · obtain ⟨entry, hmem, rfl⟩ := List.mem_map.1 hm
    obtain ⟨i, -, hi⟩ := List.mem_filterMap.1 hmem
    exact List.mem_of_getElem? (hentry i entry hi)

theorem nodup_weighted (container : Params α) (children : List (Params α)) :
    (plan container children).weighted.Nodup := by
  have hnodup : (children.zipIdx.map Prod.snd).Nodup := by
    rw [List.zipIdx_map_snd]
    exact List.nodup_range'
  exact hnodup.sublist (List.filter_sublist.map Prod.snd)

theorem arrangeStack_arranged (base : Blueprint) (params : Params α) (children : List (Child α))
    (h : Stacking container xs M (children.map (·.node)) [] t₀ t) :
    Ensures (arrangeStack base container params children) t fun _ t' =>
      Arranged container xs M t₀ t' := by
  unfold arrangeStack
  have hweighted := nodup_weighted params (children.map (·.params))
  have hlength : (plan params (children.map (·.params))).placements.length = children.length := by
    simp [plan]
  generalize plan params (children.map (·.params)) = plan at hweighted hlength ⊢
  refine Ensures.seq (addMembers_stacking plan base children hlength h) fun members t₁ h₁ => ?_
  have hall := h₁.distinct
  rw [List.nil_append, Members.all, List.append_assoc, List.nodup_append, List.nodup_append] at hall
  obtain ⟨-, ⟨hinner, -, -⟩, hends⟩ := hall
  -- No member is in two of the three lists, so the laws below never join one with itself.
  refine Ensures.seq (balance_spec plan.axis members) fun _ t₂ hn₂ => ?_
  have h₂ := h₁.note hn₂ fun l hl => by
    obtain ⟨a, ha, b, hb, hj⟩ := joins_balanceLaws hl
    have ha' : a ∈ members.leading.toList := Option.mem_toList.2 ha
    have hb' : b ∈ members.trailing.toList := Option.mem_toList.2 hb
    exact h₁.rests_of_members (by simp only [Members.all, List.mem_append, ha', true_or])
      (by simp only [Members.all, List.mem_append, hb', or_true])
      (hends a ha' b (List.mem_append_right _ hb')) hj
  refine Ensures.seq (shareWeights_spec plan.axis _) fun _ t₃ hn₃ => ?_
  have h₃ := h₂.note hn₃ fun l hl => by
    obtain ⟨hnodup, hsub⟩ := nodup_weightedMembers children hweighted hinner
    obtain ⟨a, ha, b, hb, hne, hj⟩ := joins_weightLaws hnodup hl
    exact h₂.rests_of_members (by simp [Members.all, hsub a ha]) (by simp [Members.all, hsub b hb])
      hne hj
  refine Ensures.bind (Ensures.modify ?_)
  exact Ensures.seq (describe_arranged plan (lineUp_arranged h₃)) fun _ t₄ h₄ => h₄

/-! ## Containers -/

omit [Scalar α] in
/-- A child that is related to its container and to nothing else need not move. -/
theorem Stacking.arranged (h : Stacking container xs M rest done t₀ t) :
    Arranged container xs M t₀ t :=
  { h.toArranged with
    settled := h.settled.mono fun _ hm => List.mem_append_right _ hm }

theorem arrange_arranged (kind : Container) (base : Blueprint) (params : Params α)
    (children : List (Child α)) (h : Stacking container xs M (children.map (·.node)) [] t₀ t) :
    Ensures (arrange kind base container params children) t fun _ t' =>
      Arranged container xs M t₀ t' := by
  by_cases hkind : kind = .linear
  · rw [hkind]
    exact arrangeStack_arranged base params children h
  · refine (arrange_spec hkind base container params children).imp fun _ t₁ hn => ?_
    refine h.arranged.note hn fun l hl => ?_
    obtain ⟨child, hmem, hl⟩ := List.mem_flatMap.1 hl
    have hnode : child.node ∈ children.map (·.node) ++ [] :=
      List.mem_append_left _ (List.mem_map_of_mem hmem)
    obtain ⟨hlt, hup, hnamed⟩ := h.placed child.node hnode
    rcases joins_childLaws hl with hj | hb
    · exact ⟨hj.rests h.linked hnamed h.named hup (h.free hlt),
        hj.all (h.near_of_mem hnode) near_self⟩
    · exact ⟨hb.rests hnamed, hb.all (h.near_of_mem hnode)⟩

end

end LayoutCompiler.Layout
