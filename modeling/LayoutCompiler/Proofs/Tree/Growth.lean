import LayoutCompiler.Proofs.Tree.Linked
/-!
# Growth

What a step of construction leaves as it was. Steps only add nodes and constraints, and decorate the
nodes that there are; links of older nodes stay. `Grows base` says so of all nodes below a number,
and `Sprouts base` of a growth by nodes that have no identifier yet.

* `fill_spec`: a blueprint changes nothing but the node that it is for, and what is new.
* `instantiate_spec`: a new node hangs where it was put, with an identifier of its own.
* `walkPath_spec`: a path may create nodes, and leads to a node.
-/

namespace LayoutCompiler

variable {α β γ σ : Type}

/-! ## Steps and what they ensure -/

/-- What a step hands back and the tree it leaves are as claimed. -/
def Ensures (step : Edit α β) (t : Tree α) (post : β → Tree α → Prop) : Prop :=
  post (step t).1 (step t).2

namespace Ensures

variable {t : Tree α} {P Q : β → Tree α → Prop}

theorem imp {step : Edit α β} (h : Ensures step t P) (himp : ∀ b t', P b t' → Q b t') :
    Ensures step t Q :=
  himp _ _ h

theorem bind {step : Edit α γ} {next : γ → Edit α β}
    (h : Ensures step t fun c t' => Ensures (next c) t' P) : Ensures (step >>= next) t P := h

/-- A step followed by others, with what is known in between. -/
theorem seq {step : Edit α γ} {next : γ → Edit α β} {R : γ → Tree α → Prop}
    (h : Ensures step t R) (hnext : ∀ c t', R c t' → Ensures (next c) t' P) :
    Ensures (step >>= next) t P :=
  hnext _ _ h

theorem get {post : Tree α → Tree α → Prop} (h : post t t) :
    Ensures (MonadState.get : Edit α (Tree α)) t post := h

theorem modify {f : Tree α → Tree α} {post : PUnit → Tree α → Prop} (h : post ⟨⟩ (f t)) :
    Ensures (modify f : Edit α PUnit) t post := h

theorem map {step : Edit α γ} {f : γ → β} (h : Ensures step t fun c t' => P (f c) t') :
    Ensures (f <$> step) t P := h

/-- A list is worked off: each round takes its first entry and adds a result. -/
theorem mapM {I : List γ → List β → Tree α → Prop} (step : γ → Edit α β)
    (hstep : ∀ x rest done t, I (x :: rest) done t →
      Ensures (step x) t fun y t' => I rest (done ++ [y]) t')
    (xs : List γ) (done : List β) (ht : I xs done t) :
    Ensures (xs.mapM step) t fun ys t' => I [] (done ++ ys) t' := by
  induction xs generalizing done t with
  | nil =>
    rw [List.mapM_nil]
    show I [] (done ++ []) t
    rwa [List.append_nil]
  | cons x xs ih =>
    rw [List.mapM_cons]
    refine seq (hstep x xs done t ht) fun y t₁ h₁ => ?_
    refine seq (ih (done ++ [y]) h₁) fun ys t₂ h₂ => ?_
    show I [] (done ++ y :: ys) t₂
    rwa [List.append_cons]

/-- A loop keeps what each of its rounds keeps. -/
theorem forIn {I : Tree α → Prop} (xs : List γ) (init : σ)
    (body : γ → σ → Edit α (ForInStep σ)) (ht : I t)
    (hbody : ∀ x ∈ xs, ∀ r t, I t → Ensures (body x r) t fun _ t' => I t') :
    Ensures (forIn xs init body) t fun _ t' => I t' := by
  induction xs generalizing init t with
  | nil => exact ht
  | cons x xs ih =>
    rw [List.forIn_cons]
    refine seq (hbody x List.mem_cons_self init t ht) fun step t' ht' => ?_
    cases step with
    | done r => exact ht'
    | yield r => exact ih r ht' fun y hy => hbody y (List.mem_cons_of_mem _ hy)

/-- A loop follows a fold when each of its rounds follows one step of the fold. -/
theorem forM {I : σ → Tree α → Prop} {f : σ → γ → σ} {xs : List γ} {body : γ → Edit α PUnit}
    (hbody : ∀ x ∈ xs, ∀ a t, I a t → Ensures (body x) t fun _ t' => I (f a x) t') {a : σ}
    (ht : I a t) : Ensures (xs.forM body) t fun _ t' => I (xs.foldl f a) t' := by
  induction xs generalizing a t with
  | nil => exact ht
  | cons x xs ih =>
    refine seq (hbody x List.mem_cons_self a t ht) fun _ t' ht' => ?_
    exact ih (fun y hy => hbody y (List.mem_cons_of_mem _ hy)) ht'

end Ensures

namespace Tree

variable {t t' t'' : Tree α} {base base' id p x : Nat} {P Q : Nat → Prop}

/-! ## Growth -/

/-- Constraints may have been recorded, all of them between nodes of which a property holds. -/
def Between (P : Nat → Prop) (t t' : Tree α) : Prop :=
  ∃ new, t'.constraints = t.constraints ++ new ∧ ∀ c ∈ new, ∀ m ∈ c.participants, P m

namespace Between

theorem of_eq (h : t'.constraints = t.constraints) : Between P t t' :=
  ⟨[], by rw [h, List.append_nil], fun _ hc => absurd hc List.not_mem_nil⟩

theorem trans (h : Between P t t') (h' : Between P t' t'') : Between P t t'' := by
  obtain ⟨new, heq, hnew⟩ := h
  obtain ⟨new', heq', hnew'⟩ := h'
  refine ⟨new ++ new', by rw [heq', heq, List.append_assoc], fun c hc => ?_⟩
  rcases List.mem_append.1 hc with hc | hc
  · exact hnew c hc
  · exact hnew' c hc

theorem imp (h : Between P t t') (himp : ∀ m, P m → Q m) : Between Q t t' := by
  obtain ⟨new, heq, hnew⟩ := h
  exact ⟨new, heq, fun c hc m hm => himp m (hnew c hc m hm)⟩

end Between

/-- Nodes below a number keep their place and their role, and new constraints are between others. -/
structure Grows (base : Nat) (t t' : Tree α) : Prop where
  size_le : t.size ≤ t'.size
  parent : ∀ x < base, (t'.node x).parent = (t.node x).parent
  content : ∀ x < base, (t'.node x).content = (t.node x).content
  holder : ∀ x < base, (t'.node x).holder = (t.node x).holder
  ident : ∀ x < base, (t'.node x).ident = (t.node x).ident
  recorded : Between (base ≤ ·) t t'

namespace Grows

theorem refl (base : Nat) (t : Tree α) : Grows base t t :=
  ⟨Nat.le_refl _, fun _ _ => rfl, fun _ _ => rfl, fun _ _ => rfl, fun _ _ => rfl,
    Between.of_eq rfl⟩

theorem trans (h : Grows base t t') (h' : Grows base t' t'') : Grows base t t'' where
  size_le := Nat.le_trans h.size_le h'.size_le
  parent x hx := (h'.parent x hx).trans (h.parent x hx)
  content x hx := (h'.content x hx).trans (h.content x hx)
  holder x hx := (h'.holder x hx).trans (h.holder x hx)
  ident x hx := (h'.ident x hx).trans (h.ident x hx)
  recorded := h.recorded.trans h'.recorded

theorem mono (hb : base ≤ base') (h : Grows base' t t') : Grows base t t' where
  size_le := h.size_le
  parent x hx := h.parent x (by omega)
  content x hx := h.content x (by omega)
  holder x hx := h.holder x (by omega)
  ident x hx := h.ident x (by omega)
  recorded := h.recorded.imp fun _ hm => Nat.le_trans hb hm

theorem of_decorates (base : Nat) (h : Decorates t t') : Grows base t t' where
  size_le := Nat.le_of_eq h.size.symm
  parent x _ := h.parent x
  content x _ := h.content x
  holder x _ := h.holder x
  ident x _ := h.ident x
  recorded := Between.of_eq h.constraints

theorem contentOf (h : Grows base t t') (hx : x < base) : t'.contentOf x = t.contentOf x := by
  unfold Tree.contentOf
  rw [h.content x hx]

theorem up (h : Grows base t t') (hx : x < base) : t'.Up x p ↔ t.Up x p := by
  unfold Up
  rw [h.parent x hx]

end Grows

/-- Growth by nodes without identifiers, and by no constraint. -/
structure Sprouts (base : Nat) (t t' : Tree α) : Prop extends Grows base t t' where
  fresh : ∀ x, base ≤ x → (t'.node x).ident = none
  constraints : t'.constraints = t.constraints

namespace Sprouts

theorem of_grows (h : Grows base t t') (hfresh : ∀ x, base ≤ x → (t'.node x).ident = none)
    (hc : t'.constraints = t.constraints) : Sprouts base t t' :=
  { h with fresh := hfresh, constraints := hc }

theorem refl (t : Tree α) : Sprouts t.size t t :=
  of_grows (Grows.refl _ t) (fun x hx => by rw [node_eq_default hx]) rfl

theorem trans (h : Sprouts base t t') (hb : base ≤ base') (h' : Sprouts base' t' t'') :
    Sprouts base t t'' := by
  refine of_grows (h.toGrows.trans (h'.toGrows.mono hb)) (fun x hx => ?_)
    (h'.constraints.trans h.constraints)
  by_cases hx' : x < base'
  · rw [h'.ident x hx']
    exact h.fresh x hx
  · exact h'.fresh x (Nat.le_of_not_lt hx')

theorem decorate (h : Sprouts base t t') (hd : Decorates t' t'') : Sprouts base t t'' := by
  refine of_grows (h.toGrows.trans (Grows.of_decorates base hd)) (fun x hx => ?_)
    (hd.constraints.trans h.constraints)
  rw [hd.ident]
  exact h.fresh x hx

end Sprouts

theorem sprouts_addChild (name : String) (hp : p < t.size) :
    Sprouts t.size t (addChild name p t).2 := by
  have keeps : ∀ {β : Type} (f : Node → β), (f { name, parent := some p } = f {}) →
      (∀ n l, f { n with children := l } = f n) →
      ∀ x, f ((addChild name p t).2.node x) = f (t.node x) :=
    fun f hnew hold x => keeps_addChild f name hp x hnew hold
  have hident := keeps Node.ident rfl fun _ _ => rfl
  refine Sprouts.of_grows ⟨?_, fun x hx => ?_, fun x _ => ?_, fun x _ => ?_, fun x _ => hident x,
    [], ?_, ?_⟩ (fun x hx => ?_) rfl
  · rw [size_addChild]
    omega
  · rw [parent_addChild name hp, if_neg (Nat.ne_of_lt hx)]
  · exact keeps Node.content rfl (fun _ _ => rfl) x
  · exact keeps Node.holder rfl (fun _ _ => rfl) x
  · exact (List.append_nil _).symm
  · exact fun _ h => absurd h List.not_mem_nil
  · rw [hident, node_eq_default hx]

/-- What is known of a node that has just been added: it has no identifier and nothing below it. -/
structure Bare (t : Tree α) (id : Nat) : Prop where
  last : t.size = id + 1
  nameless : (t.node id).ident = none
  plain : (t.node id).holder = false
  leaf : ∀ x, ¬ t.Up x id

/-- A new node hangs where it was put. -/
theorem addChild_spec (hl : t.Linked) (name : String) (hp : p < t.size) :
    Ensures (addChild name p) t fun k t' =>
      k = t.size ∧ t'.Linked ∧ Sprouts t.size t t' ∧ t'.Bare k ∧ t'.Up k p := by
  have hl' := hl.addChild name hp
  have hs := sprouts_addChild name hp
  have hdefault : t.node (addChild name p t).1 = {} := node_eq_default (Nat.le_refl _)
  refine ⟨rfl, hl', hs, ⟨size_addChild name p t, hs.fresh _ (Nat.le_refl _), ?_, fun x h => ?_⟩, ?_⟩
  · rw [keeps_addChild Node.holder name hp _ rfl fun _ _ => rfl, hdefault]
  · have hx := (hl'.listed _ _).2 h
    have hne : (addChild name p t).1 ≠ p := Nat.ne_of_gt hp
    rw [children_addChild name hp, if_neg hne, hdefault] at hx
    cases hx
  · show ((addChild name p t).2.node t.size).parent = some p
    rw [parent_addChild name hp, if_pos rfl]

/-! ## Paths -/

/-- A step of a path leads to a child. -/
theorem findOrCreate_spec (hl : t.Linked) (hp : p < t.size) (step : PathStep) :
    Ensures (findOrCreate p step) t fun k t' =>
      t'.Linked ∧ Sprouts t.size t t' ∧ t'.Up k p := by
  unfold findOrCreate
  refine Ensures.bind (Ensures.get ?_)
  cases hfind : (t.node p).children.find? fun child => fits (t.node child) step with
  | some child =>
    have hup : t.Up child p := (hl.listed p child).1 (List.mem_of_find?_eq_some hfind)
    exact ⟨hl, Sprouts.refl t, hup⟩
  | none =>
    refine Ensures.seq (addChild_spec hl step.name hp) ?_
    rintro k t' ⟨-, hl', hs, -, hup⟩
    cases step.key with
    | none => exact ⟨hl', hs, hup⟩
    | some entry =>
      have hd := decorates_setAttribute t' k entry.1 entry.2
      exact ⟨hl'.of_decorates hd, hs.decorate hd, (up_iff_of_parent hd.parent _ _).2 hup⟩

theorem walkPath_spec (hl : t.Linked) (hx : x < t.size) (steps : List PathStep) :
    Ensures (walkPath x steps) t fun k t' =>
      t'.Linked ∧ Sprouts t.size t t' ∧ k < t'.size := by
  induction steps generalizing x t with
  | nil => exact ⟨hl, Sprouts.refl t, hx⟩
  | cons step steps ih =>
    refine Ensures.seq (findOrCreate_spec hl hx step) ?_
    rintro k t' ⟨hl', hs, hup⟩
    refine (ih hl' hup.lt_size).imp ?_
    rintro k' t'' ⟨hl'', hs', hk'⟩
    exact ⟨hl'', hs.trans hs.size_le hs', hk'⟩

/-! ## Blueprints -/

/-- What filling a node leaves behind. -/
structure Filled (id : Nat) (t t' : Tree α) : Prop extends Sprouts id t t' where
  linked : t'.Linked
  parent_self : (t'.node id).parent = (t.node id).parent
  holder_self : (t'.node id).holder = (t.node id).holder

theorem Bare.sprouts (hb : t.Bare id) (hd : Decorates t t') : Sprouts id t t' := by
  refine Sprouts.of_grows (Grows.of_decorates id hd) (fun x hx => ?_) hd.constraints
  rw [hd.ident]
  rcases Nat.lt_or_eq_of_le hx with hlt | rfl
  · rw [node_eq_default (by have := hb.last; omega)]
  · exact hb.nameless

/-- A loop of decorations decorates. -/
theorem decorates_forIn (entries : List γ) (write : γ → Tree α → Tree α)
    (hwrite : ∀ e t, Decorates t (write e t)) (t : Tree α) :
    Ensures (forIn entries PUnit.unit fun e _ => do
        modify (write e)
        pure (ForInStep.yield PUnit.unit)) t fun _ t' => Decorates t t' := by
  refine Ensures.forIn (I := Decorates t) entries PUnit.unit _ (Decorates.refl t) ?_
  intro e _ _ t₁ h₁
  exact h₁.trans (hwrite e t₁)

/-- The child that holds the children of a node from now on. -/
def hold (t : Tree α) (id k : Nat) : Tree α :=
  (t.modifyNode k fun n => { n with holder := true }).modifyNode id
    fun n => { n with content := some k }

section

variable {k : Nat}

theorem node_hold (hid : id < t.size) (hk : k < t.size) (hne : k ≠ id) (x : Nat) :
    (t.hold id k).node x =
      { t.node x with
        content := if x = id then some k else (t.node x).content
        holder := if x = k then true else (t.node x).holder } := by
  unfold hold
  rw [node_modifyNode_of_lt (by simpa using hid), node_modifyNode_of_lt hk]
  by_cases hx : x = id
  · have hxk : x ≠ k := fun h => hne (h.symm.trans hx)
    simp only [if_pos hx, if_neg hxk]
  · by_cases hxk : x = k
    · simp only [if_neg hx, if_pos hxk]
    · simp only [if_neg hx, if_neg hxk]

theorem size_hold (t : Tree α) (id k : Nat) : (t.hold id k).size = t.size := by
  unfold hold
  rw [size_modifyNode, size_modifyNode]

/-- The fields that a node keeps when children get a place. -/
theorem keeps_hold {β : Type} (f : Node → β) (hid : id < t.size) (hk : k < t.size) (hne : k ≠ id)
    (x : Nat) (hkeep : ∀ n c b, f { n with content := c, holder := b } = f n) :
    f ((t.hold id k).node x) = f (t.node x) := by
  rw [node_hold hid hk hne]
  exact hkeep _ _ _

theorem content_hold (hid : id < t.size) (hk : k < t.size) (hne : k ≠ id) (x : Nat) :
    ((t.hold id k).node x).content = if x = id then some k else (t.node x).content := by
  rw [node_hold hid hk hne]

theorem holder_hold (hid : id < t.size) (hk : k < t.size) (hne : k ≠ id) (x : Nat) :
    ((t.hold id k).node x).holder = if x = k then true else (t.node x).holder := by
  rw [node_hold hid hk hne]

/-- A child without an identifier may hold the children of a node from now on. -/
theorem Linked.hold (hl : t.Linked) (hid : id < t.size) (hup : t.Up k id)
    (hnameless : (t.node k).ident = none) : (t.hold id k).Linked := by
  have hk := hup.lt_size
  have hne : k ≠ id := hl.acyclic.ne hup
  have hchildren := fun x => keeps_hold Node.children hid hk hne x fun _ _ _ => rfl
  -- only the two nodes that the holder joins are labelled anew, and no link is touched
  refine hl.relabel (size_hold t id k) rfl
    (fun x => keeps_hold Node.parent hid hk hne x fun _ _ _ => rfl)
    (fun x => hchildren x ▸ List.Perm.refl _) (fun c j h => ?_) (fun j h => ?_)
  · rw [content_hold hid hk hne] at h
    rw [holder_hold hid hk hne]
    split at h
    · rename_i hc
      subst hc
      obtain rfl := Option.some.inj h
      rw [if_pos rfl]
      exact ⟨hup, rfl⟩
    · obtain ⟨hj, hh⟩ := hl.held c j h
      rw [hh]
      exact ⟨hj, ite_self true⟩
  · rw [keeps_hold Node.ident hid hk hne j fun _ _ _ => rfl]
    rw [holder_hold hid hk hne] at h
    split at h
    · rename_i hj
      exact hj ▸ hnameless
    · exact hl.anonymous j h

/-- Giving the children of a node a place above it changes nothing below it. -/
theorem Grows.hold (hg : Grows id t t') (hid : id < t'.size) (hk : k < t'.size) (hlt : id < k) :
    Grows id t (t'.hold id k) := by
  have hne := Nat.ne_of_gt hlt
  refine ⟨size_hold t' id k ▸ hg.size_le, fun x hx => ?_, fun x hx => ?_, fun x hx => ?_,
    fun x hx => ?_, hg.recorded⟩
  · rw [keeps_hold Node.parent hid hk hne x fun _ _ _ => rfl, hg.parent x hx]
  · rw [content_hold hid hk hne, if_neg (by omega), hg.content x hx]
  · rw [holder_hold hid hk hne, if_neg (by omega), hg.holder x hx]
  · rw [keeps_hold Node.ident hid hk hne x fun _ _ _ => rfl, hg.ident x hx]

/-- Filling a node ends by naming the child that holds its children. -/
theorem Filled.hold (hf : Filled id t t') (hid : id < t'.size) (hup : t'.Up k id)
    (hlt : id < k) : Filled id t (t'.hold id k) := by
  have hk := hup.lt_size
  have hne := Nat.ne_of_gt hlt
  refine { hf.toGrows.hold hid hk hlt with
    fresh := fun x hx => ?_
    constraints := hf.constraints
    linked := hf.linked.hold hid hup (hf.fresh k (Nat.le_of_lt hlt))
    parent_self := ?_
    holder_self := ?_ }
  · rw [keeps_hold Node.ident hid hk hne x fun _ _ _ => rfl]
    exact hf.fresh x hx
  · rw [keeps_hold Node.parent hid hk hne id fun _ _ _ => rfl, hf.parent_self]
  · rw [holder_hold hid hk hne, if_neg (Nat.ne_of_lt hlt), hf.holder_self]

end

/-- A node that was only decorated is as good as filled. -/
theorem Bare.filled (hl : t.Linked) (hb : t.Bare id) (hd : Decorates t t') : Filled id t t' :=
  { hb.sprouts hd with
    linked := hl.of_decorates hd
    parent_self := hd.parent id
    holder_self := hd.holder id }

/-- What happens to other nodes leaves a filled node filled. -/
theorem Filled.sprout (hf : Filled id t t') (hid : id < t'.size) (hl : t''.Linked)
    (hs : Sprouts t'.size t' t'') : Filled id t t'' :=
  { hf.toSprouts.trans (Nat.le_of_lt hid) hs with
    linked := hl
    parent_self := (hs.parent id hid).trans hf.parent_self
    holder_self := (hs.holder id hid).trans hf.holder_self }

mutual

/-- A blueprint changes nothing but the node that it is for, and what is new. -/
theorem fill_spec (render : Template → String) (id : Nat) :
    ∀ (b : Blueprint) (t : Tree α), t.Linked → t.Bare id →
      Ensures (fill render id b) t fun _ t' => Filled id t t'
  | ⟨name, attributes, style, text, children, holder⟩, t, hl, hb => by
    have hid : id < t.size := by
      have := hb.last
      omega
    unfold fill
    refine Ensures.seq (decorates_forIn attributes.entries
      (fun e t => t.setAttribute id e.1 (render e.2))
      (fun e t => decorates_setAttribute t id e.1 (render e.2)) t) fun _ t₁ h₁ => ?_
    refine Ensures.seq (decorates_forIn style.entries
      (fun e t => t.setStyle id e.1 (render e.2))
      (fun e t => decorates_setStyle t id e.1 (render e.2)) t₁) fun _ t₂ h₂ => ?_
    -- With or without a text, what follows starts from a node that was only decorated.
    have hrest : ∀ t₃ : Tree α, Decorates t₂ t₃ → Ensures (do
        fillChildren render id children
        match holder with
        | some name =>
          let holderId ← findOrCreate id { name }
          modify fun t => t.hold id holderId
        | none => pure ()) t₃ fun _ t' => Filled id t t' := by
      intro t₃ h₃
      have hfilled := hb.filled hl ((h₁.trans h₂).trans h₃)
      have hid₃ : id < t₃.size := Nat.lt_of_lt_of_le hid hfilled.size_le
      refine Ensures.seq (fillChildren_spec render id children t₃ hfilled.linked hid₃) ?_
      rintro _ t₄ ⟨hl₄, hs₄⟩
      have hfilled₄ := hfilled.sprout hid₃ hl₄ hs₄
      have hid₄ : id < t₄.size := Nat.lt_of_lt_of_le hid₃ hs₄.size_le
      cases holder with
      | none => exact hfilled₄
      | some name =>
        refine Ensures.seq (findOrCreate_spec hl₄ hid₄ { name }) ?_
        rintro k t₅ ⟨hl₅, hs₅, hup⟩
        have hfilled₅ := hfilled₄.sprout hid₄ hl₅ hs₅
        refine Ensures.modify (hfilled₅.hold (Nat.lt_of_lt_of_le hid₄ hs₅.size_le) hup ?_)
        -- an older node cannot be the child: the filled one had none to begin with
        by_contra hk
        rcases Nat.lt_or_eq_of_le (Nat.le_of_not_lt hk) with hlt | heq
        · exact hb.leaf k ((hfilled₅.toGrows.up hlt).1 hup)
        · exact hl₅.acyclic.ne hup heq
    cases text with
    | none => exact hrest t₂ (Decorates.refl t₂)
    | some template => exact hrest _ (decorates_setText t₂ id (render template))

/-- Fixed children change nothing but what is new. -/
theorem fillChildren_spec (render : Template → String) (id : Nat) :
    ∀ (bs : List Blueprint) (t : Tree α), t.Linked → id < t.size →
      Ensures (fillChildren render id bs) t fun _ t' => t'.Linked ∧ Sprouts t.size t t'
  | [], t, hl, _ => ⟨hl, Sprouts.refl t⟩
  | b :: bs, t, hl, hid => by
    unfold fillChildren
    refine Ensures.seq (addChild_spec hl b.name hid) ?_
    rintro _ t₁ ⟨rfl, hl₁, hs₁, hbare, -⟩
    refine Ensures.seq (fill_spec render t.size b t₁ hl₁ hbare) ?_
    intro _ t₂ hf
    have hs₂ := hs₁.trans (Nat.le_refl _) hf.toSprouts
    refine (fillChildren_spec render id bs t₂ hf.linked
      (Nat.lt_of_lt_of_le hid hs₂.size_le)).imp ?_
    rintro _ t₃ ⟨hl₃, hs₃⟩
    exact ⟨hl₃, hs₂.trans hs₂.size_le hs₃⟩

end

/-! ## New nodes with an identifier -/

/-- A place for a new node: a node of the tree, or the tree itself as long as it is empty. -/
def Place (t : Tree α) : Option Nat → Prop
  | none => t.size = 0
  | some p => p < t.size

/-- What making a node leaves behind: the node with its place and its identifier. -/
structure Made (id : Nat) (place : Option Nat) (t t' : Tree α) : Prop extends
    Grows t.size t t' where
  first : id = t.size
  linked : t'.Linked
  constraints : t'.constraints = t.constraints
  named : (t'.node id).ident.isSome
  others : ∀ x, id < x → (t'.node x).ident = none
  placed : (t'.node id).parent = place.map t.contentOf

theorem addNode_spec (hl : t.Linked) (name : String) {place : Option Nat} (hp : t.Place place) :
    Ensures (addNode name place) t fun k t' =>
      k = t.size ∧ t'.Linked ∧ Sprouts t.size t t' ∧ t'.Bare k ∧
        (t'.node k).parent = place.map t.contentOf := by
  cases place with
  | some p =>
    unfold addNode
    exact Ensures.bind (Ensures.get (addChild_spec hl name (hl.contentOf_lt hp)))
  | none =>
    -- In an empty arena there is no older node to keep, and the root is the only node with fields.
    have hempty : t.size = 0 := hp
    have hl' := hl.addRoot name hempty
    have hnode : (addRoot name t).2.node t.size = { name } := by
      rw [node_addRoot, if_pos rfl]
    have hgrows : Grows t.size t (addRoot name t).2 := by
      rw [hempty]
      refine ⟨hempty ▸ Nat.zero_le _, fun x hx => absurd hx (Nat.not_lt_zero x),
        fun x hx => absurd hx (Nat.not_lt_zero x), fun x hx => absurd hx (Nat.not_lt_zero x),
        fun x hx => absurd hx (Nat.not_lt_zero x), Between.of_eq rfl⟩
    refine ⟨rfl, hl', Sprouts.of_grows hgrows (fun x _ => ?_) rfl, ⟨?_, ?_, ?_, fun x h => ?_⟩, ?_⟩
    · show ((addRoot name t).2.node x).ident = none
      rw [node_addRoot]
      split
      · rfl
      · rw [node_eq_default (hempty ▸ Nat.zero_le x)]
    · show (t.nodes.push _).size = t.size + 1
      rw [Array.size_push]
      rfl
    · exact congrArg Node.ident hnode
    · exact congrArg Node.holder hnode
    · have hx := (hl'.listed _ x).2 h
      have hnil : ((addRoot name t).2.node t.size).children = [] := congrArg Node.children hnode
      have hmem : x ∈ ((addRoot name t).2.node t.size).children := hx
      rw [hnil] at hmem
      cases hmem
    · exact congrArg Node.parent hnode

theorem decorates_drawIdent (t : Tree α) : Decorates t (drawIdent t).2 :=
  ⟨rfl, rfl, rfl, fun _ => rfl⟩

theorem node_identify (hid : id < t.size) (ident : String) (x : Nat) :
    (t.modifyNode id fun n => { n with ident := some ident }).node x =
      { t.node x with ident := if x = id then some ident else (t.node x).ident } := by
  rw [node_modifyNode_of_lt hid]
  by_cases hx : x = id
  · simp only [if_pos hx]
  · simp only [if_neg hx]

/-- Making a node ends with its identifier. -/
theorem Made.of_identify {place : Option Nat} (hl : t'.Linked) (hs : Sprouts t.size t t')
    (hid : id < t'.size) (hfirst : id = t.size) (hplain : (t'.node id).holder = false)
    (hparent : (t'.node id).parent = place.map t.contentOf) (ident : String) :
    Made id place t (t'.modifyNode id fun n => { n with ident := some ident }) := by
  have hnode := node_identify (t := t') hid ident
  refine
    { size_le := by rw [size_modifyNode]; exact hs.size_le
      parent := fun x hx => by rw [hnode]; exact hs.parent x hx
      content := fun x hx => by rw [hnode]; exact hs.content x hx
      holder := fun x hx => by rw [hnode]; exact hs.holder x hx
      ident := fun x hx => by rw [hnode, if_neg (by omega)]; exact hs.ident x hx
      recorded := hs.recorded
      first := hfirst
      linked := hl.relabel (size_modifyNode _ _ _) rfl (fun x => ?_) (fun x => ?_)
        (fun c k h => ?_) (fun k h => ?_)
      constraints := hs.constraints
      named := by rw [hnode, if_pos rfl]; rfl
      others := fun x hx => by
        rw [hnode, if_neg (Nat.ne_of_gt hx)]
        exact hs.fresh x (by omega)
      placed := by rw [hnode]; exact hparent }
  · rw [hnode]
  · rw [hnode]
  · rw [hnode] at h ⊢
    exact hl.held c k h
  · rw [hnode] at h ⊢
    -- the node that gets the identifier holds no children of others
    have hne : k ≠ id := by
      rintro rfl
      exact Bool.noConfusion (hplain.symm.trans h)
    rw [if_neg hne]
    exact hl.anonymous k h

/-- A new node hangs where it was put, and has the only new identifier. -/
theorem instantiate_spec (hl : t.Linked) (b : Blueprint) {place : Option Nat} (hp : t.Place place)
    (render : Template → String) :
    Ensures (instantiate b place render) t fun k t' => Made k place t t' := by
  unfold instantiate
  refine Ensures.seq (addNode_spec hl b.name hp) ?_
  rintro k t₁ ⟨hk, hl₁, hs₁, hbare, hparent⟩
  refine Ensures.seq (fill_spec render k b t₁ hl₁ hbare) ?_
  intro _ t₂ hf
  -- drawing the identifier leaves every node as it is, so that the blueprint stays filled in
  have hd := decorates_drawIdent t₂
  have hid : k < (drawIdent t₂).2.size := by
    have := hbare.last
    have := hf.size_le
    rw [hd.size]
    omega
  refine Made.of_identify (hf.linked.of_decorates hd)
    ((hs₁.trans (Nat.le_of_eq hk.symm) hf.toSprouts).decorate hd) hid hk ?_ ?_ _
  · rw [hd.holder, hf.holder_self, hbare.plain]
  · rw [hd.parent, hf.parent_self, hparent]

end Tree

end LayoutCompiler
