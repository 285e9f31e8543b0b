import LayoutCompiler.Proofs.Tree.Hosting
/-!
# Steps along a relation

What making nodes, writing on them and moving them never does, whatever the tree is like. A relation
between trees is `Movable` when no change of links breaks it, `Stable` when none of the changes does
from which writing is made either, and `Lasting` when drawing and giving identifiers does not break
it; then every one of the steps leads along it.

* `along_walkPath`, `movable_setChildren`, `along_instantiate`: the steps.
* `Quiet`: no constraint is recorded.
* `Names`: no node loses its identifier.
* `Mute`: no identifier is drawn or moved; with it, `issued_instantiate`: making a node draws one.
-/

namespace LayoutCompiler

variable {α β γ : Type}

/-- A step takes every tree to one that is related to it. -/
def Along (R : Tree α → Tree α → Prop) (step : Edit α β) : Prop := ∀ t, R t (step t).2

/-- A node without its links to other ones. -/
def Node.unlinked (n : Node) : Node :=
  { n with children := [], parent := none, content := none, holder := false }

/-- A relation that is not broken by a change to the links of a node. -/
structure Movable (R : Tree α → Tree α → Prop) : Prop where
  refl : ∀ t, R t t
  trans : ∀ {t t' t''}, R t t' → R t' t'' → R t t''
  relink : ∀ t id (f : Node → Node), (∀ n, (f n).unlinked = n.unlinked) → R t (t.modifyNode id f)

/-- A relation that is not broken by new nodes without identifiers, and by a change to a node that
leaves its identifier alone. -/
structure Stable (R : Tree α → Tree α → Prop) : Prop where
  refl : ∀ t, R t t
  trans : ∀ {t t' t''}, R t t' → R t' t'' → R t t''
  push : ∀ t (n : Node) root, n.ident = none → R t { t with nodes := t.nodes.push n, root }
  modifyNode : ∀ t id (f : Node → Node), (∀ n, (f n).ident = n.ident) → R t (t.modifyNode id f)

/-- A relation that is not broken by new nodes, by drawing identifiers, and by a change to a node
that takes no identifier away. -/
structure Lasting (R : Tree α → Tree α → Prop) : Prop where
  refl : ∀ t, R t t
  trans : ∀ {t t' t''}, R t t' → R t' t'' → R t t''
  push : ∀ t (n : Node) root, R t { t with nodes := t.nodes.push n, root }
  draw : ∀ t ids, R t { t with ids }
  modifyNode : ∀ t id (f : Node → Node), (∀ n, n.ident.isSome → (f n).ident.isSome) →
    R t (t.modifyNode id f)

theorem Stable.movable {R : Tree α → Tree α → Prop} (hR : Stable R) : Movable R where
  refl := hR.refl
  trans := hR.trans
  relink t id f hf := by
    refine hR.modifyNode t id f fun n => ?_
    have hident := congrArg Node.ident (hf n)
    exact hident

theorem Lasting.stable {R : Tree α → Tree α → Prop} (hR : Lasting R) : Stable R where
  refl := hR.refl
  trans := hR.trans
  push t n root _ := hR.push t n root
  modifyNode t id f hf := hR.modifyNode t id f fun n h => (hf n).symm ▸ h

namespace Along

variable {R : Tree α → Tree α → Prop} (hR : Stable R)

include hR

theorem pure (v : β) : Along R (Pure.pure v : Edit α β) := hR.refl

theorem seq {step : Edit α γ} {next : γ → Edit α β} (h : Along R step)
    (hnext : ∀ c, Along R (next c)) : Along R (step >>= next) :=
  fun t => hR.trans (h t) (hnext _ _)

theorem forIn {σ : Type} (xs : List γ) (init : σ) (body : γ → σ → Edit α (ForInStep σ))
    (hbody : ∀ x r, Along R (body x r)) : Along R (forIn xs init body) := by
  induction xs generalizing init with
  | nil => exact pure hR init
  | cons x xs ih =>
    rw [List.forIn_cons]
    refine seq hR (hbody x init) fun step => ?_
    cases step with
    | done r => exact pure hR r
    | yield r => exact ih r

omit hR

theorem ensures {step : Edit α γ} (h : Along R step) (t : Tree α) :
    Ensures step t fun _ t' => R t t' := h t

theorem map {step : Edit α γ} (h : Along R step) (f : γ → β) : Along R (f <$> step) := h

theorem get {next : Tree α → Edit α β} (hnext : ∀ t, Along R (next t)) :
    Along R (MonadState.get >>= next) :=
  fun t => hnext t t

theorem modify {f : Tree α → Tree α} (hf : ∀ t, R t (f t)) :
    Along R (modify f : Edit α PUnit) := hf

end Along

namespace Tree

variable {R : Tree α → Tree α → Prop}

/-! ## Making and writing -/

section

variable (hR : Stable R)

include hR

theorem stable_setAttribute (t : Tree α) (id : Nat) (key value : String) :
    R t (t.setAttribute id key value) :=
  hR.modifyNode t id _ fun _ => rfl

/-- Entries are written one by one. -/
theorem along_entries {β : Type} (entries : List β) (write : β → Tree α → Tree α)
    (hwrite : ∀ e t, R t (write e t)) :
    Along R (forIn entries PUnit.unit fun e _ => do
      modify (write e)
      pure (ForInStep.yield PUnit.unit) : Edit α PUnit) :=
  Along.forIn hR entries _ _ fun e _ =>
    Along.seq hR (Along.modify (hwrite e)) fun _ => Along.pure hR _

theorem along_addChild (name : String) (p : Nat) : Along R (addChild name p : Edit α Nat) :=
  fun t => hR.trans (hR.push t _ t.root rfl) (hR.modifyNode _ p _ fun _ => rfl)

theorem along_addNode (name : String) (place : Option Nat) :
    Along R (addNode name place : Edit α Nat) := by
  cases place with
  | none => exact fun t => hR.push t _ _ rfl
  | some p => exact Along.get fun t => along_addChild hR name _

theorem along_findOrCreate (p : Nat) (step : PathStep) :
    Along R (findOrCreate p step : Edit α Nat) := by
  unfold findOrCreate
  refine Along.get fun t => ?_
  split
  · exact Along.pure hR _
  · refine Along.seq hR (along_addChild hR step.name p) fun id => ?_
    split
    · rename_i key value _
      exact Along.seq hR (Along.modify fun t => stable_setAttribute hR t id key value) fun _ =>
        Along.pure hR id
    · exact Along.pure hR id

theorem along_walkPath (start : Nat) (steps : List PathStep) :
    Along R (walkPath start steps : Edit α Nat) := by
  induction steps generalizing start with
  | nil => exact Along.pure hR start
  | cons step steps ih => exact Along.seq hR (along_findOrCreate hR start step) ih

mutual

theorem along_fill (render : Template → String) (id : Nat) :
    ∀ b : Blueprint, Along R (fill render id b : Edit α Unit)
  | ⟨name, attributes, style, text, children, holder⟩ => by
    unfold fill
    refine Along.seq hR (along_entries hR attributes.entries
      (fun e t => t.setAttribute id e.1 (render e.2))
      fun e t => stable_setAttribute hR t id _ _) fun _ => ?_
    refine Along.seq hR (along_entries hR style.entries
      (fun e t => t.setStyle id e.1 (render e.2))
      fun e t => hR.modifyNode t id _ fun _ => rfl) fun _ => ?_
    -- children and holder come behind the text, which is there or not
    have hrest : Along R (do
        fillChildren render id children
        match holder with
        | some name =>
          let holderId ← findOrCreate id { name }
          modify fun t =>
            (t.modifyNode holderId fun n => { n with holder := true }).modifyNode id
              fun n => { n with content := some holderId }
        | none => pure () : Edit α Unit) := by
      refine Along.seq hR (along_fillChildren render id children) fun _ => ?_
      split
      · refine Along.seq hR (along_findOrCreate hR id _) fun holderId => Along.modify fun t => ?_
        have hholder := hR.modifyNode t holderId (fun n => { n with holder := true }) fun _ => rfl
        exact hR.trans hholder (hR.modifyNode _ id _ fun _ => rfl)
      · exact Along.pure hR ()
    cases text with
    | none => exact hrest
    | some template =>
      exact Along.seq hR (Along.modify fun t => hR.modifyNode t id _ fun _ => rfl) fun _ => hrest

theorem along_fillChildren (render : Template → String) (id : Nat) :
    ∀ bs : List Blueprint, Along R (fillChildren render id bs : Edit α Unit)
  | [] => Along.pure hR ()
  | b :: bs => by
    unfold fillChildren
    refine Along.seq hR (along_addChild hR b.name id) fun child => ?_
    exact Along.seq hR (along_fill render child b) fun _ => along_fillChildren render id bs

end

end

/-! ## Moving nodes -/

section

variable (hR : Movable R)

include hR

theorem movable_detach (t : Tree α) (child parent : Nat) : R t (t.detach child parent) :=
  hR.relink t parent _ fun _ => rfl

theorem movable_setParent (t : Tree α) (child parent : Nat) : R t (t.setParent child parent) :=
  hR.relink t child _ fun _ => rfl

theorem movable_reparent (t : Tree α) (child parent : Nat) : R t (t.reparent child parent) := by
  have hmove : ∀ t' : Tree α, R t t' → R t ((t'.setParent child (t.contentOf parent)).modifyNode
      (t.contentOf parent) fun n => { n with children := n.children ++ [child] }) := by
    intro t' h
    have hlink := hR.trans h (movable_setParent hR t' child (t.contentOf parent))
    exact hR.trans hlink (hR.relink _ _ _ fun _ => rfl)
  unfold reparent
  cases (t.node child).parent with
  | none => exact hmove t (hR.refl t)
  | some old => exact hmove _ (movable_detach hR t child old)

theorem movable_adopt (t : Tree α) (target child : Nat) : R t (t.adopt target child) := by
  have hlink : ∀ t' : Tree α, R t t' → R t (t'.setParent child target) :=
    fun t' h => hR.trans h (movable_setParent hR t' child target)
  unfold adopt
  split
  · split
    · exact hlink t (hR.refl t)
    · exact hlink _ (movable_detach hR t child _)
  · exact hlink t (hR.refl t)

theorem movable_setChildren (t : Tree α) (p : Nat) (l : List Nat) : R t (t.setChildren p l) := by
  have hfold : ∀ (l : List Nat) (t : Tree α) (target : Nat),
      R t (l.foldl (fun t child => t.adopt target child) t) := by
    intro l
    induction l with
    | nil => exact fun t _ => hR.refl t
    | cons c cs ih => exact fun t target => hR.trans (movable_adopt hR t target c) (ih _ target)
  exact hR.trans (hfold l t _) (hR.relink _ _ _ fun _ => rfl)

end

/-! ## Making nodes with an identifier -/

theorem along_instantiate (hR : Lasting R) (b : Blueprint) (place : Option Nat)
    (render : Template → String) : Along R (instantiate b place render : Edit α Nat) := by
  unfold instantiate
  refine Along.seq hR.stable (along_addNode hR.stable b.name place) fun id => ?_
  refine Along.seq hR.stable (along_fill hR.stable render id b) fun _ => ?_
  refine Along.seq hR.stable (fun t => hR.draw t _) fun ident => ?_
  refine Along.seq hR.stable (Along.modify fun t => ?_) fun _ => Along.pure hR.stable id
  exact hR.modifyNode t id _ fun _ _ => rfl

end Tree

/-! ## Recording nothing -/

/-- A step that records no constraint, whatever the tree. -/
def Quiet (step : Edit α β) : Prop := ∀ t : Tree α, (step t).2.constraints = t.constraints

/-- The quiet steps are those along a relation. -/
theorem lasting_constraints : Lasting fun t t' : Tree α => t'.constraints = t.constraints where
  refl _ := rfl
  trans h h' := h'.trans h
  push _ _ _ := rfl
  draw _ _ := rfl
  modifyNode _ _ _ _ := rfl

theorem Quiet.records {step : Edit α β} (h : Quiet step) (t : Tree α) :
    Ensures step t fun _ t' => Tree.Records t t' [] :=
  Tree.Records.of_eq (h t)

namespace Tree

theorem constraints_setChildren (t : Tree α) (p : Nat) (l : List Nat) :
    (t.setChildren p l).constraints = t.constraints :=
  movable_setChildren lasting_constraints.stable.movable t p l

/-! ## Keeping identifiers -/

/-- The nodes that have an identifier in one tree have one in another. -/
def Names (t t' : Tree α) : Prop := ∀ x, (t.node x).ident.isSome → (t'.node x).ident.isSome

theorem lasting_names : Lasting (Names : Tree α → Tree α → Prop) where
  refl _ _ h := h
  trans h h' x hx := h' x (h x hx)
  push t n root x hx := by
    have hlt := lt_size_of_ident hx
    have hnode : node { t with nodes := t.nodes.push n, root } x = t.node x := by
      unfold node
      rw [Array.getElem?_push_lt hlt, Array.getElem?_eq_getElem hlt]
    rw [hnode]
    exact hx
  draw _ _ _ hx := hx
  modifyNode t id f hf x hx := by
    rw [node_modifyNode]
    split
    · exact hf _ hx
    · exact hx

theorem Notes.names {t t' : Tree α} {laws : List (Constraint α)} (h : Notes t t' laws) :
    Names t t' := by
  intro x hx
  rw [h.node]
  exact hx

/-! ## Drawing identifiers -/

theorem stable_mute : Stable (Mute : Tree α → Tree α → Prop) where
  refl t := ⟨rfl, rfl, 0, (List.append_nil _).symm⟩
  trans h h' := by
    obtain ⟨k, hk⟩ := h.labels
    obtain ⟨k', hk'⟩ := h'.labels
    refine ⟨h'.ids.trans h.ids, h'.constraints.trans h.constraints, k + k', ?_⟩
    rw [hk', hk, List.append_assoc, List.replicate_append_replicate]
  push t n root hn := ⟨rfl, rfl, 1, by rw [labels_push, hn]; rfl⟩
  modifyNode t id f hf := by
    refine ⟨rfl, rfl, 0, ?_⟩
    rw [labels_modifyNode t id (g := fun label => label) hf]
    exact (List.modify_id id t.labels).trans (List.append_nil _).symm

theorem Mute.names {t t' : Tree α} (h : Mute t t') : Names t t' := by
  intro x hx
  rw [h.ident_of_lt (lt_size_of_ident hx)]
  exact hx

theorem addNode_fresh (name : String) (place : Option Nat) (t : Tree α) :
    Ensures (addNode name place) t fun id t' => id = t.size ∧ id < t'.size := by
  cases place with
  | none =>
    refine ⟨rfl, ?_⟩
    show t.nodes.size < (t.nodes.push _).size
    rw [Array.size_push]
    exact Nat.lt_succ_self _
  | some p =>
    refine ⟨rfl, ?_⟩
    show t.size < (addChild name (t.contentOf p) t).2.size
    rw [size_addChild]
    exact Nat.lt_succ_self _

/-- Making a node draws one identifier, for the new node: what a blueprint adds to it has none. -/
theorem issued_instantiate (b : Blueprint) (place : Option Nat) (render : Template → String)
    (t : Tree α) : Ensures (instantiate b place render) t fun _ t' => Issued 1 t t' := by
  unfold instantiate
  have hadd : Mute t (addNode b.name place t).2 := along_addNode stable_mute b.name place t
  refine Ensures.seq (R := fun id t₁ => Mute t t₁ ∧ id = t.size ∧ id < t₁.size)
    ⟨hadd, addNode_fresh b.name place t⟩ ?_
  rintro id t₁ ⟨h₁, rfl, hid⟩
  have hfill : Mute t₁ (fill render t.size b t₁).2 := along_fill stable_mute render t.size b t₁
  refine Ensures.seq (R := fun _ t₂ => Mute t₁ t₂) hfill fun _ t₂ h₂ => ?_
  have hmade := stable_mute.trans h₁ h₂
  have hissued := Issued.of_identify (Nat.lt_of_lt_of_le hid h₂.size_le)
    (hmade.ident_of_le (Nat.le_refl _))
  have hall := hmade.issued.trans hissued
  rwa [Nat.zero_add] at hall

end Tree

end LayoutCompiler
