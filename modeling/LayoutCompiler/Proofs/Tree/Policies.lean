import LayoutCompiler.Proofs.Tree.Entries
import LayoutCompiler.Proofs.Tree.Quiet
/-!
# Policies for attributes

Which attributes the nodes of a tree may have. A policy judges an attribute by the name of its node,
by its key and by its value; a tree respects it when every node has its keys once and nothing that
is forbidden. What is made of a blueprint or at the end of a path is judged by what the blueprint
and the path say, without looking at the tree.

* `Respects.setAttribute`: one attribute at a time is judged.
* `Respects.walkPath`: the steps of a path are judged by what they say of the nodes they create.
* `Respects.instantiate`: a blueprint is judged by its keys.
-/

namespace LayoutCompiler

/-! ## Policies -/

/-- Which attributes nodes may have, by the name of the node, the key and the value. -/
abbrev Policy := String → String → String → Prop

namespace Policy

variable (policy : Policy)

/-- Under a key there may be any value, on any node. -/
def Frees (key : String) : Prop := ∀ name value, policy name key value

/-- The nodes that steps create may have the attributes that the steps find them by. -/
def AllowsSteps (steps : List PathStep) : Prop :=
  ∀ step ∈ steps, ∀ entry ∈ step.key, policy step.name entry.1 entry.2

/-- An attribute may stand where steps lead, whatever the node is called that they start from. -/
def AllowsAt (steps : List PathStep) (key value : String) : Prop :=
  ∀ start : String, policy ((steps.map PathStep.name).getLastD start) key value

end Policy

namespace Blueprint

mutual

/-- The keys of the attributes that the nodes of a blueprint are made with. -/
def keys : Blueprint → List String
  | ⟨_, attributes, _, _, children, _⟩ => attributes.keys ++ keysOf children

/-- The keys of the blueprints of a list. -/
def keysOf : List Blueprint → List String
  | [] => []
  | b :: bs => b.keys ++ keysOf bs

end

end Blueprint

namespace Tree

variable {α : Type} {t t' : Tree α} {policy policy' : Policy} {id p x : Nat} {key value : String}

/-- Every node has each of its keys once, and no attribute that a policy forbids. -/
structure Respects (t : Tree α) (policy : Policy) : Prop where
  distinct : ∀ x, ((t.node x).attributes.map Prod.fst).Nodup
  allowed : ∀ x, ∀ a ∈ (t.node x).attributes, policy (t.node x).name a.1 a.2

namespace Respects

theorem empty (seed : String) (policy : Policy) : (Tree.empty seed : Tree α).Respects policy :=
  ⟨fun _ => List.nodup_nil, fun _ _ ha => nomatch ha⟩

theorem mono (h : t.Respects policy) (hle : ∀ name key value, policy name key value →
    policy' name key value) : t.Respects policy' :=
  ⟨h.distinct, fun x a ha => hle _ _ _ (h.allowed x a ha)⟩

/-- What leaves names and attributes alone breaks no policy. -/
theorem of_unlinked (h : t.Respects policy)
    (heq : ∀ x, (t'.node x).name = (t.node x).name ∧
      (t'.node x).attributes = (t.node x).attributes) : t'.Respects policy where
  distinct x := by
    rw [(heq x).2]
    exact h.distinct x
  allowed x := by
    rw [(heq x).1, (heq x).2]
    exact h.allowed x

theorem modifyNode (h : t.Respects policy) {f : Node → Node}
    (hf : ∀ n, (f n).name = n.name ∧ (f n).attributes = n.attributes) :
    (t.modifyNode id f).Respects policy := by
  refine h.of_unlinked fun x => ?_
  rw [node_modifyNode]
  split
  · exact hf _
  · exact ⟨rfl, rfl⟩

theorem push (h : t.Respects policy) {n : Node} {root : Option Nat} (hn : n.attributes = []) :
    Respects { t with nodes := t.nodes.push n, root } policy := by
  constructor
  · intro x
    rw [node_push]
    split
    · rw [hn]
      exact List.nodup_nil
    · exact h.distinct x
  · intro x
    rw [node_push]
    split
    · rw [hn]
      exact fun _ ha => nomatch ha
    · exact h.allowed x

/-- An attribute may be written on a node if the policy allows it for its name. -/
theorem setAttribute (h : t.Respects policy) (hallowed : policy (t.node x).name key value) :
    (t.setAttribute x key value).Respects policy := by
  -- only one node changes, and of its entries only the one that the policy has been asked about
  unfold Tree.setAttribute
  constructor
  · intro y
    rw [node_modifyNode]
    split
    · exact nodup_setEntry (h.distinct y)
    · exact h.distinct y
  · intro y a ha
    rw [node_modifyNode] at ha ⊢
    split at ha
    · rename_i hy
      rw [if_pos hy]
      rcases mem_setEntry ha with rfl | ha
      · rw [hy.1]
        exact hallowed
      · exact h.allowed y a ha
    · rename_i hy
      rw [if_neg hy]
      exact h.allowed y a ha

/-- Changes of links break no policy. -/
theorem movable (policy : Policy) :
    Movable fun t t' : Tree α => t.Respects policy → t'.Respects policy where
  refl _ h := h
  trans h h' ht := h' (h ht)
  relink t id f hf h := by
    refine h.modifyNode fun n => ?_
    have hname := congrArg Node.name (hf n)
    have hattributes := congrArg Node.attributes (hf n)
    exact ⟨hname, hattributes⟩

theorem of_notes {laws : List (Constraint α)} (h : t.Respects policy) (hn : Notes t t' laws) :
    t'.Respects policy :=
  h.of_unlinked fun x => by rw [hn.node]; exact ⟨rfl, rfl⟩

end Respects

theorem name_setAttribute (t : Tree α) (id : Nat) (key value : String) (x : Nat) :
    ((t.setAttribute id key value).node x).name = (t.node x).name := by
  unfold setAttribute
  rw [node_modifyNode]
  split <;> rfl

/-! ## Paths -/

theorem Respects.addChild (h : t.Respects policy) (name : String) (p : Nat) :
    Ensures (addChild name p) t fun k t' => t'.Respects policy ∧ (t'.node k).name = name := by
  refine ⟨(h.push rfl).modifyNode fun n => ⟨rfl, rfl⟩, ?_⟩
  show ((Tree.modifyNode _ p _).node t.size).name = name
  rw [node_modifyNode]
  split
  · rw [node_push t { name, parent := some p } t.root, if_pos rfl]
  · rw [node_push t { name, parent := some p } t.root, if_pos rfl]

/-- A step leads to a node with its name. A new one gets the attribute that it is found by. -/
theorem Respects.findOrCreate (h : t.Respects policy) (p : Nat) {step : PathStep}
    (hstep : ∀ entry ∈ step.key, policy step.name entry.1 entry.2) :
    Ensures (findOrCreate p step) t fun k t' =>
      t'.Respects policy ∧ (t'.node k).name = step.name := by
  unfold Tree.findOrCreate
  refine Ensures.bind (Ensures.get ?_)
  -- a child that fits has the name of the step; a new one gets the name first and then its entry
  split
  · rename_i child hfound
    refine ⟨h, ?_⟩
    have hfits := List.find?_some hfound
    unfold fits at hfits
    rw [Bool.and_eq_true, decide_eq_true_eq] at hfits
    exact hfits.1
  · refine Ensures.seq (h.addChild step.name p) ?_
    rintro k t₁ ⟨h₁, hname⟩
    cases hkey : step.key with
    | none => exact ⟨h₁, hname⟩
    | some entry =>
      have hallowed : policy (t₁.node k).name entry.1 entry.2 := by
        rw [hname]
        exact hstep entry hkey
      refine ⟨h₁.setAttribute hallowed, ?_⟩
      show ((t₁.setAttribute k entry.1 entry.2).node k).name = step.name
      rw [name_setAttribute, hname]

/-- A path leads to a node with the name of its last step. -/
theorem Respects.walkPath (h : t.Respects policy) {steps : List PathStep}
    (hsteps : policy.AllowsSteps steps) (x : Nat) :
    Ensures (walkPath x steps) t fun k t' => t'.Respects policy ∧
      (t'.node k).name = (steps.map PathStep.name).getLastD (t.node x).name := by
  induction steps generalizing x t with
  | nil => exact ⟨h, rfl⟩
  | cons step steps ih =>
    obtain ⟨hstep, hrest⟩ := List.forall_mem_cons.1 hsteps
    refine Ensures.seq (h.findOrCreate x hstep) ?_
    rintro k t₁ ⟨h₁, hname⟩
    refine (ih h₁ hrest k).imp ?_
    rintro k' t₂ ⟨h₂, hname'⟩
    refine ⟨h₂, ?_⟩
    rw [hname', hname, List.map_cons, List.getLastD_cons]

/-- What may stand at the end of a path may be written there. -/
theorem Respects.setAt (h : t.Respects policy) {steps : List PathStep} {start : String}
    (hname : (t.node x).name = (steps.map PathStep.name).getLastD start)
    (hallowed : policy.AllowsAt steps key value) :
    (t.setAttribute x key value).Respects policy := by
  refine h.setAttribute ?_
  rw [hname]
  exact hallowed start

/-! ## Blueprints -/

/-- Entries under keys that are free are written one by one. -/
theorem Respects.setAll (h : t.Respects policy) {β : Type} (entries : List β)
    (key value : β → String) (hfree : ∀ e ∈ entries, policy.Frees (key e)) (id : Nat) :
    Ensures (forIn entries PUnit.unit fun e _ => do
        modify (Tree.setAttribute · id (key e) (value e))
        pure (ForInStep.yield PUnit.unit)) t fun _ t' => t'.Respects policy :=
  Ensures.forIn entries PUnit.unit _ h fun e he _ _ ht => ht.setAttribute (hfree e he _ _)

mutual

/-- A blueprint is judged by its keys. -/
theorem Respects.fill (render : Template → String) (id : Nat) : ∀ (b : Blueprint) (t : Tree α),
    t.Respects policy → (∀ key ∈ b.keys, policy.Frees key) →
    Ensures (fill render id b) t fun _ t' => t'.Respects policy
  | ⟨name, attributes, style, text, children, holder⟩, t, h, hfree => by
    have hkeys : ∀ e ∈ attributes.entries, policy.Frees e.1 := fun e he =>
      hfree e.1 (by
        rw [Blueprint.keys]
        exact List.mem_append_left _ (List.mem_map_of_mem he))
    have hbelow : ∀ key ∈ Blueprint.keysOf children, policy.Frees key := fun key hkey =>
      hfree key (by
        rw [Blueprint.keys]
        exact List.mem_append_right _ hkey)
    unfold Tree.fill
    refine Ensures.seq (h.setAll attributes.entries Prod.fst (fun e => render e.2) hkeys id) ?_
    intro _ t₁ h₁
    refine Ensures.seq (Ensures.forIn (I := fun t => t.Respects policy) style.entries PUnit.unit _
      h₁ fun e _ _ _ ht => ?_) fun _ t₂ h₂ => ?_
    · exact ht.modifyNode fun _ => ⟨rfl, rfl⟩
    -- with or without a text, what follows starts from a tree that respects the policy
    have hrest : ∀ t₃ : Tree α, t₃.Respects policy → Ensures (do
        Tree.fillChildren render id children
        match holder with
        | some name =>
          let holderId ← Tree.findOrCreate id { name }
          modify fun t => t.hold id holderId
        | none => pure ()) t₃ fun _ t' => t'.Respects policy := by
      intro t₃ h₃
      refine Ensures.seq (Respects.fillChildren render id children t₃ h₃ hbelow) fun _ t₄ h₄ => ?_
      cases holder with
      | none => exact h₄
      | some name =>
        refine Ensures.seq (h₄.findOrCreate id fun _ he => nomatch he) ?_
        rintro k t₅ ⟨h₅, -⟩
        have hmarked : (t₅.modifyNode k fun n => { n with holder := true }).Respects policy :=
          h₅.modifyNode fun _ => ⟨rfl, rfl⟩
        exact hmarked.modifyNode fun _ => ⟨rfl, rfl⟩
    cases text with
    | none => exact hrest t₂ h₂
    | some template => exact hrest _ (h₂.modifyNode fun _ => ⟨rfl, rfl⟩)

theorem Respects.fillChildren (render : Template → String) (id : Nat) :
    ∀ (bs : List Blueprint) (t : Tree α), t.Respects policy →
    (∀ key ∈ Blueprint.keysOf bs, policy.Frees key) →
    Ensures (fillChildren render id bs) t fun _ t' => t'.Respects policy
  | [], t, h, _ => h
  | b :: bs, t, h, hfree => by
    rw [Blueprint.keysOf] at hfree
    unfold Tree.fillChildren
    refine Ensures.seq (h.addChild b.name id) ?_
    rintro child t₁ ⟨h₁, -⟩
    refine Ensures.seq (Respects.fill render child b t₁ h₁ fun key hkey =>
      hfree key (List.mem_append_left _ hkey)) fun _ t₂ h₂ => ?_
    exact Respects.fillChildren render id bs t₂ h₂ fun key hkey =>
      hfree key (List.mem_append_right _ hkey)

end

/-- A node is made with the attributes of its blueprint. -/
theorem Respects.instantiate (h : t.Respects policy) {b : Blueprint}
    (hfree : ∀ key ∈ b.keys, policy.Frees key) (place : Option Nat) (render : Template → String) :
    Ensures (instantiate b place render) t fun _ t' => t'.Respects policy := by
  have hadd : Ensures (addNode b.name place) t fun _ t' => t'.Respects policy := by
    cases place with
    | none => exact h.push rfl
    | some p =>
      unfold addNode
      exact Ensures.bind (Ensures.get ((h.addChild b.name _).imp fun _ _ h => h.1))
  unfold Tree.instantiate
  refine Ensures.seq hadd fun id t₁ h₁ => ?_
  refine Ensures.seq (Respects.fill render id b t₁ h₁ hfree) fun _ t₂ h₂ => ?_
  have hdrawn : (drawIdent t₂).2.Respects policy := h₂.of_unlinked fun _ => ⟨rfl, rfl⟩
  exact hdrawn.modifyNode fun _ => ⟨rfl, rfl⟩

end Tree

end LayoutCompiler
