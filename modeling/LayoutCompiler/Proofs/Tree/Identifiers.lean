import LayoutCompiler.Proofs.Tree.Growth
/-!
# Identifiers in use

Identifiers are drawn for nodes and for constraints, and every one that has been drawn is in use by
one of these (`Tally`). Steps keep it so: those that draw give what they draw to one new object
(`Issued`), and all others touch no identifier (`Mute`).

* `Issued.of_record`, `Issued.of_identify`: the two steps that draw.
* `Mute.issued`, `Mute.names`: what a step keeps that draws nothing.
-/

namespace LayoutCompiler

/-- One more identifier is drawn at the end. -/
theorem IdSource.first_succ (seed : String) (count : Nat) :
    IdSource.first seed (count + 1) =
      IdSource.first seed count ++ [IdSource.nth seed (count + 1)] := by
  unfold first
  rw [List.range_succ, List.map_append, List.map_singleton]

namespace Tree

variable {α : Type} {t t' t'' : Tree α} {m n id : Nat}

/-! ## What is in use -/

/-- The identifier of each node, or nothing, by the numbers of the nodes. -/
def labels (t : Tree α) : List (Option String) := t.nodes.toList.map (·.ident)

/-- The identifiers of the nodes that have one. -/
def nodeIdents (t : Tree α) : List String := t.labels.filterMap fun label => label

theorem length_nodeIdents (t : Tree α) :
    t.nodeIdents.length = t.nodes.toList.countP (·.ident.isSome) := by
  unfold nodeIdents labels
  rw [List.length_filterMap_eq_countP, List.countP_map]
  rfl

/-- The identifiers of nodes and constraints. -/
def idents (t : Tree α) : List String := t.nodeIdents ++ t.constraints.map (·.ident)

/-- The identifiers in use are those that have been drawn, each of them for one object. -/
def Tally (t : Tree α) : Prop := t.idents.Perm (IdSource.first t.ids.seed t.ids.drawn)

theorem tally_empty (seed : String) : (Tree.empty seed : Tree α).Tally := List.Perm.refl _

/-- A drawn identifier is tallied with the object that it is given to. -/
theorem Tally.draw (h : t.Tally) (hids : t'.ids = t.ids.draw.2)
    (hidents : t'.idents.Perm (t.idents ++ [t.ids.draw.1])) : t'.Tally := by
  unfold Tally
  have hfirst : IdSource.first t'.ids.seed t'.ids.drawn =
      IdSource.first t.ids.seed t.ids.drawn ++ [t.ids.draw.1] := by
    rw [hids]
    exact IdSource.first_succ t.ids.seed t.ids.drawn
  rw [hfirst]
  exact hidents.trans (h.append_right _)

/-- As many objects have an identifier as have been drawn. -/
theorem Tally.drawn_eq (h : t.Tally) :
    t.ids.drawn = t.nodeIdents.length + t.constraints.length := by
  have hlength := h.length_eq
  unfold idents IdSource.first at hlength
  rw [List.length_append, List.length_map, List.length_map, List.length_range] at hlength
  exact hlength.symm

/-! ## Steps that draw -/

/-- Some nodes have got an identifier, and what has been drawn is in use by one object each. -/
structure Issued (n : Nat) (t t' : Tree α) : Prop where
  seed : t'.ids.seed = t.ids.seed
  named : t'.nodeIdents.length = t.nodeIdents.length + n
  tally : t.Tally → t'.Tally

namespace Issued

theorem refl (t : Tree α) : Issued 0 t t := ⟨rfl, rfl, fun h => h⟩

theorem trans (h : Issued m t t') (h' : Issued n t' t'') : Issued (m + n) t t'' where
  seed := h'.seed.trans h.seed
  named := by rw [h'.named, h.named, Nat.add_assoc]
  tally ht := h'.tally (h.tally ht)

/-- A constraint that is recorded has the identifier that is drawn for it. -/
theorem of_record (t : Tree α) {make : String → Constraint α}
    (hmake : ∀ ident, (make ident).ident = ident) : Issued 0 t (record make t).2 where
  seed := rfl
  named := rfl
  tally h := by
    refine h.draw rfl ?_
    show (t.nodeIdents ++ (t.constraints ++ [make t.ids.draw.1]).map (·.ident)).Perm _
    rw [List.map_append, List.map_singleton, hmake, ← List.append_assoc]
    exact List.Perm.refl _

end Issued

/-! ## Steps that draw nothing -/

/-- No identifier has been drawn or moved, though there may be new nodes without one. -/
structure Mute (t t' : Tree α) : Prop where
  ids : t'.ids = t.ids
  constraints : t'.constraints = t.constraints
  labels : ∃ k, t'.labels = t.labels ++ List.replicate k none

theorem ident_node (t : Tree α) (x : Nat) : (t.node x).ident = t.labels[x]?.getD none := by
  unfold labels node
  rw [List.getElem?_map, Array.getElem?_toList]
  cases t.nodes[x]? <;> rfl

theorem length_labels (t : Tree α) : t.labels.length = t.size := by
  unfold labels
  rw [List.length_map, Array.length_toList]
  rfl

theorem labels_push (t : Tree α) (n : Node) (root : Option Nat) :
    labels { t with nodes := t.nodes.push n, root } = t.labels ++ [n.ident] := by
  unfold labels
  rw [Array.toList_push, List.map_append, List.map_singleton]

/-- A change to a node changes its label as it changes the identifier. -/
theorem labels_modifyNode (t : Tree α) (id : Nat) {f : Node → Node}
    {g : Option String → Option String} (hf : ∀ n, (f n).ident = g n.ident) :
    (t.modifyNode id f).labels = t.labels.modify id g := by
  unfold labels modifyNode
  rw [Array.toList_modify]
  refine List.ext_getElem? fun i => ?_
  rw [List.getElem?_map, List.getElem?_modify, List.getElem?_modify, List.getElem?_map]
  cases t.nodes.toList[i]? with
  | none => rfl
  | some n =>
    simp only [Option.map_eq_map, Option.map_some, Option.some.injEq]
    split
    · exact hf n
    · rfl

namespace Mute

theorem nodeIdents (h : Mute t t') : t'.nodeIdents = t.nodeIdents := by
  obtain ⟨k, hk⟩ := h.labels
  unfold Tree.nodeIdents
  rw [hk, List.filterMap_append, List.filterMap_replicate_of_none rfl, List.append_nil]

theorem issued (h : Mute t t') : Issued 0 t t' where
  seed := congrArg IdSource.seed h.ids
  named := congrArg List.length h.nodeIdents
  tally ht := by
    unfold Tally idents
    rw [h.nodeIdents, h.constraints, h.ids]
    exact ht

theorem size_le (h : Mute t t') : t.size ≤ t'.size := by
  obtain ⟨k, hk⟩ := h.labels
  have hlength := congrArg List.length hk
  rw [List.length_append, length_labels, length_labels] at hlength
  omega

/-- Nodes that there were have the identifiers that they had. -/
theorem ident_of_lt (h : Mute t t') {x : Nat} (hx : x < t.size) :
    (t'.node x).ident = (t.node x).ident := by
  obtain ⟨k, hk⟩ := h.labels
  rw [ident_node, ident_node, hk, List.getElem?_append_left (by rwa [length_labels])]

/-- Nodes that are new have none. -/
theorem ident_of_le (h : Mute t t') {x : Nat} (hx : t.size ≤ x) : (t'.node x).ident = none := by
  obtain ⟨k, hk⟩ := h.labels
  rw [ident_node, hk, List.getElem?_append_right (by rwa [length_labels]), List.getElem?_replicate]
  split <;> rfl

end Mute

/-! ## Naming a node -/

/-- An identifier for an entry that had none is one more. -/
theorem perm_set_label {labels : List (Option String)} (h : labels[id]? = some none)
    (ident : String) :
    ((labels.set id (some ident)).filterMap fun label => label).Perm
      ((labels.filterMap fun label => label) ++ [ident]) := by
  obtain ⟨hid, hnone⟩ := List.getElem?_eq_some_iff.1 h
  have hsplit : labels = labels.take id ++ none :: labels.drop (id + 1) := by
    rw [← hnone, ← List.drop_eq_getElem_cons hid, List.take_append_drop]
  have hold : (labels.filterMap fun label => label) =
      ((labels.take id).filterMap fun label => label) ++
        (labels.drop (id + 1)).filterMap fun label => label := by
    conv => lhs; rw [hsplit]
    rw [List.filterMap_append]
    rfl
  rw [List.set_eq_take_append_cons_drop, if_pos hid, List.filterMap_append, hold,
    List.append_assoc]
  exact (List.perm_append_singleton _ _).symm.append_left _

/-- A node without an identifier gets the next one. -/
theorem Issued.of_identify (hid : id < t.size) (hnameless : (t.node id).ident = none) :
    Issued 1 t ((drawIdent t).2.modifyNode id fun n =>
      { n with ident := some (drawIdent t).1 }) := by
  have hlabel : t.labels[id]? = some none := by
    rw [ident_node] at hnameless
    rw [← length_labels] at hid
    rw [List.getElem?_eq_getElem hid] at hnameless ⊢
    exact congrArg some hnameless
  -- one label is set that was free, and the identifiers are those of before with the new one
  have hidents : (nodeIdents ((drawIdent t).2.modifyNode id fun n =>
      { n with ident := some (drawIdent t).1 })).Perm (t.nodeIdents ++ [(drawIdent t).1]) := by
    unfold nodeIdents
    rw [labels_modifyNode _ id (g := fun _ => some (drawIdent t).1) fun _ => rfl,
      ← List.set_eq_modify]
    exact perm_set_label hlabel _
  refine ⟨rfl, ?_, fun h => h.draw rfl ?_⟩
  · rw [hidents.length_eq, List.length_append, List.length_singleton]
  · refine (hidents.append_right _).trans ?_
    unfold idents
    rw [List.append_assoc, List.append_assoc]
    exact List.perm_append_comm.append_left _

end Tree

end LayoutCompiler
