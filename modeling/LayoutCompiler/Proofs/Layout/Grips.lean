import LayoutCompiler.Proofs.Layout.Members
import LayoutCompiler.Proofs.Tree.Entries
import LayoutCompiler.Proofs.Tree.Fences
/-!
# How nodes hold on to their content

Two attributes of a node say how it holds on to its content on an axis. A layout writes one of them
on the spacers it adds, and neither on any other node; so no node that was there before holds on to
its content in another way afterwards.

* `grip_applyWrapPower`: what changes when a node is made to hold on to its content.
* `Steady.setAttribute`, `Steady.plant`: what changes nothing.
* `layable_steady`: no layout changes anything.
-/

namespace LayoutCompiler

namespace Layout

open LayoutCompiler.Tree (Notes Planted Beyond)

variable {α : Type} {t t' t'' : Tree α}

/-! ## Grips -/

/-- How a node holds on to its content on an axis: how strongly it resists growing, and how strongly
it resists shrinking. -/
def grip (n : Node) (axis : Axis) : Option String × Option String :=
  (n.attributes.lookup (huggingKey axis), n.attributes.lookup (compressionKey axis))

/-- A key under which nothing is said of how a node holds on to its content. -/
def Gripless (key : String) : Prop := ∀ axis, huggingKey axis ≠ key ∧ compressionKey axis ≠ key

theorem grip_setEntry {n : Node} {key value : String} (hkey : Gripless key) (axis : Axis) :
    grip { n with attributes := setEntry key value n.attributes } axis = grip n axis := by
  unfold grip
  rw [lookup_setEntry, lookup_setEntry, if_neg (hkey axis).1, if_neg (hkey axis).2]

/-- The grip of a node that resists growing and shrinking alike. -/
def evenGrip (power : Nat) : Option String × Option String :=
  (some (toString power), some (toString power))

/-- A node is made to hold on to its content on one axis, and everything else is as it was. -/
theorem grip_applyWrapPower {node : Nat} (hnode : node < t.size) (axis : Axis) (depth x : Nat)
    (axis' : Axis) :
    grip ((applyWrapPower t node axis depth).node x) axis' =
      if x = node ∧ axis' = axis then evenGrip (wrapPower depth) else grip (t.node x) axis' := by
  unfold applyWrapPower Tree.setAttribute
  rw [Tree.node_modifyNode_of_lt (by rwa [Tree.size_modifyNode]),
    Tree.node_modifyNode_of_lt hnode]
  by_cases hx : x = node
  · subst hx
    unfold grip evenGrip
    simp only [if_true, true_and, lookup_setEntry]
    cases axis <;> cases axis' <;> simp [huggingKey, compressionKey]
  · rw [if_neg hx, if_neg hx, if_neg fun h => hx h.1]

/-! ## Steps that change no grip -/

/-- Every node holds on to its content as before. -/
structure Steady (t t' : Tree α) : Prop where
  size_le : t.size ≤ t'.size
  grip : ∀ x < t.size, ∀ axis, grip (t'.node x) axis = grip (t.node x) axis

namespace Steady

theorem refl (t : Tree α) : Steady t t := ⟨Nat.le_refl _, fun _ _ _ => rfl⟩

theorem trans (h : Steady t t') (h' : Steady t' t'') : Steady t t'' where
  size_le := Nat.le_trans h.size_le h'.size_le
  grip x hx axis := (h'.grip x (Nat.lt_of_lt_of_le hx h.size_le) axis).trans (h.grip x hx axis)

theorem of_attributes (hsize : t.size ≤ t'.size)
    (h : ∀ x < t.size, (t'.node x).attributes = (t.node x).attributes) : Steady t t' where
  size_le := hsize
  grip x hx axis := by
    unfold Layout.grip
    rw [h x hx]

theorem movable : Movable (Steady : Tree α → Tree α → Prop) where
  refl := refl
  trans := trans
  relink t id f hf := by
    refine of_attributes (Nat.le_of_eq (Tree.size_modifyNode t id f).symm) fun x _ => ?_
    rw [Tree.node_modifyNode]
    split
    · have hattributes := congrArg Node.attributes (hf (t.node x))
      exact hattributes
    · rfl

theorem note {laws : List (Constraint α)} (hn : Notes t t' laws) : Steady t t' :=
  of_attributes (Nat.le_of_eq hn.size.symm) fun x _ => by rw [hn.node]

theorem plant {home : Option Nat} {k : Nat} (h : Planted home k t t') : Steady t t' :=
  of_attributes (Nat.le_of_lt (h.first ▸ h.lt)) fun _ hx =>
    h.keeps Node.attributes (fun _ _ => rfl) hx

theorem setAttribute (t : Tree α) (id : Nat) {key : String} (hkey : Gripless key)
    (value : String) : Steady t (t.setAttribute id key value) where
  size_le := Nat.le_of_eq (Tree.size_modifyNode t id _).symm
  grip x _ axis := by
    unfold Tree.setAttribute
    rw [Tree.node_modifyNode]
    split
    · exact grip_setEntry hkey axis
    · rfl

end Steady

/-! ## Layouts -/

/-- No layout changes how a node holds on to its content. -/
theorem layable_steady (base : Blueprint) :
    Layable base (Steady : Tree α → Tree α → Prop) where
  toMovable := Steady.movable
  note := Steady.note
  plain container t := by
    have hplain : Ensures (addPlain base container) t fun _ t' => Steady t t' :=
      (Tree.instantiate_planted base (some container) _ t).imp fun _ _ => Steady.plant
    exact hplain
  spacer container axis t := by
    have hspacer : Ensures (addSpacer base container axis) t fun _ t' => Steady t t' := by
      unfold addSpacer
      refine Ensures.seq (Tree.instantiate_planted base (some container) _ t) fun k t₁ h₁ => ?_
      -- what is written on a new node is behind all nodes that were there before
      have hwritten := Beyond.setAttribute h₁.fenced (Nat.le_of_eq h₁.first.symm)
        (huggingKey axis) "1"
      exact Steady.plant (h₁.trans hwritten)
    exact hspacer
  margins container t := by
    have hmargins : Ensures (Tree.findOrCreate container marginsStep) t fun _ t' =>
        Steady t t' := by
      refine (Tree.findOrCreate_planted container marginsStep t).imp ?_
      rintro k t₁ (rfl | h)
      · exact Steady.refl t₁
      · exact Steady.plant h
    exact hmargins
  fact t id value key hkey := by
    have hgripless : ∀ key ∈ factKeys, ∀ axis,
        huggingKey axis ≠ key ∧ compressionKey axis ≠ key := by
      intro key hkey axis
      revert key
      cases axis <;> decide
    exact Steady.setAttribute t id (hgripless key hkey) value

end Layout

end LayoutCompiler
