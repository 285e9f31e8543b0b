import LayoutCompiler.Output.Html
import LayoutCompiler.Proofs.Compilation.Variants
import LayoutCompiler.Proofs.Markup.Tags
import LayoutCompiler.Proofs.Output.Constraints
/-!
# The tags of nodes

Which nodes have a tag in what is written. In a document for Interface Builder all of them have one.
A fragment of HTML drops what is below a void element, so that a node has a tag when it can be
reached from the root without passing through one.

* `InterfaceDocument.mem_tags_viewElement`: the tags of a tree are those of its nodes and of their
  constraints.
* `Html.mem_tags_document`: the tags of a fragment are those of its written nodes.
-/

namespace LayoutCompiler

open Markup (Fragment Tag tagsOf)

variable {α : Type}

/-! ## Documents -/

namespace InterfaceDocument

/-- The tag of a node. -/
def tagOf (n : Node) : Tag := (n.name, attributes n)

@[simp] theorem tags_compact (name : String) (attributes : List (String × String))
    (content : List Fragment) :
    (compact name attributes content).tags = (name, attributes) :: tagsOf content := by
  unfold compact
  split
  · rename_i hempty
    rw [List.isEmpty_iff.1 hempty]
    rfl
  · rw [Markup.tags_element]

end InterfaceDocument

namespace Skeleton

variable {tree : Tree α} {constraints : Nat → List Fragment} {tag : Tag}

mutual

/-- A skeleton has the tags of its nodes and of what is said about their constraints. -/
theorem mem_tags_element : ∀ o : Skeleton, tag ∈ (o.element tree constraints).tags ↔
    ∃ x ∈ o.ids, tag = InterfaceDocument.tagOf (tree.node x) ∨ tag ∈ tagsOf (constraints x)
  | node id below => by
    have hbelow := mem_tags_elementsOf below
    rw [element_node, InterfaceDocument.tags_compact, Markup.tagsOf_append, Markup.tagsOf_append,
      Markup.tagsOf_text, List.nil_append, List.mem_cons, List.mem_append, hbelow, ids,
      List.exists_mem_cons_iff, or_assoc]
    exact or_congr_right or_comm

theorem mem_tags_elementsOf : ∀ os : List Skeleton, tag ∈ tagsOf (elementsOf tree constraints os) ↔
    ∃ x ∈ idsOf os, tag = InterfaceDocument.tagOf (tree.node x) ∨ tag ∈ tagsOf (constraints x)
  | [] => by simp [elementsOf, idsOf]
  | o :: os => by
    have hfirst := mem_tags_element o
    have hrest := mem_tags_elementsOf os
    rw [elementsOf, Markup.tagsOf_cons, List.mem_append, hfirst, hrest, idsOf]
    simp only [List.mem_append, or_and_right, exists_or]

end

end Skeleton

namespace InterfaceDocument

section

variable [Scalar α] {c : Compilation α} {resources : ResourceTable α} {skeleton : Skeleton}
  {tag : Tag}

/-- A compilation that others have been merged into is written. -/
theorem exists_shows_merge {setting : Setting α} {file : String} {root : Element}
    (h : Compilation.ofElement setting file root = .ok c) (others : List (Compilation α))
    (resources : ResourceTable α) : ∃ skeleton, Shows (c.merge others) resources skeleton := by
  obtain ⟨child, s, -, hadded, rfl⟩ := Compilation.exists_pass h
  have hl := hadded.compiled.linked
  have hsize : 0 < s.tree.size := Nat.zero_lt_of_lt (Tree.lt_size_of_ident hadded.named)
  refine exists_shows ?_ ?_ (fun k hk => ?_) resources
  · rw [Compilation.tree_merge]
    exact hl
  · rw [Compilation.tree_merge]
    exact hsize
  · rw [Compilation.tree_merge] at hk ⊢
    obtain ⟨x, ha, -⟩ := hadded.compiled.settled k hk
    exact ⟨x, ha.host_eq hl⟩

/-- The tree of a written compilation has the tags of its nodes, and those that stand for
constraints. -/
theorem mem_tags_viewElement (h : Shows c resources skeleton) :
    tag ∈ (viewElement c.tree skeleton).tags ↔ ∃ x < c.tree.size,
      tag = tagOf (c.tree.node x) ∨
        tag ∈ tagsOf (constraintsElement c.tree x (c.tree.own x)) := by
  rw [viewElement, Skeleton.mem_tags_element]
  constructor
  · rintro ⟨x, hx, htag⟩
    exact ⟨x, List.mem_range.1 (h.nodes.mem_iff.1 hx), htag⟩
  · rintro ⟨x, hx, htag⟩
    exact ⟨x, h.nodes.mem_iff.2 (List.mem_range.2 hx), htag⟩

/-- The keys of the attributes of constraints, in order. -/
def constraintKeys : List String :=
  ["firstItem", "firstAttribute", "relation", "secondItem", "secondAttribute", "multiplier",
    "constant", "priority", "id"]

omit [Scalar α] in
theorem keys_given (fields : List (String × Option String)) :
    ((given fields).map Prod.fst).Sublist (fields.map Prod.fst) := by
  induction fields with
  | nil => exact List.Sublist.refl []
  | cons field fields ih =>
    obtain ⟨name, value⟩ := field
    rw [given, List.flatMap_cons, List.map_append, List.map_cons]
    cases value with
    | none => exact ih.cons name
    | some v => exact ih.cons_cons name

theorem keys_constraintAttributes (tree : Tree α) (x : Nat) (k : Constraint α) :
    ((constraintAttributes tree x k).map Prod.fst).Sublist constraintKeys := by
  rw [constraintAttributes_eq]
  exact keys_given _

/-- What is said about constraints stands in one element with a tag for each of them. -/
theorem of_mem_tags_constraintsElement {tree : Tree α} {x : Nat} {own : List (Constraint α)}
    (h : tag ∈ tagsOf (constraintsElement tree x own)) :
    tag = ("constraints", []) ∨ ∃ k ∈ own, tag = ("constraint", constraintAttributes tree x k) := by
  cases own with
  | nil => cases h
  | cons k own =>
    simp only [constraintsElement, Markup.tagsOf_cons, Markup.tagsOf_nil, List.append_nil,
      Markup.tags_element, List.mem_cons, Markup.mem_tagsOf] at h
    refine h.imp_right ?_
    rintro ⟨f, hf, htag⟩
    obtain ⟨k', hk', rfl⟩ := List.mem_map.1 hf
    exact ⟨k', hk', List.mem_singleton.1 htag⟩

end

end InterfaceDocument

/-! ## Fragments -/

namespace Html

/-- A node is written when no node above it is void. -/
inductive Written (t : Tree α) : Nat → Prop
  | root {r : Nat} (h : t.root = some r) : Written t r
  | child {p x : Nat} (above : Written t p) (content : (t.node p).name ∉ voidNames)
    (h : x ∈ (t.node p).children) : Written t x

/-- The tag of a node in a fragment that names some outlets. -/
def tagOf (t : Tree α) (outlets : List Outlet) (x : Nat) : Tag :=
  ((t.node x).name, attributes (t.node x) (outletOf? outlets x))

variable {t : Tree α} {outlets : List Outlet} {x p : Nat} {tag : Tag}

theorem tags_nodeFragment (n : Node) (outlet : Option String) (children : List Fragment) :
    (nodeFragment n outlet children).tags =
      (n.name, attributes n outlet) :: if n.name ∈ voidNames then [] else tagsOf children := by
  unfold nodeFragment
  by_cases hvoid : n.name ∈ voidNames
  · rw [if_pos (List.contains_iff_mem.2 hvoid), if_pos hvoid]
    rfl
  · rw [if_neg (mt List.contains_iff_mem.1 hvoid), if_neg hvoid, Markup.tags_element,
      Markup.tagsOf_append, Markup.tagsOf_text, List.nil_append]

theorem mem_tags_fragments_succ (levels : Nat) :
    tag ∈ tagsOf (fragments t outlets (levels + 1) x) ↔ tag = tagOf t outlets x ∨
      (t.node x).name ∉ voidNames ∧
        ∃ k ∈ (t.node x).children, tag ∈ tagsOf (fragments t outlets levels k) := by
  rw [fragments, Markup.tagsOf_cons, Markup.tagsOf_nil, List.append_nil, tags_nodeFragment,
    List.mem_cons, tagOf]
  split
  · rename_i hvoid
    simp [hvoid]
  · rename_i hvoid
    simp only [hvoid, not_false_eq_true, true_and, Markup.mem_tagsOf_flatMap]

/-- What has a tag below a written node is written. -/
theorem exists_written {levels : Nat} (hx : Written t x)
    (h : tag ∈ tagsOf (fragments t outlets levels x)) :
    ∃ y, Written t y ∧ tag = tagOf t outlets y := by
  induction levels generalizing x with
  | zero => cases h
  | succ levels ih =>
    rcases (mem_tags_fragments_succ levels).1 h with rfl | ⟨hcontent, k, hk, htag⟩
    · exact ⟨x, hx, rfl⟩
    · exact ih (.child hx hcontent hk) htag

namespace Written

/-- What is above a written node is written and has content. -/
theorem up (h : Written t x) (hl : t.Linked) (hup : t.Up x p) :
    Written t p ∧ (t.node p).name ∉ voidNames := by
  cases h with
  | root hroot =>
    have horphan := (hl.rooted x hroot).2
    rw [show (t.node x).parent = some p from hup] at horphan
    cases horphan
  | child above content hchild =>
    obtain rfl := ((hl.listed _ x).1 hchild).unique hup
    exact ⟨above, content⟩

theorem of_reaches (h : Written t x) (hl : t.Linked) (hreaches : t.Reaches x p) : Written t p := by
  induction hreaches with
  | refl => exact h
  | tail _ hup ih => exact (ih.up hl hup).1

theorem lt_size (h : Written t x) (hl : t.Linked) : x < t.size := by
  cases h with
  | root hroot => exact (hl.rooted x hroot).1
  | child _ _ hchild => exact ((hl.listed _ x).1 hchild).lt_size

/-- In a tree whose void elements hold nothing all nodes are written. -/
theorem of_bare (hl : t.Linked)
    (hbare : ∀ p, (t.node p).name ∈ voidNames → (t.node p).children = []) (hx : x < t.size) :
    Written t x := by
  induction x using hl.acyclic.induction with
  | _ x ih =>
    cases hp : (t.node x).parent with
    | none => exact .root (hl.orphan x hx hp)
    | some p =>
      have hup : t.Up x p := hp
      have hchild : x ∈ (t.node p).children := (hl.listed p x).2 hup
      refine .child (ih p hup (hl.bounded x p hup)) (fun hvoid => ?_) hchild
      rw [hbare p hvoid] at hchild
      cases hchild

/-- A walk that meets a written node comes to its tag. -/
theorem mem_tags_fragments (h : Written t x) (hl : t.Linked) {levels y : Nat}
    (hx : x ∈ t.below levels y) : tagOf t outlets x ∈ tagsOf (fragments t outlets levels y) := by
  induction levels generalizing y with
  | zero => cases hx
  | succ levels ih =>
    rw [mem_tags_fragments_succ]
    rcases Tree.mem_below_succ.1 hx with rfl | ⟨k, hk, hbelow⟩
    · exact Or.inl rfl
    · -- the walk to the node goes through the child, which cannot stand in a void element
      have hreaches : t.Reaches x k :=
        Tree.reaches_of_mem_lineFrom ((Tree.mem_below hl.listed).1 hbelow)
      have hcontent := ((h.of_reaches hl hreaches).up hl ((hl.listed y k).1 hk)).2
      exact Or.inr ⟨hcontent, k, hk, ih hbelow⟩

end Written

/-- The tags of a fragment are those of the written nodes. -/
theorem mem_tags_document {c : Compilation α} (hl : c.tree.Linked) :
    tag ∈ tagsOf (document c) ↔ ∃ x, Written c.tree x ∧ tag = tagOf c.tree c.outlets x := by
  unfold document
  cases hroot : c.tree.root with
  | none =>
    -- without a root there is no node, and nothing is written
    refine ⟨fun h => (nomatch h), ?_⟩
    rintro ⟨x, hx, -⟩
    obtain ⟨r, hr, -⟩ := hl.reaches_root (hx.lt_size hl)
    rw [hroot] at hr
    cases hr
  | some r =>
    constructor
    · exact exists_written (.root hroot)
    · rintro ⟨x, hx, rfl⟩
      have hwalk : x ∈ c.tree.walk := hl.walk_perm.mem_iff.2 (List.mem_range.2 (hx.lt_size hl))
      unfold Tree.walk at hwalk
      rw [hroot] at hwalk
      exact hx.mem_tags_fragments hl hwalk

end Html

end LayoutCompiler
