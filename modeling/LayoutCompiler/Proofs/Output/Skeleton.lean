import LayoutCompiler.Output.InterfaceDocument
import LayoutCompiler.Proofs.Compilation.Trees
/-!
# Skeletons of documents

A document shows the tree of a compilation as nested elements. Which element stands for which node
cannot be read off the markup, where nodes without an identifier may look alike; the skeleton says
it. It is a tree of node numbers, and the elements are its image.

* `exists_skeleton`: what a document shows is the image of a skeleton in which every node of the
  tree occurs once. The depth to which a document is written is never met.
* `Skeleton.element_mem_parts`, `Skeleton.host_mem_parts`: every node of a skeleton has its element
  in the markup, and what is said about its constraints stands in there.
-/

namespace LayoutCompiler

/-- Nodes by their number, each with what stands below it. -/
inductive Skeleton where
  | node (id : Nat) (below : List Skeleton)

variable {α : Type}

/-! ## The parts of markup -/

namespace Markup

mutual

/-- Markup and all that stands inside it. -/
def Fragment.parts : Fragment → List Fragment
  | .element name attributes content => .element name attributes content :: partsOf content
  | .void name attributes => [.void name attributes]
  | .text s => [.text s]

/-- The parts of the markup of a list. -/
def partsOf : List Fragment → List Fragment
  | [] => []
  | f :: fs => f.parts ++ partsOf fs

end

/-- The attributes of a tag; those of text are none. -/
def Fragment.attributes : Fragment → List (String × String)
  | .element _ attributes _ | .void _ attributes => attributes
  | .text _ => []

variable {f g : Fragment} {fs gs : List Fragment} {name : String}
  {attributes : List (String × String)}

theorem Fragment.mem_parts_self (f : Fragment) : f ∈ f.parts := by
  cases f <;> simp [parts]

theorem mem_partsOf : g ∈ partsOf fs ↔ ∃ f ∈ fs, g ∈ f.parts := by
  induction fs with
  | nil => simp [partsOf]
  | cons f fs ih => simp [partsOf, ih]

theorem mem_parts_element :
    g ∈ (Fragment.element name attributes fs).parts ↔
      g = .element name attributes fs ∨ ∃ f ∈ fs, g ∈ f.parts := by
  rw [Fragment.parts, List.mem_cons, mem_partsOf]

end Markup

open Markup (Fragment)

namespace InterfaceDocument

variable {name : String} {attributes : List (String × String)} {content : List Fragment}
  {f g : Fragment}

theorem attributes_compact : (compact name attributes content).attributes = attributes := by
  unfold compact
  split <;> rfl

/-- What stands in the content of an element is a part of it. -/
theorem mem_parts_compact (hf : f ∈ content) (hg : g ∈ f.parts) :
    g ∈ (compact name attributes content).parts := by
  unfold compact
  rw [if_neg (by rw [List.isEmpty_iff]; exact List.ne_nil_of_mem hf)]
  exact Markup.mem_parts_element.2 (Or.inr ⟨f, hf, hg⟩)

end InterfaceDocument

/-! ## Skeletons and their elements -/

namespace Skeleton

mutual

/-- The nodes of a skeleton, each before what stands below it. -/
def ids : Skeleton → List Nat
  | node id below => id :: idsOf below

/-- The nodes of the skeletons of a list. -/
def idsOf : List Skeleton → List Nat
  | [] => []
  | o :: os => o.ids ++ idsOf os

end

mutual

/-- The element of a skeleton: that of its node, around the elements of what stands below it and
what is said about the constraints of the node. Where there is nothing to stand around the element
is empty. -/
def element (tree : Tree α) (constraints : Nat → List Fragment) : Skeleton → Fragment
  | node id below =>
    let n := tree.node id
    match (n.text.map Fragment.text).toList ++ elementsOf tree constraints below ++ constraints id
      with
    | [] => .void n.name (InterfaceDocument.attributes n)
    | f :: fs => .element n.name (InterfaceDocument.attributes n) (f :: fs)

/-- The elements of the skeletons of a list. -/
def elementsOf (tree : Tree α) (constraints : Nat → List Fragment) : List Skeleton → List Fragment
  | [] => []
  | o :: os => o.element tree constraints :: elementsOf tree constraints os

end

variable {tree : Tree α} {constraints : Nat → List Fragment} {x : Nat}

theorem idsOf_eq (os : List Skeleton) : idsOf os = os.flatMap ids := by
  induction os with
  | nil => rfl
  | cons o os ih => rw [idsOf, ih, List.flatMap_cons]

theorem elementsOf_eq (os : List Skeleton) :
    elementsOf tree constraints os = os.map (element tree constraints) := by
  induction os with
  | nil => rfl
  | cons o os ih => rw [elementsOf, ih, List.map_cons]

/-- The element is written in its compact form. -/
theorem element_node (id : Nat) (below : List Skeleton) :
    (node id below).element tree constraints =
      InterfaceDocument.compact (tree.node id).name (InterfaceDocument.attributes (tree.node id))
        (((tree.node id).text.map Fragment.text).toList ++ elementsOf tree constraints below ++
          constraints id) := by
  rw [element]
  unfold InterfaceDocument.compact
  split
  · rename_i hnil
    rw [hnil]
    rfl
  · rename_i hcons
    rw [hcons]
    rfl

mutual

/-- Every node of a skeleton has an element somewhere in the markup, around what is said about its
constraints. -/
theorem compact_mem_parts : ∀ o : Skeleton, x ∈ o.ids → ∃ content,
    InterfaceDocument.compact (tree.node x).name (InterfaceDocument.attributes (tree.node x))
        content ∈ (o.element tree constraints).parts ∧ constraints x ⊆ content
  | node id below, hx => by
    rw [ids, List.mem_cons] at hx
    rw [element_node]
    rcases hx with rfl | hx
    · exact ⟨_, Fragment.mem_parts_self _, List.subset_append_right _ _⟩
    · obtain ⟨f, hf, content, hcontent, hsub⟩ := elementsOf_mem_parts below hx
      refine ⟨content, InterfaceDocument.mem_parts_compact ?_ hcontent, hsub⟩
      exact List.mem_append_left _ (List.mem_append_right _ hf)

theorem elementsOf_mem_parts : ∀ os : List Skeleton, x ∈ idsOf os →
    ∃ f ∈ elementsOf tree constraints os, ∃ content,
      InterfaceDocument.compact (tree.node x).name (InterfaceDocument.attributes (tree.node x))
        content ∈ f.parts ∧ constraints x ⊆ content
  | [], hx => nomatch hx
  | o :: os, hx => by
    rw [idsOf, List.mem_append] at hx
    rw [elementsOf]
    rcases hx with hx | hx
    · exact ⟨_, List.mem_cons_self, compact_mem_parts o hx⟩
    · obtain ⟨f, hf, hparts⟩ := elementsOf_mem_parts os hx
      exact ⟨f, List.mem_cons_of_mem _ hf, hparts⟩

end

/-- The element of a node has the attributes of the node. -/
theorem element_mem_parts {o : Skeleton} (hx : x ∈ o.ids) :
    ∃ g ∈ (o.element tree constraints).parts,
      g.attributes = InterfaceDocument.attributes (tree.node x) := by
  obtain ⟨content, hcontent, -⟩ := compact_mem_parts o hx
  exact ⟨_, hcontent, InterfaceDocument.attributes_compact⟩

variable (constraints) in
/-- What is said about the constraints of a node stands in its element. -/
theorem host_mem_parts {o : Skeleton} (hx : x ∈ o.ids) (hne : constraints x ≠ []) :
    ∃ content, .element (tree.node x).name (InterfaceDocument.attributes (tree.node x)) content ∈
      (o.element tree constraints).parts ∧ constraints x ⊆ content := by
  obtain ⟨content, hcontent, hsub⟩ := compact_mem_parts o hx
  have hfilled : ¬ content.isEmpty = true := fun hempty => by
    rw [List.isEmpty_iff.1 hempty] at hsub
    exact hne (List.subset_nil.1 hsub)
  unfold InterfaceDocument.compact at hcontent
  rw [if_neg hfilled] at hcontent
  exact ⟨content, hcontent, hsub⟩

/-! ## The skeleton of a tree -/

/-- The skeleton of what is below a node, to a depth. -/
def grow (tree : Tree α) : Nat → Nat → List Skeleton
  | 0, _ => []
  | levels + 1, id => [node id ((tree.node id).children.flatMap (grow tree levels))]

theorem ids_grow (tree : Tree α) (levels id : Nat) :
    (grow tree levels id).flatMap ids = tree.below levels id := by
  induction levels generalizing id with
  | zero => rfl
  | succ levels ih =>
    rw [grow, Tree.below, List.flatMap_singleton, ids, idsOf_eq, List.flatMap_assoc]
    simp only [ih]

theorem fragments_eq_grow [Scalar α] (tree : Tree α) (hosted : List (Nat × Constraint α))
    (levels id : Nat) :
    InterfaceDocument.fragments tree hosted levels id =
      (grow tree levels id).map
        (element tree (InterfaceDocument.constraintsOf tree hosted)) := by
  induction levels generalizing id with
  | zero => rfl
  | succ levels ih =>
    rw [grow, InterfaceDocument.fragments, List.map_singleton, element_node, elementsOf_eq,
      List.map_flatMap, funext ih]

end Skeleton

/-- The markup of a linked tree is the image of a skeleton in which every node occurs once. -/
theorem exists_skeleton [Scalar α] {t : Tree α} (hl : t.Linked) (hsize : 0 < t.size) :
    ∃ o : Skeleton, o.ids.Perm (List.range t.size) ∧
      ∀ hosted, InterfaceDocument.treeFragments t hosted =
        [o.element t (InterfaceDocument.constraintsOf t hosted)] := by
  obtain ⟨r, hroot, -⟩ := hl.reaches_root hsize
  obtain ⟨levels, hlevels⟩ := Nat.exists_eq_succ_of_ne_zero (Nat.ne_of_gt hsize)
  have hwalk : t.walk = t.below (levels + 1) r := by
    unfold Tree.walk
    rw [hroot, hlevels]
  have hids : (Skeleton.grow t (levels + 1) r).flatMap Skeleton.ids = t.walk := by
    rw [Skeleton.ids_grow, hwalk]
  rw [Skeleton.grow, List.flatMap_singleton] at hids
  refine ⟨_, hids ▸ hl.walk_perm, fun hosted => ?_⟩
  unfold InterfaceDocument.treeFragments
  rw [hroot, hlevels]
  exact Skeleton.fragments_eq_grow t hosted (levels + 1) r

end LayoutCompiler
