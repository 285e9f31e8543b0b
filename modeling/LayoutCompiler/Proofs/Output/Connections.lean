import LayoutCompiler.Output.Swift
import LayoutCompiler.Proofs.Compilation.Variants
import LayoutCompiler.Proofs.Output.Constraints
/-!
# Outlets in documents

A layout is written twice: as a document, whose owner is connected to nodes, and as a binding, which
declares what it expects to be connected. The two agree, also when several variants of the layout
have been merged into the first one.

* `mem_merge`: what becomes of outlets when variants are merged.
* `mem_connections`: which connections there are.
* `connected_of_merge`: what the binding relies on is connected, and no connection leads nowhere.
-/

namespace LayoutCompiler

open Markup (Fragment)

variable {α : Type}

/-! ## Merging -/

namespace Compilation

variable {o : Outlet} {primary : Compilation α} {others : List (Compilation α)}

/-- A merged outlet is that of the primary variant, but for its being optional, or it is one that
only other variants have. One that is not optional has not been touched. -/
theorem mem_merge (h : o ∈ (primary.merge others).outlets) :
    (∃ own ∈ primary.outlets, o.node = own.node ∧ o.name = own.name ∧
      (o.isOptional = false → own = o)) ∨
    o.isOptional = true ∧ o.node = none := by
  rcases mem_outlets_merge h with ⟨own, hown, rfl⟩ | ⟨-, hoptional, hnode⟩
  · refine Or.inl ⟨own, hown, node_ownOutlet others own, name_ownOutlet others own, fun hopt => ?_⟩
    unfold ownOutlet at hopt ⊢
    split at hopt
    · rename_i hall
      rw [if_pos hall]
    · cases hopt
  · exact Or.inr ⟨hoptional, hnode⟩

end Compilation

/-! ## The binding -/

namespace Swift

/-- A binding relies on an outlet that it declares with an exclamation mark. -/
def Requires (t : Compilation α) (o : Outlet) : Prop :=
  o ∈ t.outlets ∧ property o = "@IBOutlet var " ++ o.name ++ ": " ++ o.typeName ++ "!"

theorem property_eq_iff (o : Outlet) :
    property o = "@IBOutlet var " ++ o.name ++ ": " ++ o.typeName ++ "!" ↔
      o.isOptional = false := by
  unfold property
  cases o.isOptional with
  | false => exact ⟨fun _ => rfl, fun _ => rfl⟩
  | true =>
    constructor
    · intro h
      have hmarks : "?" = "!" := by
        have hlist := congrArg String.toList h
        simp only [String.toList_append, List.append_cancel_left_eq] at hlist
        exact String.ext hlist
      exact absurd hmarks (by decide)
    · intro h
      cases h

theorem property_mem_code {t : Compilation α} {o : Outlet} (h : o ∈ t.outlets) :
    line 1 (property o) ∈ code t := by
  have hne : t.outlets.isEmpty = false := by
    rw [List.isEmpty_eq_false_iff]
    exact List.ne_nil_of_mem h
  unfold code
  rw [hne]
  simp only [List.mem_append]
  refine Or.inl (Or.inl (Or.inl (Or.inr ?_)))
  exact List.mem_cons_of_mem _ (List.mem_map_of_mem h)

end Swift

/-! ## The owner -/

namespace InterfaceDocument

variable {t : Compilation α} {name ident : String} {attributes : List (String × String)}

theorem mem_connections : (name, ident) ∈ connections t ↔
    ∃ o ∈ t.outlets, o.name = name ∧
      ∃ n, o.node = some n ∧ (t.tree.node n).ident = some ident := by
  unfold connections
  rw [List.mem_filterMap]
  constructor
  · rintro ⟨o, ho, h⟩
    obtain ⟨i, hi, heq⟩ := Option.map_eq_some_iff.1 h
    obtain ⟨n, hn, hident⟩ := Option.bind_eq_some_iff.1 hi
    cases heq
    exact ⟨o, ho, rfl, n, hn, hident⟩
  · rintro ⟨o, ho, rfl, n, hn, hident⟩
    refine ⟨o, ho, ?_⟩
    rw [hn, Option.bind_some, hident]
    rfl

/-- The attributes of a connection of the owner of a layout. -/
def connectionAttributes (layout name ident : String) (index : Nat) : List (String × String) :=
  [("property", name), ("destination", ident), ("id", layout ++ "-outlet-" ++ toString index)]

/-- The connections that stand in the element of the owner are those of the outlets. -/
theorem outlet_mem_parts_owner : Fragment.void "outlet" attributes ∈ (owner t).parts ↔
    ∃ name ident index, ((name, ident), index) ∈ (connections t).zipIdx ∧
      attributes = connectionAttributes t.name name ident index := by
  unfold owner
  split
  · rename_i hnil
    rw [hnil]
    simp [Fragment.parts]
  · rw [Markup.mem_parts_element]
    simp only [List.mem_singleton, exists_eq_left, Markup.mem_parts_element, reduceCtorEq, false_or,
      connectionFragments, List.mem_map]
    constructor
    -- each connection is a fragment of its own, without anything inside
    · rintro ⟨_, ⟨⟨⟨name, ident⟩, index⟩, hmem, rfl⟩, h⟩
      have hself := List.mem_singleton.1 h
      cases hself
      exact ⟨name, ident, index, hmem, rfl⟩
    · rintro ⟨name, ident, index, hmem, rfl⟩
      exact ⟨_, ⟨((name, ident), index), hmem, rfl⟩, Fragment.mem_parts_self _⟩

/-- The owner of the document of a compilation is connected to an element, for an outlet of some
name. -/
def Connects (t : Compilation α) (name ident : String) : Prop :=
  ∃ index, Fragment.void "outlet" (connectionAttributes t.name name ident index) ∈ (owner t).parts

theorem connects_of_mem (h : (name, ident) ∈ connections t) : Connects t name ident := by
  obtain ⟨index, hindex⟩ := List.mem_iff_getElem?.1 h
  refine ⟨index, outlet_mem_parts_owner.2 ⟨name, ident, index, ?_, rfl⟩⟩
  exact List.mk_mem_zipIdx_iff_getElem?.2 hindex

/-- A connection of the owner leads to the identifier of a node with an outlet. -/
theorem destination_of_mem (h : Fragment.void "outlet" attributes ∈ (owner t).parts) :
    ∃ o ∈ t.outlets, ∃ n ident, o.node = some n ∧ (t.tree.node n).ident = some ident ∧
      attributes.lookup "destination" = some ident := by
  obtain ⟨name, ident, index, hmem, rfl⟩ := outlet_mem_parts_owner.1 h
  obtain ⟨o, ho, -, n, hn, hident⟩ := mem_connections.1 (List.fst_mem_of_mem_zipIdx hmem)
  exact ⟨o, ho, n, ident, hn, hident, rfl⟩

/-! ## Documents -/

variable [Scalar α] {resources : ResourceTable α} {skeleton : Skeleton}

/-- The document and the binding of a compilation agree on outlets. -/
structure Connected (t : Compilation α) (document : Fragment) : Prop where
  owner_mem : owner t ∈ document.parts
  /-- The binding has a line for every outlet. -/
  declared : ∀ o ∈ t.outlets, Swift.line 1 (Swift.property o) ∈ Swift.code t
  /-- What the binding relies on is a node that is written under its identifier, and the owner is
  connected to it by the name of the outlet. -/
  required : ∀ o, Swift.Requires t o → ∃ n ident, o.node = some n ∧ n < t.tree.size ∧
    (t.tree.node n).ident = some ident ∧
    (∃ g ∈ document.parts, g.attributes = ("id", ident) :: (t.tree.node n).attributes) ∧
    Connects t o.name ident
  /-- Where a connection leads there is an element. -/
  landed : ∀ attributes, Fragment.void "outlet" attributes ∈ (owner t).parts →
    ∃ ident, attributes.lookup "destination" = some ident ∧
      ∃ g ∈ document.parts, g.attributes.lookup "id" = some ident

/-- What the document lists as objects is a part of it. -/
theorem mem_parts_documentOf {f g : Fragment}
    (hf : f ∈ [owner t, firstResponder, viewElement t.tree skeleton]) (hg : g ∈ f.parts) :
    g ∈ (documentOf t resources skeleton).parts := by
  have hobjects : g ∈ (Fragment.element "objects" []
      [owner t, firstResponder, viewElement t.tree skeleton]).parts :=
    Markup.mem_parts_element.2 (Or.inr ⟨f, hf, hg⟩)
  refine Markup.mem_parts_element.2 (Or.inr ⟨_, ?_, hobjects⟩)
  exact List.mem_append_left _ (List.mem_cons_of_mem _ List.mem_cons_self)

/-- A node with an identifier has an element under it in the document. -/
theorem exists_part (h : Shows t resources skeleton) {n : Nat} {ident : String}
    (hident : (t.tree.node n).ident = some ident) :
    ∃ g ∈ (documentOf t resources skeleton).parts,
      g.attributes = ("id", ident) :: (t.tree.node n).attributes := by
  have hlt : n < t.tree.size := Tree.lt_size_of_ident (by rw [hident]; rfl)
  have hmem : n ∈ skeleton.ids := h.nodes.mem_iff.2 (List.mem_range.2 hlt)
  have hview : ∃ g ∈ (viewElement t.tree skeleton).parts, g.attributes =
      InterfaceDocument.attributes (t.tree.node n) := Skeleton.element_mem_parts hmem
  obtain ⟨g, hg, hattributes⟩ := hview
  refine ⟨g, mem_parts_documentOf (by simp) hg, ?_⟩
  rw [hattributes, InterfaceDocument.attributes, hident]
  rfl

/-- A written compilation is connected when all outlets that are not optional have a node with an
identifier. -/
theorem Shows.connected (h : Shows t resources skeleton)
    (hserved : ∀ o ∈ t.outlets, o.isOptional = false →
      ∃ n, o.node = some n ∧ (t.tree.node n).ident.isSome) :
    Connected t (documentOf t resources skeleton) where
  owner_mem := mem_parts_documentOf List.mem_cons_self (Fragment.mem_parts_self _)
  declared o ho := Swift.property_mem_code ho
  required := by
    rintro o ⟨ho, hproperty⟩
    -- what is declared without a mark is not optional, and so has a named node
    obtain ⟨n, hn, hnamed⟩ := hserved o ho ((Swift.property_eq_iff o).1 hproperty)
    obtain ⟨ident, hident⟩ := Option.isSome_iff_exists.1 hnamed
    have hconnection : (o.name, ident) ∈ connections t :=
      mem_connections.2 ⟨o, ho, rfl, n, hn, hident⟩
    exact ⟨n, ident, hn, Tree.lt_size_of_ident hnamed, hident, exists_part h hident,
      connects_of_mem hconnection⟩
  landed := by
    intro attributes hattributes
    obtain ⟨o, -, n, ident, -, hident, hdestination⟩ := destination_of_mem hattributes
    obtain ⟨g, hg, hid⟩ := exists_part h hident
    refine ⟨ident, hdestination, g, hg, ?_⟩
    rw [hid]
    rfl

variable {setting : Setting α} {file : String} {root : Element} {primary : Compilation α}

/-- The document of a compilation that other variants have been merged into connects its owner to
all that the binding relies on, and to nothing that is not there. -/
theorem connected_of_merge (h : Compilation.ofElement setting file root = .ok primary)
    (others : List (Compilation α)) (resources : ResourceTable α) :
    (primary.merge others).tree = primary.tree ∧
      ∃ skeleton, Shows (primary.merge others) resources skeleton ∧
        Connected (primary.merge others)
          (documentOf (primary.merge others) resources skeleton) := by
  refine ⟨Compilation.tree_merge primary others, ?_⟩
  have hserved := Compilation.served_of_ofElement h
  rcases Compilation.ofElement_cases setting file root with
    ⟨child, s, -, hadded, hok⟩ | ⟨e, herror, -⟩
  · rw [hok] at h
    obtain rfl := Except.ok.inj h
    have hl := hadded.compiled.linked
    have hsize : 0 < s.tree.size := Nat.zero_lt_of_lt (Tree.lt_size_of_ident hadded.named)
    have htree := Compilation.tree_merge (Compilation.ended file s) others
    obtain ⟨skeleton, hshows⟩ := exists_shows (c := (Compilation.ended file s).merge others)
      (by rw [htree]; exact hl) (by rw [htree]; exact hsize) (fun k hk => by
        rw [htree] at hk ⊢
        obtain ⟨x, ha, -⟩ := hadded.compiled.settled k hk
        exact ⟨x, ha.host_eq hl⟩) resources
    refine ⟨skeleton, hshows, hshows.connected fun o ho hopt => ?_⟩
    -- an outlet that is not optional is the primary's own; a variant adds only optional ones
    rcases Compilation.mem_merge ho with ⟨own, hown, -, -, heq⟩ | ⟨hoptional, -⟩
    · obtain rfl := heq hopt
      obtain ⟨-, n, hn, hnamed⟩ := hserved own hown
      rw [htree]
      exact ⟨n, hn, hnamed⟩
    · rw [hoptional] at hopt
      cases hopt
  · rw [herror] at h
    cases h

theorem connected_of_sample : ∃ primary variant : Compilation ℚ,
    Compilation.ofElement Sample.setting Sample.file Sample.form = .ok primary ∧
    Compilation.ofElement Sample.setting Sample.file Sample.shortForm = .ok variant ∧
    (primary.merge [variant]).outlets.map (fun o => (o.name, o.isOptional)) =
      [("title", false), ("note", true)] ∧
    ∃ skeleton, Shows (primary.merge [variant]) {} skeleton ∧
      Connected (primary.merge [variant]) (documentOf (primary.merge [variant]) {} skeleton) := by
  have hmerged : (do
      let primary ← Compilation.ofElement Sample.setting Sample.file Sample.form
      let variant ← Compilation.ofElement Sample.setting Sample.file Sample.shortForm
      pure ((primary.merge [variant]).outlets.map fun o => (o.name, o.isOptional)) :
        Outcome (List (String × Bool))).toOption =
      some [("title", false), ("note", true)] := by
    decide +kernel
  cases h : Compilation.ofElement Sample.setting Sample.file Sample.form with
  | error e =>
    rw [h] at hmerged
    cases hmerged
  | ok primary =>
    cases h' : Compilation.ofElement Sample.setting Sample.file Sample.shortForm with
    | error e =>
      rw [h, h'] at hmerged
      cases hmerged
    | ok variant =>
      rw [h, h'] at hmerged
      obtain ⟨-, hconnected⟩ := connected_of_merge h [variant] {}
      exact ⟨primary, variant, rfl, rfl, Option.some.inj hmerged, hconnected⟩

end InterfaceDocument

end LayoutCompiler
