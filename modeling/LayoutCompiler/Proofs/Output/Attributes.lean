import LayoutCompiler.Proofs.Compilation.Places
import LayoutCompiler.Proofs.Output.Fragments
import LayoutCompiler.Proofs.Output.Tags
import LayoutCompiler.Proofs.Rule.Builtin
import LayoutCompiler.Proofs.Rule.Loading
/-!
# Attributes of tags

Whether a tag has an attribute twice. A node has each of its keys once, whatever the rules say; but
what a writer adds to the node, its identifier or its style declarations and the name of its outlet,
is not checked against them. All other tags are written with attributes that are known beforehand.

* `InterfaceDocument.distinct_document_iff`, `Html.distinct_document_iff`: where an attribute stands
  twice, it has been added to a node that has it.
* `InterfaceDocument.distinct_of_builtin`, `Html.distinct_of_builtin`: with the rules of the
  platforms none does.
* `Compilation.distinct_tags_iff`: what is written of a compilation, for whatever rules.
-/

namespace LayoutCompiler

open Markup (Fragment Tag tagsOf)

variable {α : Type}

namespace InterfaceDocument

/-- An identifier is added to the attributes of the node. -/
theorem distinct_tagOf {n : Node} (h : (n.attributes.map Prod.fst).Nodup) :
    (tagOf n).Distinct ↔ (n.ident.isSome → "id" ∉ n.attributes.map Prod.fst) := by
  unfold tagOf attributes Tag.Distinct
  cases n.ident with
  | none => simpa using h
  | some ident =>
    rw [Option.map_some, Option.toList_some, List.singleton_append, List.map_cons, List.nodup_cons]
    simp [h]

/-! ## The frame of a document -/

section

variable {resources : ResourceTable α} {used : TextSet} {tag : Tag}

/-- The owner is written with attributes of its own, and so are its connections. -/
theorem distinct_owner {c : Compilation α} (h : tag ∈ (owner c).tags) : tag.Distinct := by
  have hplaceholder : ["placeholderIdentifier", "id", "userLabel", "customClass"].Nodup := by decide
  have houtlet : ["property", "destination", "id"].Nodup := by decide
  unfold owner at h
  dsimp only at h
  split at h
  · rw [Markup.tags_void, List.mem_singleton] at h
    rw [h]
    exact hplaceholder
  · -- the owner itself, the list of its connections, and each of these
    simp only [Markup.tags_element, Markup.tagsOf_cons, Markup.tagsOf_nil, List.append_nil,
      List.mem_cons] at h
    rcases h with rfl | rfl | h
    · exact hplaceholder
    · exact List.nodup_nil
    · obtain ⟨f, hf, htag⟩ := Markup.mem_tagsOf.1 h
      obtain ⟨⟨⟨name, ident⟩, index⟩, -, rfl⟩ := List.mem_map.1 hf
      rw [List.mem_singleton.1 htag]
      exact houtlet

theorem distinct_imageFragment {name : String} (h : tag ∈ (imageFragment name).tags) :
    tag.Distinct := by
  have hkeys : ["name", "width", "height"].Nodup := by decide
  rw [List.mem_singleton.1 h]
  exact hkeys

theorem distinct_colorFragment {name : String} {c : Color}
    (h : tag ∈ (colorFragment name c).tags) : tag.Distinct := by
  have hkeys : ["red", "green", "blue", "alpha", "colorSpace", "customColorSpace"].Nodup := by
    decide
  rw [colorFragment, Markup.tags_element, Markup.tagsOf_cons, Markup.tagsOf_nil, Markup.tags_void,
    List.append_nil, List.mem_cons, List.mem_singleton] at h
  rcases h with rfl | rfl
  · exact List.nodup_singleton "name"
  · exact hkeys

theorem distinct_resourceFragments (h : tag ∈ tagsOf (resourceFragments resources used)) :
    tag.Distinct := by
  unfold resourceFragments at h
  dsimp only at h
  split at h
  · cases h
  · rename_i hdeclarations
    rw [Markup.tagsOf_cons, Markup.tagsOf_nil, List.append_nil, Markup.tags_element,
      List.mem_cons] at h
    rcases h with rfl | h
    · exact List.nodup_nil
    · obtain ⟨f, hf, htag⟩ := Markup.mem_tagsOf.1 h
      rcases List.mem_append.1 hf with hf | hf
      · obtain ⟨name, -, rfl⟩ := List.mem_map.1 hf
        exact distinct_imageFragment htag
      · obtain ⟨⟨name, c⟩, -, rfl⟩ := List.mem_map.1 hf
        exact distinct_colorFragment htag

end

variable [Scalar α] {c : Compilation α} {resources : ResourceTable α} {skeleton : Skeleton}

theorem distinct_constraintsElement {tree : Tree α} {x : Nat} {own : List (Constraint α)}
    {tag : Tag} (h : tag ∈ tagsOf (constraintsElement tree x own)) : tag.Distinct := by
  have hkeys : constraintKeys.Nodup := by decide
  rcases of_mem_tags_constraintsElement h with rfl | ⟨k, -, rfl⟩
  · exact List.nodup_nil
  · exact (keys_constraintAttributes tree x k).nodup hkeys

/-- What stands around the tree of a document has distinct attributes. -/
theorem distinct_document :
    (∀ tag ∈ (documentOf c resources skeleton).tags, tag.Distinct) ↔
      ∀ tag ∈ (viewElement c.tree skeleton).tags, tag.Distinct := by
  -- all around the views is written from names that are fixed
  have hdocument : Tag.Distinct ("document", documentAttributes) := by decide
  have hdependencies : ∀ tag ∈ dependencies.tags, tag.Distinct := by decide
  have hobjects : Tag.Distinct ("objects", []) := by decide
  have hresponder : ∀ tag ∈ firstResponder.tags, tag.Distinct := by decide
  have howner : ∀ tag ∈ (owner c).tags, tag.Distinct := fun _ => distinct_owner
  have hresources : ∀ tag ∈ tagsOf (resourceFragments resources c.used), tag.Distinct :=
    fun _ => distinct_resourceFragments
  unfold documentOf
  simp only [Markup.tags_element, Markup.tagsOf_append, Markup.tagsOf_cons, Markup.tagsOf_nil,
    List.append_nil, List.forall_mem_cons, List.forall_mem_append]
  constructor
  · rintro ⟨-, ⟨-, -, -, -, hview⟩, -⟩
    exact hview
  · intro hview
    exact ⟨hdocument, ⟨hdependencies, hobjects, howner, hresponder, hview⟩, hresources⟩

/-- In a document an attribute stands twice when it is the identifier of a node that has one
among its attributes. -/
theorem distinct_document_iff (hshows : Shows c resources skeleton)
    (h : ∀ x, ((c.tree.node x).attributes.map Prod.fst).Nodup) :
    (∀ tag ∈ (documentOf c resources skeleton).tags, tag.Distinct) ↔
      ∀ x < c.tree.size, (c.tree.node x).ident.isSome →
        "id" ∉ (c.tree.node x).attributes.map Prod.fst := by
  rw [distinct_document]
  constructor
  · intro hall x hx
    exact (distinct_tagOf (h x)).1 (hall _ ((mem_tags_viewElement hshows).2 ⟨x, hx, Or.inl rfl⟩))
  · intro hall tag htag
    obtain ⟨x, hx, rfl | hconstraint⟩ := (mem_tags_viewElement hshows).1 htag
    · exact (distinct_tagOf (h x)).2 (hall x hx)
    · exact distinct_constraintsElement hconstraint

end InterfaceDocument

namespace Html

/-- Style declarations and the name of an outlet are added to the attributes of the node. -/
theorem distinct_attributes {n : Node} (h : (n.attributes.map Prod.fst).Nodup)
    (outlet : Option String) : Tag.Distinct (n.name, attributes n outlet) ↔
      (n.style ≠ [] → "style" ∉ n.attributes.map Prod.fst) ∧
        (outlet.isSome → "data-outlet" ∉ n.attributes.map Prod.fst) := by
  have hadded : ((added n outlet).map Prod.fst).Nodup := (keys_added n outlet).nodup (by decide)
  have hkeys : (∀ key ∈ (added n outlet).map Prod.fst, key ∉ n.attributes.map Prod.fst) ↔
      (n.style ≠ [] → "style" ∉ n.attributes.map Prod.fst) ∧
        (outlet.isSome → "data-outlet" ∉ n.attributes.map Prod.fst) := by
    unfold added
    cases n.style <;> cases outlet <;> simp [styleKey, outletKey]
  -- keys of the node are distinct, and so are those that are added: two of them clash only when
  -- one is from here and one from there
  rw [Tag.Distinct, attributes_eq, List.map_append, List.nodup_append', ← hkeys]
  constructor
  · rintro ⟨-, -, hdisjoint⟩ key hkey hown
    exact hdisjoint hown hkey
  · intro hclear
    exact ⟨h, hadded, fun key hown hkey => hclear key hkey hown⟩

/-- In a fragment an attribute stands twice when it is the style or the outlet of a written node
that has one among its attributes. -/
theorem distinct_document_iff {c : Compilation α} (hl : c.tree.Linked)
    (h : ∀ x, ((c.tree.node x).attributes.map Prod.fst).Nodup) :
    (∀ tag ∈ tagsOf (document c), tag.Distinct) ↔ ∀ x, Written c.tree x →
      ((c.tree.node x).style ≠ [] → "style" ∉ (c.tree.node x).attributes.map Prod.fst) ∧
        ((outletOf? c.outlets x).isSome →
          "data-outlet" ∉ (c.tree.node x).attributes.map Prod.fst) := by
  constructor
  · intro hall x hx
    exact (distinct_attributes (h x) _).1 (hall _ ((mem_tags_document hl).2 ⟨x, hx, rfl⟩))
  · intro hall tag htag
    obtain ⟨x, hx, rfl⟩ := (mem_tags_document hl).1 htag
    exact (distinct_attributes (h x) _).2 (hall x hx)

end Html

/-! ## Compilations -/

section

variable [Scalar α] {setting : Setting α} {file : String} {root : Element} {c : Compilation α}
  {keys : List String}

namespace Compilation

theorem linked_of_ofElement (h : ofElement setting file root = .ok c) : c.tree.Linked := by
  obtain ⟨child, s, -, hadded, rfl⟩ := exists_pass h
  exact hadded.compiled.linked

/-- The nodes of a compilation have distinct keys, whatever the rules write. -/
theorem distinct_of_ofElement (h : ofElement setting file root = .ok c) (x : Nat) :
    ((c.tree.node x).attributes.map Prod.fst).Nodup := by
  -- even the policy that forbids nothing asks for distinct keys
  have hadmits : ∀ kind path text,
      Policy.Admits (fun _ _ _ => True) kind path text := fun _ _ _ =>
    ⟨fun _ _ _ _ _ _ _ => trivial, fun _ _ _ _ _ _ _ => trivial, fun _ _ _ _ _ _ => trivial⟩
  have hgoverns : Compile.Governs setting fun _ _ _ _ => True :=
    { mono := fun _ _ _ _ _ _ _ => trivial
      fixed := fun _ _ _ _ _ => trivial
      elements := fun _ _ _ _ _ _ _ _ _ => trivial
      attributes := fun _ _ _ _ _ _ _ _ _ _ _ _ _ => hadmits _ _ _ }
  exact (respects_of_ofElement hgoverns h).distinct x

/-- Rules that leave keys alone keep them off the nodes of a compilation. -/
theorem not_mem_of_spares (h : ofElement setting file root = .ok c)
    (hspares : setting.book.Spares keys) (hfixed : ∀ key ∈ Compile.fixedKeys, key ∉ keys)
    (hfree : setting.options.overrides.get? "state" = none) (x : Nat) :
    ∀ key ∈ keys, key ∉ (c.tree.node x).attributes.map Prod.fst := by
  intro key hkey hmem
  obtain ⟨a, ha, rfl⟩ := List.mem_map.1 hmem
  exact (respects_of_ofElement (hspares.governs hfixed hfree) h).allowed x a ha hkey

end Compilation

/-- Rules that leave identifiers alone lead to documents without repeated attributes. -/
theorem InterfaceDocument.distinct_of_spares {resources : ResourceTable α} {skeleton : Skeleton}
    (h : Compilation.ofElement setting file root = .ok c) (hshows : Shows c resources skeleton)
    (hspares : setting.book.Spares ["id"])
    (hfree : setting.options.overrides.get? "state" = none) :
    ∀ tag ∈ (documentOf c resources skeleton).tags, tag.Distinct := by
  have hclear := Compilation.not_mem_of_spares h hspares (by decide) hfree
  rw [distinct_document_iff hshows (Compilation.distinct_of_ofElement h)]
  exact fun x _ _ => hclear x "id" List.mem_cons_self

/-- Rules that leave styles and the names of outlets alone lead to fragments without repeated
attributes. -/
theorem Html.distinct_of_spares (h : Compilation.ofElement setting file root = .ok c)
    (hspares : setting.book.Spares ["style", "data-outlet"])
    (hfree : setting.options.overrides.get? "state" = none) :
    ∀ tag ∈ tagsOf (document c), tag.Distinct := by
  have hclear := Compilation.not_mem_of_spares h hspares (by decide) hfree
  rw [distinct_document_iff (Compilation.linked_of_ofElement h)
    (Compilation.distinct_of_ofElement h)]
  exact fun x _ => ⟨fun _ => hclear x "style" (by decide),
    fun _ => hclear x "data-outlet" (by decide)⟩

/-- The rules of the platform leave identifiers alone. -/
theorem InterfaceDocument.distinct_of_builtin {resources : ResourceTable α} {skeleton : Skeleton}
    (h : Compilation.ofElement setting file root = .ok c) (hshows : Shows c resources skeleton)
    (hbook : setting.book = RuleBook.builtin .ios)
    (hfree : setting.options.overrides.get? "state" = none) :
    ∀ tag ∈ (documentOf c resources skeleton).tags, tag.Distinct :=
  distinct_of_spares h hshows (hbook ▸ RuleBook.spares_builtin_ios) hfree

/-- The rules of the platform leave styles and the names of outlets alone. -/
theorem Html.distinct_of_builtin (h : Compilation.ofElement setting file root = .ok c)
    (hbook : setting.book = RuleBook.builtin .web)
    (hfree : setting.options.overrides.get? "state" = none) :
    ∀ tag ∈ tagsOf (document c), tag.Distinct :=
  distinct_of_spares h (hbook ▸ RuleBook.spares_builtin_web) hfree

/-! ## Main statement -/

/-- Whatever the rules are, a tag that is written of a compilation has an attribute twice only where
the writer adds it to a node that has it already: an identifier in a document, and style
declarations or the name of an outlet in a fragment. Where the rules leave these keys alone, there
are no such nodes. -/
theorem Compilation.distinct_tags_iff (h : ofElement setting file root = .ok c)
    (resources : ResourceTable α) :
    (∃ skeleton, InterfaceDocument.Shows c resources skeleton ∧
      ((∀ tag ∈ (InterfaceDocument.documentOf c resources skeleton).tags, tag.Distinct) ↔
        ∀ x < c.tree.size, (c.tree.node x).ident.isSome →
          "id" ∉ (c.tree.node x).attributes.map Prod.fst) ∧
      (setting.book.Spares ["id"] → setting.options.overrides.get? "state" = none →
        ∀ tag ∈ (InterfaceDocument.documentOf c resources skeleton).tags, tag.Distinct)) ∧
    ((∀ tag ∈ tagsOf (Html.document c), tag.Distinct) ↔ ∀ x, Html.Written c.tree x →
      ((c.tree.node x).style ≠ [] → "style" ∉ (c.tree.node x).attributes.map Prod.fst) ∧
        ((Html.outletOf? c.outlets x).isSome →
          "data-outlet" ∉ (c.tree.node x).attributes.map Prod.fst)) ∧
    (setting.book.Spares ["style", "data-outlet"] →
      setting.options.overrides.get? "state" = none →
        ∀ tag ∈ tagsOf (Html.document c), tag.Distinct) := by
  have hdistinct := distinct_of_ofElement h
  obtain ⟨skeleton, hshows⟩ := InterfaceDocument.exists_shows_merge h [] resources
  refine ⟨⟨skeleton, hshows, InterfaceDocument.distinct_document_iff hshows hdistinct, ?_⟩,
    Html.distinct_document_iff (linked_of_ofElement h) hdistinct, Html.distinct_of_spares h⟩
  exact InterfaceDocument.distinct_of_spares h hshows

end

namespace Sample

open Compilation

/-- A rule whose template has attributes that the writers add, too. -/
def colliding : List (DataFormat × String × String) :=
  [(.json, "rules.json",
    "\x7b\"element\":[\x7b\"id\":\"View\",\"template\":\x7b\"name\":\"div\"," ++
    "\"attributes\":\x7b\"id\":\"x\",\"style\":\"color: red\"\x7d," ++
    "\"style\":\x7b\"display\":\"flex\"\x7d\x7d\x7d]\x7d")]

/-- The setting with this rule only. -/
def collision : Setting ℚ := { book := RuleBook.ofTexts colliding, resources := {}, options := {} }

theorem distinct_tags_iff_colliding : ∃ c : Compilation ℚ,
    ofElement collision "layout/main.xml" { tag := "View" } = .ok c ∧
    (∃ skeleton, InterfaceDocument.Shows c {} skeleton ∧
      ¬ ∀ tag ∈ (InterfaceDocument.documentOf c {} skeleton).tags, tag.Distinct) ∧
    ("div", [("id", "x"), ("style", "color: red"), ("style", "display: flex")]) ∈
      tagsOf (Html.document c) ∧
    ¬ ∀ tag ∈ tagsOf (Html.document c), tag.Distinct := by
  have hrun : (ofElement collision "layout/main.xml" { tag := "View" }).toOption.any (fun c =>
      decide (0 < c.tree.size ∧ (c.tree.node 0).ident.isSome ∧
        "id" ∈ (c.tree.node 0).attributes.map Prod.fst ∧ c.tree.root = some 0 ∧
        (c.tree.node 0).style ≠ [] ∧ "style" ∈ (c.tree.node 0).attributes.map Prod.fst ∧
        ("div", [("id", "x"), ("style", "color: red"), ("style", "display: flex")]) ∈
          tagsOf (Html.document c))) = true := by
    decide +kernel
  obtain ⟨c, hc, hcollides⟩ := exists_ok hrun
  obtain ⟨hsize, hident, hid, hroot, hstyled, hstyle, htag⟩ := of_decide_eq_true hcollides
  obtain ⟨⟨skeleton, hshows, hdocument, -⟩, hfragment, -⟩ := distinct_tags_iff hc {}
  -- both writers add to the root what it has already
  refine ⟨c, hc, ⟨skeleton, hshows, fun hall => ?_⟩, htag, fun hall => ?_⟩
  · exact hdocument.1 hall 0 hsize hident hid
  · exact (hfragment.1 hall 0 (.root hroot)).1 hstyled hstyle

end Sample

end LayoutCompiler
