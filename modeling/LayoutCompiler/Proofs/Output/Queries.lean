import LayoutCompiler.Proofs.Output.Bindings
import LayoutCompiler.Proofs.Output.Connections
import LayoutCompiler.Proofs.Output.Fragments
import LayoutCompiler.Proofs.Output.Tags
import LayoutCompiler.Rule.Builtin
/-!
# Queries in fragments

A binding in TypeScript finds the elements of outlets by the names that they carry in the fragment.
It declares all outlets of the layout, but the fragment leaves out what is below a void element, and
the outlets there with it.

* `Html.outletOf?_eq_some_iff`: no outlet hides another one, as no two have the same node.
* `Html.carries_iff`: which names the elements of a fragment carry.
* `TypeScript.landmark_of_merge`: when an outlet that the binding relies on can be found.
-/

namespace LayoutCompiler

open Markup (Tag tagsOf)

variable {α : Type}

/-! ## Outlets that are apart -/

/-- No two outlets share a node. -/
def Outlet.Apart (outlets : List Outlet) : Prop :=
  ∀ o ∈ outlets, ∀ o' ∈ outlets, ∀ n, o.node = some n → o'.node = some n → o = o'

namespace Compilation

/-- The outlets of a compilation are apart when other variants have been merged in, too: what is
added has no node. -/
theorem apart_merge {primary : Compilation α} (h : (primary.outlets.map (·.node)).Nodup)
    (others : List (Compilation α)) : Outlet.Apart (primary.merge others).outlets := by
  -- whatever has a node comes from the first variant
  have hown : ∀ o ∈ (primary.merge others).outlets, ∀ n, o.node = some n →
      ∃ own ∈ primary.outlets, o = ownOutlet others own ∧ own.node = some n := by
    intro o ho n hn
    rcases mem_outlets_merge ho with ⟨own, hown, rfl⟩ | ⟨-, -, hnone⟩
    · exact ⟨own, hown, rfl, (node_ownOutlet others own).symm.trans hn⟩
    · rw [hnone] at hn
      cases hn
  intro o ho o' ho' n hn hn'
  obtain ⟨own, hmem, rfl, hnode⟩ := hown o ho n hn
  obtain ⟨own', hmem', rfl, hnode'⟩ := hown o' ho' n hn'
  rw [List.inj_on_of_nodup_map h hmem hmem' (hnode.trans hnode'.symm)]

end Compilation

/-! ## Names that are carried -/

namespace Html

variable {c : Compilation α} {outlets : List Outlet} {n : Node} {name : String}

/-- An element of the fragment carries the name of an outlet. -/
def Carries (c : Compilation α) (name : String) : Prop :=
  ∃ tag ∈ tagsOf (document c), (outletKey, name) ∈ tag.2

/-- A node has the name of the outlet that points to it. -/
theorem outletOf?_eq_some_iff (h : Outlet.Apart outlets) {x : Nat} :
    outletOf? outlets x = some name ↔ ∃ o ∈ outlets, o.node = some x ∧ o.name = name := by
  have hmem : ∀ o, o ∈ outlets.filter (fun o => o.node == some x) ↔ o ∈ outlets ∧ o.node = some x :=
    fun o => by rw [List.mem_filter, beq_iff_eq]
  unfold outletOf?
  rw [Option.map_eq_some_iff]
  constructor
  · rintro ⟨o, hlast, hname⟩
    obtain ⟨ho, hnode⟩ := (hmem o).1 (List.mem_of_getLast? hlast)
    exact ⟨o, ho, hnode, hname⟩
  · rintro ⟨o, ho, hnode, hname⟩
    have hfound := (hmem o).2 ⟨ho, hnode⟩
    have hlast := List.getLast?_eq_some_getLast (List.ne_nil_of_mem hfound)
    obtain ⟨ho', hnode'⟩ := (hmem _).1 (List.getLast_mem (List.ne_nil_of_mem hfound))
    -- the last one that points to the node is the only one
    refine ⟨_, hlast, ?_⟩
    rw [h _ ho' o ho x hnode' hnode]
    exact hname

theorem mem_attributes_iff {outlet : Option String} :
    (outletKey, name) ∈ attributes n outlet ↔
      outlet = some name ∨ (outletKey, name) ∈ n.attributes := by
  have hadded : (outletKey, name) ∈ added n outlet ↔ outlet = some name := by
    have hkey : outletKey ≠ styleKey := by decide
    unfold added
    cases n.style <;> cases outlet <;> simp [hkey, eq_comm]
  rw [attributes_eq, List.mem_append, hadded, or_comm]

/-- A name is carried where it is the name of a written outlet, and where rules have written it to
the same place. -/
theorem carries_iff (hl : c.tree.Linked) (h : Outlet.Apart c.outlets) : Carries c name ↔
    (∃ o ∈ c.outlets, o.name = name ∧ ∃ x, o.node = some x ∧ Written c.tree x) ∨
      ∃ x, Written c.tree x ∧ (outletKey, name) ∈ (c.tree.node x).attributes := by
  -- by tags first, and then by what stands in them
  have htags : Carries c name ↔ ∃ x, Written c.tree x ∧
      (outletOf? c.outlets x = some name ∨ (outletKey, name) ∈ (c.tree.node x).attributes) := by
    constructor
    · rintro ⟨tag, htag, hname⟩
      obtain ⟨x, hx, rfl⟩ := (mem_tags_document hl).1 htag
      exact ⟨x, hx, mem_attributes_iff.1 hname⟩
    · rintro ⟨x, hx, hname⟩
      exact ⟨_, (mem_tags_document hl).2 ⟨x, hx, rfl⟩, mem_attributes_iff.2 hname⟩
  rw [htags]
  constructor
  · rintro ⟨x, hx, houtlet | hown⟩
    · obtain ⟨o, ho, hnode, hname⟩ := (outletOf?_eq_some_iff h).1 houtlet
      exact Or.inl ⟨o, ho, hname, x, hnode, hx⟩
    · exact Or.inr ⟨x, hx, hown⟩
  · rintro (⟨o, ho, hname, x, hnode, hx⟩ | ⟨x, hx, hown⟩)
    · exact ⟨x, hx, Or.inl ((outletOf?_eq_some_iff h).2 ⟨o, ho, hnode, hname⟩)⟩
    · exact ⟨x, hx, Or.inr hown⟩

end Html

/-! ## The binding -/

namespace TypeScript

/-- A binding relies on an outlet that it declares without a question mark. -/
def Requires (c : Compilation α) (o : Outlet) : Prop :=
  o ∈ c.outlets ∧ line 1 (member o) = declaration o.name o.typeName

theorem member_eq_iff (o : Outlet) :
    line 1 (member o) = declaration o.name o.typeName ↔ o.isOptional = false := by
  unfold declaration line Output.indented member
  cases o.isOptional with
  | false => simp
  | true =>
    simp only [Bool.true_eq_false, iff_false]
    intro h
    -- behind the name one text goes on with a question mark, and the other with a colon
    have hlist := congrArg String.toList h
    simp [String.toList_append] at hlist

/-- What there is in the fragment for an outlet that the binding relies on. -/
structure Landmark (c : Compilation α) (o : Outlet) : Prop where
  /-- The interface has a line for it. -/
  declared : declaration o.name o.typeName ∈ members (code c)
  /-- It has a node, whose tag carries its name. -/
  node : ∃ n, o.node = some n ∧ n < c.tree.size ∧
    (Html.outletKey, o.name) ∈ (Html.tagOf c.tree c.outlets n).2
  /-- The name can be found when this tag is written, or that of another outlet with the same
  spelling, or when rules have written it to the same place. -/
  carried_iff : Html.Carries c o.name ↔
    (∃ o' ∈ c.outlets, o'.name = o.name ∧ ∃ x, o'.node = some x ∧ Html.Written c.tree x) ∨
      ∃ x, Html.Written c.tree x ∧ (Html.outletKey, o.name) ∈ (c.tree.node x).attributes

variable [Scalar α] {setting : Setting α} {file : String} {root : Element}
  {primary : Compilation α}

/-- An outlet that the binding of a layout and its variants relies on is found in the fragment of
the layout exactly when an outlet of its name is written, or rules have written the name themselves.
All of them are found when the void elements of the tree are without children. -/
theorem landmark_of_merge (h : Compilation.ofElement setting file root = .ok primary)
    (others : List (Compilation α)) :
    (∀ o, Requires (primary.merge others) o → Landmark (primary.merge others) o) ∧
      ((∀ p, (primary.tree.node p).name ∈ Html.voidNames → (primary.tree.node p).children = []) →
        ∀ o, Requires (primary.merge others) o → Html.Carries (primary.merge others) o.name) := by
  have hl : (primary.merge others).tree.Linked := by
    obtain ⟨child, s, -, hadded, rfl⟩ := Compilation.exists_pass h
    rw [Compilation.tree_merge]
    exact hadded.compiled.linked
  have hapart := Compilation.apart_merge (Compilation.apart_of_ofElement h) others
  have hnode : ∀ o, Requires (primary.merge others) o →
      ∃ n, o.node = some n ∧ n < (primary.merge others).tree.size := by
    rintro o ⟨ho, hmember⟩
    have hopt := (member_eq_iff o).1 hmember
    -- what is not optional has not been touched by merging
    rcases Compilation.mem_merge ho with ⟨own, hown, -, -, heq⟩ | ⟨hoptional, -⟩
    · obtain rfl := heq hopt
      obtain ⟨-, n, hn, hnamed⟩ := Compilation.served_of_ofElement h own hown
      rw [Compilation.tree_merge]
      exact ⟨n, hn, Tree.lt_size_of_ident hnamed⟩
    · rw [hopt] at hoptional
      cases hoptional
  refine ⟨fun o hrequired => ?_, fun hbare o hrequired => ?_⟩
  · obtain ⟨n, hn, hlt⟩ := hnode o hrequired
    refine ⟨?_, ⟨n, hn, hlt, ?_⟩, Html.carries_iff hl hapart⟩
    · rw [members_code, ← hrequired.2]
      exact List.mem_cons_of_mem _ (List.mem_map.2 ⟨o, hrequired.1, rfl⟩)
    · exact Html.mem_attributes_iff.2
        (Or.inl ((Html.outletOf?_eq_some_iff hapart).2 ⟨o, hrequired.1, hn, rfl⟩))
  · obtain ⟨n, hn, hlt⟩ := hnode o hrequired
    rw [← Compilation.tree_merge primary others] at hbare
    rw [Html.carries_iff hl hapart]
    exact Or.inl ⟨o, hrequired.1, rfl, n, hn, .of_bare hl hbare hlt⟩

end TypeScript

namespace Sample

open Compilation TypeScript

/-- The rules of the platform for fragments. -/
def web : Setting ℚ :=
  { book := RuleBook.builtin .web, resources := {}, options := { target := .web } }

/-- A field, which becomes a void element, with a text in it. -/
def field : Element :=
  { tag := "EditText"
    attributes := SortedMap.ofList [("android:id", "@+id/field")]
    children := [{ tag := "TextView"
                   attributes := SortedMap.ofList [("android:id", "@+id/inner")] }] }

theorem landmark_of_field : ∃ primary : Compilation ℚ,
    ofElement web "layout/main.xml" field = .ok primary ∧
    ∃ o ∈ (primary.merge [primary]).outlets, o.name = "inner" ∧
      Landmark (primary.merge [primary]) o ∧ ¬ Html.Carries (primary.merge [primary]) "inner" ∧
      ∃ n, o.node = some n ∧ ¬ Html.Written (primary.merge [primary]).tree n := by
  have hrun : (ofElement web "layout/main.xml" field).toOption.any (fun primary =>
      decide ((primary.merge [primary]).outlets =
        [{ name := "field", typeName := "HTMLInputElement", node := some 0 },
         { name := "inner", typeName := "HTMLSpanElement", node := some 1 }] ∧
        tagsOf (Html.document (primary.merge [primary])) =
          [("input", [("type", "text"), ("data-outlet", "field")])])) = true := by
    decide +kernel
  obtain ⟨primary, hprimary, hmerged⟩ := exists_ok hrun
  obtain ⟨houtlets, htags⟩ := of_decide_eq_true hmerged
  have hmem : { name := "inner", typeName := "HTMLSpanElement", node := some 1 } ∈
      (primary.merge [primary]).outlets := by
    rw [houtlets]
    decide
  have hlandmark := (landmark_of_merge hprimary [primary]).1 _ ⟨hmem, (member_eq_iff _).2 rfl⟩
  have hlost : ¬ Html.Carries (primary.merge [primary]) "inner" := by
    unfold Html.Carries
    rw [htags]
    decide
  refine ⟨primary, hprimary, _, hmem, rfl, hlandmark, hlost, 1, rfl, fun hwritten => ?_⟩
  exact hlost (hlandmark.carried_iff.2 (Or.inl ⟨_, hmem, rfl, 1, rfl, hwritten⟩))

end Sample

end LayoutCompiler
