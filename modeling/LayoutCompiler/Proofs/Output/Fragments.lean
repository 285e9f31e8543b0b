import LayoutCompiler.Output.Html
import LayoutCompiler.Proofs.Data.Maps
import LayoutCompiler.Proofs.Data.Relation
import LayoutCompiler.Proofs.Markup.Nesting
import LayoutCompiler.Proofs.Number.Rational
import LayoutCompiler.Proofs.Tree.Ancestry
/-!
# Fragments read back

The element that shows a node has the name of the node, its text, its attributes with its style
and the name of its outlet among them, and elements that show the children of the node in their
order. Writing a tree and reading what was written gives the one element that shows its root, when
the names are names of markup and no text begins or ends with a blank.

* `Attributed`: the attributes of an element, with the text of declarations and the name of an outlet
  said outright.
* `Shows.unique`: there is no more than one element that shows a node.
* `parse_write_of_legible`: what is written is read back.
-/

namespace LayoutCompiler

/-- `c` is a child in the list of `p`. -/
def Tree.Down {α : Type} (t : Tree α) (p c : Nat) : Prop := c ∈ (t.node p).children

namespace Html

open Markup (Fragment)

variable {α : Type} {c : Compilation α} {n : Node} {outlet : Option String} {id r : Nat}

/-! ## What an element shows -/

/-- Declarations in one text: properties, each with its value behind a colon, and semicolons between
them. -/
inductive Declarations : List (String × String) → String → Prop
  | last (property value : String) : Declarations [(property, value)] (property ++ ": " ++ value)
  | cons {rest : List (String × String)} {text : String} (property value : String)
    (h : Declarations rest text) :
    Declarations ((property, value) :: rest) (property ++ ": " ++ value ++ "; " ++ text)

/-- A node goes by the name of the last of its outlets. -/
def GoesBy (outlets : List Outlet) (id : Nat) (name : String) : Prop :=
  ∃ before o behind, outlets = before ++ o :: behind ∧ o.node = some id ∧ o.name = name ∧
    ∀ other ∈ behind, other.node ≠ some id

/-- The attributes of the element for a node: its own, its style declarations if it has any, and the
name that it goes by if it has outlets. -/
structure Attributed (n : Node) (outlets : List Outlet) (id : Nat) (attributes : Attributes) :
    Prop where
  own : ∀ key, key ∉ ["style", "data-outlet"] → attributes.get? key = n.attributes.lookup key
  style : ∀ text, attributes.get? "style" = some text ↔ Declarations n.style text
  outlet : ∀ name, attributes.get? "data-outlet" = some name ↔ GoesBy outlets id name

/-- An element shows a node and what is below it. -/
inductive Shows (c : Compilation α) : Element → Nat → Prop where
  | intro {e : Element} {id : Nat} (tag : e.tag = (c.tree.node id).name)
    (attributes : Attributed (c.tree.node id) c.outlets id e.attributes)
    (text : e.text = (c.tree.node id).text.getD "")
    (children : List.Forall₂ (Shows c) e.children (c.tree.node id).children) : Shows c e id

/-- What a node must be so that its element is read back. -/
structure LegibleNode (n : Node) : Prop where
  name : Markup.isName n.name = true
  keys : ∀ a ∈ n.attributes, Markup.isName a.1 = true ∧ Markup.declaresNamespace a.1 = false
  reserved : ∀ a ∈ n.attributes, a.1 ∉ ["style", "data-outlet"]
  distinct : (n.attributes.map Prod.fst).Nodup
  trimmed : ∀ s, n.text = some s → Text.trimBy Text.isMarkupBlank s.toList = s.toList
  bare : n.name ∈ voidNames → n.text = none ∧ n.children = []

theorem Attributed.unique {outlets : List Outlet} {attributes attributes' : Attributes}
    (h : Attributed n outlets id attributes) (h' : Attributed n outlets id attributes') :
    attributes = attributes' := by
  refine SortedMap.ext_get? fun key => ?_
  by_cases hkey : key ∈ ["style", "data-outlet"]
  · rcases List.mem_pair.1 hkey with rfl | rfl
    · exact Option.ext fun text => (h.style text).trans (h'.style text).symm
    · exact Option.ext fun name => (h.outlet name).trans (h'.outlet name).symm
  · rw [h.own key hkey, h'.own key hkey]

/-- There is no more than one element that shows a node. -/
theorem Shows.unique {e e' : Element} (h : Shows c e id)
    (hfinite : Acc (fun x p => c.tree.Down p x) id) (h' : Shows c e' id) : e = e' := by
  induction hfinite generalizing e e' with
  | intro id _ ih =>
    obtain ⟨tag, attributes, text, children⟩ := h
    obtain ⟨tag', attributes', text', children'⟩ := h'
    have hchildren : e.children = e'.children :=
      forall₂_unique_of_mem (fun x hx _ _ hshows hshows' => ih x hx hshows hshows')
        (List.Forall₂.flip (R := flip (Shows c)) children)
        (List.Forall₂.flip (R := flip (Shows c)) children')
    have hattributes : e.attributes = e'.attributes := attributes.unique attributes'
    obtain ⟨_, _, _, _⟩ := e
    obtain ⟨_, _, _, _⟩ := e'
    rw [Element.mk.injEq]
    exact ⟨tag.trans tag'.symm, hattributes, hchildren, text.trans text'.symm⟩

/-! ## Attributes -/

theorem declarations_iff {declarations : List (String × String)} {text : String} :
    Declarations declarations text ↔ declarations ≠ [] ∧ text = styleText declarations := by
  -- a text of declarations ends with the last one, or has a semicolon behind the first
  induction declarations generalizing text with
  | nil => exact ⟨nofun, fun h => absurd rfl h.1⟩
  | cons declaration rest ih =>
    obtain ⟨property, value⟩ := declaration
    have hfirst : styleText ((property, value) :: rest) =
        if rest = [] then property ++ ": " ++ value
        else property ++ ": " ++ value ++ "; " ++ styleText rest := by
      unfold styleText Text.join
      split
      · rename_i hrest
        rw [hrest]
        exact String.intercalate_singleton
      · rename_i hrest
        exact String.intercalate_cons_of_ne_nil (mt List.map_eq_nil_iff.1 hrest)
    rw [hfirst]
    constructor
    · intro h
      cases h with
      | last => exact ⟨List.cons_ne_nil _ _, rfl⟩
      | cons _ _ h =>
        obtain ⟨hrest, rfl⟩ := ih.1 h
        exact ⟨List.cons_ne_nil _ _, (if_neg hrest).symm⟩
    · rintro ⟨-, rfl⟩
      by_cases hrest : rest = []
      · subst hrest
        exact .last property value
      · rw [if_neg hrest]
        exact .cons property value (ih.2 ⟨hrest, rfl⟩)

theorem outletOf?_iff_goesBy {outlets : List Outlet} {name : String} :
    outletOf? outlets id = some name ↔ GoesBy outlets id name := by
  unfold outletOf? GoesBy
  rw [List.getLast?_filter, Option.map_eq_some_iff]
  -- the last outlet of the node is the first one from behind
  simp only [List.find?_eq_some_iff_append]
  constructor
  · rintro ⟨o, ⟨hnode, behind, before, hsplit, hbehind⟩, hname⟩
    refine ⟨before.reverse, o, behind.reverse, ?_, beq_iff_eq.1 hnode, hname, fun x hx => ?_⟩
    · rw [← List.reverse_inj, hsplit]
      simp
    · simpa using hbehind x (List.mem_reverse.1 hx)
  · rintro ⟨before, o, behind, rfl, hnode, hname, hbehind⟩
    refine ⟨o, ⟨beq_iff_eq.2 hnode, behind.reverse, before.reverse, by simp, fun x hx => ?_⟩, hname⟩
    simpa using hbehind x (List.mem_reverse.1 hx)

/-- What a node's element has besides the attributes of the node. -/
def added (n : Node) (outlet : Option String) : List (String × String) :=
  (if n.style.isEmpty then [] else [(styleKey, styleText n.style)]) ++
    (outlet.map fun name => (outletKey, name)).toList

theorem attributes_eq (n : Node) (outlet : Option String) :
    attributes n outlet = n.attributes ++ added n outlet := List.append_assoc _ _ _

theorem keys_added (n : Node) (outlet : Option String) :
    ((added n outlet).map Prod.fst).Sublist ["style", "data-outlet"] := by
  unfold added
  cases n.style.isEmpty <;> cases outlet <;> simp [styleKey, outletKey]

theorem lookup_added_style {text : String} :
    (added n outlet).lookup "style" = some text ↔ Declarations n.style text := by
  rw [declarations_iff, eq_comm (a := text)]
  unfold added
  cases n.style <;> cases outlet <;> simp [List.lookup_cons, styleKey, outletKey]

theorem lookup_added_outlet : (added n outlet).lookup "data-outlet" = outlet := by
  unfold added
  cases n.style <;> cases outlet <;> simp [List.lookup_cons, styleKey, outletKey]

namespace LegibleNode

theorem tag (h : LegibleNode n) (outlet : Option String) :
    Markup.LegibleTag n.name (attributes n outlet) where
  name := h.name
  keys := by
    intro a ha
    rw [attributes_eq, List.mem_append] at ha
    rcases ha with ha | ha
    · exact h.keys a ha
    · have hkey := (keys_added n outlet).subset (List.mem_map_of_mem ha)
      simp only [List.mem_cons, List.not_mem_nil, or_false] at hkey
      rcases hkey with hkey | hkey <;> rw [hkey] <;> decide
  distinct := by
    rw [attributes_eq, List.map_append, List.nodup_append']
    refine ⟨h.distinct, (keys_added n outlet).nodup (by decide), fun key hkey hadded => ?_⟩
    obtain ⟨a, ha, rfl⟩ := List.mem_map.1 hkey
    exact h.reserved a ha ((keys_added n outlet).subset hadded)

/-- What is written is what the element of the node has to carry. -/
theorem attributed (h : LegibleNode n) (outlets : List Outlet) (id : Nat) :
    Attributed n outlets id (SortedMap.ofList (attributes n (outletOf? outlets id))) := by
  have hget : ∀ key, (SortedMap.ofList (attributes n (outletOf? outlets id))).get? key =
      (n.attributes.lookup key).or ((added n (outletOf? outlets id)).lookup key) := by
    intro key
    rw [SortedMap.get?_ofList (h.tag _).distinct, attributes_eq, List.lookup_append]
  -- what is added never meets an attribute of the node
  have hreserved : ∀ key ∈ ["style", "data-outlet"], n.attributes.lookup key = none := by
    intro key hkey
    rw [List.lookup_eq_none_iff]
    intro a ha
    exact bne_iff_ne.2 fun heq => h.reserved a ha (heq ▸ hkey)
  constructor
  · intro key hkey
    have hnone : (added n (outletOf? outlets id)).lookup key = none := by
      rw [List.lookup_eq_none_iff]
      intro a ha
      refine bne_iff_ne.2 fun heq => hkey ?_
      rw [heq]
      exact (keys_added n _).subset (List.mem_map_of_mem ha)
    rw [hget, hnone, Option.or_none]
  · intro text
    rw [hget, hreserved "style" (by decide), Option.none_or, lookup_added_style]
  · intro name
    rw [hget, hreserved "data-outlet" (by decide), Option.none_or, lookup_added_outlet,
      outletOf?_iff_goesBy]

end LegibleNode

/-! ## Markup -/

/-- Markup that is made of tags alone shows nodes of a compilation, one after another. -/
structure Depicts (c : Compilation α) (fs : List Fragment) (ids : List Nat) : Prop where
  tags : ∀ f ∈ fs, f.Legible ∧ f.isText = false
  shows : List.Forall₂ (Shows c) (Markup.elementsIn fs) ids

theorem Depicts.nil (c : Compilation α) : Depicts c [] [] := ⟨fun _ hf => (nomatch hf), .nil⟩

theorem Depicts.append {fs gs : List Fragment} {ids ids' : List Nat} (h : Depicts c fs ids)
    (h' : Depicts c gs ids') : Depicts c (fs ++ gs) (ids ++ ids') where
  tags := fun f hf => (List.mem_append.1 hf).elim (h.tags f) (h'.tags f)
  shows := by
    rw [Markup.elementsIn_append]
    exact List.rel_append h.shows h'.shows

theorem depicts_flatMap {g : Nat → List Fragment} {ids : List Nat}
    (h : ∀ x ∈ ids, Depicts c (g x) [x]) : Depicts c (ids.flatMap g) ids := by
  induction ids with
  | nil => exact Depicts.nil c
  | cons x ids ih =>
    obtain ⟨hx, hids⟩ := List.forall_mem_cons.1 h
    exact hx.append (ih hids)

/-- The content of an element is the text of its node in front of the markup of the children. -/
theorem content_of_tags (hn : LegibleNode n) {fs : List Fragment}
    (h : ∀ f ∈ fs, f.Legible ∧ f.isText = false) :
    Markup.LegibleContent ((n.text.map Fragment.text).toList ++ fs) ∧
      Markup.saidIn ((n.text.map Fragment.text).toList ++ fs) = n.text.getD "" ∧
      Markup.elementsIn ((n.text.map Fragment.text).toList ++ fs) = Markup.elementsIn fs := by
  obtain ⟨hcontent, hsaid⟩ := Markup.legibleContent_of_tags h
  cases htext : n.text with
  | none => exact ⟨hcontent, hsaid, rfl⟩
  | some s =>
    refine ⟨⟨hn.trimmed s htext, fun _ g hg => (h g (List.mem_of_mem_head? hg)).2, hcontent⟩, ?_,
      rfl⟩
    show s ++ Markup.saidIn fs = s
    rw [hsaid, String.append_empty]

/-- The markup of a node shows it when the markup inside of it shows its children. -/
theorem Depicts.node (hn : LegibleNode (c.tree.node id)) {fs : List Fragment}
    (h : Depicts c fs (c.tree.node id).children) :
    Depicts c [nodeFragment (c.tree.node id) (outletOf? c.outlets id) fs] [id] := by
  have htag := hn.tag (outletOf? c.outlets id)
  have hattributes := hn.attributed c.outlets id
  unfold nodeFragment
  split
  -- a void tag has no room for content, and a legible node of its name has none
  · rename_i hvoid
    obtain ⟨htext, hchildren⟩ := hn.bare (List.contains_iff_mem.1 hvoid)
    refine ⟨by simpa using ⟨htag, rfl⟩, .cons (.intro rfl hattributes ?_ ?_) .nil⟩
    · rw [htext]
      rfl
    · rw [hchildren]
      exact .nil
  · obtain ⟨hcontent, hsaid, helements⟩ := content_of_tags hn h.tags
    refine ⟨by simpa using ⟨⟨htag, hcontent⟩, rfl⟩, .cons (.intro rfl hattributes hsaid ?_) .nil⟩
    show List.Forall₂ (Shows c) (Markup.elementsIn _) _
    rw [helements]
    exact h.shows

/-! ## Depth -/

/-- Nothing is below itself where every way downwards ends. -/
theorem not_below_self {t : Tree α} {x : Nat} (h : Acc (fun x p => t.Down p x) x) :
    ¬ Relation.TransGen t.Down x x := by
  induction h with
  | intro x _ ih =>
    intro hself
    obtain ⟨y, hy, hback⟩ := Relation.TransGen.head'_iff.1 hself
    exact ih y hy (Relation.TransGen.tail' hback hy)

theorem LegibleNode.lt_size {t : Tree α} {x : Nat} (h : LegibleNode (t.node x)) : x < t.size := by
  by_contra hx
  have hname := h.name
  rw [Tree.node_eq_default (Nat.le_of_not_lt hx)] at hname
  cases hname

/-- The depth to which a tree is written is never met: above a node there are as many others as
levels have been used up. -/
theorem depicts_fragments (hfinite : Acc (fun x p => c.tree.Down p x) id)
    (hlegible : ∀ x, Relation.ReflTransGen c.tree.Down id x → LegibleNode (c.tree.node x))
    {above : List Nat} (honce : above.Nodup)
    (habove : ∀ x ∈ above, x < c.tree.size ∧ Relation.TransGen c.tree.Down x id) {levels : Nat}
    (hlevels : c.tree.size ≤ above.length + levels) :
    Depicts c (fragments c.tree c.outlets levels id) [id] := by
  induction hfinite generalizing above levels with
  | intro id hchildren ih =>
    -- the node is none of those above it, and all of them are nodes of the arena
    have hfresh : id ∉ above := fun hmem =>
      not_below_self (Acc.intro id hchildren) (habove id hmem).2
    have honce' : (id :: above).Nodup := List.nodup_cons.2 ⟨hfresh, honce⟩
    have hid : id < c.tree.size := (hlegible id .refl).lt_size
    have hroom : (id :: above).length ≤ c.tree.size := by
      have hsub : id :: above ⊆ List.range c.tree.size := by
        intro x hx
        rw [List.mem_range]
        rcases List.mem_cons.1 hx with rfl | hx
        · exact hid
        · exact (habove x hx).1
      have hle := (honce'.subperm hsub).length_le
      rwa [List.length_range] at hle
    obtain ⟨levels, rfl⟩ : ∃ levels', levels = levels' + 1 := by
      refine Nat.exists_eq_succ_of_ne_zero fun hzero => ?_
      rw [List.length_cons] at hroom
      omega
    rw [fragments]
    refine Depicts.node (hlegible id .refl) (depicts_flatMap fun x hx => ?_)
    have hdown : c.tree.Down id x := hx
    refine ih x hdown (fun y hy => hlegible y (hy.head hdown)) honce' ?_ ?_
    · intro y hy
      rcases List.mem_cons.1 hy with rfl | hy
      · exact ⟨hid, .single hdown⟩
      · exact ⟨(habove y hy).1, (habove y hy).2.tail hdown⟩
    · rw [List.length_cons]
      omega

/-- What is written of a compilation is read back as the one element that shows its root. A tree
whose links lead back to where they came from has no text to be written, so every way downwards
from the root has to end. -/
theorem parse_write_of_legible (hroot : c.tree.root = some r)
    (hfinite : Acc (fun x p => c.tree.Down p x) r)
    (hlegible : ∀ x, Relation.ReflTransGen c.tree.Down r x → LegibleNode (c.tree.node x))
    (file : String) :
    ∃ e, (∀ e', Shows c e' r ↔ e' = e) ∧ Markup.parse (write c) file = .ok e := by
  have hdepicts := depicts_fragments hfinite hlegible List.nodup_nil (fun x hx => nomatch hx)
    (Nat.le_of_eq (Nat.zero_add c.tree.size).symm)
  -- the tree has a root, so there is at least one level and one fragment
  have hsize : c.tree.size ≠ 0 := Nat.ne_of_gt (Nat.zero_lt_of_lt (hlegible r .refl).lt_size)
  obtain ⟨levels, hlevels⟩ := Nat.exists_eq_succ_of_ne_zero hsize
  obtain ⟨f, hf⟩ : ∃ f, fragments c.tree c.outlets c.tree.size r = [f] := by
    rw [hlevels]
    exact ⟨_, rfl⟩
  have hpieces : Markup.piecesOf (document c) = f.pieces := by
    unfold document
    rw [hroot]
    simp only [hf, Markup.piecesOf, List.append_nil]
  rw [hf] at hdepicts
  obtain ⟨htags, hshows⟩ := hdepicts
  rw [Markup.elementsIn, Markup.elementsIn, List.append_nil] at hshows
  obtain ⟨e, rest, he, hrest, helements⟩ := List.forall₂_cons_right_iff.1 hshows
  rw [List.forall₂_nil_right_iff.1 hrest] at helements
  refine ⟨e, fun e' => ⟨fun he' => he'.unique hfinite he, fun heq => heq ▸ he⟩, ?_⟩
  rw [write, hpieces]
  exact Markup.parse_write width (htags f List.mem_cons_self).1 helements file

/-- A heading and a picture behind some text, with characters that have to be escaped. -/
def card : Compilation ℚ where
  name := "card"
  file := "layout/card.xml"
  tree :=
    { nodes := #[
        { name := "div", children := [1, 2], text := some "Shows:",
          style := [("display", "flex"), ("flex-direction", "column")] },
        { name := "span", parent := some 0, text := some "Tom & Jerry",
          attributes := [("title", "a \"cat\" > a mouse")] },
        { name := "img", parent := some 0, attributes := [("src", "logo.png")] }]
      root := some 0
      ids := { seed := "layout/card.xml" } }
  outlets := [{ name := "heading", typeName := "HTMLElement", node := some 1 },
    { name := "title", typeName := "HTMLSpanElement", node := some 1 }]

theorem reaches_card {x : Nat} (h : Relation.ReflTransGen card.tree.Down 0 x) : x ∈ [0, 1, 2] := by
  have hclosed : ∀ p ∈ [0, 1, 2], ∀ x ∈ (card.tree.node p).children, x ∈ [0, 1, 2] := by decide
  induction h with
  | refl => decide
  | tail _ hdown ih => exact hclosed _ ih _ hdown

theorem acc_card : Acc (fun x p => card.tree.Down p x) 0 := by
  -- below the heading and the picture there is nothing
  have hleaf : ∀ x ∈ [1, 2], Acc (fun x p => card.tree.Down p x) x := by
    intro x hx
    refine Acc.intro x fun y hy => ?_
    have hnone : ∀ x ∈ [1, 2], (card.tree.node x).children = [] := by decide
    exact absurd hy (by rw [Tree.Down, hnone x hx]; exact List.not_mem_nil)
  exact Acc.intro 0 fun x hx => hleaf x hx

theorem legible_card {x : Nat} (h : x ∈ [0, 1, 2]) : LegibleNode (card.tree.node x) := by
  have hname : ∀ x ∈ [0, 1, 2], Markup.isName (card.tree.node x).name = true := by decide
  have hkeys : ∀ x ∈ [0, 1, 2], ∀ a ∈ (card.tree.node x).attributes,
      Markup.isName a.1 = true ∧ Markup.declaresNamespace a.1 = false := by decide
  have hreserved : ∀ x ∈ [0, 1, 2], ∀ a ∈ (card.tree.node x).attributes,
      a.1 ∉ ["style", "data-outlet"] := by decide
  have hdistinct : ∀ x ∈ [0, 1, 2], ((card.tree.node x).attributes.map Prod.fst).Nodup := by decide
  have htrimmed : ∀ x ∈ [0, 1, 2], ∀ s ∈ (card.tree.node x).text,
      Text.trimBy Text.isMarkupBlank s.toList = s.toList := by decide
  have hbare : ∀ x ∈ [0, 1, 2], (card.tree.node x).name ∈ voidNames →
      (card.tree.node x).text = none ∧ (card.tree.node x).children = [] := by decide
  exact ⟨hname x h, hkeys x h, hreserved x h, hdistinct x h, htrimmed x h, hbare x h⟩

theorem parse_write_card :
    ∃ e, (∀ e', Shows card e' 0 ↔ e' = e) ∧ Markup.parse (write card) "card.html" = .ok e ∧
      e.attributes.get? "style" = some "display: flex; flex-direction: column" ∧
      ∃ heading picture, e.children = [heading, picture] ∧
        heading.attributes.get? "data-outlet" = some "title" ∧
        picture.attributes.get? "data-outlet" = none := by
  obtain ⟨e, hshows, hparse⟩ :=
    parse_write_of_legible rfl acc_card (fun x hx => legible_card (reaches_card hx)) "card.html"
  obtain ⟨-, hroot, -, hchildren⟩ := (hshows e).2 rfl
  obtain ⟨heading, rest, hheading, hrest, hsplit⟩ := List.forall₂_cons_right_iff.1 hchildren
  obtain ⟨picture, nothing, hpicture, hnothing, rfl⟩ := List.forall₂_cons_right_iff.1 hrest
  obtain rfl := List.forall₂_nil_right_iff.1 hnothing
  obtain ⟨-, htitle, -, -⟩ := hheading
  obtain ⟨-, hlogo, -, -⟩ := hpicture
  refine ⟨e, hshows, hparse,
    (hroot.style _).2 (.cons "display" "flex" (.last "flex-direction" "column")),
    heading, picture, hsplit, (htitle.outlet "title").2 ⟨[_], _, [], rfl, rfl, rfl, nofun⟩, ?_⟩
  -- neither outlet is one of the picture
  rw [Option.eq_none_iff_forall_ne_some]
  intro name hname
  obtain ⟨before, o, behind, houtlets, hnode, -⟩ := (hlogo.outlet name).1 hname
  have hothers : ∀ o ∈ card.outlets, o.node ≠ some 2 := by decide
  exact hothers o (houtlets ▸ List.mem_append_right before List.mem_cons_self) hnode

end Html

end LayoutCompiler
