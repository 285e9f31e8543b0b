import LayoutCompiler.Proofs.Output.Tags
import LayoutCompiler.Proofs.Resource.Listing
import LayoutCompiler.Proofs.Rule.Builtin
/-!
# References in documents

A document for Interface Builder refers to colors and images by their names, and declares those in
use at its end. The names are written by attribute rules; what is declared is found by the keys of
the values that such rules were applied to. With the rules of the platform the two agree: a rule
that writes a name into the place of a reference is one for values with this name.

* `governs_backed`: the built-in rules refer to what is in use.
* `declares_of_merge`: what a document refers to it declares, also with other variants merged in.
-/

namespace LayoutCompiler

open Markup (Fragment Tag)

variable {α : Type}

/-! ## Values by kind -/

namespace ValueKind

/-- Nothing but a color with a name serves as one. -/
theorem eq_of_isA_color {kind other : ValueKind} (h : kind.isA other = true)
    (hother : other ∈ [colorResource, colorStateResource]) :
    kind ∈ [colorResource, colorStateResource] := by
  have table : ∀ kind ∈ all, ∀ other ∈ [colorResource, colorStateResource],
      kind.isA other = true → kind ∈ [colorResource, colorStateResource] := by decide
  exact table kind (mem_all kind) other hother h

/-- Nothing but an image serves as one. -/
theorem eq_of_isA_image {kind other : ValueKind} (h : kind.isA other = true)
    (hother : other ∈ [bitmapDrawable, vectorDrawable]) :
    kind ∈ [bitmapDrawable, vectorDrawable] := by
  have table : ∀ kind ∈ all, ∀ other ∈ [bitmapDrawable, vectorDrawable],
      kind.isA other = true → kind ∈ [bitmapDrawable, vectorDrawable] := by decide
  exact table kind (mem_all kind) other hother h

end ValueKind

namespace Value

/-- A value of the kind of a color with a name is one. -/
theorem exists_color {v : Value α} (h : v.kind ∈ [.colorResource, .colorStateResource]) :
    (∃ name c, v = .drawable (.namedColor name c)) ∨
      ∃ name states, v = .drawable (.stateColor name states) := by
  cases v with
  | drawable d =>
    cases d with
    | namedColor name c => exact Or.inl ⟨name, c, rfl⟩
    | stateColor name states => exact Or.inr ⟨name, states, rfl⟩
    | _ => exact absurd h (by simp [kind, Drawable.kind])
  | font f => cases f <;> exact absurd h (by simp [kind])
  | _ => exact absurd h (by simp [kind])

/-- A value of the kind of an image is one. -/
theorem exists_image {v : Value α} (h : v.kind ∈ [.bitmapDrawable, .vectorDrawable]) :
    ∃ name file, v = .drawable (.bitmap name file) ∨ v = .drawable (.vector name file) := by
  cases v with
  | drawable d =>
    cases d with
    | bitmap name file => exact ⟨name, file, Or.inl rfl⟩
    | vector name file => exact ⟨name, file, Or.inr rfl⟩
    | _ => exact absurd h (by simp [kind, Drawable.kind])
  | font f => cases f <;> exact absurd h (by simp [kind])
  | _ => exact absurd h (by simp [kind])

end Value

namespace Emission.WritesName

variable [Scalar α] {setting : Setting α} {scope : Scope} {v : Value α} {e : Emission}
  {r : Rendering α} {name : String}

/-- The text of the emission is the answer of the value to the question for its name. -/
theorem render_eq (h : e.WritesName) (hoverrides : setting.options.overrides = SortedMap.empty)
    (hr : Compile.Renders setting scope v e r) (hname : v.get? "name" = some (.text name)) :
    r.render e.template = name := by
  have hparts : Template.parse "~name~" = ⟨[.hole "name"]⟩ := by rfl
  have hsegments : Template.segments "name" = ["name"] := by rfl
  cases hr with
  | state hkind => exact absurd hkind h.whole
  | whole =>
    -- nothing overrides the hole, so it is filled with the name that the value has
    have hresolve : (Compile.valueRendering setting v scope SortedMap.empty).resolve? "name" =
        some name := by
      unfold Rendering.resolve? Compile.valueRendering
      rw [hsegments, hoverrides]
      show Option.or none (((v.get? "name").map Rendering.ofField >>= _).map Stop.display) = _
      rw [hname]
      rfl
    unfold Rendering.render Template.write
    rw [h.template, hparts]
    simp [hresolve]

end Emission.WritesName

/-! ## What is in use -/

namespace InterfaceDocument

/-- A reference to a color or to an image leads to a resource in use. -/
def Backed (resources : ResourceTable α) (used : TextSet) : Policy := fun name key value =>
  (name = "color" → key = "name" → ∃ resource, used.contains resource = true ∧
    ∃ c, usedColor? resources resource = some (value, c)) ∧
  (key = "image" → ∃ resource, used.contains resource = true ∧
    usedImage? resources resource = some value)

theorem backed_of_ne {resources : ResourceTable α} {used : TextSet} {key : String}
    (h : key ∉ ["name", "image"]) : (Backed resources used).Frees key := by
  intro _ _
  exact ⟨fun _ hkey => absurd hkey (fun hkey => h (by simp [hkey])),
    fun hkey => absurd hkey (fun hkey => h (by simp [hkey]))⟩

variable [Scalar α] {setting : Setting α} {raw : RawResources α} {used : TextSet} {v : Value α}

/-- What a value with the kind of a color with a name goes by is a color in use. -/
theorem color_in_use (hresolve : raw.resolve = .ok setting.resources) {text : String}
    (hread : setting.resources.read text = .ok v)
    (hused : ∀ key ∈ v.keys, used.contains key = true)
    (hkind : v.kind ∈ [.colorResource, .colorStateResource]) :
    ∃ name, v.get? "name" = some (.text name) ∧ ∃ resource, used.contains resource = true ∧
      ∃ c, usedColor? setting.resources resource = some (name, c) := by
  rcases Value.exists_color hkind with ⟨name, c, rfl⟩ | ⟨name, states, rfl⟩
  · have hlisted := ResourceTable.listed_of_read hresolve hread
    exact ⟨name, rfl, _, hused _ (Drawable.mem_keys_of_resourceKey? rfl),
      usedColor?_of_listed (Or.inl ⟨c, hlisted⟩)⟩
  · have hlisted := ResourceTable.listed_of_read hresolve hread
    exact ⟨name, rfl, _, hused _ (Drawable.mem_keys_of_resourceKey? rfl),
      usedColor?_of_listed (Or.inr ⟨states, hlisted⟩)⟩

/-- What a value with the kind of an image goes by is an image in use. -/
theorem image_in_use (hresolve : raw.resolve = .ok setting.resources) {text : String}
    (hread : setting.resources.read text = .ok v)
    (hused : ∀ key ∈ v.keys, used.contains key = true)
    (hkind : v.kind ∈ [.bitmapDrawable, .vectorDrawable]) :
    ∃ name, v.get? "name" = some (.text name) ∧ ∃ resource, used.contains resource = true ∧
      usedImage? setting.resources resource = some name := by
  obtain ⟨name, file, rfl | rfl⟩ := Value.exists_image hkind
  · have hlisted := ResourceTable.listed_of_read hresolve hread
    exact ⟨name, rfl, _, hused _ (Drawable.mem_keys_of_resourceKey? rfl),
      usedImage?_of_listed (Or.inl hlisted)⟩
  · have hlisted := ResourceTable.listed_of_read hresolve hread
    exact ⟨name, rfl, _, hused _ (Drawable.mem_keys_of_resourceKey? rfl),
      usedImage?_of_listed (Or.inr hlisted)⟩

/-- The rules of the platform refer to what is in use. -/
theorem governs_backed (hbook : setting.book = RuleBook.builtin .ios)
    (hoverrides : setting.options.overrides = SortedMap.empty)
    (hresolve : raw.resolve = .ok setting.resources) :
    Compile.Governs setting (Backed setting.resources) where
  mono used used' hmore name key value h := by
    refine ⟨fun hname hkey => ?_, fun hkey => ?_⟩
    · obtain ⟨resource, hused, hcolor⟩ := h.1 hname hkey
      exact ⟨resource, hmore resource hused, hcolor⟩
    · obtain ⟨resource, hused, himage⟩ := h.2 hkey
      exact ⟨resource, hmore resource hused, himage⟩
  fixed key hkey used := by
    have hfixed : ∀ key ∈ Compile.fixedKeys, key ∉ ["name", "image"] := by decide
    exact backed_of_ne (hfixed key hkey)
  elements := by
    rw [hbook]
    refine RuleBook.forall_elementRules_builtin .ios fun document hdocument rule hrule _ => ?_
    intro b hb key hkey used
    rcases List.mem_pair.1 hdocument with rfl | rfl
    · exact backed_of_ne fun hmem =>
        Rule.Ios.keys_of_mem rule hrule b hb key hkey (List.mem_of_mem_drop (i := 1) hmem)
    · cases hrule
  attributes := by
    have hwrites : ∀ rule ∈ setting.book.attributeRules, ∀ e ∈ rule.emit,
        Rule.Ios.Writes rule.kind e := by
      rw [hbook]
      refine RuleBook.forall_attributeRules_builtin .ios fun document hdocument rule hrule _ => ?_
      rcases List.mem_pair.1 hdocument with rfl | rfl
      · cases hrule
      · exact Rule.Ios.writes_of_mem rule hrule
    have hfree : setting.options.overrides.get? "state" = none := by rw [hoverrides]; rfl
    intro rule hrule text v hread hkind used hused e he scope r hr
    -- a rule that may write a name there is one for values with this name, which is in use
    refine (hwrites rule hrule e he).admits hfree hr (fun key hkey => ?_) ?_
    · subst hkey
      exact backed_of_ne (by decide)
    · intro place key hplace start
      refine ⟨fun hnode hkey => ?_, fun hkey => ?_⟩
      · rcases hplace.name hkey with rfl | ⟨-, hwrite, hcolor⟩
        · rw [Option.getD_some] at hnode
          exact absurd hnode (by decide)
        · obtain ⟨name, hname, hin⟩ := color_in_use hresolve hread hused
            (ValueKind.eq_of_isA_color hkind hcolor)
          rw [hwrite.render_eq hoverrides hr hname]
          exact hin
      · obtain ⟨hwrite, himage⟩ := hplace.image hkey
        obtain ⟨name, hname, hin⟩ := image_in_use hresolve hread hused
          (ValueKind.eq_of_isA_image hkind himage)
        rw [hwrite.render_eq hoverrides hr hname]
        exact hin

/-! ## Declarations -/

/-- In the resources section of a document stands an element of a kind with a name. -/
def Declares (document : Fragment) (kind name : String) : Prop :=
  ∃ attributes content declarations own, document = .element "document" attributes content ∧
    .element "resources" [] declarations ∈ content ∧ ("name", name) ∈ own ∧
      (.void kind own ∈ declarations ∨ ∃ inside, .element kind own inside ∈ declarations)

/-- What the tags of a tree refer to is declared: for the name of a color there is a color with
that name, and for an image there is one. -/
structure Closed (document : Fragment) (tags : List Tag) : Prop where
  color : ∀ attributes, ("color", attributes) ∈ tags → ∀ name, ("name", name) ∈ attributes →
    Declares document "namedColor" name
  image : ∀ element attributes, (element, attributes) ∈ tags → ∀ name,
    ("image", name) ∈ attributes → Declares document "image" name

variable {c : Compilation α} {resources : ResourceTable α} {skeleton : Skeleton}

omit [Scalar α] in
theorem mem_toList_used {resource : String} (h : used.contains resource = true) :
    resource ∈ used.toList :=
  SortedMap.mem_keys_iff.2 h

variable (skeleton) in
/-- The images and colors in use stand in the resources section, if there are any. -/
theorem exists_resources {declaration : Fragment}
    (h : declaration ∈ (c.used.toList.filterMap (usedImage? resources)).map imageFragment ++
      (c.used.toList.filterMap (usedColor? resources)).map fun (name, c) => colorFragment name c) :
    ∃ attributes content declarations,
      documentOf c resources skeleton = .element "document" attributes content ∧
      .element "resources" [] declarations ∈ content ∧ declaration ∈ declarations := by
  refine ⟨_, _, _, rfl, List.mem_append_right _ ?_, h⟩
  unfold resourceFragments
  dsimp only
  split
  · rename_i hnil
    rw [hnil] at h
    cases h
  · exact List.mem_singleton_self _

theorem declares_color {resource name : String} {color : Color}
    (hused : c.used.contains resource = true)
    (h : usedColor? resources resource = some (name, color)) :
    Declares (documentOf c resources skeleton) "namedColor" name := by
  have hmem : (name, color) ∈ c.used.toList.filterMap (usedColor? resources) :=
    List.mem_filterMap.2 ⟨resource, mem_toList_used hused, h⟩
  obtain ⟨attributes, content, declarations, hdocument, hsection, hdeclared⟩ :=
    exists_resources skeleton (List.mem_append_right _ (List.mem_map.2 ⟨_, hmem, rfl⟩))
  exact ⟨attributes, content, declarations, [("name", name)], hdocument, hsection,
    List.mem_singleton_self _, Or.inr ⟨_, hdeclared⟩⟩

theorem declares_image {resource name : String} (hused : c.used.contains resource = true)
    (h : usedImage? resources resource = some name) :
    Declares (documentOf c resources skeleton) "image" name := by
  have hmem : name ∈ c.used.toList.filterMap (usedImage? resources) :=
    List.mem_filterMap.2 ⟨resource, mem_toList_used hused, h⟩
  obtain ⟨attributes, content, declarations, hdocument, hsection, hdeclared⟩ :=
    exists_resources skeleton (List.mem_append_left _ (List.mem_map.2 ⟨_, hmem, rfl⟩))
  exact ⟨attributes, content, declarations, _, hdocument, hsection, List.mem_cons_self,
    Or.inl hdeclared⟩

/-- A tree whose references lead to resources in use is closed in its document. -/
theorem Closed.of_respects (hshows : Shows c resources skeleton)
    (h : c.tree.Respects (Backed resources c.used)) :
    Closed (documentOf c resources skeleton) (viewElement c.tree skeleton).tags := by
  -- an attribute of the tag of a node is one of the node, unless it is the identifier
  have hown : ∀ {x : Nat} {key value : String}, (key, value) ∈ attributes (c.tree.node x) →
      key ≠ "id" → Backed resources c.used (c.tree.node x).name key value := by
    intro x key value hmem hkey
    rcases List.mem_append.1 hmem with hmem | hmem
    · obtain ⟨ident, -, heq⟩ := Option.map_eq_some_iff.1 (Option.mem_toList.1 hmem)
      exact absurd (congrArg Prod.fst heq).symm hkey
    · exact h.allowed x _ hmem
  -- the tags for constraints have neither the name of a color nor an image
  constructor
  · intro attributes htag name hname
    obtain ⟨x, -, heq | hconstraint⟩ := (mem_tags_viewElement hshows).1 htag
    · obtain ⟨hnode, rfl⟩ := Prod.mk.inj heq
      obtain ⟨resource, hused, color, hcolor⟩ := (hown hname (by decide)).1 hnode.symm rfl
      exact declares_color hused hcolor
    · rcases of_mem_tags_constraintsElement hconstraint with heq | ⟨k, -, heq⟩
      · exact absurd (Prod.mk.inj heq).1 (by decide)
      · exact absurd (Prod.mk.inj heq).1 (by decide)
  · intro element attributes htag name himage
    obtain ⟨x, -, heq | hconstraint⟩ := (mem_tags_viewElement hshows).1 htag
    · obtain ⟨-, rfl⟩ := Prod.mk.inj heq
      obtain ⟨resource, hused, hin⟩ := (hown himage (by decide)).2 rfl
      exact declares_image hused hin
    · rcases of_mem_tags_constraintsElement hconstraint with heq | ⟨k, -, heq⟩
      · obtain ⟨-, rfl⟩ := Prod.mk.inj heq
        cases himage
      · obtain ⟨-, rfl⟩ := Prod.mk.inj heq
        have hkey : "image" ∈ constraintKeys :=
          (keys_constraintAttributes c.tree x k).subset (List.mem_map_of_mem himage)
        exact absurd hkey (by decide)

omit [Scalar α] in
/-- What is in use is in use after other variants have been merged in. -/
theorem usesMore_merge (primary : Compilation α) (others : List (Compilation α)) :
    Compile.UsesMore primary.used (primary.merge others).used := by
  intro key hkey
  rw [Compilation.merge_eq]
  exact (TextSet.contains_foldl_union fun v : Compilation α => v.used).2 (Or.inl hkey)

/-! ## Main statement -/

variable {file : String} {root : Element} {primary : Compilation α}

/-- With the rules of the platform and without overrides, the document of a layout is closed, for
whatever resources have been resolved and whatever variants have been merged in: every element for a
color that has a name, and every image that an element shows, is declared in it. -/
theorem declares_of_merge (hbook : setting.book = RuleBook.builtin .ios)
    (hoverrides : setting.options.overrides = SortedMap.empty)
    (hresolve : raw.resolve = .ok setting.resources)
    (h : Compilation.ofElement setting file root = .ok primary) (others : List (Compilation α)) :
    ∃ skeleton, Shows (primary.merge others) setting.resources skeleton ∧
      Closed (documentOf (primary.merge others) setting.resources skeleton)
        (viewElement (primary.merge others).tree skeleton).tags := by
  have hgoverns := governs_backed hbook hoverrides hresolve
  obtain ⟨skeleton, hshows⟩ := exists_shows_merge h others setting.resources
  refine ⟨skeleton, hshows, .of_respects hshows ?_⟩
  rw [Compilation.tree_merge]
  exact (Compilation.respects_of_ofElement hgoverns h).mono
    (hgoverns.mono _ _ (usesMore_merge primary others))

end InterfaceDocument

namespace Sample

open Compilation InterfaceDocument

/-- A color and an image. -/
def branding : RawResources ℚ :=
  { colors := SortedMap.ofList [("accent", "#FF0000")]
    drawables := SortedMap.ofList [("logo", .image "logo.png")] }

/-- The rules of the platform, with resources. -/
def platform (resources : ResourceTable ℚ) : Setting ℚ :=
  { book := RuleBook.builtin .ios, resources, options := {} }

/-- An image in a color. -/
def badge : Element :=
  { tag := "ImageView"
    attributes := SortedMap.ofList
      [("android:src", "@drawable/logo"), ("android:tint", "@color/accent")] }

theorem declares_of_badge : ∃ (table : ResourceTable ℚ) (primary variant : Compilation ℚ),
    branding.resolve = .ok table ∧ ofElement (platform table) file badge = .ok primary ∧
    ofElement (platform table) file { tag := "Space" } = .ok variant ∧
    ∃ skeleton, Shows (primary.merge [variant]) table skeleton ∧
      Closed (documentOf (primary.merge [variant]) table skeleton)
        (viewElement (primary.merge [variant]).tree skeleton).tags ∧
      Declares (documentOf (primary.merge [variant]) table skeleton) "image" "logo" ∧
      Declares (documentOf (primary.merge [variant]) table skeleton) "namedColor" "accent" := by
  have hrun : (do
      let table ← branding.resolve
      let primary ← ofElement (platform table) file badge
      let variant ← ofElement (platform table) file { tag := "Space" }
      pure (table, primary, variant)).toOption.any
        (fun r : ResourceTable ℚ × Compilation ℚ × Compilation ℚ =>
          decide (1 < r.2.1.tree.size ∧ ("image", "logo") ∈ (r.2.1.tree.node 0).attributes ∧
            (r.2.1.tree.node 1).name = "color" ∧
            ("name", "accent") ∈ (r.2.1.tree.node 1).attributes)) = true := by
    decide +kernel
  obtain ⟨⟨table, primary, variant⟩, hok, hwritten⟩ := exists_ok hrun
  obtain ⟨_, hresolve, hok⟩ := bind_eq_ok_iff.1 hok
  obtain ⟨_, hprimary, hok⟩ := bind_eq_ok_iff.1 hok
  obtain ⟨_, hvariant, hok⟩ := bind_eq_ok_iff.1 hok
  cases hok
  obtain ⟨hsize, hlogo, hcolor, haccent⟩ := of_decide_eq_true hwritten
  obtain ⟨skeleton, hshows, hclosed⟩ := declares_of_merge (show (platform table).book = _ from rfl)
    rfl hresolve hprimary [variant]
  -- the image is that of the root, and the color is one of its children
  have hroot : tagOf ((primary.merge [variant]).tree.node 0) ∈
      (viewElement (primary.merge [variant]).tree skeleton).tags :=
    (mem_tags_viewElement hshows).2
      ⟨0, by rw [tree_merge]; exact Nat.zero_lt_of_lt hsize, Or.inl rfl⟩
  have hchild : tagOf ((primary.merge [variant]).tree.node 1) ∈
      (viewElement (primary.merge [variant]).tree skeleton).tags :=
    (mem_tags_viewElement hshows).2 ⟨1, by rw [tree_merge]; exact hsize, Or.inl rfl⟩
  rw [tree_merge] at hroot hchild
  unfold tagOf at hroot hchild
  rw [hcolor] at hchild
  exact ⟨table, primary, variant, hresolve, hprimary, hvariant, skeleton, hshows, hclosed,
    hclosed.image _ _ (by rwa [tree_merge]) "logo" (List.mem_append_right _ hlogo),
    hclosed.color _ (by rwa [tree_merge]) "accent" (List.mem_append_right _ haccent)⟩

end Sample

end LayoutCompiler
